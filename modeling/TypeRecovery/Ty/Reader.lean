import TypeRecovery.Text.Blank
import TypeRecovery.Text.Quoted
import TypeRecovery.Text.Split
import TypeRecovery.Ty.Printer

/- Reading types from text. A name is a placeholder alias, a primitive, a type variable in scope, or
   else a class; a bare `?` is the open placeholder at top level and the free wildcard inside type
   arguments. Blanks between tokens are plain spaces. Every step hands on a strictly shorter rest,
   which is why reading ends. -/
namespace TypeRecovery.Ty

open TypeRecovery.Text

/-- Why a text is no type. -/
inductive ReadProblem where
  | nameExpected
  | argumentEnd
  | kindEnd
  | unknownKind (name : List Char)
  /-- The type ended before the text did. -/
  | unexpected
deriving DecidableEq, Repr

/-- A failed reading and the part of the text from which it could not go on. -/
structure ReadError where
  source : List Char
  rest : List Char
  problem : ReadProblem
deriving DecidableEq, Repr

/-- Where the reading stopped, in bytes. -/
def ReadError.offset (e : ReadError) : Nat := byteLength e.source - byteLength e.rest

def ReadError.reason (e : ReadError) : String :=
  match e.problem with
  | .nameExpected => "type name expected"
  | .argumentEnd => "',' or '>' expected"
  | .kindEnd => "',' or ']' expected"
  | .unknownKind name => "unknown kind " ++ quoted (String.ofList name)
  | .unexpected => "unexpected " ++ quoted (String.ofList e.rest)

def ReadError.message (e : ReadError) : String :=
  s!"type {quoted (String.ofList e.source)} at {e.offset}: {e.reason}"

/-! ## Tokens -/

def skipBlanks (s : List Char) : List Char := s.dropWhile (· == ' ')

/-- What follows the token `c :: tok`, blanks before it skipped. -/
def after? (c : Char) (tok s : List Char) : Option (List Char) :=
  if (c :: tok).isPrefixOf (skipBlanks s) then some ((skipBlanks s).drop (tok.length + 1)) else none

def isNameChar (c : Char) : Bool := c == '.' || c == '$' || c == '_' || c.isAlphanum

/-- The longest name that stands next, possibly empty, and the text after it. -/
def word (s : List Char) : List Char × List Char :=
  ((skipBlanks s).takeWhile isNameChar, (skipBlanks s).dropWhile isNameChar)

/-- The rests that reading `s` may leave. -/
abbrev Shorter (s : List Char) := { r : List Char // r.length < s.length }

theorem length_dropWhile_le (p : Char → Bool) (s : List Char) :
    (s.dropWhile p).length ≤ s.length :=
  (List.dropWhile_sublist p).length_le

theorem length_after? {c : Char} {tok s r : List Char} (h : after? c tok s = some r) :
    r.length < s.length := by
  unfold after? at h
  split at h
  · next hp =>
    have hlen := (List.isPrefixOf_iff_prefix.1 hp).length_le
    have hle := length_dropWhile_le (· == ' ') s
    simp only [Option.some.injEq] at h
    subst h
    simp only [List.length_cons, skipBlanks, List.length_drop] at hlen ⊢
    omega
  · simp at h

theorem length_word {s : List Char} (h : (word s).1 ≠ []) : (word s).2.length < s.length := by
  have hle := length_dropWhile_le (· == ' ') s
  have hsum := congrArg List.length (List.takeWhile_append_dropWhile (p := isNameChar)
    (l := skipBlanks s))
  have hpos := List.length_pos_iff.2 h
  simp only [word, List.length_append, skipBlanks] at *
  omega

/-! ## Placeholders -/

/-- Placeholders with a name of their own. -/
def alias? (name : String) : Option Ty :=
  match name with
  | "unknown" => some anything
  | "unknown_object" => some anyReference
  | "unknown_array" => some (.array anything)
  | "narrow" => some (holeOf [.int, .float, .boolean, .short, .byte, .char, .object, .array])
  | "narrow_numbers" => some (holeOf [.int, .float, .boolean, .short, .byte, .char])
  | "narrow_integral" => some (holeOf [.int, .short, .byte, .char])
  | "wide" => some (holeOf [.long, .double])
  | "int_float" => some (holeOf [.int, .float])
  | "int_boolean" => some (holeOf [.int, .boolean])
  | "byte_boolean" => some (holeOf [.byte, .boolean])
  | _ => none

/-- The primitive of that name; references have no primitive. -/
def primitive? (name : String) : Option Ty :=
  match Kind.ofName? name with
  | some .object | some .array | none => none
  | some k => some (.prim k)

/-- The variable of that name; a later declaration hides an earlier one. -/
def inScope? (scope : List TypeVar) (name : String) : Option TypeVar :=
  scope.reverse.find? (·.name == name)

/-- A name with a meaning of its own, which takes no type arguments. -/
def named? (scope : List TypeVar) (name : String) : Option Ty :=
  alias? name <|> primitive? name <|> (inScope? scope name).map TypeVar.ty

/-! ## Reading -/

/-- A failure, as the problem and the rest at which it arose. -/
abbrev Stop := ReadProblem × List Char

theorem ofName?_empty : Kind.ofName? (String.ofList []) = none := by decide +kernel

/-- The kinds up to the closing bracket. -/
def readKinds (s : List Char) : Except Stop (List Kind × Shorter s) :=
  let rest := (word s).2
  match hk : Kind.ofName? (String.ofList (word s).1) with
  | none => .error (.unknownKind (word s).1, rest)
  | some k =>
    have hw : rest.length < s.length := length_word (by
      intro hnil
      rw [hnil] at hk
      exact nomatch hk.symm.trans ofName?_empty)
    match hend : after? ']' [] rest with
    | some r => .ok ([k], ⟨r, by have := length_after? hend; omega⟩)
    | none =>
      match hcomma : after? ',' [] rest with
      | none => .error (.kindEnd, skipBlanks rest)
      | some r => do
        have hr := length_after? hcomma
        let (ks, r') ← readKinds r
        return (k :: ks, ⟨r'.1, by have := r'.2; omega⟩)
termination_by s.length

/-- Wraps `t` in one array level for each pair of brackets that follows. -/
def readArrays (t : Ty) (s : List Char) : Ty × { r : List Char // r.length ≤ s.length } :=
  match h : after? '[' [']'] s with
  | none => (t, ⟨s, Nat.le_refl _⟩)
  | some r =>
    have hr := length_after? h
    let (t', r') := readArrays (.array t) r
    (t', ⟨r'.1, by have := r'.2; omega⟩)
termination_by s.length

mutual
def readTy (scope : List TypeVar) (nested : Bool) (s : List Char) : Except Stop (Ty × Shorter s) := do
  let (t, r) ← readBase scope nested s
  let (t', r') := readArrays t r.1
  return (t', ⟨r'.1, by have := r.2; have := r'.2; omega⟩)
termination_by 3 * s.length + 1
def readBase (scope : List TypeVar) (nested : Bool) (s : List Char) :
    Except Stop (Ty × Shorter s) :=
  match hq : after? '?' [] s with
  | some r =>
    have hr := length_after? hq
    match he : after? 'e' "xtends".toList r with
    | some r₁ => do
      have h₁ := length_after? he
      let (t, r') ← readTy scope true r₁
      return (.wildcard .upper (some t), ⟨r'.1, Nat.lt_trans r'.2 (Nat.lt_trans h₁ hr)⟩)
    | none =>
      match hs : after? 's' "uper".toList r with
      | some r₁ => do
        have h₁ := length_after? hs
        let (t, r') ← readTy scope true r₁
        return (.wildcard .lower (some t), ⟨r'.1, Nat.lt_trans r'.2 (Nat.lt_trans h₁ hr)⟩)
      | none =>
        match hb : after? '[' [] r, after? '[' [']'] r with
        | some r₁, none => do
          have h₁ := length_after? hb
          let (ks, r') ← readKinds r₁
          return (holeOf ks, ⟨r'.1, Nat.lt_trans r'.2 (Nat.lt_trans h₁ hr)⟩)
        | _, _ => .ok (if nested then .wildcard .free none else anything, ⟨r, hr⟩)
  | none =>
    let name := String.ofList (word s).1
    let rest := (word s).2
    if hn : (word s).1 = [] then .error (.nameExpected, skipBlanks s)
    else
      have hw : rest.length < s.length := length_word hn
      match named? scope name with
      | some t => .ok (t, ⟨rest, hw⟩)
      | none =>
        match ha : after? '<' [] rest with
        | none => .ok (.cls name [] none, ⟨rest, hw⟩)
        | some r => do
          have h₁ := length_after? ha
          let (args, r') ← readArgs scope r
          return (.cls name args none, ⟨r'.1, Nat.lt_trans r'.2 (Nat.lt_trans h₁ hw)⟩)
termination_by 3 * s.length
/-- Type arguments up to the closing bracket. -/
def readArgs (scope : List TypeVar) (s : List Char) : Except Stop (List Ty × Shorter s) := do
  let (t, r) ← readTy scope true s
  have hr := r.2
  match hend : after? '>' [] r.1 with
  | some r' => return ([t], ⟨r', by have := length_after? hend; omega⟩)
  | none =>
    match hcomma : after? ',' [] r.1 with
    | none => throw (.argumentEnd, skipBlanks r.1)
    | some r₁ =>
      have h₁ := length_after? hcomma
      let (ts, r') ← readArgs scope r₁
      return (t :: ts, ⟨r'.1, by have := r'.2; omega⟩)
termination_by 3 * s.length + 2
end

/-- Reads a whole text as a type. -/
def read (scope : List TypeVar) (s : List Char) : Except ReadError Ty :=
  match readTy scope false s with
  | .error (problem, rest) => .error ⟨s, rest, problem⟩
  | .ok (t, r) =>
    match skipBlanks r.1 with
    | [] => .ok t
    | rest => .error ⟨s, rest, .unexpected⟩

def ofText (scope : List TypeVar) (s : String) : Except ReadError Ty := read scope s.toList

end TypeRecovery.Ty

namespace TypeRecovery.TypeVar

open TypeRecovery.Text

inductive ReadError where
  | nameExpected (source : String)
  | bound (error : Ty.ReadError)
deriving DecidableEq, Repr

def ReadError.message : ReadError → String
  | .nameExpected source => s!"type variable {quoted source}: name expected"
  | .bound e => e.message

/-- Reads a declaration: a name, and after ` extends ` its bounds with `&` between them. -/
def ofText (scope : List TypeVar) (s : String) : Except ReadError TypeVar :=
  let declared := trim s.toList
  let (name, bounds) :=
    match cut? " extends ".toList declared with
    | some (name, bounds) => (trim name, (splitAt '&' bounds).map trim)
    | none => (trim declared, [])
  if name = [] then .error (.nameExpected s)
  else
    match bounds.mapM (Ty.read scope) with
    | .error e => .error (.bound e)
    | .ok ts => .ok ⟨String.ofList name, ts⟩

/-- Reads declarations in order, each with the earlier ones in scope. -/
def ofTexts (declarations : List String) : Except ReadError (List TypeVar) :=
  declarations.foldlM (fun scope s => do return scope ++ [← ofText scope s]) []

end TypeRecovery.TypeVar
