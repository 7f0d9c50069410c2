import TypeRecovery.Proofs.Ty.Parts

/- What reading a type does on the way. The reader is run a second time with a log of all rests that it
   comes to stand before and of the calls that it makes; `Logs` ties the two together, for results and
   failures alike. A call inside starts further on than the call around it, since a token stands between
   them, and no rest is anything but an end of the text. What is read is `Formed`: brackets behind a
   bounded wildcard are read with its bound, so that none is left for the wildcard. -/
namespace TypeRecovery.Ty

open TypeRecovery.Text

/-! ## The reader with a log -/

/-- What a reader does, one thing after the other. -/
inductive Event where
  /-- It comes to stand before this rest of the text. -/
  | stand (rest : List Char)
  /-- It reads a type from there, and this is what it does for it. -/
  | call (start : List Char) (inner : List Event)

/-- A reader that keeps a log, also where it fails. -/
abbrev Logged := ExceptT Stop (StateM (List Event))

/-- Gives the value, and stands before these rests on the way. -/
def passing {α : Type} (a : α) (rests : List (List Char)) : Logged α := do
  modify (· ++ rests.map .stand)
  return a

/-- Enters what a reader logs as one call. -/
def within {α : Type} (start : List Char) (m : Logged α) : Logged α := ExceptT.mk do
  let log ← get
  set ([] : List Event)
  let x ← m.run
  modify fun inner => log ++ [.call start inner]
  return x

/-- A shorter rest of a shorter rest. -/
def Shorter.of {s : List Char} (r : Shorter s) (r' : Shorter r.1) : Shorter s :=
  ⟨r'.1, Nat.lt_trans r'.2 r.2⟩

/-- A rest of a shorter rest that is not longer than it. -/
def Shorter.upTo {s : List Char} (r : Shorter s) (r' : { x : List Char // x.length ≤ r.1.length }) :
    Shorter s :=
  ⟨r'.1, Nat.lt_of_le_of_lt r'.2 r.2⟩

def Shorter.notLonger {s : List Char} (r : Shorter s) : { x : List Char // x.length ≤ s.length } :=
  ⟨r.1, Nat.le_of_lt r.2⟩

/-- Passes blanks, and the token `c :: tok` if it is there. -/
def token? (c : Char) (tok s : List Char) : Logged (Option (Shorter s)) :=
  match h : after? c tok s with
  | none => passing none [skipBlanks s]
  | some r => passing (some ⟨r, length_after? h⟩) [skipBlanks s, r]

/-- Passes blanks, and a name if there is one. -/
def name? (s : List Char) : Logged (Option (List Char × Shorter s)) :=
  if h : (word s).1 = [] then passing none [skipBlanks s]
  else passing (some ((word s).1, ⟨(word s).2, length_word h⟩)) [skipBlanks s, (word s).2]

theorem length_kindName (s : List Char) (k : Kind)
    (h : Kind.ofName? (String.ofList (word s).1) = some k) : (word s).2.length < s.length := by
  refine length_word fun hnil => ?_
  rw [hnil, ofName?_empty] at h
  cases h

/-- Passes blanks and a word, and gives the kind with that name. -/
def kindName? (s : List Char) : Logged (Option (Kind × Shorter s)) :=
  let kind := (Kind.ofName? (String.ofList (word s).1)).pmap (fun k h => (k, ⟨(word s).2, h⟩))
    (length_kindName s)
  passing kind [skipBlanks s, (word s).2]

def loggedKinds (s : List Char) : Logged (List Kind × Shorter s) := do
  match ← kindName? s with
  | none => throw (.unknownKind (word s).1, (word s).2)
  | some (k, rest) =>
    match ← token? ']' [] rest.1 with
    | some r => return ([k], rest.of r)
    | none =>
      match ← token? ',' [] rest.1 with
      | none => throw (.kindEnd, skipBlanks rest.1)
      | some r =>
        have : r.1.length < s.length := (rest.of r).2
        let (ks, r') ← loggedKinds r.1
        return (k :: ks, (rest.of r).of r')
termination_by s.length

def loggedArrays (t : Ty) (s : List Char) :
    Logged (Ty × { r : List Char // r.length ≤ s.length }) := do
  match ← token? '[' [']'] s with
  | none => return (t, ⟨s, Nat.le_refl _⟩)
  | some r =>
    have := r.2
    let (t', r') ← loggedArrays (.array t) r.1
    return (t', (r.upTo r').notLonger)
termination_by s.length

mutual
def loggedTy (scope : List TypeVar) (nested : Bool) (s : List Char) : Logged (Ty × Shorter s) :=
  within s do
    let (t, r) ← loggedBase scope nested s
    let (t', r') ← loggedArrays t r.1
    return (t', r.upTo r')
termination_by 3 * s.length + 1
def loggedBase (scope : List TypeVar) (nested : Bool) (s : List Char) : Logged (Ty × Shorter s) := do
  match ← token? '?' [] s with
  | some r =>
    match ← token? 'e' "xtends".toList r.1 with
    | some r₁ =>
      have := (r.of r₁).2
      let (t, r') ← loggedTy scope true r₁.1
      return (.wildcard .upper (some t), (r.of r₁).of r')
    | none =>
      match ← token? 's' "uper".toList r.1 with
      | some r₁ =>
        have := (r.of r₁).2
        let (t, r') ← loggedTy scope true r₁.1
        return (.wildcard .lower (some t), (r.of r₁).of r')
      | none =>
        match ← token? '[' [] r.1, after? '[' [']'] r.1 with
        | some r₁, none =>
          let (ks, r') ← loggedKinds r₁.1
          return (holeOf ks, (r.of r₁).of r')
        | _, _ => return (if nested then .wildcard .free none else anything, r)
  | none =>
    match ← name? s with
    | none => throw (.nameExpected, skipBlanks s)
    | some (name, rest) =>
      match named? scope (String.ofList name) with
      | some t => return (t, rest)
      | none =>
        match ← token? '<' [] rest.1 with
        | none => return (.cls (String.ofList name) [] none, rest)
        | some r =>
          have := (rest.of r).2
          let (args, r') ← loggedArgs scope r.1
          return (.cls (String.ofList name) args none, (rest.of r).of r')
termination_by 3 * s.length
def loggedArgs (scope : List TypeVar) (s : List Char) : Logged (List Ty × Shorter s) := do
  let (t, r) ← loggedTy scope true s
  match ← token? '>' [] r.1 with
  | some r' => return ([t], r.of r')
  | none =>
    match ← token? ',' [] r.1 with
    | none => throw (.argumentEnd, skipBlanks r.1)
    | some r₁ =>
      have := (r.of r₁).2
      let (ts, r') ← loggedArgs scope r₁.1
      return (t :: ts, (r.of r₁).of r')
termination_by 3 * s.length + 2
end

/-! ## What may be in a log -/

/-- How far into the text a rest starts, in bytes. -/
def position (source rest : List Char) : Nat := byteLength source - byteLength rest

/-- What a reader may do in a call from `s`: stand before an end of the text, and make calls from further
    on, in which it keeps to the same. -/
inductive Inside (source : List Char) : List Char → Event → Prop where
  | stand {s rest : List Char} : rest <:+ source → Inside source s (.stand rest)
  | call {s rest : List Char} {inner : List Event} : rest <:+ source →
      position source s < position source rest → (∀ e ∈ inner, Inside source rest e) →
      Inside source s (.call rest inner)

/-- Within a call from `s`, the reader comes to `x` and only adds to the log; where it fails, it stands
    before an end of the text. -/
structure Logs {α : Type} (source s : List Char) (m : Logged α) (x : Except Stop α) (Q : α → Prop) :
    Prop where
  run : ∀ log, ∃ events, m.run.run log = (x, log ++ events) ∧ ∀ e ∈ events, Inside source s e
  error : ∀ e, x = .error e → e.2 <:+ source
  result : ∀ a, x = .ok a → Q a

/-- The same of a reader that is one call from `s` itself. -/
structure Calls {α : Type} (source s : List Char) (m : Logged α) (x : Except Stop α) (Q : α → Prop) :
    Prop where
  run : ∀ log, ∃ inner, m.run.run log = (x, log ++ [.call s inner]) ∧ ∀ e ∈ inner, Inside source s e
  error : ∀ e, x = .error e → e.2 <:+ source
  result : ∀ a, x = .ok a → Q a

theorem byteLength_foldl (s : List Char) (n : Nat) :
    s.foldl (fun n c => n + c.utf8Size) n = n + byteLength s := by
  induction s generalizing n with
  | nil => rfl
  | cons c s ih =>
    rw [byteLength, List.foldl_cons, List.foldl_cons, ih, ih (0 + c.utf8Size)]
    omega

theorem byteLength_append (s r : List Char) : byteLength (s ++ r) = byteLength s + byteLength r := by
  rw [byteLength, List.foldl_append, byteLength_foldl]
  rfl

theorem position_lt {source r s : List Char} (hr : r <:+ source) (hs : s <:+ source)
    (hlt : r.length < s.length) : position source s < position source r := by
  obtain ⟨front, rfl⟩ := List.suffix_of_suffix_length_le hr hs (Nat.le_of_lt hlt)
  obtain ⟨before, rfl⟩ := hs
  have hfront : 0 < byteLength front := by
    cases front with
    | nil => exact absurd hlt (Nat.lt_irrefl _)
    | cons c front =>
      have hpos := c.utf8Size_pos
      rw [byteLength, List.foldl_cons, byteLength_foldl]
      omega
  simp only [position, byteLength_append]
  omega

theorem suffix_skipBlanks (s : List Char) : skipBlanks s <:+ s := List.dropWhile_suffix _

theorem suffix_after? {c : Char} {tok s r : List Char} (h : after? c tok s = some r) : r <:+ s := by
  unfold after? at h
  split at h
  · cases h
    exact (List.drop_suffix _ _).trans (suffix_skipBlanks s)
  · cases h

theorem suffix_word (s : List Char) : (word s).2 <:+ s :=
  (List.dropWhile_suffix _).trans (suffix_skipBlanks s)

namespace Logs

variable {α β : Type} {source s s₀ : List Char} {Q : α → Prop} {R : β → Prop}

theorem pure' {a : α} (h : Q a) : Logs source s (pure a) (.ok a) Q := by
  refine ⟨fun log => ⟨[], ?_, fun _ h => by cases h⟩, fun e he => (by cases he), fun b hb => ?_⟩
  · rw [List.append_nil]
    rfl
  · cases hb
    exact h

theorem throw' {e : Stop} (h : e.2 <:+ source) : Logs source s (throw e : Logged α) (.error e) Q := by
  refine ⟨fun log => ⟨[], ?_, fun _ h => by cases h⟩, fun e' he => ?_, fun b hb => by cases hb⟩
  · rw [List.append_nil]
    rfl
  · cases he
    exact h

theorem bind' {m : Logged α} {x : Except Stop α} {f : α → Logged β} {g : α → Except Stop β}
    (hm : Logs source s m x Q) (hf : ∀ a, Q a → Logs source s (f a) (g a) R) :
    Logs source s (m >>= f) (x >>= g) R := by
  cases x with
  | error e =>
    refine ⟨fun log => ?_, fun e' he => ?_, fun b hb => by cases hb⟩
    · obtain ⟨events, hrun, hevents⟩ := hm.run log
      refine ⟨events, ?_, hevents⟩
      rw [ExceptT.run_bind, StateT.run_bind, hrun]
      rfl
    · cases he
      exact hm.error e rfl
  | ok a =>
    have h := hf a (hm.result a rfl)
    refine ⟨fun log => ?_, h.error, h.result⟩
    obtain ⟨events, hrun, hevents⟩ := hm.run log
    obtain ⟨events', hrun', hevents'⟩ := h.run (log ++ events)
    refine ⟨events ++ events', ?_, fun e he => ?_⟩
    · rw [ExceptT.run_bind, StateT.run_bind, hrun, ← List.append_assoc]
      exact hrun'
    · exact (List.mem_append.mp he).elim (hevents e) (hevents' e)

theorem within' {m : Logged α} {x : Except Stop α} (h : Logs source s m x Q) :
    Calls source s (within s m) x Q := by
  refine ⟨fun log => ?_, h.error, h.result⟩
  obtain ⟨inner, hrun, hinner⟩ := h.run []
  refine ⟨inner, ?_, hinner⟩
  have hwithin : (within s m).run.run log =
      ((m.run.run []).1, log ++ [.call s (m.run.run []).2]) := rfl
  rw [hwithin, hrun]
  rfl

/-- A call from further on is something that happens within a call. -/
theorem of_calls {m : Logged α} {x : Except Stop α} (h : Calls source s m x Q) (hs : s <:+ source)
    (hlt : position source s₀ < position source s) : Logs source s₀ m x Q := by
  refine ⟨fun log => ?_, h.error, h.result⟩
  obtain ⟨inner, hrun, hinner⟩ := h.run log
  refine ⟨[.call s inner], hrun, fun e he => ?_⟩
  rw [List.mem_singleton.mp he]
  exact .call hs hlt hinner

/-- Passing rests changes nothing but the log. -/
theorem passing' {a : α} {rests : List (List Char)} {f : α → Logged β} {x : Except Stop β}
    (hrests : ∀ r ∈ rests, r <:+ source) (hf : Logs source s (f a) x R) :
    Logs source s (passing a rests >>= f) x R := by
  have hpass : Logs source s (passing a rests) (.ok a) (· = a) := by
    refine ⟨fun log => ⟨rests.map .stand, rfl, fun e he => ?_⟩, fun e he => (by cases he), fun b hb => ?_⟩
    · obtain ⟨r, hr, rfl⟩ := List.mem_map.mp he
      exact .stand (hrests r hr)
    · cases hb
      rfl
  exact bind' (g := fun _ => x) hpass fun _ h => h ▸ hf

/-- Blanks passed, and nothing behind them. -/
theorem blanks' {a : α} {f : α → Logged β} {x : Except Stop β} (hs : s <:+ source)
    (hf : Logs source s₀ (f a) x R) :
    Logs source s₀ (passing a [skipBlanks s] >>= f) x R := by
  refine passing' (fun r hr => ?_) hf
  rw [List.mem_singleton.mp hr]
  exact (suffix_skipBlanks s).trans hs

/-- Blanks passed, and what stood up to `rest`. -/
theorem upTo' {a : α} {rest : List Char} {f : α → Logged β} {x : Except Stop β} (hs : s <:+ source)
    (hrest : rest <:+ source) (hf : Logs source s₀ (f a) x R) :
    Logs source s₀ (passing a [skipBlanks s, rest] >>= f) x R := by
  refine passing' (fun r hr => ?_) hf
  rw [List.mem_cons, List.mem_singleton] at hr
  rcases hr with rfl | rfl
  · exact (suffix_skipBlanks s).trans hs
  · exact hrest

end Logs

/-! ## The readers, one by one -/

section
variable {α : Type} {Q : α → Prop} {scope : List TypeVar} {source s s₀ r : List Char}
  {c : Char} {tok : List Char} {x : Except Stop α}

theorem Logs.token_none {f : Option (Shorter s) → Logged α} (hs : s <:+ source)
    (h : after? c tok s = none) (hf : Logs source s₀ (f none) x Q) :
    Logs source s₀ (token? c tok s >>= f) x Q := by
  have htoken : token? c tok s = passing none [skipBlanks s] := by
    unfold token?
    split
    · rfl
    · next h' => cases h.symm.trans h'
  rw [htoken]
  exact .blanks' hs hf

theorem Logs.token_some {f : Option (Shorter s) → Logged α} (hs : s <:+ source)
    (h : after? c tok s = some r)
    (hf : Logs source s₀ (f (some ⟨r, length_after? h⟩)) x Q) :
    Logs source s₀ (token? c tok s >>= f) x Q := by
  have htoken : token? c tok s = passing (some ⟨r, length_after? h⟩) [skipBlanks s, r] := by
    unfold token?
    split
    · next h' => cases h.symm.trans h'
    · next r' h' =>
      obtain rfl : r = r' := Option.some.inj (h.symm.trans h')
      rfl
  rw [htoken]
  exact .upTo' hs ((suffix_after? h).trans hs) hf

theorem Logs.kind_none {f : Option (Kind × Shorter s) → Logged α} (hs : s <:+ source)
    (h : Kind.ofName? (String.ofList (word s).1) = none) (hf : Logs source s₀ (f none) x Q) :
    Logs source s₀ (kindName? s >>= f) x Q := by
  have hkind : kindName? s = passing none [skipBlanks s, (word s).2] :=
    congrArg (passing · _) (Option.pmap_eq_none_iff.mpr h)
  rw [hkind]
  exact .upTo' hs ((suffix_word s).trans hs) hf

theorem Logs.kind_some {f : Option (Kind × Shorter s) → Logged α} {k : Kind} (hs : s <:+ source)
    (h : Kind.ofName? (String.ofList (word s).1) = some k)
    (hf : Logs source s₀ (f (some (k, ⟨(word s).2, length_kindName s k h⟩))) x Q) :
    Logs source s₀ (kindName? s >>= f) x Q := by
  have hkind : kindName? s = passing (some (k, ⟨(word s).2, length_kindName s k h⟩))
      [skipBlanks s, (word s).2] :=
    congrArg (passing · _) (Option.pmap_eq_some_iff.mpr ⟨k, _, h, rfl⟩)
  rw [hkind]
  exact .upTo' hs ((suffix_word s).trans hs) hf

theorem logs_kinds (s : List Char) (hs : s <:+ source) :
    Logs source s₀ (loggedKinds s) (readKinds s)
      fun p => p.2.1 <:+ source ∧ p.1 ≠ [] := by
  rw [loggedKinds, readKinds]
  have hrest := (suffix_word s).trans hs
  split
  · next hk => exact .kind_none hs hk (.throw' hrest)
  · next k hk =>
    refine .kind_some hs hk ?_
    dsimp only
    split
    · next r hend =>
      have hr := (suffix_after? hend).trans hrest
      exact .token_some hrest hend (.pure' ⟨hr, List.cons_ne_nil _ _⟩)
    · next hend =>
      refine .token_none hrest hend ?_
      dsimp only
      split
      · next hcomma => exact .token_none hrest hcomma (.throw' ((suffix_skipBlanks _).trans hrest))
      · next r hcomma =>
        refine .token_some hrest hcomma ?_
        have hr := (suffix_after? hcomma).trans hrest
        have hlt : r.length < s.length :=
          Nat.lt_trans (length_after? hcomma) (length_kindName s k hk)
        exact .bind' (logs_kinds r hr) fun p hp => .pure' ⟨hp.1, List.cons_ne_nil _ _⟩
termination_by s.length

/-- No brackets follow that make an array. -/
def Spent (s : List Char) : Prop := after? '[' [']'] s = none

theorem logs_arrays (t : Ty) (s : List Char) (hs : s <:+ source) (ht : Formed scope t)
    (hspent : t.isBounded = true → Spent s) :
    Logs source s₀ (loggedArrays t s) (.ok (readArrays t s))
      fun p => p.2.1 <:+ source ∧ Formed scope p.1 ∧ Spent p.2.1 := by
  rw [loggedArrays, readArrays]
  split
  · next h => exact .token_none hs h (.pure' ⟨hs, ht, h⟩)
  · next r h =>
    refine .token_some hs h ?_
    have hlt := length_after? h
    have hbound : t.isBounded = false := by
      refine Bool.eq_false_iff.mpr fun hbound => ?_
      cases h.symm.trans (hspent hbound)
    have hr := (suffix_after? h).trans hs
    exact .bind' (logs_arrays (.array t) r hr (.array ht hbound) fun h => by cases h) fun p hp => .pure' hp
termination_by s.length

/-- A reading from `s` is one call in the log; it gives a formed type and leaves no brackets. -/
def TyLogs (scope : List TypeVar) (source s : List Char) : Prop :=
  ∀ nested, Calls source s (loggedTy scope nested s) (readTy scope nested s)
    fun p => p.2.1 <:+ source ∧ Formed scope p.1 ∧ Spent p.2.1

/-- Before its brackets, a bounded wildcard leaves none. -/
def BaseLogs (scope : List TypeVar) (source s : List Char) : Prop :=
  ∀ nested, Logs source s (loggedBase scope nested s) (readBase scope nested s)
    fun p => p.2.1 <:+ source ∧ Formed scope p.1 ∧ (p.1.isBounded = true → Spent p.2.1)

/-- Arguments are read for a call from before them. -/
def ArgsLogs (scope : List TypeVar) (source s : List Char) : Prop :=
  ∀ s₀, position source s₀ < position source s →
    Logs source s₀ (loggedArgs scope s) (readArgs scope s)
      fun p => p.2.1 <:+ source ∧ ∀ t ∈ p.1, Formed scope t

theorem logs_base (hs : s <:+ source)
    (hty : ∀ r, r <:+ source → r.length < s.length → TyLogs scope source r)
    (hargs : ∀ r, r <:+ source → r.length < s.length → ArgsLogs scope source r) :
    BaseLogs scope source s := by
  intro nested
  have hbare : Formed scope (if nested then .wildcard .free none else anything) ∧
      (if nested then .wildcard .free none else anything : Ty).isBounded = false := by
    cases nested with
    | false => exact ⟨formed_anything, rfl⟩
    | true => exact ⟨.free, rfl⟩
  rw [loggedBase, readBase]
  generalize (if nested then .wildcard .free none else anything : Ty) = bare at hbare
  split
  · next r hq =>
    refine .token_some hs hq ?_
    have hr := (suffix_after? hq).trans hs
    have hrlt := length_after? hq
    have hinner {c : Char} {tok r₁ : List Char} (h : after? c tok r = some r₁) :
        Logs source s (loggedTy scope true r₁) (readTy scope true r₁)
          fun p => p.2.1 <:+ source ∧ Formed scope p.1 ∧ Spent p.2.1 := by
      have h₁ := (suffix_after? h).trans hr
      have hlt := Nat.lt_trans (length_after? h) hrlt
      exact .of_calls (hty r₁ h₁ hlt true) h₁ (position_lt h₁ hs hlt)
    dsimp only
    split
    · next r₁ hupper =>
      refine .token_some hr hupper ?_
      exact .bind' (hinner hupper) fun p hp =>
        .pure' ⟨hp.1, .bounded (by decide) hp.2.1, fun _ => hp.2.2⟩
    · next hupper =>
      refine .token_none hr hupper ?_
      dsimp only
      split
      · next r₁ hlower =>
        refine .token_some hr hlower ?_
        exact .bind' (hinner hlower) fun p hp =>
          .pure' ⟨hp.1, .bounded (by decide) hp.2.1, fun _ => hp.2.2⟩
      · next hlower =>
        refine .token_none hr hlower ?_
        dsimp only
        split
        · next r₁ hopen hpair =>
          refine .token_some hr hopen ?_
          simp only [hpair]
          exact .bind' (logs_kinds r₁ ((suffix_after? hopen).trans hr)) fun p hp =>
            .pure' ⟨hp.1, formed_holeOf hp.2, fun h => by cases h⟩
        · next hbracket =>
          have hlogs : Logs source s (pure (bare, ⟨r, hrlt⟩)) (.ok (bare, ⟨r, hrlt⟩))
              fun p : Ty × Shorter s =>
                p.2.1 <:+ source ∧ Formed scope p.1 ∧ (p.1.isBounded = true → Spent p.2.1) :=
            .pure' ⟨hr, hbare.1, fun h => by simp [hbare.2] at h⟩
          cases hopen : after? '[' [] r with
          | none => exact .token_none hr hopen hlogs
          | some r₁ =>
            refine .token_some hr hopen ?_
            cases hpair : after? '[' [']'] r with
            | none => exact (hbracket r₁ hopen hpair).elim
            | some _ => exact hlogs
  · next hq =>
    refine .token_none hs hq ?_
    have hrest := (suffix_word s).trans hs
    dsimp only
    split
    · next hn =>
      rw [name?, dif_pos hn]
      exact .blanks' hs (.throw' ((suffix_skipBlanks s).trans hs))
    · next hn =>
      rw [name?, dif_neg hn]
      refine .upTo' hs hrest ?_
      dsimp only
      cases hname : named? scope (String.ofList (word s).1) with
      | some t =>
        obtain ⟨ht, hfree⟩ := formed_named? hname
        exact .pure' ⟨hrest, ht, fun h => by simp [hfree] at h⟩
      | none =>
        dsimp only
        split
        · next hargs =>
          exact .token_none hrest hargs
            (.pure' ⟨hrest, .cls (fun _ h => by cases h), fun h => by cases h⟩)
        · next r hopen =>
          refine .token_some hrest hopen ?_
          have hr := (suffix_after? hopen).trans hrest
          have hlt := Nat.lt_trans (length_after? hopen) (length_word hn)
          exact .bind' (hargs r hr hlt s (position_lt hr hs hlt)) fun p hp =>
            .pure' ⟨hp.1, .cls hp.2, fun h => by cases h⟩

theorem logs_ty (hbase : BaseLogs scope source s) : TyLogs scope source s := by
  intro nested
  rw [loggedTy, readTy]
  refine Logs.within' (.bind' (hbase nested) fun p hp => ?_)
  obtain ⟨t, r⟩ := p
  obtain ⟨hr, ht, hspent⟩ := hp
  exact .bind' (x := .ok (readArrays t r.1)) (logs_arrays t r.1 hr ht hspent) fun p hp => .pure' hp

theorem logs_args (hs : s <:+ source) (hty : TyLogs scope source s)
    (hargs : ∀ r, r <:+ source → r.length < s.length → ArgsLogs scope source r) :
    ArgsLogs scope source s := by
  intro s₀ hlt
  rw [loggedArgs, readArgs]
  refine .bind' (.of_calls (hty true) hs hlt) fun p hp => ?_
  obtain ⟨t, r, hrlt⟩ := p
  obtain ⟨hr, ht, -⟩ := hp
  dsimp only
  split
  · next r' hend =>
    refine .token_some hr hend (.pure' ⟨(suffix_after? hend).trans hr, fun u hu => ?_⟩)
    rw [List.mem_singleton.mp hu]
    exact ht
  · next hend =>
    refine .token_none hr hend ?_
    dsimp only
    split
    · next hcomma => exact .token_none hr hcomma (.throw' ((suffix_skipBlanks r).trans hr))
    · next r₁ hcomma =>
      refine .token_some hr hcomma ?_
      have h₁ := (suffix_after? hcomma).trans hr
      have hlt₁ := Nat.lt_trans (length_after? hcomma) hrlt
      have hfar := Nat.lt_trans hlt (position_lt h₁ hs hlt₁)
      refine .bind' (hargs r₁ h₁ hlt₁ s₀ hfar) fun p hp => .pure' ⟨hp.1, fun u hu => ?_⟩
      rcases List.mem_cons.mp hu with rfl | hu
      · exact ht
      · exact hp.2 u hu

/-- By induction on the length of the rest: what is read from there relies on shorter rests only. -/
theorem logs_from (s : List Char) (hs : s <:+ source) :
    TyLogs scope source s ∧ ArgsLogs scope source s := by
  induction hn : s.length using Nat.strongRecOn generalizing s with
  | ind n ih =>
    subst hn
    have hshort (r : List Char) (hr : r <:+ source) (hlt : r.length < s.length) :=
      ih r.length hlt r hr rfl
    have hbase : BaseLogs scope source s :=
      logs_base hs (fun r hr hlt => (hshort r hr hlt).1) fun r hr hlt => (hshort r hr hlt).2
    exact ⟨logs_ty hbase, logs_args hs (logs_ty hbase) fun r hr hlt => (hshort r hr hlt).2⟩

end

/-! ## Whole texts -/

theorem logs_text (scope : List TypeVar) (s : List Char) :
    Calls s s (loggedTy scope false s) (readTy scope false s)
      fun p => p.2.1 <:+ s ∧ Formed scope p.1 ∧ Spent p.2.1 :=
  (logs_from s List.suffix_rfl).1 false

theorem suffix_of_read {scope : List TypeVar} {s : List Char} {e : ReadError}
    (h : read scope s = .error e) : e.source = s ∧ e.rest <:+ s := by
  have hlogs := logs_text scope s
  unfold read at h
  split at h
  · next problem rest hstop =>
    cases h
    exact ⟨rfl, hlogs.error _ hstop⟩
  · next t r hread =>
    have hr := (hlogs.result _ hread).1
    split at h
    · cases h
    · cases h
      exact ⟨rfl, (suffix_skipBlanks r.1).trans hr⟩

theorem formed_of_read {scope : List TypeVar} {s : List Char} {t : Ty} (h : read scope s = .ok t) :
    Formed scope t := by
  have hlogs := logs_text scope s
  unfold read at h
  split at h
  · cases h
  · next u r hread =>
    have hu := (hlogs.result _ hread).2.1
    split at h
    · cases h
      exact hu
    · cases h

/-- Reading any text comes to an end and keeps within the text: run with a log, it gives the same and is
    one call in which all calls start further on than the one around them, and all rests are ends of the
    text, as is the rest at which it fails. With well-formed variables in scope, what is read is well
    formed, and an array of a bounded wildcard is there in a bound of such a variable only. -/
theorem reading_stays_inside (scope : List TypeVar)
    (hscope : ∀ v ∈ scope, ∀ b ∈ v.bounds, b.WellFormed) (s : String) :
    (∃ inner, (loggedTy scope false s.toList).run.run [] =
        (readTy scope false s.toList, [.call s.toList inner]) ∧
      ∀ e ∈ inner, Inside s.toList s.toList e) ∧
    (∀ e, ofText scope s = .error e → e.source = s.toList ∧ e.rest <:+ s.toList) ∧
    ∀ t, ofText scope s = .ok t → t.WellFormed ∧
      ∀ v inner, v ≠ .free → Part (.array (.wildcard v inner)) t →
        InBound scope (.array (.wildcard v inner)) := by
  refine ⟨?_, fun e he => suffix_of_read he, fun t ht => ?_⟩
  · exact (logs_text scope s.toList).run []
  · have hformed := formed_of_read ht
    exact ⟨hformed.wellFormed hscope, fun v inner hv hpart => hformed.inBound_of_bounded hv hpart⟩

/-- With `T` in scope, whose bound is an array of bounded wildcards. -/
theorem reading_stays_inside_at_bounds :
    let bound : Ty := .array (.wildcard .upper (some (.cls "a.B" [] none)))
    let scope : List TypeVar := [⟨"T", [bound]⟩]
    let s := "a.C<? super T[], ?[float, int]>[]"
    let t : Ty := .array (.cls "a.C"
      [.wildcard .lower (some (.array (.var "T" [bound]))), .hole [.int, .float]] none)
    (∀ v ∈ scope, ∀ b ∈ v.bounds, b.WellFormed) ∧ ofText scope s = .ok t ∧
      (∃ inner, (loggedTy scope false s.toList).run.run [] =
        (readTy scope false s.toList, [.call s.toList inner]) ∧ ∀ e ∈ inner, Inside s.toList s.toList e) ∧
      t.WellFormed ∧ Part bound t ∧ InBound scope bound := by
  intro bound scope s t
  have hscope : ∀ v ∈ scope, ∀ b ∈ v.bounds, b.WellFormed := by
    intro v hv b hb
    rw [List.mem_singleton.mp hv, List.mem_singleton] at hb
    have helem : Formed [] (.wildcard .upper (some (.cls "a.B" [] none))) :=
      .bounded (by decide) (.cls fun _ h => by cases h)
    rw [hb]
    exact (helem.wellFormed fun _ h => by cases h).array
  have hread : ofText scope s = .ok t := by
    have hsome : (ofText scope s).toOption = some t := by decide +kernel
    cases h : ofText scope s with
    | error e => rw [h] at hsome; cases hsome
    | ok u => rw [h] at hsome; cases hsome; rfl
  have hpart : Part bound t :=
    .elem (.arg List.mem_cons_self (.inner (.elem (.bound List.mem_cons_self .refl))))
  obtain ⟨hrun, -, hwell⟩ := reading_stays_inside scope hscope s
  exact ⟨hscope, hread, hrun, (hwell t hread).1, hpart,
    (hwell t hread).2 .upper _ (by decide) hpart⟩

end TypeRecovery.Ty
