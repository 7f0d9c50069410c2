import TypeRecovery.Ty.Basic

/- How one type stands to another. Narrower means more specific: a subclass, a lower primitive, a
   placeholder with fewer kinds, or any known type against a placeholder that admits it. Classes are
   related by an oracle that may be absent or incomplete. -/
namespace TypeRecovery

/-- The relation of a first type to a second. -/
inductive Relation where
  | equal
  | narrow
  /-- Narrower by type arguments only. -/
  | narrowByArgs
  | wider
  | widerByArgs
  | conflict
  | conflictByArgs
  /-- The class hierarchy cannot tell. -/
  | undetermined
deriving DecidableEq, Repr, Inhabited

namespace Relation

def all : List Relation :=
  [equal, narrow, narrowByArgs, wider, widerByArgs, conflict, conflictByArgs, undetermined]

def name : Relation → String
  | equal => "EQUAL" | narrow => "NARROW" | narrowByArgs => "NARROW_BY_GENERIC"
  | wider => "WIDER" | widerByArgs => "WIDER_BY_GENERIC" | conflict => "CONFLICT"
  | conflictByArgs => "CONFLICT_BY_GENERIC" | undetermined => "UNKNOWN"

/-- The relation seen from the other side. -/
def invert : Relation → Relation
  | narrow => wider
  | wider => narrow
  | narrowByArgs => widerByArgs
  | widerByArgs => narrowByArgs
  | r => r

def isEqual (r : Relation) : Bool := r == equal
def isNarrow (r : Relation) : Bool := r == narrow || r == narrowByArgs
def isWider (r : Relation) : Bool := r == wider || r == widerByArgs
def isNarrowOrEqual (r : Relation) : Bool := r.isEqual || r.isNarrow
def isWiderOrEqual (r : Relation) : Bool := r.isEqual || r.isWider
def isConflict (r : Relation) : Bool := r == conflict || r == conflictByArgs

/-- Narrower sorts higher; conflicting types lie below each other. -/
def order : Relation → Int
  | conflict | conflictByArgs => -2
  | wider | widerByArgs => -1
  | narrow | narrowByArgs => 1
  | equal | undetermined => 0

@[simp] theorem invert_invert (r : Relation) : r.invert.invert = r := by cases r <;> rfl

end Relation

/-- What comparing and merging need to know of classes. -/
structure ClassOracle where
  declared : String → Bool
  /-- The first class is the second or below it. -/
  instanceOf : String → String → Bool
  /-- The nearest common superclass, if one is known. -/
  commonAncestor : String → String → Option String

namespace Ty

/-- Placeholders compare by inclusion of their kinds, then by how many they have. -/
def compareKinds (ks ls : List Kind) : Relation :=
  let within := ks.all (ls.contains ·)
  let around := ls.all (ks.contains ·)
  if within && !around then .narrow
  else if around && !within then .wider
  else if ls.length < ks.length then .wider
  else if ks.length < ls.length then .narrow
  else .conflict

/-- Different primitives compare by rank. A truth value matches no number, and a character no
    signed type of at most its width. -/
def comparePrims (k l : Kind) : Relation :=
  if k = .boolean || l = .boolean then .conflict
  else if (k = .char && (l = .byte || l = .short)) || (l = .char && (k = .byte || k = .short)) then
    .conflict
  else if l.rank < k.rank then .wider
  else .narrow

/-- An array against a type that is no array, both known or both open. -/
def compareArrayWith : Ty → Relation
  | .hole ks => if ks.contains .array then .narrow else .conflict
  | t => if t.isObjectClass then .narrow else .conflict

/-- A known type against one that is not known. -/
def compareWithOpen (known hole : Ty) : Relation :=
  if hole = anything then .narrow
  else if hole = anyReference && (known.isReference || known.isArray) then .narrow
  else if known.isObjectClass && hole.isArray then .wider
  else if known.kind?.any hole.admits then .narrow
  else .conflict

/-- Classes of different names, or a class and a wildcard. -/
def compareClasses (h : Option ClassOracle) (a b : Ty) : Relation :=
  if a.isObjectClass then .wider
  else if b.isObjectClass then .narrow
  else
    match h with
    | none => .undetermined
    | some o =>
      if o.instanceOf a.className b.className then .narrow
      else if o.instanceOf b.className a.className then .wider
      else if !o.declared a.className || !o.declared b.className then .undetermined
      else .conflict

/-- The bounds that say something: the universal class is none. -/
def properBounds (bounds : List Ty) : List Ty := bounds.filter (!·.isObjectClass)

theorem sizeOf_lt_of_properBounds {bounds rest : List Ty} {t : Ty}
    (h : properBounds bounds = t :: rest) : sizeOf t < sizeOf bounds := by
  have hmem : t ∈ properBounds bounds := by rw [h]; exact List.mem_cons_self
  exact List.sizeOf_lt_of_mem (List.mem_filter.1 hmem).1

mutual
/-- The relation of `a` to `b`. -/
def compare (h : Option ClassOracle) (a b : Ty) : Relation :=
  if a = b then .equal
  else if a.isKnown && !b.isKnown then compareWithOpen a b
  else if !a.isKnown && b.isKnown then (compareWithOpen b a).invert
  else
    match a, b with
    | .array x, .array y => compare h x y
    | .array _, t => compareArrayWith t
    | t, .array _ => (compareArrayWith t).invert
    | .hole ks, .hole ls => compareKinds ks ls
    | .prim k, .prim l => comparePrims k l
    | .hole _, _ | _, .hole _ | .prim _, _ | _, .prim _ => .conflict
    | .var n bs, .var m cs =>
      if n ≠ m then .conflict
      else if properBounds bs = properBounds cs then .equal
      else
        match _hb : properBounds bs, _hc : properBounds cs with
        | [], _ => .wider
        | _, [] => .narrow
        | [x], [y] => compare h x y
        | _, _ => .conflict
    | .var .., .wildcard .free _ | .wildcard .free _, .var .. => .conflict
    | .var _ bs, t =>
      if t.isObjectClass || bs.isEmpty || anyWithin h bs t then .narrowByArgs else .conflict
    | t, .var _ bs =>
      if t.isObjectClass || bs.isEmpty || anyWithin h bs t then .widerByArgs else .conflict
    | .wildcard .free _, .wildcard .. => .wider
    | .wildcard .., .wildcard .free _ => .narrow
    | .wildcard v (some x), .wildcard w (some y) => if v = w then compare h x y else .conflict
    | .wildcard .., .wildcard .. => .conflict
    | .cls n as o, .cls m bs p =>
      if n ≠ m then compareClasses h a b
      else if a.isGeneric && !b.isGeneric then .narrowByArgs
      else if !a.isGeneric && b.isGeneric then .widerByArgs
      else if as.isEmpty || bs.isEmpty then
        match o, p with
        | some x, some y => compare h x y
        | _, _ => .equal
      else if as.length = bs.length then compareArgs h as bs
      else .conflictByArgs
    | .cls .., .wildcard .. | .wildcard .., .cls .. => compareClasses h a b
termination_by sizeOf a + sizeOf b
decreasing_by
  all_goals simp_wf
  all_goals try omega
  have hb := sizeOf_lt_of_properBounds _hb
  have hc := sizeOf_lt_of_properBounds _hc
  omega
/-- Some bound is narrower than or equal to `t`. -/
def anyWithin (h : Option ClassOracle) (bounds : List Ty) (t : Ty) : Bool :=
  match bounds with
  | [] => false
  | b :: bs => (compare h b t).isNarrowOrEqual || anyWithin h bs t
termination_by sizeOf bounds + sizeOf t
/-- The first relation between paired arguments that is not equality. -/
def compareArgs (h : Option ClassOracle) (as bs : List Ty) : Relation :=
  match as, bs with
  | x :: xs, y :: ys =>
    match compare h x y with
    | .equal => compareArgs h xs ys
    | r => r
  | _, _ => .equal
termination_by sizeOf as + sizeOf bs
end

def order (h : Option ClassOracle) (a b : Ty) : Int := (compare h a b).order

/-- The narrowest of the types; an earlier one stays unless a later one is above it. -/
def best? (h : Option ClassOracle) (types : List Ty) : Option Ty :=
  types.foldl (fun best t =>
    match best with
    | none => some t
    | some b => if order h b t < 0 then some t else some b) none

end Ty

end TypeRecovery
