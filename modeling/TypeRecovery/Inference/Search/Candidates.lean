import TypeRecovery.Inference.Search.Wheel
import TypeRecovery.Inference.Session

/- The types a search tries for a variable: what its bounds ask for, supertypes of what is assigned,
   subtypes of what is used, and arrays of what is stored; distinct, within the bounds, and not more
   than the limit. -/
namespace TypeRecovery.Inference.Search

/-- The known types of the kinds an open type may have. -/
def expandOpen (t : Ty) : List Ty := t.possibleKinds.map Ty.ofKind

/-- The supertypes of an assigned type. -/
def widerTypes (h : Hierarchy) (t : Ty) : List Ty :=
  if !t.isKnown then expandOpen t
  else if t.isReference then (h.ancestors t.className).map Ty.raw
  else []

/-- The subtypes of a used type. -/
def narrowTypes (h : Hierarchy) (t : Ty) : List Ty :=
  if !t.isKnown then expandOpen t
  else if !t.isReference then []
  else if t.isObjectClass then [Ty.object]
  else (h.implementations t.className).map Ty.raw

/-- A number for the form of a type. -/
def formOf : Ty → Nat
  | .prim _ => 0
  | .cls .. => 1
  | .var .. => 2
  | .wildcard .. => 3
  | .array _ => 4
  | .hole _ => 5

/-- Types of one form that read the same are one candidate. -/
def sameCandidate (a b : Ty) : Bool := formOf a == formOf b && a.text == b.text

/-- The distinct types of the bounds of one side. -/
def sideTypes (c : Context) (g : MethodGraph) (v : VarId) (side : BoundSide) : List Ty :=
  ((g.var v).bounds.filter (·.side == side)).filterMap (boundType? c g g.typeAt) |>.foldl
    (fun ts t => if ts.contains t then ts else ts ++ [t]) []

/-- Arrays of what is stored into the variable. -/
def storedArrays (g : MethodGraph) (v : VarId) : List Ty :=
  (g.var v).uses.filterMap fun s => do
    let i ← (g.site s).owner
    guard ((g.insn i).opcode = .aput)
    let value ← (g.insn i).args[2]?
    guard (g.typeAt value).isKnown
    return .array (g.typeAt value)

/-- All types considered for a variable, in order. -/
def considered (c : Context) (g : MethodGraph) (v : VarId) : List Ty :=
  let assigned := sideTypes c g v .assign
  let used := sideTypes c g v .use
  assigned ++ used ++ assigned.flatMap (widerTypes c.hierarchy) ++
    used.flatMap (narrowTypes c.hierarchy) ++ storedArrays g v

/-- Takes a type into the list of candidates if there is room, it is known and new, and passes the
    bounds. -/
def consider (c : Context) (g : MethodGraph) (bounds : List Bound) (found : List Ty) (t : Ty) :
    Infer (List Ty) := do
  if c.limits.searchCandidates ≤ found.length || !t.isKnown || found.any (sameCandidate t) then
    return found
  note (boundWarnings c g g.typeAt t bounds)
  return if withinBounds c g g.typeAt bounds t then found ++ [t] else found

/-- Moves a type forward past those it goes before; the list is given from its end. -/
def sink (before : Ty → Ty → Bool) (t : Ty) : List Ty → List Ty
  | [] => [t]
  | u :: us => if before t u then u :: sink before t us else t :: u :: us

/-- Puts types in order by plain insertion, which settles the outcome also where `before` is no
    order. -/
def arrange (before : Ty → Ty → Bool) (ts : List Ty) : List Ty :=
  (ts.foldl (fun placed t => sink before t placed) []).reverse

/-- The wheel of a variable. It is settled by a pin, a known type, or a single candidate. -/
def wheelOf (v : VarId) : Infer Wheel := do
  let c ← read
  let g ← theGraph
  let x := g.var v
  match x.pin, x.ty.isKnown with
  | some t, _ => return { var := v, current := t, resolved := true }
  | none, true => return { var := v, current := x.ty, resolved := true }
  | none, false =>
    match ← (considered c g v).foldlM (consider c g x.bounds) [] with
    | [] => throw (.noCandidates (g.varText v) g.fullName)
    | [t] => return { var := v, current := t, resolved := true }
    | ts =>
      let candidates := arrange (fun a b => 0 < Ty.order c.oracle a b) ts
      return { var := v, candidates, current := Ty.anything }

/-- A wheel in one line. -/
def Wheel.text (g : MethodGraph) (w : Wheel) : String :=
  let list := String.intercalate " " (w.candidates.map Ty.text)
  s!"{g.varText w.var} {w.current.text} [{list}]" ++ if w.resolved then " resolved" else ""

/-! ## Constraints -/

def slotOf (g : MethodGraph) (s : SiteId) : Slot := ⟨g.varOf? s, g.typeAt s⟩

/-- The constraint that the instruction of a site puts on it. -/
def constraintAt? (g : MethodGraph) (s : SiteId) : Option Constraint := do
  guard !(g.isPinnedAt s)
  let insn := g.insn (← (g.site s).owner)
  let result ← insn.result
  match insn.opcode with
  | .move =>
    let source ← insn.args.head?
    guard (g.isRegister source)
    return .move (slotOf g result) (slotOf g source) (insn.args.tail.map (slotOf g))
  | .phi => return .phi (slotOf g result) (insn.args.map (slotOf g))
  | _ => none

/-- The constraints at the definition and the uses of a variable. -/
def constraintsOf (g : MethodGraph) (v : VarId) : List Constraint :=
  ((g.var v).assign.toList ++ (g.var v).uses).filterMap (constraintAt? g)

def constrain (g : MethodGraph) (w : Wheel) : Wheel :=
  if w.resolved then w else { w with constraints := constraintsOf g w.var }

end TypeRecovery.Inference.Search
