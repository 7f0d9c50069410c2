import TypeRecovery.Inference.Context

/- Search over candidate types. Every open variable is a wheel that shows one of its candidates; the
   wheels turn like an odometer, the first one fastest, until all moves and phis agree with the types
   shown or the limit of turns is reached. -/
namespace TypeRecovery.Inference.Search

/-- A site as the search sees it: the type its wheel shows or, without a wheel, its own. -/
structure Slot where
  var : Option VarId
  type : Ty
deriving DecidableEq, Repr, Inhabited

def Slot.shown (types : VarId → Option Ty) (s : Slot) : Ty := (s.var.bind types).getD s.type

inductive Constraint where
  /-- The result is equal to or wider than the source. Further operands only count as related. -/
  | move (result source : Slot) (others : List Slot)
  /-- The result and all inputs have one type. -/
  | phi (result : Slot) (inputs : List Slot)
deriving DecidableEq, Repr

namespace Constraint

def slots : Constraint → List Slot
  | move result source others => result :: source :: others
  | phi result inputs => result :: inputs

def holds (o : Option ClassOracle) (types : VarId → Option Ty) : Constraint → Bool
  | move result source _ => (Ty.compare o (result.shown types) (source.shown types)).isWiderOrEqual
  | phi result inputs => inputs.all fun s => s.shown types == result.shown types

/-- Reads the slots of settled variables once and for all. -/
def freeze (types : VarId → Option Ty) : Constraint → Constraint
  | move result source others => move (slot result) (slot source) (others.map slot)
  | phi result inputs => phi (slot result) (inputs.map slot)
where
  slot (s : Slot) : Slot :=
    match s.var.bind types with
    | some t => ⟨none, t⟩
    | none => s

end Constraint

structure Wheel where
  var : VarId
  candidates : List Ty := []
  /-- Which candidate is shown. -/
  cursor : Nat := 0
  current : Ty
  resolved : Bool := false
  constraints : List Constraint := []
deriving Repr

namespace Wheel

/-- Shows a candidate by its number. -/
def showing (w : Wheel) (n : Nat) : Wheel :=
  { w with cursor := n, current := w.candidates[n]?.getD w.current }

def reset (w : Wheel) : Wheel := w.showing 0

/-- Turns to the next candidate. Tells whether it came around to the first. -/
def turn (w : Wheel) : Bool × Wheel :=
  if w.cursor + 1 < w.candidates.length then (false, w.showing (w.cursor + 1))
  else (true, w.showing 0)

/-- All constraints of an open wheel hold. -/
def agrees (o : Option ClassOracle) (types : VarId → Option Ty) (w : Wheel) : Bool :=
  w.resolved || w.constraints.all (Constraint.holds o types)

end Wheel

/-- The type that some wheel shows for a variable. -/
def shown (ws : List Wheel) (v : VarId) : Option Ty := (ws.find? (·.var == v)).map Wheel.current

/-- The constraints of all wheels hold. -/
def allAgree (o : Option ClassOracle) (ws : List Wheel) : Bool := ws.all (Wheel.agrees o (shown ws))

/-- One step of the odometer. Tells whether every wheel came around. -/
def advance : List Wheel → Bool × List Wheel
  | [] => (true, [])
  | w :: ws =>
    match w.turn with
    | (false, w) => (false, w :: ws)
    | (true, w) =>
      let (around, ws) := advance ws
      (around, w :: ws)

/-- How a search ended. -/
inductive Ending where
  | found (turns : Nat)
  | exhausted
  | limited
deriving DecidableEq, Repr

/-- Turns the wheels until they agree; `left` further turns are allowed. -/
def spin (o : Option ClassOracle) : (left turns : Nat) → List Wheel → Ending × List Wheel
  | left, turns, ws =>
    if allAgree o ws then (.found turns, ws.map fun w => { w with resolved := true })
    else
      match advance ws, left with
      | (true, ws), _ => (.exhausted, ws)
      | (false, ws), 0 => (.limited, ws)
      | (false, ws), left + 1 => spin o left (turns + 1) ws

/-- Searches all combinations from the first one on. -/
def searchAll (o : Option ClassOracle) (limit : Nat) (ws : List Wheel) : Ending × List Wheel :=
  spin o limit 0 (ws.map Wheel.reset)

/-! ## Wheels that hang on no open one -/

/-- The variables of a wheel's constraints other than its own. -/
def related (w : Wheel) : List VarId :=
  (w.constraints.flatMap fun k => k.slots.filterMap Slot.var).filter (· != w.var)

/-- All variables a wheel is tied to are settled. -/
def isIndependent (ws : List Wheel) (w : Wheel) : Bool :=
  (related w).all fun v => (ws.find? (·.var == v)).all Wheel.resolved

/-- Settles a wheel on its first candidate that agrees with the others. Without one it shows its
    first candidate and stays open. -/
def settle (o : Option ClassOracle) (ws : List Wheel) (w : Wheel) : Wheel :=
  let types (t : Ty) (v : VarId) : Option Ty := if v = w.var then some t else shown ws v
  match w.candidates.findIdx? fun t => w.constraints.all (Constraint.holds o (types t)) with
  | some n => { w.showing n with resolved := true }
  | none => w.reset

/-- Settles the open wheels that hang on none, one after the other. -/
def settleIndependent (o : Option ClassOracle) (ws : List Wheel) : List Wheel :=
  (ws.filter (!·.resolved)).foldl (fun ws w =>
    if isIndependent ws w then ws.map fun x => if x.var = w.var then settle o ws w else x
    else ws) ws

/-- The search proper: the open wheels alone turn, the others are read once. Returns all wheels. -/
def turnOpen (o : Option ClassOracle) (limit : Nat) (ws : List Wheel) : Ending × List Wheel :=
  let settled := shown (ws.filter Wheel.resolved)
  let frozen := (ws.filter (!·.resolved)).map fun w =>
    { w with constraints := w.constraints.map (Constraint.freeze settled) }
  let (ending, turned) := searchAll o limit frozen
  (ending, ws.map fun w => (turned.find? (·.var == w.var)).getD w)

end TypeRecovery.Inference.Search
