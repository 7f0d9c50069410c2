import TypeRecovery.Hierarchy.Catalogue
import TypeRecovery.Inference.Search.Candidates

/- The resolver of last resort but one: settles the wheels that hang on no other, turns the rest, and
   puts what was found through propagation once more. -/
namespace TypeRecovery.Inference

open Search (Wheel Ending)

/-- The records about a search that turned `vars` wheels. -/
def endingRecords (limit vars : Nat) : Ending → List LogRecord
  | .found turns =>
    [{ message := "search done",
       fields := [("iterations", toString turns), ("vars", toString vars)] }]
  | .limited =>
    [{ message := "search iterations limit reached", fields := [("limit", toString limit)] }]
  | .exhausted => []

/-- Writes the type of a settled wheel if the variable does not have it. -/
def writeWheel (w : Wheel) : Infer Bool :=
  edit fun g =>
    if w.resolved && w.current.isKnown && w.current != (g.var w.var).ty then
      (true, g.setVarType w.var (some w.current))
    else (false, g)

/-- Puts the type of a wheel through propagation. -/
def confirmWheel (w : Wheel) : Infer Bool := do
  if (← apply w.var w.current { acceptWider := true, revisitSame := true }) = .rejected then
    report (.searchRejected ((← theGraph).varText w.var))
    return false
  else return true

/-- Writes all settled wheels, then confirms those that brought something new. -/
def applyWheels (ws : List Wheel) : Infer Bool := do
  let fresh ← ws.filterM writeWheel
  let failed ← anyOf (fun w => return !(← confirmWheel w)) fresh
  return !failed

/-- Turns the open wheels, if there are any. -/
def turnWheels (o : Option ClassOracle) (ws : List Wheel) : Infer (Option (List Wheel)) := do
  let openVars := (ws.filter (!·.resolved)).map Wheel.var
  if openVars.isEmpty then return some ws
  let limit := (← read).limits.searchIterations
  let (ending, turned) := Search.turnOpen o limit ws
  note (endingRecords limit openVars.length ending)
  let turnedOpen := turned.filter fun w => openVars.contains w.var
  if turnedOpen.all (Wheel.agrees o (Search.shown turned)) then return some turned
  note [{ message := "multi-variable search failed",
          fields := [("vars", toString openVars.length)] }]
  return none

def searchTypes : Infer Bool := do
  let c ← read
  let g ← theGraph
  let count := g.live.length
  if c.limits.searchVars < count then
    report (.searchSkipped count c.limits.searchVars)
    return false
  let wheels := (← g.live.mapM Search.wheelOf).map (Search.constrain g)
  let oracle := some c.hierarchy.tabulated
  match ← turnWheels oracle (Search.settleIndependent oracle wheels) with
  | none => return false
  | some ws => applyWheels ws

def search : Infer Bool := do
  if !(← searchTypes) then report .searchFailed
  return allKnown (← theGraph)

end TypeRecovery.Inference
