import TypeRecovery.Inference.Finish
import TypeRecovery.Inference.Resolve.Casts
import TypeRecovery.Inference.Resolve.Constants
import TypeRecovery.Inference.Resolve.Moves
import TypeRecovery.Inference.Resolve.Primitives
import TypeRecovery.Inference.Resolve.Search

/- Inference of a whole method: bounds and propagation, then the resolvers while a type is open, then
   finishing. -/
namespace TypeRecovery.Inference

def resolverStep : Resolver → Infer Bool
  | .restoreTypeVarCasts => restoreTypeVarCasts
  | .insertCasts => insertCasts
  | .deduceTypes => deduceTypes
  | .splitConsts => splitConsts
  | .fixPrimitives => fixPrimitives
  | .forceImmutable => forceImmutable
  | .insertMoves => insertMoves
  | .search => search
  | .removeGenerics => removeGenerics

/-- Runs a resolver. One that fails is reported and counts as of no help. -/
def resolve (r : Resolver) : Infer Bool :=
  tryCatch (resolverStep r) fun fault => do
    if fault.endsMethod then throw fault
    report (.resolverFailed r.name fault.message)
    return false

/-- Runs resolvers in order until one settles the method. -/
def escalate : List Resolver → Infer Unit
  | [] => return ()
  | r :: rest => do
    if (← resolve r) && allKnown (← theGraph) then
      note [{ message := "types resolved", fields := [("resolver", r.name)] }]
    else escalate rest

/-- Everything before finishing. -/
def run : Infer Unit := do
  edit fun g => ((), pinVars g)
  reinit
  if !allKnown (← theGraph) then
    escalate (Resolver.all.filter (← read).config.enables)

/-- What became of a method. -/
structure Outcome where
  graph : MethodGraph
  /-- Every site has a known type. -/
  resolved : Bool
  /-- How many instructions and parameters are open. -/
  unresolved : Nat
  fault : Option Fault
  journal : Journal
  log : List LogRecord

def faultNotice (f : Fault) : Notice :=
  if f.isOverflow then .aborted f.message else .failed f.message

/-- The text of an abort. -/
def abortText (method : String) (f : Fault) : String := s!"inferring {method}: {f.message}"

/-- Infers the types of a method. A method without code has nothing to infer. -/
def infer (c : Context) (g : MethodGraph) : Outcome :=
  if g.noCode then
    { graph := g, resolved := true, unresolved := 0, fault := none, journal := [], log := [] }
  else
    let work : Infer Nat := do
      run
      finish
    let (result, s) := Infer.after work c { graph := g }
    let outcome : Outcome := { graph := s.graph, resolved := false, unresolved := 0, fault := none,
                               journal := s.journal, log := s.log.toList }
    match result with
    | .ok n => { outcome with resolved := n == 0, unresolved := n }
    | .error f =>
      { outcome with
        fault := some f
        journal := s.journal ++ [(faultNotice f).diagnostic g.fullName] }

end TypeRecovery.Inference
