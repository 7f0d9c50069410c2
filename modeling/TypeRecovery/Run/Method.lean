import TypeRecovery.Inference.Engine
import TypeRecovery.Listing.Build

/- One method of a run: it is built and inferred, and the types are held against the expected ones. -/
namespace TypeRecovery.Run

open Inference (Context Outcome)

/-- A variable whose type is not the expected one. -/
structure Mismatch where
  var : String
  want : Option Ty
  got : Ty
deriving DecidableEq, Repr

/-- The types of the named variables, by name. -/
def namedTypes (m : Listing.Built) (g : MethodGraph) : List (String × Ty) :=
  (m.named.map fun (name, v) => (name, (g.var v).ty)).mergeSort fun a b => !(b.1 < a.1)

/-- The expectations that a graph does not meet, by name. -/
def mismatches (m : Listing.Built) (g : MethodGraph) : List Mismatch :=
  (m.expect.filterMap fun (var, want) =>
    let got := ((List.lookup var m.named).map fun v => (g.var v).ty).getD Ty.anything
    if want = some got then none else some { var, want, got }).mergeSort
      fun a b => !(b.var < a.var)

structure MethodResult where
  built : Listing.Built
  outcome : Outcome
  mismatches : List Mismatch

/-- Infers a built method and checks it. There is no result if inference finds no end. -/
def MethodResult.of (c : Context) (m : Listing.Built) : Option MethodResult :=
  let outcome := Inference.infer c m.graph
  if outcome.fault = some .endless then none
  else some ⟨m, outcome, Run.mismatches m outcome.graph⟩

end TypeRecovery.Run
