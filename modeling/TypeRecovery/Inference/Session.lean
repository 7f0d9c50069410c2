import TypeRecovery.Diagnostic
import TypeRecovery.Graph.Edit
import TypeRecovery.Inference.Propagation

/- The state of inference on one method, and the steps that the resolvers share: trying a type on a
   variable, propagating, and starting over after an edit. -/
namespace TypeRecovery.Inference

structure Session where
  graph : MethodGraph
  journal : Journal := []
  log : Array LogRecord := #[]
  /-- The sites whose incompatible types have been reported. -/
  reported : List SiteId := []
  /-- The changes of the graph, from one graph to the next, since this stage of inference began. Only
      statements about a run look at them; nothing of it is kept while running. -/
  changes : MethodGraph → MethodGraph → Prop := fun _ _ => False

/-- Inference in progress. A fault ends it and keeps what was done before. -/
abbrev Infer := ReaderT Context (ExceptT Fault (StateM Session))

/-- Carries out a step. The state afterwards counts also when a fault ended it. -/
def Infer.after {α : Type} (step : Infer α) (c : Context) (s : Session) : Except Fault α × Session :=
  ((step.run c).run).run s

def theGraph : Infer MethodGraph := return (← get).graph

/-- Changes the graph. -/
def edit {α : Type} (f : MethodGraph → α × MethodGraph) : Infer α :=
  modifyGet fun s =>
    let (a, g) := f s.graph
    (a, { s with graph := g, changes := fun x y => s.changes x y ∨ (x = s.graph ∧ y = g) })

def note (records : List LogRecord) : Infer Unit := do
  if (← read).traced then modify fun s => { s with log := s.log ++ records }

def report (n : Notice) : Infer Unit :=
  modify fun s => { s with journal := s.journal ++ [n.diagnostic s.graph.fullName] }

/-- Every variable in use has a known type. -/
def allKnown (g : MethodGraph) : Bool := g.live.all fun v => (g.var v).ty.isKnown

/-- Some step over a list helped; all steps are taken. -/
def anyOf {α : Type} (step : α → Infer Bool) : List α → Infer Bool
  | [] => return false
  | a :: rest => do
    let helped ← step a
    let others ← anyOf step rest
    return helped || others

/-- The first step that helps ends the walk. -/
def firstOf {α : Type} (step : α → Infer Bool) : List α → Infer Bool
  | [] => return false
  | a :: rest => do if ← step a then return true else firstOf step rest

/-! ## Trying types -/

/-- Tries a type on a variable. The graph changes only if the whole attempt is accepted. -/
def apply (v : VarId) (t : Ty) (flags : Flags := {}) : Infer Verdict := do
  let g ← theGraph
  match (g.var v).assign with
  | none => return .rejected
  | some s =>
    if !t.isKnown then return .rejected
    let trial : Trial := { context := ← read, graph := g, flags }
    let (outcome, attempt) := trial.run s t
    note attempt.log.toList
    let fields := [("var", g.varText v), ("candidate", t.text)]
    match outcome with
    | .error fault => throw fault
    | .ok .rejected =>
      note [{ message := "type rejected", fields }]
      return .rejected
    | .ok _ =>
      if attempt.proposal.isEmpty then return .same
      note [{ message := "applying types",
              fields := fields ++ [("updates", toString attempt.proposal.size)] }]
      edit fun g => ((), attempt.proposal.commit g)
      return .changed

/-- The narrowest type that the bounds of a variable ask for. -/
def bestBound? (c : Context) (g : MethodGraph) (v : VarId) : Option Ty :=
  Ty.best? c.oracle (boundTypes c g v)

def applyBest (v : VarId) : Infer Bool := do
  match bestBound? (← read) (← theGraph) v with
  | none => return false
  | some t => return (← apply v t) == .changed

def applyPin (v : VarId) : Infer Unit := do
  match ((← theGraph).var v).pin with
  | none => pure ()
  | some t =>
    if (← apply v t { acceptWider := true, revisitSame := true }) = .rejected then
      note [{ message := "immutable type rejected",
              fields := [("var", (← theGraph).varText v), ("type", t.text)] }]

/-! ## Stages -/

/-- The pinned type that a slot of a variable declares: its definition first, then its uses. -/
def pinnedSlot? (g : MethodGraph) (v : VarId) : Option Ty :=
  (((g.var v).assign.toList ++ (g.var v).uses).find? fun s => (g.site s).pinned).map
    fun s => (g.site s).declared

/-- Pins the variables of pinned slots. -/
def pinVars (g : MethodGraph) : MethodGraph :=
  g.live.foldl (fun g v =>
    if (g.var v).isPinned then g
    else
      match pinnedSlot? g v with
      | some t => g.pinVar v t
      | none => g) g

/-- Applies all pins, then to every variable its narrowest bound. -/
def propagate : Infer Unit := do
  let vars := (← theGraph).live
  vars.forM applyPin
  vars.forM fun v => discard (applyBest v)

/-- Finds the bounds anew and propagates. -/
def reinit : Infer Unit := do
  edit fun g => ((), initBounds g)
  propagate

end TypeRecovery.Inference
