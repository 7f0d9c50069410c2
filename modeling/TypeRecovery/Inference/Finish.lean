import TypeRecovery.Inference.Session
import TypeRecovery.Ty.Merge

/- Finishing: instructions are mended one by one until nothing changes, open types are settled on
   their preferred kind, and every instruction that still has an open site is reported. -/
namespace TypeRecovery.Inference

/-! ## Merging at a site -/

/-- Reports incompatible types of a site, once. -/
def reportIncompatible (s : SiteId) (current t : Ty) : Infer Unit := do
  if !(← get).reported.contains s then
    modify fun st => { st with reported := s :: st.reported }
    report (.incompatible ((← theGraph).siteName s) (Ty.incompatibleText current t))

/-- Narrows the type of a site by merging. A known type is never widened, and a pinned one stays. -/
def mergeAt (s : SiteId) (t : Ty) : Infer Bool := do
  let c ← read
  let g ← theGraph
  let current := g.typeAt s
  if current.isKnown && g.isPinnedAt s then return false
  match Ty.merge? c.oracle current t with
  | none =>
    if current.isKnown && t.isKnown then reportIncompatible s current t
    return false
  | some merged =>
    if merged = current then return false
    if current.isKnown && !(c.compare merged current).isNarrow then return false
    edit fun g => (true, g.setType s (some merged))

/-- Merges each of two sites with the type of the other. -/
def mergeBoth (a b : SiteId) : Infer Bool := do
  let first ← mergeAt a ((← theGraph).typeAt b)
  let second ← mergeAt b ((← theGraph).typeAt a)
  return first || second

/-! ## Mending instructions -/

/-- A literal other than zero is no reference. -/
def fixConst (result literal : SiteId) : Infer Bool := do
  let g ← theGraph
  match g.literal? literal with
  | some value =>
    if value ≠ 0 && (g.typeAt literal).isReference && !g.isPinnedAt result then
      let t := if value = 1 then Ty.boolean else Ty.int
      edit fun g => (true, (g.setType literal (some t)).setType result (some t))
    else mergeAt literal (g.typeAt result)
  | none => mergeAt literal (g.typeAt result)

/-- An element and its array settle each other. -/
def fixArray (array elem : SiteId) : Infer Bool := do
  let g ← theGraph
  let first ←
    match (g.typeAt elem).isKnown, (g.typeAt array).elem? with
    | false, some t => mergeAt elem t
    | _, _ => pure false
  let g ← theGraph
  let second ←
    if (g.typeAt array).isKnown then pure false else mergeAt array (.array (g.typeAt elem))
  return first || second

/-- The register arguments of an overloaded call take the declared types, paired from the right, so
    that the choice among the overloads stays. -/
def fixOverloaded (g : MethodGraph) (insn : Insn) : Bool × MethodGraph :=
  match insn.callee with
  | none => (false, g)
  | some callee =>
    if !callee.overloaded then (false, g)
    else
      (insn.args.reverse.zip callee.params.reverse).foldl (fun (changed, g) (s, t) =>
        if g.isRegister s && !g.isPinnedAt s && t != some (g.typeAt s) then (true, g.setType s t)
        else (changed, g)) (false, g)

/-- The result of a checked cast takes the cast type, unless it is of that class already. -/
def fixCast (g : MethodGraph) (insn : Insn) : Bool × MethodGraph :=
  match insn.result, insn.type with
  | some result, some t =>
    let current := g.typeAt result
    let sameClass := t.isReference && current.isReference && t.className == current.className
    if g.isPinnedAt result || sameClass || t = current then (false, g)
    else (true, g.setType result (some t))
  | _, _ => (false, g)

/-- Gives a type to a site that is not pinned. -/
def assignType (t : Ty) : Bool × MethodGraph → SiteId → Bool × MethodGraph :=
  fun (changed, g) s =>
    if g.isPinnedAt s || g.typeAt s = t then (changed, g) else (true, g.setType s (some t))

/-- The result and the inputs of a phi take the first known type among them. -/
def fixPhi (g : MethodGraph) (insn : Insn) : Bool × MethodGraph :=
  match insn.result with
  | none => (false, g)
  | some result =>
    let own := g.typeAt result
    let t :=
      if own.isKnown then own else ((insn.args.map g.typeAt).find? Ty.isKnown).getD own
    (result :: insn.args).foldl (assignType t) (false, g)

def fixInsn (i : InsnId) : Infer Bool := do
  let insn := (← theGraph).insn i
  match insn.opcode, insn.result, insn.args with
  | .const, some result, literal :: _ => fixConst result literal
  | .move, some result, source :: _ => mergeBoth result source
  | .aget, some result, array :: _ => fixArray array result
  | .aput, _, array :: _ :: value :: _ => fixArray array value
  | .branch _, _, a :: b :: _ => mergeBoth a b
  | .invoke, _, _ => edit fun g => fixOverloaded g insn
  | .checkCast, _, _ => edit fun g => fixCast g insn
  | .phi, _, _ => edit fun g => fixPhi g insn
  | _, _, _ => return false

/-- Mends all instructions until a round changes nothing, for the given number of rounds. -/
def fixRounds : Nat → Infer Bool
  | 0 => return false
  | rounds + 1 => do
    if ← anyOf fixInsn (← theGraph).placed then fixRounds rounds else return true

/-! ## Settling and validating -/

def sitesOf (insn : Insn) : List SiteId := insn.result.toList ++ insn.args

/-- Settles an open site on its preferred kind. -/
def settleSite (s : SiteId) : Infer Unit := do
  let t := (← theGraph).typeAt s
  match t.isKnown, t.settle? with
  | false, some t => discard (mergeAt s t)
  | _, _ => pure ()

/-- The first site of an instruction that is still open. -/
def openSite? (g : MethodGraph) (i : InsnId) : Option SiteId :=
  (sitesOf (g.insn i)).find? fun s => !(g.typeAt s).isKnown

/-- What is still open: a notice for each instruction and each parameter. -/
def openNotices (g : MethodGraph) : List Notice :=
  g.placed.filterMap (fun i =>
    (openSite? g i).map fun s => .unresolved (g.siteName s) (g.insnText i)) ++
  (g.params.filter fun v => !(g.var v).ty.isKnown).map fun v =>
    .unresolved (g.varText v) ("parameter " ++ g.varText v)

/-- Nothing is reported yet, and the record of changes starts anew. -/
def beginStage (s : Session) : Session := { s with reported := [], changes := fun _ _ => False }

/-- Mends, settles and validates; returns how many instructions and parameters are still open. -/
def finish : Infer Nat := do
  modify beginStage
  let rounds := (← read).limits.finalizeRounds
  if !(← fixRounds rounds) then report (.unsettled rounds)
  let g ← theGraph
  g.placed.forM fun i => (sitesOf (g.insn i)).forM settleSite
  g.params.forM fun v => (g.var v).assign.toList.forM settleSite
  let notices := openNotices (← theGraph)
  notices.forM report
  return notices.length

end TypeRecovery.Inference
