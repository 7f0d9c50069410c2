import TypeRecovery.Inference.Session

/- A constant that is shared by uses of different types gets a copy for each phi, or for each use. -/
namespace TypeRecovery.Inference

/-- The placed constant that defines a variable. -/
def sharedConst? (g : MethodGraph) (v : VarId) : Option InsnId :=
  (g.assignInsn? v).filter fun i => (g.insn i).opcode == .const && (g.insn i).block.isSome

/-- A copy of an instruction on a fresh variable, right after it. -/
def copyAfter (g : MethodGraph) (i : InsnId) (synthetic : Bool) : Option VarId × MethodGraph :=
  let (copy, g) := g.copyFresh i
  let g := if synthetic then g.updateInsn copy fun x => { x with synthetic := true } else g
  let (_, g) := g.insertAfter i copy
  ((g.insn copy).result.bind g.varOf?, g)

/-- Lets an argument read another variable. -/
def redirect (g : MethodGraph) (i : InsnId) (s : SiteId) (v : VarId) : MethodGraph :=
  let (d, g) := g.duplicateWith s v
  (g.replaceArg i s d).2

/-- Gives every phi but the first its own copy. -/
def splitByPhi (g : MethodGraph) (v : VarId) : Bool × MethodGraph :=
  match sharedConst? g v, (g.var v).phis with
  | some i, _ :: phi :: phis =>
    (true, (phi :: phis).foldl (fun g phi =>
      match copyAfter g i true with
      | (some w, g) =>
        match g.phiInput? phi v with
        | some s => redirect g phi s w
        | none => g
      | (none, g) => g) g)
  | _, _ => (false, g)

/-- Gives every use but the first its own copy. -/
def splitByUse (g : MethodGraph) (v : VarId) : Bool × MethodGraph :=
  match sharedConst? g v, (g.var v).uses with
  | some i, _ :: use :: uses =>
    (true, (use :: uses).foldl (fun g s =>
      match (g.site s).owner with
      | none => g
      | some user =>
        match copyAfter g i false with
        | (some w, g) => redirect g user s w
        | (none, g) => g) g)
  | _, _ => (false, g)

def splitConst (v : VarId) : Infer Bool :=
  edit fun g =>
    let x := g.var v
    if x.ty.isKnown || x.isPinned then (false, g)
    else
      match splitByPhi g v with
      | (true, g) => (true, g)
      | (false, g) => splitByUse g v

def splitConsts : Infer Bool := do
  if ← anyOf splitConst (← theGraph).live then
    reinit
    return true
  else return false

end TypeRecovery.Inference
