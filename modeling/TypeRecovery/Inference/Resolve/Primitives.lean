import TypeRecovery.Inference.Session

/- Truth values used as numbers: each use is fed by a conversion, or turned into a negation. -/
namespace TypeRecovery.Inference

/-- A truth value is assigned and all uses can take numbers. -/
def isMixed (c : Context) (g : MethodGraph) (v : VarId) : Bool :=
  let typed := (g.var v).bounds.filterMap fun b =>
    (boundType? c g g.typeAt b).map fun t => (b.side, t)
  typed.all (fun (side, t) =>
    match side with
    | .assign => t.admits .boolean
    | .use => t.canBeNumber) && typed.any (·.1 == .assign)

/-- Builds `result = cond ? 1 : 0` with literals of a type. -/
def buildConversion (result : Option SiteId) (cond : VarId) (t : Option Ty) : Infer InsnId := do
  match ((← theGraph).var cond).assign with
  | none => throw .missing
  | some s =>
    edit fun g =>
      let (test, g) := g.duplicate s
      let g := g.updateSite test fun x => { x with declared := Ty.boolean }
      let (one, g) := g.newLit 1 t
      let (zero, g) := g.newLit 0 t
      g.buildInsn { opcode := .ternary, synthetic := true } result [test, one, zero]

/-- Builds a negation of a truth value. -/
def buildNegation (g : MethodGraph) (result operand : SiteId) : InsnId × MethodGraph :=
  let g := g.updateSite operand fun x => { x with declared := Ty.boolean }
  g.buildInsn { opcode := .not, synthetic := true } (some result) [operand]

/-- Turns `x ^ 1` into a negation; a numeric result is converted from it. -/
def negateXor (i : InsnId) (s : SiteId) : Infer Bool := do
  match ((← theGraph).insn i).result with
  | none => throw .missing
  | some result =>
    let operand ← edit fun g => g.duplicate s
    if ((← theGraph).typeAt result).canBePrim .boolean then
      let negation ← edit fun g => buildNegation g result operand
      edit fun g => g.replaceInsn i negation
    else
      let fresh ← edit fun g =>
        let (fresh, g) := g.duplicateFresh result
        (fresh, g.updateSite fresh fun x => { x with declared := Ty.boolean })
      let negation ← edit fun g => buildNegation g fresh operand
      if !(← edit fun g => g.insertBefore i negation) then return false
      match (← theGraph).varOf? fresh with
      | none => throw .missing
      | some cond =>
        let conversion ← buildConversion (some result) cond (some Ty.int)
        edit fun g => g.replaceInsn i conversion

/-- The instruction flips the lowest bit of its first operand. -/
def flipsBit (g : MethodGraph) (i : InsnId) : Bool :=
  match (g.insn i).opcode, (g.insn i).args with
  | .arith .xor, [_, b] => g.literal? b == some 1
  | _, _ => false

/-- Feeds a use from a conversion that stands before its instruction. -/
def convertUse (i : InsnId) (s : SiteId) (cond : VarId) (t : Ty) : Infer Bool := do
  let result ← edit fun g => g.duplicateFresh s
  let conversion ← buildConversion (some result) cond (some t)
  if !(← edit fun g => g.insertBefore i conversion) then return false
  edit fun g =>
    let (d, g) := g.duplicate result
    g.replaceArg i s d

/-- Rewrites one use of a truth value as a number. -/
def fixTruthUse (s : SiteId) : Infer Bool := do
  let g ← theGraph
  let t := (g.site s).declared
  if t = Ty.boolean || (t.isKnown && !t.isPrim) then return false
  match (g.site s).owner, g.varOf? s with
  | some i, some v =>
    let insn := g.insn i
    if insn.block.isNone then return false
    match insn.opcode with
    | .branch _ => return false
    | .cast =>
      let conversion ← buildConversion insn.result v insn.type
      edit fun g => g.replaceInsn i conversion
    | _ => if flipsBit g i then negateXor i s else convertUse i s v t
  | _, _ => return false

def fixTruth (v : VarId) : Infer Bool := do
  let g ← theGraph
  if (g.var v).ty.isKnown || !isMixed (← read) g v then return false
  anyOf fixTruthUse (g.var v).uses

def fixPrimitives : Infer Bool := do
  if ← anyOf fixTruth (← theGraph).live then
    reinit
    return true
  else return false

end TypeRecovery.Inference
