import TypeRecovery.Inference.Resolve.Deduction

/- Each input of a phi is routed through a move of its own at the end of the block it comes from. A
   block that ends in a jump takes no move; then the way leads up as long as there is one block
   above. -/
namespace TypeRecovery.Inference

/-- Where the way up from a block leads. -/
inductive Ascent where
  | place (b : BlockId)
  | refused
  | endless
deriving DecidableEq, Repr

/-- The variable is defined in the block. -/
def definedIn (g : MethodGraph) (v : Option VarId) (b : BlockId) : Bool :=
  ((v.bind g.assignInsn?).bind fun i => (g.insn i).block) == some b

/-- The block that takes a move reading a variable: the block itself or one above it, below the
    definition. The way up takes at most the given number of steps. -/
def ascend (g : MethodGraph) (v : Option VarId) : Nat → BlockId → Ascent
  | steps, b =>
    let block := g.block b
    if block.synthetic then .refused
    else if !(g.lastInsn? b).any fun i => (g.insn i).opcode.isSeparate then .place b
    else
      match block.preds with
      | [above] =>
        if definedIn g v b then .refused
        else
          match steps with
          | 0 => .endless
          | steps + 1 => ascend g v steps above
      | _ => .refused

/-- A way without a circle takes fewer steps than there are blocks. -/
def movePlace (g : MethodGraph) (v : Option VarId) (b : BlockId) : Ascent :=
  ascend g v g.blocks.size b

/-- All inputs have the same known type. -/
def inputsAgree (g : MethodGraph) (phi : InsnId) : Bool :=
  match (g.insn phi).args.map g.typeAt with
  | [] => true
  | t :: ts => t.isKnown && ts.all (· == t)

/-- The inputs of a phi with the blocks they come from. -/
def phiInputs (g : MethodGraph) (phi : InsnId) : List (SiteId × Option BlockId) :=
  let insn := g.insn phi
  insn.args.zipIdx.map fun (s, n) => (s, insn.incoming[n]?)

/-- Every input has a place for its move; the first that has none is reported. -/
def allPlaced : List (SiteId × Option BlockId) → Infer Bool
  | [] => return true
  | (_, none) :: _ => do
    report (.moveRefused "<nil>")
    return false
  | (s, some b) :: rest => do
    let g ← theGraph
    match movePlace g (g.varOf? s) b with
    | .endless => throw .endless
    | .refused =>
      report (.moveRefused b.text)
      return false
    | .place _ => allPlaced rest

/-- The input needs no move: it is a constant, or a move for this input alone. -/
def isApart (g : MethodGraph) (v : VarId) : Bool :=
  match (g.assignInsn? v).map fun i => (g.insn i).opcode with
  | some .const => true
  | some .move => (g.var v).uses.length == 1
  | _ => false

/-- Routes one input through a move. -/
def moveInput (phi : InsnId) (input : SiteId × Option BlockId) : Infer Nat := do
  let g ← theGraph
  match g.varOf? input.1, input.2 with
  | some v, some b =>
    if isApart g v then return 0
    match movePlace g (some v) b with
    | .endless => throw .endless
    | .refused => throw .missing
    | .place b =>
      edit fun g =>
        let (result, g) := g.duplicateFresh input.1
        let (source, g) := g.duplicate input.1
        let (move, g) := g.buildInsn { opcode := .move, synthetic := true } (some result) [source]
        let g := g.append b move
        let (d, g) := g.duplicate result
        (1, (g.replaceArg phi input.1 d).2)
  | _, _ => return 0

/-- Adds up the results of steps. -/
def totalOf {α : Type} (step : α → Infer Nat) : List α → Infer Nat
  | [] => return 0
  | a :: rest => return (← step a) + (← totalOf step rest)

def movePhiInputs (phi : InsnId) : Infer Nat := do
  let g ← theGraph
  if inputsAgree g phi then return 0
  let inputs := phiInputs g phi
  if !(← allPlaced inputs) then return 0
  totalOf (moveInput phi) inputs

def insertMoves : Infer Bool := do
  let added ← totalOf (fun b => do totalOf movePhiInputs ((← theGraph).leadingPhis b))
    (← theGraph).blockIds
  if added = 0 then return false
  report (.inserted added "move")
  reinit
  if allKnown (← theGraph) then return true
  deduceTypes

end TypeRecovery.Inference
