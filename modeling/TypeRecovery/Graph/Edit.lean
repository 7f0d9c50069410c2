import TypeRecovery.Graph.Basic

/- Edits of a method graph. Each keeps the lists of uses and of reading phis in step with the
   argument lists: a site is linked when it enters one and unlinked when it leaves. -/
namespace TypeRecovery.MethodGraph

/-! ## New entries -/

def newBlock (g : MethodGraph) (synthetic : Bool := false) : BlockId × MethodGraph :=
  (⟨g.blocks.size⟩, { g with blocks := g.blocks.push { synthetic } })

/-- Adds a control-flow edge. -/
def connect (g : MethodGraph) (a b : BlockId) : MethodGraph :=
  let g := g.updateBlock a fun x => { x with succs := x.succs ++ [b] }
  g.updateBlock b fun x => { x with preds := x.preds ++ [a] }

/-- How often a register was given a variable. -/
def versionsOf (g : MethodGraph) (reg : Int) : Nat := g.vars.toList.countP (·.reg == reg)

/-- The next version of a register. -/
def newVar (g : MethodGraph) (reg : Int) (name : String := "") : VarId × MethodGraph :=
  let v : VarId := ⟨g.vars.size⟩
  (v, { g with
    vars := g.vars.push { reg, version := g.versionsOf reg, name }
    live := g.live ++ [v] })

def newSite (g : MethodGraph) (s : Site) : SiteId × MethodGraph :=
  (⟨g.sites.size⟩, { g with sites := g.sites.push s })

/-- A register slot, declared open unless a type is given. -/
def newReg (g : MethodGraph) (v : VarId) (declared : Option Ty) : SiteId × MethodGraph :=
  g.newSite { operand := .reg v, declared := declared.getD Ty.anything }

def newLit (g : MethodGraph) (value : Int) (type : Option Ty) : SiteId × MethodGraph :=
  let t := type.getD Ty.anything
  g.newSite { operand := .lit value t, declared := t }

/-- A variable for a parameter, with its slot. -/
def newParam (g : MethodGraph) (reg : Int) (declared : Option Ty) (name : String := "") :
    VarId × MethodGraph :=
  let (v, g) := g.newVar reg name
  let (s, g) := g.newReg v declared
  (v, g.updateVar v fun x => { x with assign := some s })

/-- An instruction that is in no block yet. -/
def newInsn (g : MethodGraph) (i : Insn) : InsnId × MethodGraph :=
  (⟨g.insns.size⟩, { g with insns := g.insns.push i })

/-- A copy of a site that is linked nowhere. -/
def duplicate (g : MethodGraph) (s : SiteId) : SiteId × MethodGraph :=
  g.newSite { g.site s with owner := none }

/-- A copy of a register site that reads another variable. -/
def duplicateWith (g : MethodGraph) (s : SiteId) (v : VarId) : SiteId × MethodGraph :=
  g.newSite { g.site s with owner := none, operand := .reg v }

/-- A copy of a register site on a new version of its register. -/
def duplicateFresh (g : MethodGraph) (s : SiteId) : SiteId × MethodGraph :=
  match g.varOf? s with
  | some v =>
    let (w, g) := g.newVar (g.var v).reg
    g.duplicateWith s w
  | none => g.duplicate s

/-- Takes a variable off the list of those in use. -/
def removeVar (g : MethodGraph) (v : VarId) : MethodGraph := { g with live := g.live.erase v }

/-! ## Uses -/

/-- Enters an argument into the lists of its variable. -/
def linkUse (g : MethodGraph) (i : InsnId) (s : SiteId) : MethodGraph :=
  match g.varOf? s with
  | none => g
  | some v =>
    g.updateVar v fun x =>
      { x with
        uses := x.uses ++ [s]
        phis := if (g.insn i).opcode = .phi && !x.phis.contains i then x.phis ++ [i] else x.phis }

/-- Takes an argument out of the lists of its variable. A phi stays as long as another of its
    arguments reads the variable. -/
def unlinkUse (g : MethodGraph) (i : InsnId) (s : SiteId) : MethodGraph :=
  match g.varOf? s with
  | none => g
  | some v =>
    let leaves := (g.insn i).opcode = .phi && (g.phiInput? i v).isNone
    g.updateVar v fun x =>
      { x with
        uses := x.uses.erase s
        phis := if leaves then x.phis.erase i else x.phis }

/-! ## Slots -/

/-- Replaces the result slot. A new slot becomes the definition of its variable. -/
def setResult (g : MethodGraph) (i : InsnId) (s : Option SiteId) : MethodGraph :=
  let g := match (g.insn i).result with
    | some old => g.updateSite old fun x => { x with owner := none }
    | none => g
  let g := g.updateInsn i fun x => { x with result := s }
  match s with
  | none => g
  | some s =>
    let g := g.updateSite s fun x => { x with owner := some i }
    match g.varOf? s with
    | some v => g.updateVar v fun x => { x with assign := some s }
    | none => g

def addArg (g : MethodGraph) (i : InsnId) (s : SiteId) : MethodGraph :=
  let g := g.updateSite s fun x => { x with owner := some i }
  let g := g.updateInsn i fun x => { x with args := x.args ++ [s] }
  g.linkUse i s

/-- Adds an input to a phi, arriving from a block. -/
def addPhiArg (g : MethodGraph) (i : InsnId) (s : SiteId) (source : BlockId) : MethodGraph :=
  (g.addArg i s).updateInsn i fun x => { x with incoming := x.incoming ++ [source] }

/-- Puts a site in the place of an argument; nothing happens if `old` is none. -/
def replaceArg (g : MethodGraph) (i : InsnId) (old new : SiteId) : Bool × MethodGraph :=
  match (g.insn i).args.idxOf? old with
  | none => (false, g)
  | some n =>
    let g := g.updateInsn i fun x => { x with args := x.args.set n new }
    let g := g.updateSite new fun x => { x with owner := some i }
    let g := g.updateSite old fun x => { x with owner := none }
    let g := g.unlinkUse i old
    (true, g.linkUse i new)

/-- Builds an instruction from a description without slots, and links the slots. -/
def buildInsn (g : MethodGraph) (i : Insn) (result : Option SiteId) (args : List SiteId) :
    InsnId × MethodGraph :=
  let (id, g) := g.newInsn i
  let g := if result.isSome then g.setResult id result else g
  (id, args.foldl (fun g s => g.addArg id s) g)

/-! ## Places -/

/-- Puts an instruction into a block at an index. -/
def insertAt (g : MethodGraph) (b : BlockId) (n : Nat) (i : InsnId) : MethodGraph :=
  let g := g.updateBlock b fun x => { x with insns := x.insns.insertIdx n i }
  g.updateInsn i fun x => { x with block := some b }

def append (g : MethodGraph) (b : BlockId) (i : InsnId) : MethodGraph :=
  g.insertAt b (g.block b).insns.length i

/-- The block and the index of an instruction, if its block lists it. -/
def place? (g : MethodGraph) (i : InsnId) : Option (BlockId × Nat) :=
  (g.insn i).block.bind fun b => ((g.block b).insns.idxOf? i).map fun n => (b, n)

def insertBefore (g : MethodGraph) (anchor i : InsnId) : Bool × MethodGraph :=
  match g.place? anchor with
  | none => (false, g)
  | some (b, n) => (true, g.insertAt b n i)

def insertAfter (g : MethodGraph) (anchor i : InsnId) : Bool × MethodGraph :=
  match g.place? anchor with
  | none => (false, g)
  | some (b, n) => (true, g.insertAt b (n + 1) i)

/-- Unlinks an argument that has left its instruction. -/
def release (g : MethodGraph) (i : InsnId) (s : SiteId) : MethodGraph :=
  (g.unlinkUse i s).updateSite s fun x => { x with owner := none }

/-- Puts `new` in the place of `old`. The arguments that `old` still owns are unlinked. -/
def replaceInsn (g : MethodGraph) (old new : InsnId) : Bool × MethodGraph :=
  match g.place? old with
  | none => (false, g)
  | some (b, n) =>
    let args := (g.insn old).args
    let g := g.updateInsn old fun x => { x with args := [] }
    let g := args.foldl (fun g s => if (g.site s).owner = some old then g.release old s else g) g
    let g := g.updateBlock b fun x => { x with insns := x.insns.set n new }
    let g := g.updateInsn new fun x => { x with block := some b }
    (true, g.updateInsn old fun x => { x with block := none })

/-- Takes an instruction out of its block and unlinks its arguments. -/
def removeInsn (g : MethodGraph) (i : InsnId) : Bool × MethodGraph :=
  match g.place? i with
  | none => (false, g)
  | some (b, n) =>
    let args := (g.insn i).args
    let g := g.updateInsn i fun x => { x with args := [] }
    let g := args.foldl (fun g s => g.release i s) g
    let g := g.updateBlock b fun x => { x with insns := x.insns.eraseIdx n }
    (true, g.updateInsn i fun x => { x with block := none })

/-- A copy with arguments of its own and a result on a fresh variable, in no block. The incoming
    blocks of a phi are not copied. -/
def copyFresh (g : MethodGraph) (i : InsnId) : InsnId × MethodGraph :=
  let source := g.insn i
  let (id, g) := g.newInsn { source with result := none, args := [], block := none, incoming := [] }
  let g := source.args.foldl (fun g s =>
    let (d, g) := g.duplicate s
    g.addArg id d) g
  match source.result with
  | none => (id, g)
  | some r =>
    let (d, g) := g.duplicateFresh r
    (id, g.setResult id (some d))

end TypeRecovery.MethodGraph
