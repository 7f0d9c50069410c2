import TypeRecovery.Graph.Opcode
import TypeRecovery.Ty.Basic

/- The graph of one method. Variables, sites, instructions and blocks are named by their place in
   four tables that only grow, so a name keeps its meaning after an instruction was taken out. A site
   is the result slot or an argument slot of an instruction, or the slot of a parameter. -/
namespace TypeRecovery

structure VarId where
  index : Nat
deriving DecidableEq, Repr, Inhabited

structure SiteId where
  index : Nat
deriving DecidableEq, Repr, Inhabited

structure InsnId where
  index : Nat
deriving DecidableEq, Repr, Inhabited

structure BlockId where
  index : Nat
deriving DecidableEq, Repr, Inhabited

/-- What stands in a site. A literal carries its own type; a register has its variable's. -/
inductive Operand where
  | reg (v : VarId)
  | lit (value : Int) (type : Ty)
deriving DecidableEq, Repr, Inhabited

structure Site where
  operand : Operand
  /-- The type the instruction declares for the slot. -/
  declared : Ty
  /-- The owning instruction; a parameter has none. -/
  owner : Option InsnId := none
  pinned : Bool := false
  receiver : Bool := false
deriving DecidableEq, Repr, Inhabited

structure Callee where
  cls : String
  name : String
  kind : CallKind := .virtual
  /-- The declared result and parameters without type variables. -/
  result : Ty := Ty.void
  params : List (Option Ty) := []
  /-- The declared signature with type variables, as far as it is known. -/
  genericResult : Option Ty := none
  genericParams : Option (List (Option Ty)) := none
  resolved : Bool := false
  /-- The class that first declares an overridden method; empty if it is `cls`. -/
  declaredBy : String := ""
  overloaded : Bool := false
deriving DecidableEq, Repr, Inhabited

namespace Callee

def isStatic (c : Callee) : Bool := c.kind == .static

def paramTypes (c : Callee) : List (Option Ty) := c.genericParams.getD c.params

def originClass (c : Callee) : String := if c.declaredBy = "" then c.cls else c.declaredBy

def text (c : Callee) : String := c.cls ++ "." ++ c.name

end Callee

structure FieldRef where
  cls : String
  name : String
  type : Option Ty
deriving DecidableEq, Repr, Inhabited

/-- The target of a dynamic call site: a functional interface and further interfaces. -/
structure CallTarget where
  primary : Option Ty
  markers : List (Option Ty)
deriving DecidableEq, Repr, Inhabited

structure Insn where
  opcode : Opcode
  result : Option SiteId := none
  args : List SiteId := []
  block : Option BlockId := none
  callee : Option Callee := none
  field : Option FieldRef := none
  target : Option CallTarget := none
  /-- The operand type of casts and allocations. -/
  type : Option Ty := none
  catches : List (Option Ty) := []
  /-- Stands in for the constructed class of an anonymous class. -/
  anonymousBase : Option Ty := none
  /-- For a phi, the block each argument comes from. -/
  incoming : List BlockId := []
  /-- A cast that only guides inference. -/
  soft : Bool := false
  synthetic : Bool := false
deriving DecidableEq, Repr, Inhabited

structure Block where
  insns : List InsnId := []
  preds : List BlockId := []
  succs : List BlockId := []
  /-- Takes no new code. -/
  synthetic : Bool := false
deriving DecidableEq, Repr, Inhabited

/-- The side from which a bound limits a variable: what is assigned is a limit from below, what a use asks
    for one from above. -/
inductive BoundSide where
  | assign
  | use
deriving DecidableEq, Repr, Inhabited

def BoundSide.name : BoundSide → String
  | .assign => "ASSIGN"
  | .use => "USE"

/-- A typing constraint on a variable. All but the fixed ones read the graph when asked: those of calls and
    fields have a declared type that mentions variables of the receiver's class. -/
inductive Bound where
  | fixed (side : BoundSide) (type : Ty)
  | callResult (insn : InsnId) (declared : Ty)
  | callArgument (insn : InsnId) (site : SiteId) (declared : Ty)
  | fieldRead (insn : InsnId) (declared : Ty)
  | castResult (insn : InsnId)
deriving DecidableEq, Repr, Inhabited

namespace Bound

def side : Bound → BoundSide
  | .fixed side _ => side
  | .callArgument .. => .use
  | .callResult .. | .fieldRead .. | .castResult _ => .assign

def form : Bound → String
  | .fixed .. => "const"
  | .callResult .. => "invoke-assign"
  | .callArgument .. => "invoke-use"
  | .fieldRead .. => "field-get"
  | .castResult _ => "check-cast"

end Bound

/-- A variable that is assigned once. -/
structure Var where
  reg : Int
  version : Nat
  name : String := ""
  assign : Option SiteId := none
  uses : List SiteId := []
  phis : List InsnId := []
  /-- The current type; none stands for the open placeholder. -/
  type : Option Ty := none
  bounds : List Bound := []
  pin : Option Ty := none
deriving DecidableEq, Repr, Inhabited

namespace Var

def ty (v : Var) : Ty := v.type.getD Ty.anything

def isPinned (v : Var) : Bool := v.pin.isSome

end Var

/-- A method: its tables, and the variables in use in the order of their creation. -/
structure MethodGraph where
  cls : String
  name : String
  typeVars : List TypeVar := []
  noCode : Bool := false
  blocks : Array Block := #[]
  insns : Array Insn := #[]
  sites : Array Site := #[]
  vars : Array Var := #[]
  live : List VarId := []
deriving Repr, Inhabited

namespace MethodGraph

/-! ## Reading -/

def block (g : MethodGraph) (b : BlockId) : Block := g.blocks.getD b.index default
def insn (g : MethodGraph) (i : InsnId) : Insn := g.insns.getD i.index default
def site (g : MethodGraph) (s : SiteId) : Site := g.sites.getD s.index default
def var (g : MethodGraph) (v : VarId) : Var := g.vars.getD v.index default

def fullName (g : MethodGraph) : String := g.cls ++ "." ++ g.name

def blockIds (g : MethodGraph) : List BlockId := (List.range g.blocks.size).map BlockId.mk

/-- Every placed instruction, in block order. -/
def placed (g : MethodGraph) : List InsnId := g.blocks.toList.flatMap Block.insns

def varOf? (g : MethodGraph) (s : SiteId) : Option VarId :=
  match (g.site s).operand with
  | .reg v => some v
  | .lit .. => none

def isRegister (g : MethodGraph) (s : SiteId) : Bool := (g.varOf? s).isSome

def literal? (g : MethodGraph) (s : SiteId) : Option Int :=
  match (g.site s).operand with
  | .reg _ => none
  | .lit value _ => some value

def typeAt (g : MethodGraph) (s : SiteId) : Ty :=
  match (g.site s).operand with
  | .reg v => (g.var v).ty
  | .lit _ t => t

/-- The type of the site is fixed: by its variable, or for a literal by the slot. -/
def isPinnedAt (g : MethodGraph) (s : SiteId) : Bool :=
  match (g.site s).operand with
  | .reg v => (g.var v).isPinned
  | .lit .. => (g.site s).pinned

/-- The site defines its variable: it is the result of its owner, or the slot of a parameter. -/
def isAssign (g : MethodGraph) (s : SiteId) : Bool :=
  match (g.site s).owner with
  | some i => (g.insn i).result == some s
  | none => (g.varOf? s).any fun v => (g.var v).assign == some s

/-- The instruction that defines a variable; a parameter has none. -/
def assignInsn? (g : MethodGraph) (v : VarId) : Option InsnId :=
  (g.var v).assign.bind fun s => (g.site s).owner

def params (g : MethodGraph) : List VarId :=
  g.live.filter fun v => (g.var v).assign.any fun s => (g.site s).owner.isNone

def instanceArg? (g : MethodGraph) (i : InsnId) : Option SiteId :=
  let insn := g.insn i
  match insn.opcode, insn.callee with
  | .invoke, some callee => if callee.isStatic then none else insn.args.head?
  | _, _ => none

/-- Where the declared parameters start among the arguments. -/
def paramOffset (g : MethodGraph) (i : InsnId) : Nat := if (g.instanceArg? i).isSome then 1 else 0

def phiInput? (g : MethodGraph) (phi : InsnId) (v : VarId) : Option SiteId :=
  (g.insn phi).args.find? fun a => g.varOf? a == some v

def lastInsn? (g : MethodGraph) (b : BlockId) : Option InsnId := (g.block b).insns.getLast?

def leadingPhis (g : MethodGraph) (b : BlockId) : List InsnId :=
  (g.block b).insns.takeWhile fun i => (g.insn i).opcode == .phi

/-! ## Writing one entry -/

def updateBlock (g : MethodGraph) (b : BlockId) (f : Block → Block) : MethodGraph :=
  { g with blocks := g.blocks.modify b.index f }

def updateInsn (g : MethodGraph) (i : InsnId) (f : Insn → Insn) : MethodGraph :=
  { g with insns := g.insns.modify i.index f }

def updateSite (g : MethodGraph) (s : SiteId) (f : Site → Site) : MethodGraph :=
  { g with sites := g.sites.modify s.index f }

def updateVar (g : MethodGraph) (v : VarId) (f : Var → Var) : MethodGraph :=
  { g with vars := g.vars.modify v.index f }

def setVarType (g : MethodGraph) (v : VarId) (t : Option Ty) : MethodGraph :=
  g.updateVar v fun x => { x with type := t }

/-- Sets the type of a site. A register passes it on to its variable. -/
def setType (g : MethodGraph) (s : SiteId) (t : Option Ty) : MethodGraph :=
  match (g.site s).operand with
  | .reg v => g.setVarType v t
  | .lit value _ => g.updateSite s fun x => { x with operand := .lit value (t.getD Ty.anything) }

/-- Pins a variable to a type, which its definition declares from then on. -/
def pinVar (g : MethodGraph) (v : VarId) (t : Ty) : MethodGraph :=
  let g := g.updateVar v fun x => { x with pin := some t }
  match (g.var v).assign with
  | some s => g.updateSite s fun x => { x with declared := t }
  | none => g

def resetVar (g : MethodGraph) (v : VarId) : MethodGraph :=
  g.updateVar v fun x => { x with type := none, bounds := [] }

end MethodGraph

end TypeRecovery
