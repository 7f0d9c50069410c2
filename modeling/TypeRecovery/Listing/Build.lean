import TypeRecovery.Graph.Edit
import TypeRecovery.Listing.Basic
import TypeRecovery.Text.Numeral
import TypeRecovery.Ty.Reader

/- Building method graphs from listings. Variables come into being where they are first named; a name
   like `r3` or `r3x` asks for that register, others get registers from 1000 on. -/
namespace TypeRecovery.Listing

open TypeRecovery.Text

/-! ## What can go wrong -/

inductive SiteError where
  | type (error : Ty.ReadError)
  | literal (site : String) (numeral : String) (error : NumeralError)
  | nameExpected (site : String)
deriving DecidableEq, Repr

def SiteError.message : SiteError → String
  | .type e => e.message
  | .literal site numeral e => s!"literal {quoted site}: {e.message numeral}"
  | .nameExpected site => s!"site {quoted site}: variable name expected"

inductive CalleeError where
  | unknownKind (name : String)
  | type (error : Ty.ReadError)
deriving DecidableEq, Repr

def CalleeError.message : CalleeError → String
  | .unknownKind name => s!"unknown invoke kind {quoted name}"
  | .type e => e.message

inductive InsnError where
  | unknownOpcode (name : String)
  | unknownOperator (name : String)
  | unknownCondition (name : String)
  | result (error : SiteError)
  | resultNotRegister (site : String)
  | assignedTwice (name : String)
  | phiArity
  | argument (index : Nat) (error : SiteError)
  | incomingRange (block : Int)
  | type (error : Ty.ReadError)
  | anonymousBase (error : Ty.ReadError)
  | caught (error : Ty.ReadError)
  | callee (error : CalleeError)
  | field (error : Ty.ReadError)
  | target (error : Ty.ReadError)
  | calleeMissing
deriving DecidableEq, Repr

def InsnError.message : InsnError → String
  | .unknownOpcode name => s!"unknown instruction {quoted name}"
  | .unknownOperator name => s!"unknown arithmetic operator {quoted name}"
  | .unknownCondition name => s!"unknown condition {quoted name}"
  | .result e => s!"result: {e.message}"
  | .resultNotRegister site => s!"result {quoted site} must be a register"
  | .assignedTwice name => s!"variable {quoted name} assigned twice"
  | .phiArity => "phi needs one incoming block per argument"
  | .argument i e => s!"args[{i}]: {e.message}"
  | .incomingRange block => s!"phi incoming block {block} out of range"
  | .type e => s!"type: {e.message}"
  | .anonymousBase e => s!"anonymous_base: {e.message}"
  | .caught e => s!"catch: {e.message}"
  | .callee e => s!"method: {e.message}"
  | .field e => s!"field: {e.message}"
  | .target e => s!"call_site: {e.message}"
  | .calleeMissing => "method is required"

inductive Problem where
  | typeVar (error : TypeVar.ReadError)
  | paramTwice (name : String)
  | param (name : String) (error : Ty.ReadError)
  | successor (block : Nat) (target : Int)
  | insn (block index : Nat) (op : String) (error : InsnError)
  | expectUnknown (name : String)
  | expect (name : String) (error : Ty.ReadError)
deriving DecidableEq, Repr

def Problem.message : Problem → String
  | .typeVar e => s!"type_vars: {e.message}"
  | .paramTwice name => s!"param {quoted name} declared twice"
  | .param name e => s!"param {name}: {e.message}"
  | .successor block target => s!"block {block}: successor {target} out of range"
  | .insn block index op e => s!"block {block} insn {index} ({op}): {e.message}"
  | .expectUnknown name => s!"expect: unknown variable {quoted name}"
  | .expect name e => s!"expect {name}: {e.message}"

/-- A method that cannot be built. -/
structure BuildError where
  method : String
  problem : Problem
deriving DecidableEq, Repr

def BuildError.message (e : BuildError) : String := s!"{e.method}: {e.problem.message}"

/-! ## Building -/

/-- A method under construction: the graph, its variables by name, and how many registers were given
    to names that do not choose one. -/
structure Draft where
  graph : MethodGraph
  named : List (String × VarId) := []
  chosen : Nat := 0
deriving Inhabited

abbrev Build (ε : Type) := StateT Draft (Except ε)

/-- Restates the error of a step. -/
def Build.within {ε δ α : Type} (f : ε → δ) (x : Build ε α) : Build δ α := fun d =>
  match x d with
  | .ok r => .ok r
  | .error e => .error (f e)

def onGraph {ε : Type} (f : MethodGraph → MethodGraph) : Build ε Unit :=
  modify fun d => { d with graph := f d.graph }

def fromGraph {ε α : Type} (f : MethodGraph → α × MethodGraph) : Build ε α :=
  modifyGet fun d =>
    let (a, g) := f d.graph
    (a, { d with graph := g })

/-- A type text in the scope of the method and of further variables, which it hides. -/
def readType? (extra : List TypeVar) (s : String) : Build Ty.ReadError (Option Ty) := do
  if s = "" then return none
  match Ty.ofText (extra ++ (← get).graph.typeVars) s with
  | .ok t => return some t
  | .error e => throw e

def readTypes (extra : List TypeVar) (ss : List String) : Build Ty.ReadError (List (Option Ty)) :=
  ss.mapM (readType? extra)

/-- The register a name asks for: `r` and digits. -/
def register? (name : String) : Option Int :=
  match name.toList with
  | 'r' :: rest =>
    let digits := rest.takeWhile Char.isDigit
    if digits.isEmpty then none else some (saturatedValue digits)
  | _ => none

def registerFor {ε : Type} (name : String) : Build ε Int := do
  match register? name with
  | some reg => return reg
  | none =>
    let n := (← get).chosen
    modify fun d => { d with chosen := n + 1 }
    return 1000 + n

/-- The variable of a name, new when it is named for the first time. -/
def varNamed {ε : Type} (name : String) : Build ε VarId := do
  match List.lookup name (← get).named with
  | some v => return v
  | none =>
    let reg ← registerFor name
    let v ← fromGraph fun g => g.newVar reg name
    modify fun d => { d with named := d.named ++ [(name, v)] }
    return v

def addParam (p : ParamDecl) : Build Problem Unit := do
  if ((← get).named.lookup p.var).isSome then throw (.paramTwice p.var)
  let t ← Build.within (.param p.var) (readType? [] p.type)
  let reg ← registerFor p.var
  let v ← fromGraph fun g => g.newParam reg t p.var
  onGraph fun g =>
    match (g.var v).assign with
    | some s => g.updateSite s fun x => { x with receiver := p.receiver, pinned := p.pinned }
    | none => g
  modify fun d => { d with named := d.named ++ [(p.var, v)] }

/-- Reads a site, `name[!][:type]` or `#value[:type]`. -/
def readSite (text : String) : Build SiteError SiteId := do
  let (ref, typeText) := match cut? [':'] text.toList with
    | some (ref, t) => (trim ref, trim t)
    | none => (trim text.toList, [])
  let t ← Build.within .type (readType? [] (String.ofList typeText))
  match ref with
  | '#' :: numeral =>
    match integerValue numeral with
    | .ok value => fromGraph fun g => g.newLit value t
    | .error e => throw (.literal (String.ofList ref) (String.ofList numeral) e)
  | _ =>
    let pinned := ref.getLast? == some '!'
    let name := if pinned then ref.dropLast else ref
    if name.isEmpty then throw (.nameExpected text)
    let v ← varNamed (String.ofList name)
    fromGraph fun g =>
      let (s, g) := g.newReg v t
      (s, g.updateSite s fun x => { x with pinned })

/-- The instruction kind and the word after its dot. -/
def readOpcode (op : String) : Except InsnError (Opcode × String) :=
  let (kind, sub) := match cut? ['.'] op.toList with
    | some (kind, sub) => (String.ofList kind, String.ofList sub)
    | none => (op, "")
  match Opcode.ofMnemonic? kind with
  | none => .error (.unknownOpcode kind)
  | some (.arith _) =>
    match ArithOp.ofName? sub with
    | some a => .ok (.arith a, sub)
    | none => .error (.unknownOperator sub)
  | some (.branch _) =>
    match Condition.ofName? sub with
    | some c => .ok (.branch c, sub)
    | none => .error (.unknownCondition sub)
  | some o => .ok (o, sub)

def plainVars (names : List String) : List TypeVar := names.map fun n => ⟨n, []⟩

/-- Something optional, read when it is there. -/
def readOptional {ε α β : Type} (read : α → Build ε β) : Option α → Build ε (Option β)
  | none => pure none
  | some a => some <$> read a

/-- The way of a call; without a word it is virtual. -/
def readKind (kind : String) : Except CalleeError CallKind :=
  if kind = "" then .ok .virtual
  else
    match CallKind.ofName? kind with
    | some k => .ok k
    | none => .error (.unknownKind kind)

def readCallee (d : CalleeDecl) (kind : String) : Build CalleeError Callee := do
  let kind ← readKind kind
  let extra := plainVars d.typeVars
  Build.within .type do
    let result ← readType? [] d.result
    let genericResult ← readType? extra d.genericResult
    let params ← readTypes [] d.params
    let genericParams ← readOptional (readTypes extra) d.genericParams
    return {
      cls := d.cls, name := d.name, kind
      result := result.getD Ty.void
      params, genericResult, genericParams
      resolved := d.resolved, declaredBy := d.declaredBy, overloaded := d.overloaded }

def readField (d : FieldDecl) : Build Ty.ReadError FieldRef := do
  return { cls := d.cls, name := d.name, type := ← readType? (plainVars d.typeVars) d.type }

def readTarget (d : TargetDecl) : Build Ty.ReadError CallTarget := do
  return { primary := ← readType? [] d.primary, markers := ← readTypes [] d.markers }

/-- Adds the result slot that an instruction names. -/
def addResult (i : InsnId) (text : String) : Build InsnError Unit := do
  let s ← Build.within .result (readSite text)
  match (← get).graph.varOf? s with
  | none => throw (.resultNotRegister text)
  | some v =>
    let x := (← get).graph.var v
    if x.assign.isSome then throw (.assignedTwice x.name)
    onGraph fun g => g.setResult i (some s)

/-- Adds the arguments from index `n` on; a phi also takes the block each comes from. -/
def addArgs (i : InsnId) (isPhi : Bool) : Nat → List String → List Int → Build InsnError Unit
  | _, [], _ => pure ()
  | n, text :: texts, sources => do
    let s ← Build.within (.argument n) (readSite text)
    if isPhi then
      let source := sources.headD 0
      if source < 0 || ((← get).graph.blocks.size : Int) ≤ source then
        throw (.incomingRange source)
      onGraph fun g => g.addPhiArg i s ⟨source.toNat⟩
    else onGraph fun g => g.addArg i s
    addArgs i isPhi (n + 1) texts sources.tail

def buildInsn (d : InsnDecl) : Build InsnError InsnId := do
  let (opcode, sub) ← readOpcode d.op
  let i ← fromGraph fun g => g.newInsn { opcode, soft := d.soft }
  if d.result ≠ "" then addResult i d.result
  if opcode = .phi && d.incoming.length ≠ d.args.length then throw .phiArity
  addArgs i (opcode = .phi) 0 d.args d.incoming
  let type ← Build.within .type (readType? [] d.type)
  let anonymousBase ← Build.within .anonymousBase (readType? [] d.anonymousBase)
  let catches ← Build.within .caught (readTypes [] d.catches)
  let callee ← Build.within .callee (readOptional (readCallee · sub) d.callee)
  let field ← Build.within .field (readOptional readField d.field)
  let target ← Build.within .target (readOptional readTarget d.target)
  if (opcode = .invoke || opcode = .constructor) && callee.isNone then throw .calleeMissing
  onGraph fun g => g.updateInsn i fun x =>
    { x with type, anonymousBase, catches, callee, field, target }
  return i

/-- Adds the edges of a block to its successors. -/
def addEdges (i : Nat) (b : BlockDecl) : Build Problem Unit :=
  b.succs.forM fun s => do
    if s < 0 || ((← get).graph.blocks.size : Int) ≤ s then throw (.successor i s)
    onGraph fun g => g.connect ⟨i⟩ ⟨s.toNat⟩

def addCode (i : Nat) (b : BlockDecl) : Build Problem Unit :=
  b.insns.zipIdx.forM fun (d, j) => do
    let insn ← Build.within (.insn i j d.op) (buildInsn d)
    onGraph fun g => g.append ⟨i⟩ insn

def readExpected (name text : String) : Build Problem (String × Option Ty) := do
  if ((← get).named.lookup name).isNone then throw (.expectUnknown name)
  return (name, ← Build.within (.expect name) (readType? [] text))

def addTypeVar (text : String) : Build Problem Unit := do
  match TypeVar.ofText (← get).graph.typeVars text with
  | .ok v => onGraph fun g => { g with typeVars := g.typeVars ++ [v] }
  | .error e => throw (.typeVar e)

def buildMethod (m : MethodDecl) : Build Problem (List (String × Option Ty)) := do
  m.typeVars.forM addTypeVar
  m.params.forM addParam
  m.blocks.forM fun b => onGraph fun g => (g.newBlock b.synthetic).2
  m.blocks.zipIdx.forM fun (b, i) => addEdges i b
  m.blocks.zipIdx.forM fun (b, i) => addCode i b
  m.expect.mapM fun (name, text) => readExpected name text

/-- A method graph with its variables by name and the types expected of some of them. -/
structure Built where
  graph : MethodGraph
  named : List (String × VarId)
  expect : List (String × Option Ty)
deriving Inhabited

def MethodDecl.build (m : MethodDecl) : Except BuildError Built :=
  let start : MethodGraph := { cls := m.cls, name := m.name, noCode := m.noCode }
  match buildMethod m { graph := start } with
  | .ok (expect, d) => .ok ⟨d.graph, d.named, expect⟩
  | .error problem => .error ⟨start.fullName, problem⟩

end TypeRecovery.Listing
