import TypeRecovery.Inference.Bounds
import TypeRecovery.Inference.Proposal

/- Propagation: a candidate type for a variable is offered to every site of the variable, and each
   site passes it on to the other sites of its instruction. The attempt only reads the graph; what it
   would change is collected in a proposal. -/
namespace TypeRecovery.Inference

/-- The answer to an offered type. -/
inductive Verdict where
  | rejected | same | changed
deriving DecidableEq, Repr, Inhabited

def Verdict.name : Verdict → String
  | .rejected => "REJECT"
  | .same => "SAME"
  | .changed => "CHANGED"

/-- Another answer in the place of a rejection. -/
def Verdict.orElse : Verdict → Verdict → Verdict
  | .rejected, other => other
  | v, _ => v

/-- How strict an attempt is. -/
structure Flags where
  /-- A wider type than the current one is acceptable. -/
  acceptWider : Bool := false
  /-- A site that has the type already passes it on all the same. -/
  revisitSame : Bool := false
  /-- A type that cannot be compared with the current one is rejected. -/
  refuseUndetermined : Bool := false
deriving DecidableEq, Repr, Inhabited

/-- What stays the same during one attempt. -/
structure Trial where
  context : Context
  graph : MethodGraph
  flags : Flags := {}

/-- What one attempt builds up. -/
structure Attempt where
  proposal : Proposal := {}
  log : Array LogRecord := #[]

/-- An attempt in progress. A fault ends it and keeps the log. -/
abbrev Propagation := ExceptT Fault (StateM Attempt)

/-- Passing a type on to a site. -/
abbrev Offer := SiteId → Ty → Propagation Verdict

namespace Trial

variable (x : Trial)

def note (records : List LogRecord) : Propagation Unit :=
  if x.context.traced then modify fun a => { a with log := a.log ++ records } else pure ()

/-- The proposed type of a site, or its current one. -/
def typeNow (s : SiteId) : Propagation Ty := return (← get).proposal.typeAt x.graph s

/-! ## Checks at one site -/

/-- What a first look at a site and a type comes to. -/
inductive Finding where
  /-- The site has the type already. -/
  | same
  | wildcard
  | conflict
  | undetermined
  | pinned
  | wider
  | outOfScope
  | passed
deriving DecidableEq, Repr

/-- Holds a type against the current type of a site. -/
def examine (s : SiteId) (t : Ty) : Finding :=
  let current := x.graph.typeAt s
  let r := x.context.compare t current
  if current = t then if x.flags.revisitSame then .passed else .same
  else if t.isWildcard then .wildcard
  else if r.isConflict then .conflict
  else if r = .undetermined && x.flags.refuseUndetermined then .undetermined
  else if x.graph.isPinnedAt s && current.isKnown then .pinned
  else if r.isWider && !x.flags.acceptWider then .wider
  else if outOfScope x.graph t then .outOfScope
  else .passed

/-- The record about a rejected type. -/
def findingRecords (s : SiteId) (t : Ty) (f : Finding) : List LogRecord :=
  let fields := [("arg", x.graph.siteText s), ("candidate", t.text),
    ("current", (x.graph.typeAt s).text)]
  match f with
  | .conflict => [{ message := "type conflict", fields }]
  | .wider => [{ message := "wider type rejected", fields }]
  | _ => []

/-- The type passes the given bounds as the proposal stands. -/
def passesBounds (bounds : List Bound) (t : Ty) : Propagation Bool := do
  let view := (← get).proposal.typeAt x.graph
  x.note (boundWarnings x.context x.graph view t bounds)
  return withinBounds x.context x.graph view bounds t

/-- The type passes the bounds of a register, or is the type of a literal. -/
def passesAt (s : SiteId) (t : Ty) : Propagation Bool :=
  match x.graph.varOf? s with
  | some v => x.passesBounds (x.graph.var v).bounds t
  | none => return x.graph.typeAt s == t

/-! ## Offers to several sites -/

/-- Makes offers in order until one is rejected. Otherwise tells whether all had the type. -/
def offerAll (offer : Offer) (t : Ty) : List SiteId → Propagation (Option Bool)
  | [] => return some true
  | s :: rest => do
    match ← offer s t with
    | .rejected => return none
    | .same => offerAll offer t rest
    | .changed => return (← offerAll offer t rest).map fun _ => false

/-- Makes all offers, whatever the answers. Tells whether none changed anything. -/
def suggestAll (offer : Offer) (t : Ty) : List SiteId → Propagation Bool
  | [] => return true
  | s :: rest => do
    let v ← offer s t
    let unchanged ← suggestAll offer t rest
    return v != .changed && unchanged

def unanimous : Option Bool → Verdict
  | none => .rejected
  | some true => .same
  | some false => .changed

/-! ## Instructions -/

/-- A constant: the result and the literal have one type. -/
def throughConst (offer : Offer) (i : InsnId) (s : SiteId) (t : Ty) : Propagation Verdict :=
  let insn := x.graph.insn i
  let other := if x.graph.isAssign s then insn.args.head? else insn.result
  match other with
  | none => return .changed
  | some a => offer a t

/-- A move: the result is equal to or wider than the source. -/
def throughMove (offer : Offer) (i : InsnId) (s : SiteId) (t : Ty) : Propagation Verdict := do
  let insn := x.graph.insn i
  match insn.result, insn.args.head? with
  | some result, some source =>
    let defined := x.graph.isAssign s
    let other := if defined then source else result
    let current := x.graph.typeAt other
    if current.isKnown then
      let r := x.context.compare t current
      let fits := r.isEqual || if defined then r.isWider else r.isNarrow
      if !fits then return .rejected
      if !(← x.passesAt other t) then return .rejected
      return (← offer other t).orElse .changed
    else
      let bound := (x.graph.site s).receiver || x.graph.isPinnedAt s
      return (← offer other t).orElse (if bound then .changed else .rejected)
  | _, _ => return .changed

/-- A phi: the result and all inputs have one type. -/
def throughPhi (offer : Offer) (i : InsnId) (s : SiteId) (t : Ty) : Propagation Verdict := do
  let insn := x.graph.insn i
  if x.graph.isAssign s then
    return unanimous (← offerAll offer t (insn.args.filter (· != s)))
  else
    match insn.result with
    | none => throw .missing
    | some result => offer result t

/-- Suggests one type for the result and all operands but `skip`. -/
def throughOperands (offer : Offer) (i : InsnId) (s : SiteId) (t : Ty) (skip : Option SiteId) :
    Propagation Verdict := do
  let insn := x.graph.insn i
  if !x.graph.isAssign s then
    match insn.result with
    | some result => let _ ← offer result t
    | none => pure ()
  let others := insn.args.filter fun a => a != s && some a != skip
  return if ← suggestAll offer t others then .same else .changed

/-- An operation: bits of truth values stay truth values, and the amount of a shift is apart. -/
def throughArith (offer : Offer) (op : ArithOp) (i : InsnId) (s : SiteId) (t : Ty) :
    Propagation Verdict := do
  let insn := x.graph.insn i
  if op.isBitwise && t = Ty.boolean then
    let sites := insn.result.toList ++ insn.args
    return unanimous (← offerAll offer t (sites.filter (· != s)))
  let amount := if op.isShift then insn.args[1]? else none
  if amount = some s then return .same
  x.throughOperands offer i s t amount

/-- An array read: a primitive element may be widened into the result. -/
def throughArrayRead (offer : Offer) (i : InsnId) (s : SiteId) (t : Ty) :
    Propagation Verdict := do
  let insn := x.graph.insn i
  match insn.args.head? with
  | none => return .changed
  | some array =>
    if x.graph.isAssign s then
      let verdict ← offer array (.array t)
      let now ← x.typeNow array
      let widens := now.elem?.any fun e =>
        now.isKnown && e.isPrim && x.context.compare t e == .wider
      return verdict.orElse (if widens then .changed else .rejected)
    else if s = array then
      match t.elem?, insn.result with
      | none, _ => return .rejected
      | some _, none => return .changed
      | some e, some result => offer result e
    else return .same

/-- An array write: an array of a class takes narrower references, and one of a primitive takes
    narrower primitives. -/
def throughArrayWrite (offer : Offer) (i : InsnId) (s : SiteId) (t : Ty) :
    Propagation Verdict := do
  match (x.graph.insn i).args with
  | array :: _ :: value :: _ =>
    if s = array then
      match t.elem? with
      | none => return .rejected
      | some e =>
        let verdict ← offer value e
        let put := x.graph.typeAt value
        let takes := put.isKnown && put.isReference && (x.context.compare e put).isWider
        return verdict.orElse (if takes then .changed else .rejected)
    else if s = value then
      let verdict ← offer array (.array t)
      let takes := t.isPrim && (← x.typeNow array).elem?.any fun e =>
        e.isKnown && e.isPrim && x.context.compare t e == .narrow
      return verdict.orElse (if takes then .changed else .rejected)
    else return .same
  | _ => return .changed

/-- Two types may be compared with each other: both are references, both arrays, or primitives of
    the same size. -/
def comparable (t other : Ty) : Bool :=
  (t.isReference && other.canBeObject) || (t.isArray && other.canBeArray) ||
    match t with
    | .prim k => other.canBePrim k || (other.isKnown && t.registers == other.registers)
    | _ => false

/-- A branch: both operands have one type, or at least types that may be compared. -/
def throughBranch (offer : Offer) (i : InsnId) (s : SiteId) (t : Ty) : Propagation Verdict := do
  match (x.graph.insn i).args with
  | a :: b :: _ =>
    let other := if a = s then b else a
    let verdict ← offer other t
    return verdict.orElse (if comparable t (x.graph.typeAt other) then .same else .rejected)
  | _ => return .same

def bothInterfaces (a b : Ty) : Bool :=
  a.isReference && b.isReference && x.context.hierarchy.isInterface a.className &&
    x.context.hierarchy.isInterface b.className

/-- A checked cast: the operand must not contradict the cast type. -/
def throughCast (offer : Offer) (i : InsnId) (s : SiteId) (t : Ty) : Propagation Verdict := do
  let insn := x.graph.insn i
  if x.graph.isAssign s then
    match insn.args.head? with
    | none => return .same
    | some source => return (← offer source t).orElse .same
  else
    match insn.type with
    | none => return .changed
    | some target =>
      match x.context.compare t target with
      | .conflict => return if x.bothInterfaces t target then .changed else .rejected
      | .conflictByArgs => return if insn.soft then .changed else .rejected
      | _ => return .changed

/-- A declared type that can be used at a call: no wildcard, and all its variables in scope. -/
def usable? (t : Option Ty) : Option Ty :=
  t.filter fun t => !t.isWildcard && !outOfScope x.graph t

/-- Offers declared types to sites in order. A rejection ends it, and counts only if the declared
    type is narrower than the current one. -/
def offerDeclared (offer : Offer) (unchanged : Bool) :
    List (SiteId × Option Ty) → Propagation Verdict
  | [] => return if unchanged then .same else .changed
  | (s, declared) :: rest => do
    if x.graph.isPinnedAt s then offerDeclared offer unchanged rest
    else
      match x.usable? declared with
      | none => offerDeclared offer unchanged rest
      | some t =>
        match ← offer s t with
        | .rejected =>
          return if (x.context.compare t (x.graph.typeAt s)).isNarrow then .rejected else .same
        | .same => offerDeclared offer unchanged rest
        | .changed => offerDeclared offer false rest

/-- A call: a new type of the receiver settles what the declared signature stands for. -/
def throughCall (offer : Offer) (i : InsnId) (s : SiteId) (t : Ty) : Propagation Verdict := do
  let insn := x.graph.insn i
  if x.graph.isAssign s || x.graph.instanceArg? i ≠ some s then return .same
  match insn.callee with
  | none => return .same
  | some callee =>
    if !callee.resolved then return .same
    let mapping := x.context.hierarchy.substitution t
    let seen (t : Option Ty) : Option Ty := t.map (Ty.replace mapping)
    let result := insn.result.toList.map fun r =>
      (r, seen (some (callee.genericResult.getD callee.result)))
    let params := (insn.args.drop (x.graph.paramOffset i)).zip (callee.paramTypes.map seen)
    x.offerDeclared offer true (result ++ params)

/-- What a new type at a site means for the rest of its instruction. -/
def through (offer : Offer) (s : SiteId) (t : Ty) : Propagation Verdict :=
  match (x.graph.site s).owner with
  | none => return .same
  | some i =>
    match (x.graph.insn i).opcode with
    | .const => x.throughConst offer i s t
    | .move => x.throughMove offer i s t
    | .phi => x.throughPhi offer i s t
    | .aget => x.throughArrayRead offer i s t
    | .aput => x.throughArrayWrite offer i s t
    | .branch _ => x.throughBranch offer i s t
    | .arith op => x.throughArith offer op i s t
    | .neg | .not => x.throughOperands offer i s t none
    | .checkCast => x.throughCast offer i s t
    | .invoke | .constructor => x.throughCall offer i s t
    | .invokeCustom => return .same
    | _ => return .changed

/-! ## Variables and sites -/

/-- Asks for a type at a site: it is proposed, then passed on, and taken back on rejection. -/
abbrev Request := Option SiteId → Ty → Propagation Verdict

def takeBack (sites : List SiteId) : Propagation Unit :=
  modify fun a => { a with proposal := sites.foldl Proposal.rollback a.proposal }

/-- Offers a type to all sites of a variable. On rejection only these are taken back. -/
def offerVar (request : Request) (v : VarId) (t : Ty) : Propagation Verdict := do
  let var := x.graph.var v
  if var.pin.any (· != t) then return .rejected
  if !(← x.passesBounds var.bounds t) then
    x.note [{ message := "type rejected by bounds",
              fields := [("var", var.text), ("candidate", t.text)] }]
    return .rejected
  let first ← request var.assign t
  let rest ←
    if first = .rejected then pure none
    else offerAll (fun s t => request (some s) t) t var.uses
  if rest.isNone then takeBack (var.assign.toList ++ var.uses)
  return unanimous rest

/-- Offers a type to a site. One that has been asked already is not asked again. -/
def offerSite (request : Request) : Offer := fun s t => do
  if !(← get).proposal.isOpen s then return .changed
  let finding := x.examine s t
  x.note (x.findingRecords s t finding)
  match finding with
  | .same => return .same
  | .passed =>
    match x.graph.varOf? s with
    | some v => x.offerVar request v t
    | none => request (some s) t
  | _ => return .rejected

/-- A request with `depth` further levels allowed. -/
def request : Nat → Request
  | depth, none, _ =>
    throw (if depth = 0 then .tooDeep "<nil>" x.context.limits.updateDepth else .missing)
  | depth, some s, t => do
    if !(← get).proposal.isOpen s then return .changed
    modify fun a => { a with proposal := a.proposal.request s t }
    match depth with
    | 0 => throw (.tooDeep (x.graph.siteText s) x.context.limits.updateDepth)
    | depth + 1 =>
      let v ← x.through (x.offerSite (request depth)) s t
      if v = .rejected then takeBack [s]
      return v

/-- One attempt to give a type to a site and all that hangs on it. -/
def run (s : SiteId) (t : Ty) : Except Fault Verdict × Attempt :=
  (x.offerSite (x.request x.context.limits.updateDepth) s t).run.run {}

end Trial

end TypeRecovery.Inference
