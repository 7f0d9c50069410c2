import TypeRecovery.Hierarchy.Document

/- Listings: documents that describe methods. A method lists its parameters and blocks; an
   instruction names its kind, its result and its arguments. A site is written `name[!][:type]` for a
   register or `#value[:type]` for a literal, where `!` pins the declared type. -/
namespace TypeRecovery

namespace Listing

structure ParamDecl where
  var : String
  type : String
  receiver : Bool
  pinned : Bool
deriving Repr, Inhabited

structure CalleeDecl where
  cls : String
  name : String
  result : String
  params : List String
  genericResult : String
  genericParams : Option (List String)
  /-- Further type variables of the generic signature. -/
  typeVars : List String
  resolved : Bool
  declaredBy : String
  overloaded : Bool
deriving Repr, Inhabited

structure FieldDecl where
  cls : String
  name : String
  type : String
  typeVars : List String
deriving Repr, Inhabited

structure TargetDecl where
  primary : String
  markers : List String
deriving Repr, Inhabited

structure InsnDecl where
  /-- The kind, with its operator after a dot: `arith.xor`, `if.eq`, `invoke.static`. -/
  op : String
  result : String
  args : List String
  /-- For a phi, the block each argument comes from. -/
  incoming : List Int
  type : String
  soft : Bool
  catches : List String
  anonymousBase : String
  callee : Option CalleeDecl
  field : Option FieldDecl
  target : Option TargetDecl
deriving Repr, Inhabited

structure BlockDecl where
  succs : List Int
  synthetic : Bool
  insns : List InsnDecl
deriving Repr, Inhabited

structure MethodDecl where
  cls : String
  name : String
  typeVars : List String
  noCode : Bool
  params : List ParamDecl
  blocks : List BlockDecl
  /-- The types some variables should end with. -/
  expect : List (String × String)
deriving Repr, Inhabited

end Listing

/-- A listing: classes of its own and the methods. -/
structure Listing where
  classes : List ClassDecl
  methods : List Listing.MethodDecl
deriving Repr, Inhabited

namespace Listing

/-! ## Reading documents -/

def ParamDecl.ofDocument? (d : Document) : Option ParamDecl := do
  let e ← d.entries?
  return {
    var := ← (Entries.get e "var").text?
    type := ← (Entries.get e "type").text?
    receiver := ← (Entries.get e "this").bool?
    pinned := ← (Entries.get e "immutable").bool? }

def CalleeDecl.ofDocument? (d : Document) : Option CalleeDecl := do
  let e ← d.entries?
  return {
    cls := ← (Entries.get e "class").text?
    name := ← (Entries.get e "name").text?
    result := ← (Entries.get e "return").text?
    params := ← (Entries.get e "args").textList?
    genericResult := ← (Entries.get e "generic_return").text?
    genericParams := ← (Entries.get e "generic_args").optionalList? Document.text?
    typeVars := ← (Entries.get e "type_vars").textList?
    resolved := ← (Entries.get e "resolved").bool?
    declaredBy := ← (Entries.get e "decl_class").text?
    overloaded := ← (Entries.get e "overloaded").bool? }

def FieldDecl.ofDocument? (d : Document) : Option FieldDecl := do
  let e ← d.entries?
  return {
    cls := ← (Entries.get e "class").text?
    name := ← (Entries.get e "name").text?
    type := ← (Entries.get e "type").text?
    typeVars := ← (Entries.get e "type_vars").textList? }

def TargetDecl.ofDocument? (d : Document) : Option TargetDecl := do
  let e ← d.entries?
  return {
    primary := ← (Entries.get e "primary").text?
    markers := ← (Entries.get e "markers").textList? }

def InsnDecl.ofDocument? (d : Document) : Option InsnDecl := do
  let e ← d.entries?
  return {
    op := ← (Entries.get e "op").text?
    result := ← (Entries.get e "result").text?
    args := ← (Entries.get e "args").textList?
    incoming := ← (Entries.get e "from").list? Document.int?
    type := ← (Entries.get e "type").text?
    soft := ← (Entries.get e "soft").bool?
    catches := ← (Entries.get e "catch").textList?
    anonymousBase := ← (Entries.get e "anonymous_base").text?
    callee := ← (Entries.get e "method").optional? CalleeDecl.ofDocument?
    field := ← (Entries.get e "field").optional? FieldDecl.ofDocument?
    target := ← (Entries.get e "call_site").optional? TargetDecl.ofDocument? }

def BlockDecl.ofDocument? (d : Document) : Option BlockDecl := do
  let e ← d.entries?
  return {
    succs := ← (Entries.get e "succs").list? Document.int?
    synthetic := ← (Entries.get e "synthetic").bool?
    insns := ← (Entries.get e "insns").list? InsnDecl.ofDocument? }

def MethodDecl.ofDocument? (d : Document) : Option MethodDecl := do
  let e ← d.entries?
  return {
    cls := ← (Entries.get e "class").text?
    name := ← (Entries.get e "name").text?
    typeVars := ← (Entries.get e "type_vars").textList?
    noCode := ← (Entries.get e "no_code").bool?
    params := ← (Entries.get e "params").list? ParamDecl.ofDocument?
    blocks := ← (Entries.get e "blocks").list? BlockDecl.ofDocument?
    expect := ← (← (Entries.get e "expect").entries?).mapM fun (name, t) => do
      return (name, ← t.text?) }

def ofDocument? (d : Document) : Option Listing := do
  let e ← d.entries?
  return {
    classes := ← (Entries.get e "classes").list? ClassDecl.ofDocument?
    methods := ← (Entries.get e "methods").list? MethodDecl.ofDocument? }

/-! ## Rules -/

/-- The first successor that names no block, with its own block. -/
def badSuccessor? (blocks : List BlockDecl) : Option (Nat × Int) :=
  blocks.zipIdx.findSome? fun (b, i) =>
    (b.succs.find? fun s => s < 0 || (blocks.length : Int) ≤ s).map fun s => (i, s)

def MethodDecl.problem? (m : MethodDecl) (i : Nat) : Option String :=
  if m.cls = "" || m.name = "" then some s!"methods[{i}]: class and name are required"
  else if !m.noCode && m.blocks.isEmpty then
    some s!"methods[{i}] {m.cls}.{m.name}: blocks are required"
  else (badSuccessor? m.blocks).map fun (block, s) =>
    s!"methods[{i}] block {block}: successor {s} out of range"

/-- Reads a listing; the path only shows in messages. -/
def ofDocument (path : String) (d : Document) : Except DocumentError Listing :=
  match ofDocument? d with
  | none => .error .shape
  | some l =>
    match l.methods.zipIdx.findSome? fun (m, i) => m.problem? i with
    | some p => .error (.invalid s!"{path}: {p}")
    | none => .ok l

def hierarchy (l : Listing) : Hierarchy := Hierarchy.ofClasses l.classes

end Listing

end TypeRecovery
