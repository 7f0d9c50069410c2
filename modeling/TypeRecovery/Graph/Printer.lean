import TypeRecovery.Graph.Basic
import TypeRecovery.Ty.Printer

/- The text of variables, sites and instructions, and names for the places where they stand. -/
namespace TypeRecovery

def Var.text (v : Var) : String :=
  let name := if v.name = "" then "" else s!"({v.name})"
  s!"r{v.reg}v{v.version}{name}"

def BlockId.text (b : BlockId) : String := s!"B{b.index}"

namespace MethodGraph

def varText (g : MethodGraph) (v : VarId) : String := (g.var v).text

def siteText (g : MethodGraph) (s : SiteId) : String :=
  match (g.site s).operand with
  | .reg v => s!"{g.varText v}:{(g.var v).ty.text}"
  | .lit value t => s!"{value}:{t.text}"

/-- What a message calls a site: its variable, or the literal with its type. -/
def siteName (g : MethodGraph) (s : SiteId) : String :=
  match g.varOf? s with
  | some v => g.varText v
  | none => g.siteText s

/-- The operator, the callee or the operand type after the mnemonic. -/
def qualifierText (i : Insn) : String :=
  match i.opcode with
  | .arith op => "." ++ op.name
  | .branch cond => "." ++ cond.name
  | .invoke => (i.callee.map fun c => " " ++ c.text).getD ""
  | .checkCast | .cast | .newInstance | .newArray | .constClass =>
    (i.type.map fun t => s!" ({t.text})").getD ""
  | _ => ""

def insnText (g : MethodGraph) (id : InsnId) : String :=
  let i := g.insn id
  let result := (i.result.map fun s => g.siteText s ++ " = ").getD ""
  let args := if i.args.isEmpty then "" else " " ++ String.intercalate ", " (i.args.map g.siteText)
  result ++ i.opcode.mnemonic ++ qualifierText i ++ args

/-- A placed instruction after its block, with marks for soft and synthetic ones. -/
def codeText (g : MethodGraph) (b : BlockId) (id : InsnId) : String :=
  let i := g.insn id
  s!"{b.text}: {g.insnText id}" ++ (if i.soft then " [soft]" else "") ++
    (if i.synthetic then " [synthetic]" else "")

/-- All code, line by line. -/
def code (g : MethodGraph) : List String :=
  g.blockIds.flatMap fun b => (g.block b).insns.map (g.codeText b)

/-- Every variable in use with its type. -/
def varLines (g : MethodGraph) : List String :=
  g.live.map fun v => s!"{g.varText v}: {(g.var v).ty.text}"

/-! ## Places -/

def insnPlace (g : MethodGraph) (i : InsnId) : String :=
  match (g.insn i).block with
  | none => "detached"
  | some b =>
    match (g.block b).insns.idxOf? i with
    | some n => s!"{b.text}.{n}"
    | none => s!"{b.text}.-1"

def sitePlace (g : MethodGraph) (s : SiteId) : String :=
  match (g.site s).owner with
  | none => "free"
  | some i =>
    let slot :=
      if (g.insn i).result == some s then "="
      else
        match (g.insn i).args.idxOf? s with
        | some n => s!"#{n}"
        | none => "#-1"
    g.insnPlace i ++ slot

/-- The declared type of a slot, with marks for a pinned slot and for the receiver. -/
def declaredText (g : MethodGraph) (s : SiteId) : String :=
  let x := g.site s
  x.declared.text ++ (if x.pinned then "!" else "") ++ (if x.receiver then " this" else "")

end MethodGraph

end TypeRecovery
