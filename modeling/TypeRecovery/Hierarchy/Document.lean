import TypeRecovery.Document
import TypeRecovery.Hierarchy.Basic

/- Class documents: a mapping with the list `classes`. Every class has a name, no name comes twice,
   and no class extends itself. -/
namespace TypeRecovery

/-- Why a document is refused. -/
inductive DocumentError where
  /-- A value has the wrong shape. -/
  | shape
  /-- The document breaks a rule of its own, stated in full. -/
  | invalid (message : String)
deriving DecidableEq, Repr

namespace ClassDecl

def ofDocument? (d : Document) : Option ClassDecl := do
  let e ← d.entries?
  return {
    name := ← (Entries.get e "name").text?
    super := ← (Entries.get e "super").text?
    interfaces := ← (Entries.get e "interfaces").textList?
    isInterface := ← (Entries.get e "interface").bool?
    typeParams := ← (Entries.get e "type_params").textList? }

def listOfDocument? (d : Document) : Option (List ClassDecl) := do
  let e ← d.entries?
  (Entries.get e "classes").list? ofDocument?

/-- What is wrong with the class at a place in the list, given the names before it. -/
def problem? (before : List String) (i : Nat) (c : ClassDecl) : Option String :=
  if c.name = "" then some s!"classes[{i}]: name is required"
  else if before.contains c.name then some s!"classes[{i}]: duplicate class {c.name}"
  else if c.super = c.name then some s!"classes[{i}] ({c.name}): class extends itself"
  else none

/-- The first problem of a list. -/
def firstProblem? (before : List String) (i : Nat) : List ClassDecl → Option String
  | [] => none
  | c :: cs =>
    match problem? before i c with
    | some p => some p
    | none => firstProblem? (c.name :: before) (i + 1) cs

end ClassDecl

namespace Hierarchy

/-- Reads a class document; the path only shows in messages. -/
def ofDocument (path : String) (d : Document) : Except DocumentError Hierarchy :=
  match ClassDecl.listOfDocument? d with
  | none => .error .shape
  | some classes =>
    match ClassDecl.firstProblem? [] 0 classes with
    | some p => .error (.invalid s!"{path}: {p}")
    | none => .ok (ofClasses classes)

end Hierarchy

end TypeRecovery
