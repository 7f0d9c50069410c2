import TypeRecovery.Text.Style
import TypeRecovery.Text.Template

/- Diagnostics: errors, warnings and debug notes about one method, collected in report order. The
   code of a diagnostic tells its severity and its wording. -/
namespace TypeRecovery

open Text (Piece SlotKind Template Value)

inductive Severity where
  | error | warning | debug
deriving DecidableEq, Repr, Inhabited

namespace Severity

def all : List Severity := [error, warning, debug]

def name : Severity → String
  | error => "error" | warning => "warning" | debug => "debug"

def rank : Severity → Nat
  | error => 0 | warning => 1 | debug => 2

/-- The first letter of a code tells how severe it is. -/
def ofCode (code : String) : Severity :=
  match code.toList with
  | 'W' :: _ => warning
  | 'D' :: _ => debug
  | _ => error

def style : Severity → Text.Style
  | error => .bad | warning => .caution | debug => .faint

end Severity

/-- What inference has to say about a method. -/
inductive Notice where
  /-- A site of an instruction, or a parameter, is still open. -/
  | unresolved (site place : String)
  /-- Inference was aborted by a limit. -/
  | aborted (reason : String)
  /-- Inference met a state it cannot work on. -/
  | failed (reason : String)
  | resolverFailed (resolver reason : String)
  | searchFailed
  | searchSkipped (vars limit : Nat)
  | unsettled (rounds : Nat)
  | incompatible (site reason : String)
  | rawApplied (var types : String)
  | searchRejected (var : String)
  | moveRefused (block : String)
  | inserted (count : Nat) (what : String)
  | castsRestored (count : Nat)
deriving DecidableEq, Repr

namespace Notice

def code : Notice → String
  | unresolved .. => "E001" | aborted _ => "E002" | failed _ => "E003"
  | resolverFailed .. => "W001" | searchFailed => "W002" | searchSkipped .. => "W003"
  | unsettled _ => "W004" | incompatible .. => "W005"
  | rawApplied .. => "D001" | searchRejected _ => "D002" | moveRefused _ => "D003"
  | inserted .. => "D004" | castsRestored _ => "D005"

def values : Notice → List Value
  | unresolved site place => [.text site, .text place]
  | aborted reason | failed reason => [.text reason]
  | resolverFailed resolver reason => [.text resolver, .text reason]
  | searchFailed => []
  | searchSkipped vars limit => [.int vars, .int limit]
  | unsettled rounds => [.int rounds]
  | incompatible site reason => [.text site, .text reason]
  | rawApplied var types => [.text var, .text types]
  | searchRejected var => [.text var]
  | moveRefused block => [.text block]
  | inserted count what => [.int count, .text what]
  | castsRestored count => [.int count]

end Notice

structure Diagnostic where
  code : String
  method : String
  message : String
deriving DecidableEq, Repr, Inhabited

namespace Diagnostic

/-- The wording of the known codes. -/
def templates : List (String × Template) := [
  ("E001", [.words "type inference failed for ", .slot .text, .words ": type not resolved in '",
    .slot .text, .words "'"]),
  ("E002", [.words "type inference aborted: ", .slot .either]),
  ("E003", [.words "type inference failed with error: ", .slot .either]),
  ("W001", [.words "resolver ", .slot .text, .words " failed: ", .slot .either]),
  ("W002", [.words "multi-variable type inference failed"]),
  ("W003", [.words "multi-variable search skipped, vars limit reached: ", .slot .number,
    .words " (expected less than ", .slot .number, .words ")"]),
  ("W004", [.words "type fixes did not converge after ", .slot .number, .words " rounds"]),
  ("W005", [.words "incompatible types in '", .slot .text, .words "': ", .slot .either]),
  ("D001", [.words "raw type applied for ", .slot .text, .words ", possible types: ",
    .slot .text]),
  ("D002", [.words "multi-variable search result rejected for ", .slot .text]),
  ("D003", [.words "failed to insert an additional move for type inference into block ",
    .slot .text]),
  ("D004", [.words "additional ", .slot .number, .words " ", .slot .text,
    .words " instructions added to help type inference"]),
  ("D005", [.words "restored ", .slot .number, .words " type variable casts"])]

/-- A diagnostic of any code; a code without wording shows its values. -/
def ofCode (code method : String) (values : List Value) : Diagnostic where
  code
  method
  message :=
    match List.lookup code templates with
    | some template => template.fill values
    | none => Text.joined values

def severity (d : Diagnostic) : Severity := .ofCode d.code

/-- The diagnostic in one line. -/
def text (d : Diagnostic) : String :=
  let place := if d.method = "" then "" else " in " ++ d.method
  s!"{d.severity.name} [{d.code}]{place}: {d.message}"

/-- By method, then severity, then code. -/
def precedes (a b : Diagnostic) : Bool :=
  if a.method ≠ b.method then a.method < b.method
  else if a.severity ≠ b.severity then a.severity.rank < b.severity.rank
  else a.code < b.code

/-- The line of a report. -/
def line (coloured : Bool) (d : Diagnostic) : String :=
  let label := d.severity.style.paint coloured s!"{d.severity.name}[{d.code}]"
  s!"{label} {d.method}: {d.message}\n"

end Diagnostic

def Notice.diagnostic (n : Notice) (method : String) : Diagnostic :=
  .ofCode n.code method n.values

/-- Diagnostics in report order. -/
abbrev Journal := List Diagnostic

namespace Journal

def errorCount (j : Journal) : Nat := j.countP (·.severity == .error)

def warningCount (j : Journal) : Nat := j.countP (·.severity == .warning)

def hasErrors (j : Journal) : Bool := j.any (·.severity == .error)

def withCode (j : Journal) (code : String) : Journal := j.filter (·.code == code)

/-- In order; what does not differ in method, severity and code stays in report order. -/
def sorted (j : Journal) : Journal := j.mergeSort fun a b => !b.precedes a

/-- The text of a report, debug notes only on request. -/
def report (j : Journal) (withDebug coloured : Bool) : String :=
  let wanted := j.sorted.filter fun d => withDebug || d.severity != .debug
  String.join (wanted.map (Diagnostic.line coloured))

end Journal

end TypeRecovery
