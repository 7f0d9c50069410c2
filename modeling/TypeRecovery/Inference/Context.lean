import TypeRecovery.Config
import TypeRecovery.Graph.Printer
import TypeRecovery.Hierarchy.Generics

/- What inference works with: the classes, the limits, the faults that end it early, and the records
   that it leaves for a log. -/
namespace TypeRecovery.Inference

/-- What ends an attempt before it has a result. -/
inductive Fault where
  /-- Proposals were nested deeper than allowed. -/
  | tooDeep (site : String) (limit : Nat)
  /-- The search has nothing to try for a variable. -/
  | noCandidates (var method : String)
  /-- A definition or a result that has to be there is missing. -/
  | missing
  /-- The way up to a place for a move goes around in a circle. -/
  | endless
deriving DecidableEq, Repr

namespace Fault

/-- The faults that stand for a limit. -/
def isOverflow : Fault → Bool
  | tooDeep .. | noCandidates .. => true
  | missing | endless => false

/-- The faults that end the method and not only the resolver that meets them. -/
def endsMethod : Fault → Bool
  | missing => false
  | tooDeep .. | noCandidates .. | endless => true

def message : Fault → String
  | tooDeep site limit => s!"type update recursion too deep at {site} (limit {limit})"
  | noCandidates var method => s!"no type candidates for {var} in {method}"
  | missing => "runtime error: invalid memory address or nil pointer dereference"
  | endless => "no end of the way up to a place for a move"

end Fault

inductive LogLevel where
  | debug | warn
deriving DecidableEq, Repr

def LogLevel.name : LogLevel → String
  | .debug => "DEBUG"
  | .warn => "WARN"

structure LogRecord where
  level : LogLevel := .debug
  message : String
  fields : List (String × String) := []
deriving DecidableEq, Repr

/-- The record in one line. -/
def LogRecord.text (r : LogRecord) : String :=
  r.level.name ++ " " ++ r.message ++
    String.join (r.fields.map fun (key, value) => s!" {key}={value}")

structure Context where
  hierarchy : Hierarchy
  config : Config := {}
  /-- Log records are kept. -/
  traced : Bool := false
deriving Repr

namespace Context

def oracle (c : Context) : Option ClassOracle := some c.hierarchy.oracle

def compare (c : Context) (a b : Ty) : Relation := Ty.compare c.oracle a b

def limits (c : Context) : Limits := c.config.limits

end Context

/-- A type variable is mentioned that the method does not know. -/
def outOfScope (g : MethodGraph) (t : Ty) : Bool :=
  t.typeVars.any fun v => !(g.typeVars.map TypeVar.name).contains v.name

end TypeRecovery.Inference
