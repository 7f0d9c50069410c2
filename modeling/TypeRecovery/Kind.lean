/- Storage kinds: the category of value a register holds. Their order is the widening rank. -/
namespace TypeRecovery

inductive Kind where
  | boolean | char | byte | short | int | float | long | double
  /-- Any class reference. -/
  | object
  /-- An array reference. -/
  | array
  /-- The result of a method that gives none. -/
  | void
deriving DecidableEq, Repr, Inhabited

namespace Kind

/-- Every kind, by rank. -/
def all : List Kind :=
  [boolean, char, byte, short, int, float, long, double, object, array, void]

def rank : Kind → Nat
  | boolean => 0 | char => 1 | byte => 2 | short => 3 | int => 4 | float => 5
  | long => 6 | double => 7 | object => 8 | array => 9 | void => 10

def name : Kind → String
  | boolean => "boolean" | char => "char" | byte => "byte" | short => "short" | int => "int"
  | float => "float" | long => "long" | double => "double" | object => "object"
  | array => "array" | void => "void"

def ofName? (s : String) : Option Kind := all.find? (·.name == s)

/-- A kind that holds an arithmetic value; a truth value is none. -/
def isNumeric : Kind → Bool
  | char | byte | short | int | float | long | double => true
  | _ => false

/-- How many registers a value of the kind takes. -/
def registers : Kind → Nat
  | long | double => 2
  | void => 0
  | _ => 1

/-- The kind of lower rank. -/
def lower (a b : Kind) : Kind := if a.rank < b.rank then a else b

/-- The given kinds by rank, each once. -/
def ranked (kinds : List Kind) : List Kind := all.filter (kinds.contains ·)

theorem mem_all (k : Kind) : k ∈ all := by cases k <;> decide

theorem ofName?_name (k : Kind) : ofName? k.name = some k := by cases k <;> decide +kernel

@[simp] theorem mem_ranked {k : Kind} {kinds : List Kind} : k ∈ ranked kinds ↔ k ∈ kinds := by
  simp [ranked, mem_all]

end Kind

end TypeRecovery
