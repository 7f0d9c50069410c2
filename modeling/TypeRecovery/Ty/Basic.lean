import TypeRecovery.Kind

/- Types of values: what is known of a register at a point of inference. A type is settled
   ("known") unless it is a hole, or an array of holes; a hole lists the kinds still possible. -/
namespace TypeRecovery

/-- The side from which a wildcard is bounded. -/
inductive Variance where
  | free
  /-- Bounded from above: `? extends T`. -/
  | upper
  /-- Bounded from below: `? super T`. -/
  | lower
deriving DecidableEq, Repr, Inhabited

inductive Ty where
  | prim (kind : Kind)
  /-- A class reference with its type arguments and, for an inner class, the enclosing type. -/
  | cls (name : String) (args : List Ty) (outer : Option Ty)
  | var (name : String) (bounds : List Ty)
  | wildcard (variance : Variance) (inner : Option Ty)
  | array (elem : Ty)
  /-- A placeholder: any of the listed kinds. -/
  | hole (kinds : List Kind)
deriving Repr, Inhabited

/-- A declared type variable. -/
structure TypeVar where
  name : String
  bounds : List Ty
deriving Repr, Inhabited

def TypeVar.ty (v : TypeVar) : Ty := .var v.name v.bounds

namespace Ty

mutual
def decEq : (a b : Ty) → Decidable (a = b)
  | .prim k, .prim l => decidable_of_iff (k = l) (by simp)
  | .cls n as o, .cls m bs p =>
    match instDecidableEqString n m, decEqList as bs, decEqOption o p with
    | isTrue h₁, isTrue h₂, isTrue h₃ => isTrue (by rw [h₁, h₂, h₃])
    | isFalse h, _, _ => isFalse (by simp [h])
    | _, isFalse h, _ => isFalse (by simp [h])
    | _, _, isFalse h => isFalse (by simp [h])
  | .var n as, .var m bs =>
    match instDecidableEqString n m, decEqList as bs with
    | isTrue h₁, isTrue h₂ => isTrue (by rw [h₁, h₂])
    | isFalse h, _ => isFalse (by simp [h])
    | _, isFalse h => isFalse (by simp [h])
  | .wildcard v o, .wildcard w p =>
    match instDecidableEqVariance v w, decEqOption o p with
    | isTrue h₁, isTrue h₂ => isTrue (by rw [h₁, h₂])
    | isFalse h, _ => isFalse (by simp [h])
    | _, isFalse h => isFalse (by simp [h])
  | .array a, .array b =>
    match decEq a b with
    | isTrue h => isTrue (by rw [h])
    | isFalse h => isFalse (by simp [h])
  | .hole ks, .hole ls => decidable_of_iff (ks = ls) (by simp)
  | .prim _, .cls .. | .prim _, .var .. | .prim _, .wildcard .. | .prim _, .array _
  | .prim _, .hole _ | .cls .., .prim _ | .cls .., .var .. | .cls .., .wildcard ..
  | .cls .., .array _ | .cls .., .hole _ | .var .., .prim _ | .var .., .cls ..
  | .var .., .wildcard .. | .var .., .array _ | .var .., .hole _ | .wildcard .., .prim _
  | .wildcard .., .cls .. | .wildcard .., .var .. | .wildcard .., .array _ | .wildcard .., .hole _
  | .array _, .prim _ | .array _, .cls .. | .array _, .var .. | .array _, .wildcard ..
  | .array _, .hole _ | .hole _, .prim _ | .hole _, .cls .. | .hole _, .var ..
  | .hole _, .wildcard .. | .hole _, .array _ => isFalse (by simp)
def decEqList : (as bs : List Ty) → Decidable (as = bs)
  | [], [] => isTrue rfl
  | a :: as, b :: bs =>
    match decEq a b, decEqList as bs with
    | isTrue h₁, isTrue h₂ => isTrue (by rw [h₁, h₂])
    | isFalse h, _ => isFalse (by simp [h])
    | _, isFalse h => isFalse (by simp [h])
  | [], _ :: _ | _ :: _, [] => isFalse (by simp)
def decEqOption : (a b : Option Ty) → Decidable (a = b)
  | none, none => isTrue rfl
  | some a, some b =>
    match decEq a b with
    | isTrue h => isTrue (by rw [h])
    | isFalse h => isFalse (by simp [h])
  | none, some _ | some _, none => isFalse (by simp)
end

instance : DecidableEq Ty := decEq

end Ty

deriving instance DecidableEq for TypeVar

namespace Ty

/-! ## Named types -/

def objectClass : String := "java.lang.Object"

/-- The class without type arguments. -/
def raw (name : String) : Ty := .cls name [] none

def object : Ty := raw objectClass
def boolean : Ty := .prim .boolean
def int : Ty := .prim .int
def void : Ty := .prim .void

/-- The placeholder of the given kinds, by rank. -/
def holeOf (kinds : List Kind) : Ty := .hole (Kind.ranked kinds)

/-- The fully open placeholder. -/
def anything : Ty := .hole Kind.all

/-- The placeholder of a reference. -/
def anyReference : Ty := holeOf [.object, .array]

/-- The plainest known type of a kind. -/
def ofKind : Kind → Ty
  | .object => object
  | .array => .array object
  | k => .prim k

/-- An array of `dim` levels over `t`. -/
def arrayOf (t : Ty) : Nat → Ty
  | 0 => t
  | dim + 1 => .array (arrayOf t dim)

/-! ## Predicates and parts -/

def isKnown : Ty → Bool
  | .hole _ => false
  | .array t => t.isKnown
  | _ => true

/-- The storage kind; a placeholder has none. -/
def kind? : Ty → Option Kind
  | .prim k => some k
  | .cls .. | .var .. | .wildcard .. => some .object
  | .array _ => some .array
  | .hole _ => none

def isPrim : Ty → Bool
  | .prim _ => true
  | _ => false

/-- A class, a type variable or a wildcard. -/
def isReference : Ty → Bool
  | .cls .. | .var .. | .wildcard .. => true
  | _ => false

def isArray : Ty → Bool
  | .array _ => true
  | _ => false

def isVar : Ty → Bool
  | .var .. => true
  | _ => false

def isWildcard : Ty → Bool
  | .wildcard .. => true
  | _ => false

/-- A class with type arguments, its own or those of an enclosing class. -/
def isGeneric : Ty → Bool
  | .cls _ (_ :: _) _ => true
  | .cls _ [] (some outer) => outer.isGeneric
  | _ => false

/-- The class or variable name behind a reference; empty for anything else. -/
def className : Ty → String
  | .cls name _ _ => name
  | .var name _ => name
  | .wildcard .. => objectClass
  | _ => ""

/-- The universal class itself, without arguments and not enclosed. -/
def isObjectClass : Ty → Bool
  | .cls name [] none => name == objectClass
  | _ => false

/-- The kinds a value of this type may have. -/
def possibleKinds : Ty → List Kind
  | .hole ks => ks
  | t => t.kind?.toList

def admits (t : Ty) (k : Kind) : Bool := t.possibleKinds.contains k

def canBeObject : Ty → Bool
  | .hole ks => ks.contains .object
  | t => t.isReference

def canBeArray : Ty → Bool
  | .hole ks => ks.contains .array
  | t => t.isArray

def canBePrim (k : Kind) : Ty → Bool
  | .hole ks => ks.contains k
  | .prim l => l == k
  | _ => false

/-- Some numeric primitive is possible. -/
def canBeNumber : Ty → Bool
  | .hole ks => ks.any Kind.isNumeric
  | .prim k => k.isNumeric
  | _ => false

/-- How many registers a value takes; none while the type is open. -/
def registers : Ty → Nat
  | .prim k => k.registers
  | t => if t.isKnown then 1 else 0

/-- The kinds in the order in which a placeholder is settled. -/
def settleOrder : List Kind :=
  [.int, .float, .boolean, .short, .byte, .char, .long, .double, .object, .array]

/-- Settles a placeholder on its preferred kind; any other type is left as it is. -/
def settle? : Ty → Option Ty
  | .hole ks => (settleOrder.find? (ks.contains ·)).map ofKind
  | t => some t

def elem? : Ty → Option Ty
  | .array t => some t
  | _ => none

/-- The innermost element. -/
def root : Ty → Ty
  | .array t => t.root
  | t => t

def dimension : Ty → Nat
  | .array t => t.dimension + 1
  | _ => 0

mutual
/-- The type variables mentioned, left to right; the bounds of a variable are not looked into. -/
def typeVars : Ty → List TypeVar
  | .var name bounds => [⟨name, bounds⟩]
  | .array t => t.typeVars
  | .wildcard _ inner => typeVarsOption inner
  | .cls _ args outer => typeVarsList args ++ typeVarsOption outer
  | .prim _ | .hole _ => []
def typeVarsList : List Ty → List TypeVar
  | [] => []
  | t :: ts => t.typeVars ++ typeVarsList ts
def typeVarsOption : Option Ty → List TypeVar
  | none => []
  | some t => t.typeVars
end

def mentionsVar (t : Ty) : Bool := !t.typeVars.isEmpty

/-- Drops type arguments: a variable or wildcard becomes the universal class. -/
def erase : Ty → Ty
  | .var .. | .wildcard .. => object
  | .array t => .array t.erase
  | .cls name _ _ => raw name
  | t => t

end Ty

end TypeRecovery
