/- Instruction kinds and their operators. -/
namespace TypeRecovery

inductive ArithOp where
  | add | sub | mul | div | rem | and | or | xor | shl | shr | ushr
deriving DecidableEq, Repr, Inhabited

namespace ArithOp

def all : List ArithOp := [add, sub, mul, div, rem, and, or, xor, shl, shr, ushr]

def name : ArithOp → String
  | add => "add" | sub => "sub" | mul => "mul" | div => "div" | rem => "rem" | and => "and"
  | or => "or" | xor => "xor" | shl => "shl" | shr => "shr" | ushr => "ushr"

def ofName? (s : String) : Option ArithOp := all.find? (·.name == s)

/-- The operators that also work on truth values. -/
def isBitwise : ArithOp → Bool
  | and | or | xor => true
  | _ => false

/-- The operators whose second operand is a distance. -/
def isShift : ArithOp → Bool
  | shl | shr | ushr => true
  | _ => false

end ArithOp

/-- The comparison of a conditional jump. -/
inductive Condition where
  | eq | ne | lt | le | gt | ge
deriving DecidableEq, Repr, Inhabited

namespace Condition

def all : List Condition := [eq, ne, lt, le, gt, ge]

def name : Condition → String
  | eq => "eq" | ne => "ne" | lt => "lt" | le => "le" | gt => "gt" | ge => "ge"

def ofName? (s : String) : Option Condition := all.find? (·.name == s)

end Condition

/-- How a callee is chosen. -/
inductive CallKind where
  | virtual | interface | direct | super | static
deriving DecidableEq, Repr, Inhabited

namespace CallKind

def all : List CallKind := [virtual, interface, direct, super, static]

def name : CallKind → String
  | virtual => "virtual" | interface => "interface" | direct => "direct" | super => "super"
  | static => "static"

def ofName? (s : String) : Option CallKind := all.find? (·.name == s)

end CallKind

inductive Opcode where
  | nop | const | constString | constClass | move | phi
  /-- Reading and writing an array element. -/
  | aget | aput
  | branch (cond : Condition)
  | arith (op : ArithOp)
  | neg | not
  /-- A cast that is checked when run, and a conversion between primitives. -/
  | checkCast | cast
  | invoke | invokeCustom | constructor | newInstance | newArray | arrayLength | moveException
  /-- Instance and static fields, read and written. -/
  | iget | iput | sget | sput
  | ternary | ret | throw | goto | switch
deriving DecidableEq, Repr, Inhabited

namespace Opcode

/-- Every instruction kind, with a first operator where it has one. -/
def all : List Opcode :=
  [nop, const, constString, constClass, move, phi, aget, aput, branch .eq, arith .add, neg, not,
    checkCast, cast, invoke, invokeCustom, constructor, newInstance, newArray, arrayLength,
    moveException, iget, iput, sget, sput, ternary, ret, throw, goto, switch]

/-- The name without operator. -/
def mnemonic : Opcode → String
  | nop => "nop" | const => "const" | constString => "const-string" | constClass => "const-class"
  | move => "move" | phi => "phi" | aget => "aget" | aput => "aput" | branch _ => "if"
  | arith _ => "arith" | neg => "neg" | not => "not" | checkCast => "check-cast" | cast => "cast"
  | invoke => "invoke" | invokeCustom => "invoke-custom" | constructor => "constructor"
  | newInstance => "new-instance" | newArray => "new-array" | arrayLength => "array-length"
  | moveException => "move-exception" | iget => "iget" | iput => "iput" | sget => "sget"
  | sput => "sput" | ternary => "ternary" | ret => "return" | throw => "throw" | goto => "goto"
  | switch => "switch"

def ofMnemonic? (s : String) : Option Opcode := all.find? (·.mnemonic == s)

/-- The instruction ends its block: nothing may be appended after it. -/
def isSeparate : Opcode → Bool
  | branch _ | switch | ret | throw | goto => true
  | _ => false

end Opcode

end TypeRecovery
