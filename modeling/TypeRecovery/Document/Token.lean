import TypeRecovery.Document

/- The tokens of a document as text. A text is read one character at a time; what is still unfinished
   between two characters is the state of the scanner. -/
namespace TypeRecovery.Document

inductive Token where
  | openList | closeList | openMapping | closeMapping | colon | comma
  /-- A bare word: `null`, `true`, `false` or a number. -/
  | word (s : String)
  | text (s : String)
deriving DecidableEq, Repr

namespace Token

/-- The mark that a character stands for on its own. -/
def ofMark? (c : Char) : Option Token :=
  match c with
  | '[' => some openList
  | ']' => some closeList
  | '\x7b' => some openMapping
  | '\x7d' => some closeMapping
  | ':' => some colon
  | ',' => some comma
  | _ => none

end Token

/-- Where the scanner stands. Characters of an unfinished token are kept in reverse. -/
inductive ScanState where
  | between
  | inWord (back : List Char)
  /-- Inside a text; the first half of a surrogate pair waits for the second. -/
  | inText (back : List Char) (half : Option Nat)
  | afterBackslash (back : List Char) (half : Option Nat)
  /-- Inside a code of four digits. -/
  | inCode (back : List Char) (half : Option Nat) (digits : Nat) (value : Nat)

/-- The scanner with the tokens it found, in reverse. -/
structure Scan where
  state : ScanState := .between
  found : List Token := []

namespace Scan

def replacement : Char := Char.ofNat 0xfffd

/-- Half of a pair that found no second half reads as the replacement character. -/
def settleHalf (back : List Char) : Option Nat → List Char
  | some _ => replacement :: back
  | none => back

/-- Adds a code to a text. Two halves of a pair make one character. -/
def addCode (back : List Char) (half : Option Nat) (code : Nat) : ScanState :=
  if 0xdc00 ≤ code ∧ code < 0xe000 then
    match half with
    | some high => .inText (Char.ofNat (0x10000 + (high - 0xd800) * 1024 + (code - 0xdc00)) :: back) none
    | none => .inText (replacement :: back) none
  else if 0xd800 ≤ code ∧ code < 0xdc00 then .inText (settleHalf back half) (some code)
  else .inText (Char.ofNat code :: settleHalf back half) none

/-- The character that a backslash and a letter stand for. -/
def escaped? (c : Char) : Option Char :=
  match c with
  | '"' | '\\' | '/' => some c
  | 'n' => some '\n'
  | 't' => some '\t'
  | 'r' => some '\r'
  | 'b' => some '\x08'
  | 'f' => some '\x0c'
  | _ => none

def hexValue? (c : Char) : Option Nat :=
  if c.isDigit then some (c.toNat - '0'.toNat)
  else if 'a' ≤ c ∧ c ≤ 'f' then some (c.toNat - 'a'.toNat + 10)
  else if 'A' ≤ c ∧ c ≤ 'F' then some (c.toNat - 'A'.toNat + 10)
  else none

def isWordChar (c : Char) : Bool := c.isAlphanum || c == '-' || c == '+' || c == '.'

def isSpace (c : Char) : Bool := c == ' ' || c == '\t' || c == '\n' || c == '\r'

/-- Between tokens: a mark, the start of a text or of a word, or a space. -/
def start (found : List Token) (c : Char) : Option Scan :=
  match Token.ofMark? c with
  | some t => some { found := t :: found }
  | none =>
    if isSpace c then some { found }
    else if c = '"' then some { state := .inText [] none, found }
    else if isWordChar c then some { state := .inWord [c], found }
    else none

def finishWord (back : List Char) : Token := .word (String.ofList back.reverse)

def step (s : Scan) (c : Char) : Option Scan :=
  match s.state with
  | .between => start s.found c
  | .inWord back =>
    if isWordChar c then some { s with state := .inWord (c :: back) }
    else start (finishWord back :: s.found) c
  | .inText back half =>
    if c = '"' then
      some { found := .text (String.ofList (settleHalf back half).reverse) :: s.found }
    else if c = '\\' then some { s with state := .afterBackslash back half }
    else some { s with state := .inText (c :: settleHalf back half) none }
  | .afterBackslash back half =>
    if c = 'u' then some { s with state := .inCode back half 0 0 }
    else (escaped? c).map fun e => { s with state := .inText (e :: settleHalf back half) none }
  | .inCode back half digits value =>
    (hexValue? c).map fun d =>
      let value := value * 16 + d
      if digits = 3 then { s with state := addCode back half value }
      else { s with state := .inCode back half (digits + 1) value }

/-- The tokens at the end of the text. -/
def finish? (s : Scan) : Option (List Token) :=
  match s.state with
  | .between => some s.found.reverse
  | .inWord back => some (finishWord back :: s.found).reverse
  | _ => none

end Scan

/-- The tokens of a text, if it has no other parts. -/
def tokens? (s : List Char) : Option (List Token) := (s.foldlM Scan.step {}).bind Scan.finish?

end TypeRecovery.Document
