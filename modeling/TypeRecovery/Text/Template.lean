/- Messages with slots. A slot asks for text, for a number, or for either; a value of the wrong kind,
   a slot without a value and a value without a slot all show in the text instead of being lost. -/
namespace TypeRecovery.Text

/-- What goes into a slot. -/
inductive Value where
  | text (s : String)
  | int (n : Int)
deriving DecidableEq, Repr, Inhabited

inductive SlotKind where
  | text | number | either
deriving DecidableEq, Repr

inductive Piece where
  | words (s : String)
  | slot (kind : SlotKind)
deriving DecidableEq, Repr

abbrev Template := List Piece

namespace Value

def plain : Value → String
  | .text s => s
  | .int n => toString n

def isText : Value → Bool
  | .text _ => true
  | .int _ => false

/-- The value with the name of its kind. -/
def described : Value → String
  | .text s => "string=" ++ s
  | .int n => s!"int={n}"

end Value

namespace SlotKind

def letter : SlotKind → String
  | text => "s" | number => "d" | either => "v"

def takes : SlotKind → Value → Bool
  | text, v => v.isText
  | number, v => !v.isText
  | either, _ => true

/-- The value as the slot shows it. -/
def shown (k : SlotKind) (v : Value) : String :=
  if k.takes v then v.plain else s!"%!{k.letter}({v.described})"

end SlotKind

/-- The values that found no slot. -/
def surplus : List Value → String
  | [] => ""
  | vs => "%!(EXTRA " ++ String.intercalate ", " (vs.map Value.described) ++ ")"

namespace Template

/-- Fills the slots from left to right. -/
def fill : Template → List Value → String
  | [], vs => surplus vs
  | .words s :: ps, vs => s ++ fill ps vs
  | .slot k :: ps, [] => s!"%!{k.letter}(MISSING)" ++ fill ps []
  | .slot k :: ps, v :: vs => k.shown v ++ fill ps vs

end Template

/-- Values without a template: one after the other, a space only between two that are no text. -/
def joined : List Value → String
  | [] => ""
  | [v] => v.plain
  | v :: w :: vs =>
    v.plain ++ (if v.isText || w.isText then "" else " ") ++ joined (w :: vs)

end TypeRecovery.Text
