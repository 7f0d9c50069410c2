/- Coloured text for a terminal. -/
namespace TypeRecovery.Text

inductive Style where
  | heading
  | good
  | bad
  | caution
  | faint
deriving DecidableEq, Repr

namespace Style

/-- The parameters that switch the style on. -/
def onCode : Style → String
  | heading => "1" | good => "32" | bad => "31;1" | caution => "33" | faint => "90"

/-- The parameters that switch it off: a heading ends its weight only, the rest reset everything. -/
def offCode : Style → String
  | heading => "22"
  | good | bad | caution | faint => "0"

/-- The text in this style, or as it is when colours are off. -/
def paint (style : Style) (coloured : Bool) (text : String) : String :=
  if coloured then s!"\x1b[{style.onCode}m{text}\x1b[{style.offCode}m" else text

end Style

end TypeRecovery.Text
