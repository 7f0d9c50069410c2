import TypeRecovery.Document

/- Writing a document as text, in the form in which it is read. -/
namespace TypeRecovery.Document

def hexDigit (n : Nat) : Char :=
  if n < 10 then Char.ofNat ('0'.toNat + n) else Char.ofNat ('a'.toNat + n - 10)

/-- A character inside quotes. Quote, backslash and control characters are escaped. -/
def escapeChar (c : Char) : List Char :=
  if c = '"' || c = '\\' then ['\\', c]
  else if c.toNat < 0x20 then ['\\', 'u', '0', '0', hexDigit (c.toNat / 16), hexDigit (c.toNat % 16)]
  else [c]

def quoteText (s : String) : String := "\"" ++ String.ofList (s.toList.flatMap escapeChar) ++ "\""

mutual
def toText : Document → String
  | .null => "null"
  | .bool b => if b then "true" else "false"
  | .int n => toString n
  | .text s => quoteText s
  | .list items => "[" ++ String.intercalate "," (itemTexts items) ++ "]"
  | .mapping entries => "\x7b" ++ String.intercalate "," (entryTexts entries) ++ "\x7d"
def itemTexts : List Document → List String
  | [] => []
  | d :: ds => d.toText :: itemTexts ds
def entryTexts : List (String × Document) → List String
  | [] => []
  | (key, d) :: es => (quoteText key ++ ":" ++ d.toText) :: entryTexts es
end

end TypeRecovery.Document
