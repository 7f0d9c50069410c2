import TypeRecovery.Text.Printable

/- Quoted text for messages: double quotes around, the usual one-letter escapes, `\xNN` for other
   control characters below 0x80, and `\uNNNN` or `\UNNNNNNNN` for what is not printable. -/
namespace TypeRecovery.Text

def hexDigit (n : Nat) : Char :=
  if n < 10 then Char.ofNat (48 + n) else Char.ofNat (87 + n)

/-- The lower-case hexadecimal digits of `n`, exactly `width` of them. -/
def hexDigits : Nat → Nat → List Char
  | 0, _ => []
  | width + 1, n => hexDigits width (n / 16) ++ [hexDigit (n % 16)]

def escapeChar (c : Char) : List Char :=
  let n := c.toNat
  if c = '"' then ['\\', '"']
  else if c = '\\' then ['\\', '\\']
  else if isPrintable c then [c]
  else if n = 7 then ['\\', 'a']
  else if n = 8 then ['\\', 'b']
  else if n = 12 then ['\\', 'f']
  else if n = 10 then ['\\', 'n']
  else if n = 13 then ['\\', 'r']
  else if n = 9 then ['\\', 't']
  else if n = 11 then ['\\', 'v']
  else if n < 0x80 then '\\' :: 'x' :: hexDigits 2 n
  else if n < 0x10000 then '\\' :: 'u' :: hexDigits 4 n
  else '\\' :: 'U' :: hexDigits 8 n

def quotedChars (s : List Char) : List Char := '"' :: (s.flatMap escapeChar ++ ['"'])

def quoted (s : String) : String := String.ofList (quotedChars s.toList)

/-- One character in single quotes, with the same escapes; of the quotes it is the single one that
    needs a backslash here. -/
def quotedLetter (c : Char) : String :=
  let body := if c.toNat = 39 then ['\\', c] else if c = '"' then [c] else escapeChar c
  s!"'{String.ofList body}'"

end TypeRecovery.Text
