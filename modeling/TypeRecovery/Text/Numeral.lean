import TypeRecovery.Text.Quoted

/- Integer numerals: an optional sign, then decimal digits, or digits after a base mark (`0x`, `0o`,
   `0b` in either case, or a leading zero for octal). An underscore may stand between two digits and
   after a base mark. Values are 64-bit signed. -/
namespace TypeRecovery.Text

inductive NumeralError where
  | malformed
  | outOfRange
deriving DecidableEq, Repr

/-- The wording for a numeral that cannot be read. -/
def NumeralError.message (e : NumeralError) (numeral : String) : String :=
  let reason := match e with
    | .malformed => "invalid syntax"
    | .outOfRange => "value out of range"
  s!"strconv.ParseInt: parsing {quoted numeral}: {reason}"

/-- The value of a digit, letters of either case after nine. -/
def digitValue? (c : Char) : Option Nat :=
  let n := c.toNat
  if 48 ≤ n && n ≤ 57 then some (n - 48)
  else if 97 ≤ n && n ≤ 122 then some (n - 87)
  else if 65 ≤ n && n ≤ 90 then some (n - 55)
  else none

/-- Reads digits of a base, underscores passed over, and stops where the value leaves 64 bits. -/
def digitsValue (base : Nat) (value : Nat) : List Char → Except NumeralError Nat
  | [] => .ok value
  | '_' :: s => digitsValue base value s
  | c :: s =>
    match digitValue? c with
    | none => .error .malformed
    | some d =>
      if base ≤ d then .error .malformed
      else if 2 ^ 64 ≤ value * base + d then .error .outOfRange
      else digitsValue base (value * base + d) s

/-- Every underscore follows a digit, or a base mark, and comes before a digit. -/
def underscoresFit (afterDigit : Bool) : List Char → Bool
  | [] => true
  | ['_'] => false
  | '_' :: c :: s => afterDigit && c != '_' && underscoresFit false (c :: s)
  | _ :: s => underscoresFit true s

/-- Splits off the base mark: the base, whether digits may be missing before an underscore, and the
    digits. -/
def baseOf (s : List Char) : Nat × Bool × List Char :=
  match s with
  | '0' :: m :: c :: rest =>
    if m = 'x' || m = 'X' then (16, true, c :: rest)
    else if m = 'o' || m = 'O' then (8, true, c :: rest)
    else if m = 'b' || m = 'B' then (2, true, c :: rest)
    else (8, true, m :: c :: rest)
  | '0' :: rest => (8, true, rest)
  | _ => (10, false, s)

/-- The value of an unsigned numeral, below 2^64. -/
def naturalValue (s : List Char) : Except NumeralError Nat :=
  if s.isEmpty then .error .malformed
  else
    let (base, marked, digits) := baseOf s
    match digitsValue base 0 digits with
    | .error e => .error e
    | .ok n => if underscoresFit marked digits then .ok n else .error .malformed

/-- One more than the largest 64-bit integer, 2^63. -/
def int64Limit : Nat := 9223372036854775808

def integerValue (s : List Char) : Except NumeralError Int :=
  let (negative, body) := match s with
    | '-' :: rest => (true, rest)
    | '+' :: rest => (false, rest)
    | _ => (false, s)
  match naturalValue body with
  | .error e => .error e
  | .ok n =>
    if negative then if n ≤ int64Limit then .ok (-n) else .error .outOfRange
    else if n < int64Limit then .ok n else .error .outOfRange

/-- The value of plain decimal digits, at most the largest 64-bit integer. -/
def saturatedValue (digits : List Char) : Nat :=
  min (int64Limit - 1) (digits.foldl (fun n c => n * 10 + (c.toNat - 48)) 0)

end TypeRecovery.Text
