import BuildExpr.Text

/-!
# Integer literals

Integers are written in decimal, or after `0x` in hexadecimal or after `0b` in binary, with an
optional sign in front. The digits must denote a number below `2^63`, whatever the sign.
-/

namespace BuildExpr.Integer

/-- The value of a digit, a letter standing for ten and more. -/
def digitValue (c : Char) : Nat :=
  if c.isDigit then c.toNat - '0'.toNat else c.toLower.toNat - 'a'.toNat + 10

/-- The number that digits of a base denote, after the digits for `value`. -/
def ofDigitsFrom (base : Nat) : Nat → Text → Option Nat
  | value, [] => some value
  | value, c :: rest =>
    if c.isAlphanum && digitValue c < base then
      ofDigitsFrom base (value * base + digitValue c) rest
    else none

/-- The number that one or more digits of a base denote. -/
def ofDigits (base : Nat) (digits : Text) : Option Nat :=
  if digits.isEmpty then none else ofDigitsFrom base 0 digits

/-- The base a literal without sign is written in, and its digits. -/
def baseAndDigits : Text → Nat × Text
  | '0' :: 'x' :: digits | '0' :: 'X' :: digits => (16, digits)
  | '0' :: 'b' :: digits | '0' :: 'B' :: digits => (2, digits)
  | digits => (10, digits)

/-- The number of a literal without sign, if it is below `2^63`. -/
def magnitude (t : Text) : Option Nat :=
  let (base, digits) := baseAndDigits t
  (ofDigits base digits).filter (· < Nat.pow 2 63)

/-- The integer of a literal. -/
def ofText? : Text → Option Int
  | '-' :: rest => (magnitude rest).map fun n => -(n : Int)
  | '+' :: rest => (magnitude rest).map fun n => (n : Int)
  | t => (magnitude t).map fun n => (n : Int)

end BuildExpr.Integer
