import SsaOpt.Text.Quoted

/-!
# Decimal numerals

Reading decimal numerals of a bounded size. The digits are read from the left, and the first problem
wins: a numeral that is too large is out of range even if something else than a digit follows.
-/

namespace SsaOpt.Text

/-- Why a text is no numeral of the wanted size. -/
inductive NumeralFault where
  /-- Something is missing or is no digit. -/
  | malformed
  /-- The digits read so far exceed the range. -/
  | outOfRange
deriving DecidableEq, Repr

/-- The fault in words. -/
def NumeralFault.message : NumeralFault → String
  | .malformed => "invalid syntax"
  | .outOfRange => "value out of range"

/-- The value of a decimal digit. -/
def digitValue (c : Char) : Nat := c.toNat - 0x30

/-- Continues the numeral `n` with more digits, as long as it stays within `limit`. -/
def readDigits (limit : Nat) : Nat → List Char → Except NumeralFault Nat
  | n, [] => .ok n
  | n, c :: cs =>
    if c.isDigit then
      let n' := n * 10 + digitValue c
      if limit < n' then .error .outOfRange else readDigits limit n' cs
    else .error .malformed

/-- A numeral without a sign, at most `limit`. -/
def readNat (limit : Nat) : List Char → Except NumeralFault Nat
  | [] => .error .malformed
  | c :: cs => readDigits limit 0 (c :: cs)

/-- The digits after a sign: the least value allowed is `-(bound)`, the greatest `bound - 1`. -/
def readMagnitude (bound : Nat) (negative : Bool) (cs : List Char) : Except NumeralFault Int := do
  let n ← readNat (2 * bound - 1) cs
  if negative then
    if bound < n then .error .outOfRange else .ok (-(n : Int))
  else
    if bound ≤ n then .error .outOfRange else .ok (n : Int)

/-- A numeral with at most one sign in front, from `-2 ^ (bits - 1)` to `2 ^ (bits - 1) - 1`. -/
def readInt (bits : Nat) : List Char → Except NumeralFault Int
  | '+' :: cs => readMagnitude (Nat.pow 2 (bits - 1)) false cs
  | '-' :: cs => readMagnitude (Nat.pow 2 (bits - 1)) true cs
  | cs => readMagnitude (Nat.pow 2 (bits - 1)) false cs

end SsaOpt.Text
