import SsaOpt.Text.Quoted

/-!
# Bytes in hexadecimal

Bytes as text, two digits for each.
-/

namespace SsaOpt.Text

/-- The digits of some bytes. -/
def hexOfBytes (bytes : List UInt8) : String :=
  String.ofList (bytes.flatMap fun b => hexDigits 2 b.toNat)

/-- The value of a digit in lower case. -/
def hexValue (c : Char) : Nat :=
  if c.isDigit then c.toNat - '0'.toNat else c.toNat - 'a'.toNat + 10

/-- The bytes of some digits; a digit that is left over does not count. -/
def bytesOfHex : List Char → List UInt8
  | a :: b :: rest => UInt8.ofNat (hexValue a * 16 + hexValue b) :: bytesOfHex rest
  | _ => []

end SsaOpt.Text
