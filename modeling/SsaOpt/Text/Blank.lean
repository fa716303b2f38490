/-!
# Blanks

The characters that count as white space around words.
-/

namespace SsaOpt.Text

/-- Whether a character has the Unicode property `White_Space`. -/
def isBlank (c : Char) : Bool :=
  let n := c.toNat
  (9 ≤ n && n ≤ 13) || n = 0x20 || n = 0x85 || n = 0xa0 || n = 0x1680 ||
    (0x2000 ≤ n && n ≤ 0x200a) || n = 0x2028 || n = 0x2029 || n = 0x202f || n = 0x205f || n = 0x3000

/-- The text without blanks at its ends. -/
def trimBlanks (s : String) : String :=
  let drop := fun (cs : List Char) => cs.dropWhile isBlank
  String.ofList (drop (drop s.toList).reverse).reverse

end SsaOpt.Text
