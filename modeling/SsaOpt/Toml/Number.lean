import SsaOpt.Toml.Syntax

/-!
# Numbers, dates and times

What starts with a digit or a sign. First the characters that may belong to the value are taken, by
its first characters, and then the value is checked: underscores stand between digits, there are no
leading zeros, integers have 64 bits, floating-point numbers are finite, and dates exist.
-/

namespace SsaOpt.Toml

/-- Whether a character is a hexadecimal digit. -/
def isHexDigit (c : Char) : Bool := c.isDigit || ('a' ≤ c && c ≤ 'f') || ('A' ≤ c && c ≤ 'F')

/-- The value of a hexadecimal digit. -/
def digitValue (c : Char) : Nat :=
  if c.isDigit then c.toNat - '0'.toNat
  else if 'a' ≤ c then c.toNat - 'a'.toNat + 10
  else c.toNat - 'A'.toNat + 10

/-- The number with the given digits in a base. -/
def ofDigits (base : Nat) (digits : List Char) : Nat :=
  digits.foldl (fun n c => n * base + digitValue c) 0

/-- Whether every underscore has a digit on both sides; `afterDigit` tells about the left side. -/
def underscoresFrom : Bool → List Char → Bool
  | afterDigit, [] => afterDigit
  | afterDigit, c :: rest =>
    if c = '_' && !afterDigit then false else underscoresFrom (isHexDigit c) rest

/-- Whether every underscore stands between digits, and the last character is a digit. -/
def underscoresOk (cs : List Char) : Bool := underscoresFrom false cs

/-- Whether a number starts with a zero that is not needed. -/
def hasLeadingZero : List Char → Bool
  | '0' :: c :: _ => !(c = 'b' || c = 'o' || c = 'x')
  | '+' :: '0' :: _ :: _ => true
  | '-' :: '0' :: _ :: _ => true
  | _ => false

/-! ## Integers -/

/-- The absolute value of an integer without a sign. -/
def magnitude : List Char → Nat
  | '0' :: 'b' :: digits => ofDigits 2 digits
  | '0' :: 'o' :: digits => ofDigits 8 digits
  | '0' :: 'x' :: digits => ofDigits 16 digits
  | digits => ofDigits 10 digits

/-- The value of an integer that is written as `cs`, if it is in order. -/
def integer? (cs : List Char) : Option Int :=
  if !underscoresOk cs || hasLeadingZero cs then none
  else
    let n : Int := match cs.filter (· ≠ '_') with
      | '-' :: digits => -magnitude digits
      | '+' :: digits => magnitude digits
      | digits => magnitude digits
    if Int64.minValue.toInt ≤ n && n ≤ Int64.maxValue.toInt then some n else none

/-! ## Floating-point numbers -/

/-- The pieces between separators, without the empty ones. -/
def pieces (isSeparator : Char → Bool) (cs : List Char) : List (List Char) :=
  let split := cs.foldr (fun c acc =>
    if isSeparator c then [] :: acc
    else
      match acc with
      | [] => [[c]]
      | piece :: rest => (c :: piece) :: rest) [[]]
  split.filter fun piece => !piece.isEmpty

/-- Whether every point is followed by a digit. -/
def pointsOk : List Char → Bool
  | [] => true
  | '.' :: rest => (rest.head?.any Char.isDigit) && pointsOk rest
  | _ :: rest => pointsOk rest

/-- A decimal: `mantissa * 10 ^ exponent`. -/
structure Decimal where
  mantissa : Nat
  exponent : Int

/-- Takes a sign off. -/
def dropSign : List Char → List Char
  | '+' :: rest => rest
  | '-' :: rest => rest
  | cs => cs

/-- The exponent with the given digits. From ten thousand on, further digits do not count: such an
exponent is out of range for any number of ordinary length. -/
def exponentOfDigits (digits : List Char) : Nat :=
  digits.foldl (fun n c => if n < 10000 then n * 10 + digitValue c else n) 0

/-- The exponent that is written after a number; none at all is zero. -/
def exponent? : List Char → Option Int
  | [] => some 0
  | c :: rest =>
    let digits := dropSign rest
    if (c = 'e' || c = 'E') && !digits.isEmpty && digits.all Char.isDigit then
      let n : Int := exponentOfDigits digits
      some (if rest.head? = some '-' then -n else n)
    else none

/-- The absolute value of a decimal that is written as `cs`. -/
def decimal? (cs : List Char) : Option Decimal :=
  let cs := dropSign cs
  let whole := cs.takeWhile Char.isDigit
  let rest := cs.dropWhile Char.isDigit
  let (fraction, rest) := match rest with
    | '.' :: rest => (rest.takeWhile Char.isDigit, rest.dropWhile Char.isDigit)
    | rest => ([], rest)
  if whole.isEmpty then none
  else (exponent? rest).map fun e =>
    { mantissa := ofDigits 10 (whole ++ fraction), exponent := e - fraction.length }

/-- The least number that is too large for 64-bit floating point. -/
def floatLimit : Nat := Nat.pow 2 1024 - Nat.pow 2 970

/-- Whether a decimal is too large for 64-bit floating point. Its number of digits decides, unless
it is close to the limit. -/
def Decimal.isTooLarge (d : Decimal) : Bool :=
  let size := (Nat.toDigits 10 d.mantissa).length + d.exponent
  if d.mantissa = 0 || size < 300 then false
  else if 310 < size then true
  else if 0 ≤ d.exponent then floatLimit ≤ d.mantissa * Nat.pow 10 d.exponent.toNat
  else floatLimit * Nat.pow 10 (-d.exponent).toNat ≤ d.mantissa

/-- Whether a floating-point number that is written as `cs` is in order. -/
def isReal (cs : List Char) : Bool :=
  let parts := pieces (fun c => c = '.' || c = 'e' || c = 'E') cs
  parts.all underscoresOk && !(parts.head?.any hasLeadingZero) && pointsOk cs &&
    match decimal? (cs.filter (· ≠ '_')) with
    | some d => !d.isTooLarge
    | none => false

/-! ## Dates and times -/

/-- Takes two digits off, if they make a number up to a limit. -/
def twoDigits? (limit : Nat) : List Char → Option (Nat × List Char)
  | a :: b :: rest =>
    let n := ofDigits 10 [a, b]
    if a.isDigit && b.isDigit && n ≤ limit then some (n, rest) else none
  | _ => none

/-- The number of days in a month. -/
def daysIn (year month : Nat) : Nat :=
  if month = 2 then
    if year % 4 = 0 && (year % 100 ≠ 0 || year % 400 = 0) then 29 else 28
  else if month = 4 || month = 6 || month = 9 || month = 11 then 30
  else 31

/-- Takes a date off. -/
def dropDate? (cs : List Char) : Option (List Char) :=
  let year := cs.take 4
  match cs.drop 4 with
  | '-' :: rest => do
    let (month, rest) ← twoDigits? 12 rest
    match rest with
    | '-' :: rest => do
      let (day, rest) ← twoDigits? 31 rest
      if year.all Char.isDigit && 1 ≤ month && 1 ≤ day && day ≤ daysIn (ofDigits 10 year) month then
        some rest
      else none
    | _ => none
  | _ => none

/-- Takes the fraction of a second off, if there is one. -/
def dropFraction : List Char → List Char
  | '.' :: rest =>
    if rest.head?.any Char.isDigit then rest.dropWhile Char.isDigit else '.' :: rest
  | cs => cs

/-- Takes a time of day off; seconds may be missing. -/
def dropTime? (cs : List Char) : Option (List Char) := do
  let (_, rest) ← twoDigits? 23 cs
  match rest with
  | ':' :: rest => do
    let (_, rest) ← twoDigits? 59 rest
    match rest with
    | ':' :: rest => do
      let (_, rest) ← twoDigits? 59 rest
      some (dropFraction rest)
    | rest => some rest
  | _ => none

/-- Whether characters are nothing or an offset from universal time. -/
def isOffset : List Char → Bool
  | [] => true
  | ['Z'] => true
  | sign :: rest =>
    (sign = '+' || sign = '-') &&
      match twoDigits? 24 rest with
      | some (_, ':' :: rest) => (twoDigits? 60 rest).any fun r => r.2.isEmpty
      | _ => false

/-- Whether a date or time that is written as `cs` is in order. Date and time are separated by a
blank or a letter, and letters may be small. -/
def isMoment (cs : List Char) : Bool :=
  let cs := cs.map fun c => if c = 't' || c = ' ' then 'T' else if c = 'z' then 'Z' else c
  match dropDate? cs with
  | some [] => true
  | some ('T' :: rest) => (dropTime? rest).any isOffset
  | some _ => false
  | none => dropTime? cs = some []

/-! ## Reading -/

/-- An integer as a scalar. -/
def ofInteger (cs rest : List Char) : Option (Scalar × List Char) :=
  (integer? cs).map fun n => (.integer n, rest)

/-- A floating-point number that goes on after `front`. -/
def readReal (front rest : List Char) : Option (Scalar × List Char) :=
  let isPart := fun (c : Char) => c.isDigit || "_.-+eE".toList.contains c
  let source := front ++ rest.takeWhile isPart
  if isReal source then some (.real (String.ofList source), rest.dropWhile isPart) else none

/-- A decimal number that goes on after `front`, with underscores. -/
def readDecimal (front rest : List Char) : Option (Scalar × List Char) :=
  let isPart := fun (c : Char) => c.isDigit || c = '_'
  let front := front ++ rest.takeWhile isPart
  match rest.dropWhile isPart with
  | c :: rest =>
    if c = '.' || c = 'e' || c = 'E' then readReal front (c :: rest)
    else ofInteger front (c :: rest)
  | [] => ofInteger front []

/-- A date or time that goes on after `front`; blanks at its end do not belong to it. -/
def readMoment (front rest : List Char) : Option (Scalar × List Char) :=
  let isPart := fun (c : Char) => c.isDigit || "-:Tt .Zz+".toList.contains c
  let source := ((front ++ rest.takeWhile isPart).reverse.dropWhile (· = ' ')).reverse
  if isMoment source then some (.moment (String.ofList source), rest.dropWhile isPart) else none

/-- A number in a base other than ten, after its mark. -/
def readBased (mark : Char) (isPart : Char → Bool) (rest : List Char) :
    Option (Scalar × List Char) :=
  if rest.head?.any isPart then
    let isPart := fun c => isPart c || c = '_'
    ofInteger ('0' :: mark :: rest.takeWhile isPart) (rest.dropWhile isPart)
  else none

/-- A number, date or time that starts with digits. -/
def readDigits (cs : List Char) : Option (Scalar × List Char) :=
  let front := cs.takeWhile Char.isDigit
  match cs.dropWhile Char.isDigit with
  | c :: rest =>
    if c = '-' || c = ':' then
      if front = ['0'] then ofInteger front (c :: rest) else readMoment front (c :: rest)
    else if c = '_' || c = '.' || c = 'e' || c = 'E' then readDecimal front (c :: rest)
    else ofInteger front (c :: rest)
  | [] => ofInteger front []

/-- A value that starts with a digit. -/
def readUnsigned : List Char → Option (Scalar × List Char)
  | '0' :: 'b' :: rest => readBased 'b' (fun c => c = '0' || c = '1') rest
  | '0' :: 'o' :: rest => readBased 'o' (fun c => '0' ≤ c && c ≤ '7') rest
  | '0' :: 'x' :: rest => readBased 'x' isHexDigit rest
  | cs => readDigits cs

/-- A value that starts with a sign: a decimal number, infinity, or no number. -/
def readSigned (sign : Char) : List Char → Option (Scalar × List Char)
  | 'i' :: 'n' :: 'f' :: rest => some (.real (sign.toString ++ "inf"), rest)
  | 'n' :: 'a' :: 'n' :: rest => some (.real (sign.toString ++ "nan"), rest)
  | '0' :: c :: rest =>
    if c = 'b' || c = 'o' || c = 'x' then none else readDecimal [sign] ('0' :: c :: rest)
  | c :: rest => if c.isDigit then readDecimal [sign] (c :: rest) else none
  | [] => none

end SsaOpt.Toml
