import SsaOpt.Ty
import SsaOpt.Text.Numeral

/-!
# Literals and bit patterns

A constant of an integer type or of `bool` is written as a literal: a decimal numeral, or `true` and
`false`. Its value is a pattern of 64 bits of which only those that fit the type are set. This
module reads literals (`literalBits`) and writes them (`formatBits`).
-/

namespace SsaOpt

open Text

/-- Why a literal has no bit pattern. -/
inductive LiteralError where
  /-- Neither `true` nor `false`. -/
  | notBool (literal : String)
  /-- No numeral of an integer type. -/
  | notInteger (t : IntType) (literal : String) (fault : NumeralFault)
  /-- The type of this name has no integer values. -/
  | noInteger (tyName : String)
deriving DecidableEq

/-- The error in words. -/
def LiteralError.message : LiteralError → String
  | notBool s => s!"invalid bool literal {quote s}"
  | notInteger t s f =>
    let reader := if t.signed then "strconv.ParseInt" else "strconv.ParseUint"
    s!"invalid {t.name} literal {quote s}: {reader}: parsing {quote s}: {f.message}"
  | noInteger n => s!"{n} constants have no integer representation"

/-- The low bits of `v`, as many as `width`. -/
def lowBits (width : Nat) (v : UInt64) : UInt64 :=
  if width = 0 ∨ 64 ≤ width then v else v &&& (1 <<< width.toUInt64 - 1)

/-- The number of low bits of a pattern that a type keeps; `0` keeps all of them. -/
def keptBits : Option Ty → Nat
  | some .bool => 1
  | some t => t.bits
  | none => 0

/-- Keeps the bits of `v` that fit the type. -/
def truncateBits (ty : Option Ty) (v : UInt64) : UInt64 := lowBits (keptBits ty) v

/-- The low bits of `v` as a signed number of `width` bits. -/
def signedValue (width : Nat) (v : UInt64) : Int64 :=
  if width = 0 ∨ 64 ≤ width then v.toInt64
  else
    let shift := (64 - width).toUInt64
    (v <<< shift).toInt64 >>> shift.toInt64

/-- Reads the bits of `v` as a signed number of the type's width. -/
def signExtend (ty : Option Ty) (v : UInt64) : Int64 :=
  signedValue ((ty.map Ty.bits).getD 0) v

/-- The bit pattern of a numeral of an integer type. -/
def IntType.readLiteral (t : IntType) (cs : List Char) : Except NumeralFault UInt64 :=
  if t.signed then
    (readInt t.bits cs).map fun i => lowBits t.bits (Int64.ofInt i).toUInt64
  else
    (readNat (Nat.pow 2 t.bits - 1) cs).map fun n => UInt64.ofNat n

/-- The bit pattern of a literal of the type. -/
def literalBits (ty : Option Ty) (literal : String) : Except LiteralError UInt64 :=
  match ty with
  | some .bool =>
    if literal = "true" then .ok 1
    else if literal = "false" then .ok 0
    else .error (.notBool literal)
  | some (.int t) => (t.readLiteral literal.toList).mapError (.notInteger t literal)
  | ty => .error (.noInteger (typeName ty))

/-- The literal of a truth value. -/
def boolLiteral (b : Bool) : String := if b then "true" else "false"

/-- The literal of a bit pattern at the type. -/
def formatBits (ty : Option Ty) (v : UInt64) : String :=
  match ty with
  | some .bool => boolLiteral (v &&& 1 = 1)
  | some (.int ⟨true, w⟩) => toString (signedValue w.bits v).toInt
  | ty => toString (truncateBits ty v).toNat

end SsaOpt
