import SsaOpt.Ir.Module

/-!
# Evaluating constants

Arithmetic, comparisons and conversions of constants. Values are bit patterns at a type. Operations
wrap around at the width of the type; a division that would trap has no value, nor has an operation
that the type does not know.
-/

namespace SsaOpt

/-- A constant operand: its type and its bits. -/
structure ConstValue where
  ty : Ty
  bits : UInt64
deriving DecidableEq

/-- The quotient (`quotient`) or the remainder of two integers, cut off toward zero. It does not
exist for a divisor that is zero, nor for the least signed number divided by minus one. -/
def IntType.divide (t : IntType) (quotient : Bool) (l r : UInt64) : Option UInt64 :=
  if lowBits t.bits r = 0 then none
  else if t.signed then
    let sl := signedValue t.bits l
    let sr := signedValue t.bits r
    if sr = -1 ∧ sl.toInt = -(Nat.pow 2 (t.bits - 1) : Int) then none
    else some (if quotient then sl / sr else sl % sr).toUInt64
  else
    let ul := lowBits t.bits l
    let ur := lowBits t.bits r
    some (if quotient then ul / ur else ul % ur)

/-- An operation on integers of one type. The bits above the width of the type are not cut off. -/
def IntType.evalBinary (t : IntType) (op : BinOp) (l r : UInt64) : Option UInt64 :=
  match op with
  | .add => some (l + r)
  | .sub => some (l - r)
  | .mul => some (l * r)
  | .and => some (l &&& r)
  | .or => some (l ||| r)
  | .xor => some (l ^^^ r)
  | .div => t.divide true l r
  | .rem => t.divide false l r
  | .other _ _ => none

/-- An operation on truth values. -/
def evalBoolBinary (op : BinOp) (l r : UInt64) : Option UInt64 :=
  match op with
  | .and => some (l &&& r)
  | .or => some (l ||| r)
  | .xor => some (l ^^^ r)
  | _ => none

/-- An operation on two values of one type. -/
def evalBinary (op : BinOp) (ty : Ty) (l r : UInt64) : Option UInt64 :=
  match ty with
  | .bool => evalBoolBinary op l r
  | .int t => t.evalBinary op l r
  | _ => none

/-- The truth of a predicate, given the order of two values. -/
def CmpPred.holds (p : CmpPred) (o : Ordering) : Option Bool :=
  match p with
  | .eq => some (o = .eq)
  | .ne => some (o ≠ .eq)
  | .lt => some (o = .lt)
  | .le => some (o ≠ .gt)
  | .gt => some (o = .gt)
  | .ge => some (o ≠ .lt)
  | .other _ _ => none

/-- The order of two integers of a type. -/
def IntType.order (t : IntType) (l r : UInt64) : Ordering :=
  if t.signed then Ord.compare (signedValue t.bits l) (signedValue t.bits r)
  else Ord.compare (lowBits t.bits l) (lowBits t.bits r)

/-- A comparison of two values of one type. Truth values are only compared for equality. -/
def evalCompare (p : CmpPred) (ty : Ty) (l r : UInt64) : Option Bool :=
  match ty with
  | .bool => if p = .eq ∨ p = .ne then p.holds (Ord.compare l r) else none
  | .int t => p.holds (t.order l r)
  | _ => none

/-- The bits of a value that is converted: a signed integer keeps its sign. -/
def ConstValue.extended (v : ConstValue) : UInt64 :=
  if v.ty.isSigned then (signExtend (some v.ty) v.bits).toUInt64 else v.bits

/-- Constants by the value they define, the latest first. -/
abbrev Consts := List (ValueId × Const)

/-- The value of a constant that is known and has a legal literal. -/
def Consts.value? (consts : Consts) (id : ValueId) : Option ConstValue := do
  let c ← consts.lookup id
  let ty ← c.ty
  match literalBits c.ty c.literal with
  | .ok bits => some ⟨ty, bits⟩
  | .error _ => none

/-- Two constant operands of one type. -/
def Consts.pair? (consts : Consts) (l r : ValueId) : Option (Ty × UInt64 × UInt64) := do
  let x ← consts.value? l
  let y ← consts.value? r
  if x.ty = y.ty then some (x.ty, x.bits, y.bits) else none

/-- The constant that an instruction evaluates to, if its operands are known constants. Its type is
the one that the operation gives, whatever the instruction declares. -/
def foldInstr (consts : Consts) : Instr → Option Const
  | .binary b => do
    let (ty, l, r) ← consts.pair? b.left b.right
    let bits ← evalBinary b.op ty l r
    some ⟨b.result, some ty, formatBits (some ty) bits⟩
  | .compare c => do
    let (ty, l, r) ← consts.pair? c.left c.right
    let v ← evalCompare c.pred ty l r
    some ⟨c.result, some .bool, boolLiteral v⟩
  | .cast c => do
    let x ← consts.value? c.operand
    let ty ← c.ty
    if x.ty.canCast ty then some ⟨c.result, c.ty, formatBits c.ty x.extended⟩ else none
  | _ => none

end SsaOpt
