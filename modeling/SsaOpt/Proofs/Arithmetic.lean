import SsaOpt.Pass.ConstEval
import SsaOpt.Proofs.Literals

/-!
# Fixed-width arithmetic

What constants, operations, comparisons and conversions of integers and truth values mean, on the
words of their types: `Instr.meaning?`. Evaluating constants is true to it (`foldInstr_meaning`):
the constant that an instruction evaluates to has the value that the instruction has.

Operations are those of `BitVec`. A division traps if the divisor is zero, or if it divides the
least signed word by minus one. What is not about integers and truth values is left open, and so is
an operator or a predicate that is not known.
-/

namespace SsaOpt

/-! ## The exact operations -/

namespace IntType

/-- The number that a word stands for. -/
def value (t : IntType) (x : BitVec t.bits) : Int := if t.signed then x.toInt else x.toNat

/-- A division of two words that has no result. -/
def traps (t : IntType) (x y : BitVec t.bits) : Bool :=
  y = 0#t.bits || (t.signed && x = BitVec.intMin t.bits && y = -1#t.bits)

/-- The operation on two words: nothing if the operator is not known, and no word if it traps. -/
def operate? (t : IntType) (op : BinOp) (x y : BitVec t.bits) :
    Option (Option (BitVec t.bits)) :=
  match op with
  | .add => some (some (x + y))
  | .sub => some (some (x - y))
  | .mul => some (some (x * y))
  | .div => some (if t.traps x y then none else some (if t.signed then x.sdiv y else x / y))
  | .rem => some (if t.traps x y then none else some (if t.signed then x.srem y else x % y))
  | .and => some (some (x &&& y))
  | .or => some (some (x ||| y))
  | .xor => some (some (x ^^^ y))
  | .other _ _ => none

/-- The comparison of two words, by the numbers they stand for. -/
def relate? (t : IntType) (p : CmpPred) (x y : BitVec t.bits) : Option Bool :=
  match p with
  | .eq => some (t.value x = t.value y)
  | .ne => some (t.value x ≠ t.value y)
  | .lt => some (t.value x < t.value y)
  | .le => some (t.value x ≤ t.value y)
  | .gt => some (t.value x > t.value y)
  | .ge => some (t.value x ≥ t.value y)
  | .other _ _ => none

/-- A word in another type: a signed one keeps its sign. -/
def convert (t u : IntType) (x : BitVec t.bits) : BitVec u.bits :=
  if t.signed then x.signExtend u.bits else x.setWidth u.bits

end IntType

/-- The operation on two truth values. -/
def operateBool? (op : BinOp) (x y : BitVec 1) : Option (BitVec 1) :=
  match op with
  | .and => some (x &&& y)
  | .or => some (x ||| y)
  | .xor => some (x ^^^ y)
  | _ => none

/-- The comparison of two truth values. -/
def relateBool? (p : CmpPred) (x y : BitVec 1) : Option Bool :=
  match p with
  | .eq => some (x = y)
  | .ne => some (x ≠ y)
  | _ => none

namespace ConstValue

/-- The value of a word. -/
def ofWord (t : IntType) (x : BitVec t.bits) : ConstValue := ⟨.int t, pattern x⟩

/-- The value of a truth. -/
def ofBool (b : Bool) : ConstValue := ⟨.bool, if b then 1 else 0⟩

/-- The operation on two values of one type. -/
def operate? (op : BinOp) (x y : ConstValue) : Option (Option ConstValue) :=
  match x.ty, y.ty with
  | .int t, .int u =>
    if t = u then
      (t.operate? op (word t.bits x.bits) (word t.bits y.bits)).map fun z => z.map (ofWord t)
    else none
  | .bool, .bool =>
    (operateBool? op (word 1 x.bits) (word 1 y.bits)).map fun z => some ⟨.bool, pattern z⟩
  | _, _ => none

/-- The comparison of two values of one type. -/
def relate? (p : CmpPred) (x y : ConstValue) : Option Bool :=
  match x.ty, y.ty with
  | .int t, .int u =>
    if t = u then t.relate? p (word t.bits x.bits) (word t.bits y.bits) else none
  | .bool, .bool => relateBool? p (word 1 x.bits) (word 1 y.bits)
  | _, _ => none

/-- The conversion of a value to another type. -/
def convert? (x : ConstValue) : Option Ty → Option ConstValue
  | some (.int u) =>
    match x.ty with
    | .int t => some (ofWord u (t.convert u (word t.bits x.bits)))
    | .bool => some (ofWord u ((word 1 x.bits).setWidth u.bits))
    | _ => none
  | some .bool => if x.ty = .bool then some ⟨.bool, pattern (word 1 x.bits)⟩ else none
  | _ => none

end ConstValue

/-- The value of a constant with a legal literal. -/
def Const.value? (c : Const) : Option ConstValue :=
  c.ty.bind fun ty =>
    match literalBits (some ty) c.literal with
    | .ok bits => some ⟨ty, bits⟩
    | .error _ => none

/-- What an instruction does with the values of its operands, where that is fixed; no value if it
traps. -/
def Instr.meaning? : Instr → List ConstValue → Option (Option ConstValue)
  | .const c, [] => c.value?.map some
  | .binary b, [x, y] => x.operate? b.op y
  | .compare c, [x, y] => (x.relate? c.pred y).map fun b => some (.ofBool b)
  | .cast c, [x] => (x.convert? c.ty).map some
  | _, _ => none

/-! ## Words of results -/

section Words

variable {w : Nat}

theorem word_add (h : w ≤ 64) (l r : UInt64) : word w (l + r) = word w l + word w r :=
  BitVec.setWidth_add _ _ h

theorem word_sub (h : w ≤ 64) (l r : UInt64) : word w (l - r) = word w l - word w r := by
  rw [word, UInt64.toBitVec_sub, BitVec.sub_eq_add_neg, BitVec.setWidth_add _ _ h,
    BitVec.setWidth_neg_of_le h, ← BitVec.sub_eq_add_neg]
  rfl

theorem word_mul (h : w ≤ 64) (l r : UInt64) : word w (l * r) = word w l * word w r :=
  BitVec.setWidth_mul _ _ h

theorem word_and (l r : UInt64) : word w (l &&& r) = word w l &&& word w r := BitVec.setWidth_and

theorem word_or (l r : UInt64) : word w (l ||| r) = word w l ||| word w r := BitVec.setWidth_or

theorem word_xor (l r : UInt64) : word w (l ^^^ r) = word w l ^^^ word w r := BitVec.setWidth_xor

theorem toNat_word (h0 : w ≠ 0) (h : w ≤ 64) (v : UInt64) :
    (word w v).toNat = (lowBits w v).toNat := by
  rw [← UInt64.toNat_toBitVec, toBitVec_lowBits h0 h, BitVec.toNat_setWidth_of_le h]

theorem word_eq_iff (h0 : w ≠ 0) (h : w ≤ 64) {l r : UInt64} :
    word w l = word w r ↔ lowBits w l = lowBits w r := by
  rw [← BitVec.toNat_inj, toNat_word h0 h, toNat_word h0 h, UInt64.toNat_inj]

theorem lowBits_eq_zero_iff (h0 : w ≠ 0) (h : w ≤ 64) {v : UInt64} :
    lowBits w v = 0 ↔ word w v = 0#w := by
  rw [← BitVec.toNat_inj, toNat_word h0 h, ← UInt64.toNat_inj]
  simp

theorem setWidth_signExtend {u : Nat} (h : u ≤ 64) (x : BitVec w) :
    (x.signExtend 64).setWidth u = x.signExtend u := by
  apply BitVec.eq_of_getLsbD_eq
  intro i hi
  have hi' : i < 64 := by omega
  rw [BitVec.getLsbD_setWidth, BitVec.getLsbD_signExtend, BitVec.getLsbD_signExtend]
  simp [hi, hi']

/-- The low bits of a signed word are another word of the same number, wrapped around. -/
theorem toInt_setWidth_of_le (h : w ≤ 64) (x : BitVec 64) :
    (x.setWidth w).toInt = x.toInt.bmod (Nat.pow 2 w) := by
  rw [← BitVec.signExtend_eq_setWidth_of_le x h, BitVec.toInt_signExtend_eq_toInt_bmod_of_le x h]
  rfl

theorem word_signedDiv (h0 : w ≠ 0) (h : w ≤ 64) (l r : UInt64) :
    word w (signedValue w l / signedValue w r).toUInt64 = (word w l).sdiv (word w r) := by
  apply BitVec.eq_of_toInt_eq
  have hdvd : 2 ^ w ∣ 2 ^ 64 := Nat.pow_dvd_pow 2 h
  rw [word, Int64.toBitVec_toUInt64, Int64.toBitVec_div, toInt_setWidth_of_le h,
    toBitVec_signedValue h0 h, toBitVec_signedValue h0 h, BitVec.toInt_sdiv, BitVec.toInt_sdiv,
    BitVec.toInt_signExtend_of_le h, BitVec.toInt_signExtend_of_le h]
  exact Int.bmod_bmod_of_dvd hdvd

theorem word_signedRem (h0 : w ≠ 0) (h : w ≤ 64) (l r : UInt64) :
    word w (signedValue w l % signedValue w r).toUInt64 = (word w l).srem (word w r) := by
  apply BitVec.eq_of_toInt_eq
  rw [word, Int64.toBitVec_toUInt64, Int64.toBitVec_mod, toInt_setWidth_of_le h,
    toBitVec_signedValue h0 h, toBitVec_signedValue h0 h, BitVec.toInt_srem,
    BitVec.toInt_signExtend_of_le h, BitVec.toInt_signExtend_of_le h, ← BitVec.toInt_srem]
  exact BitVec.toInt_bmod_cancel _

theorem word_lowDiv (h0 : w ≠ 0) (h : w ≤ 64) (l r : UInt64) :
    word w (lowBits w l / lowBits w r) = word w l / word w r := by
  apply BitVec.eq_of_toNat_eq
  have hlt : (word w l).toNat / (word w r).toNat < 2 ^ w :=
    Nat.lt_of_le_of_lt (Nat.div_le_self _ _) (word w l).isLt
  rw [word, BitVec.toNat_setWidth, UInt64.toNat_toBitVec, UInt64.toNat_div, ← toNat_word h0 h,
    ← toNat_word h0 h, BitVec.toNat_udiv, Nat.mod_eq_of_lt hlt]

theorem word_lowRem (h0 : w ≠ 0) (h : w ≤ 64) (l r : UInt64) :
    word w (lowBits w l % lowBits w r) = word w l % word w r := by
  apply BitVec.eq_of_toNat_eq
  have hlt : (word w l).toNat % (word w r).toNat < 2 ^ w :=
    Nat.lt_of_le_of_lt (Nat.mod_le _ _) (word w l).isLt
  rw [word, BitVec.toNat_setWidth, UInt64.toNat_toBitVec, UInt64.toNat_mod, ← toNat_word h0 h,
    ← toNat_word h0 h, BitVec.toNat_umod, Nat.mod_eq_of_lt hlt]

end Words

/-! ## Evaluating constants -/

namespace IntType

variable (t : IntType)

theorem bits_ne_zero : t.bits ≠ 0 := t.width.bits_ne_zero

theorem bits_le : t.bits ≤ 64 := t.width.bits_le

theorem one_lt_bits : 1 < t.bits := by
  obtain ⟨signed, w⟩ := t
  show 1 < w.bits
  cases w <;> decide

variable {t}

/-- A word that is minus one is read as that. -/
theorem signedValue_of_word_eq_neg_one {v : UInt64} (hv : word t.bits v = -1#t.bits) :
    signedValue t.bits v = -1 := by
  rw [← Int64.toInt_inj, toInt_signedValue t.bits_ne_zero t.bits_le, hv]
  rw [BitVec.neg_one_eq_allOnes, BitVec.toInt_allOnes, if_pos (Nat.lt_of_succ_lt t.one_lt_bits)]
  rfl

/-- **Division** has a result only where the one of words does not trap. -/
theorem divide_eq_some {quotient : Bool} {l r bits : UInt64}
    (hd : t.divide quotient l r = some bits) :
    t.traps (word t.bits l) (word t.bits r) = false ∧ word t.bits bits =
      if t.signed then
        if quotient then (word t.bits l).sdiv (word t.bits r)
        else (word t.bits l).srem (word t.bits r)
      else if quotient then word t.bits l / word t.bits r
      else word t.bits l % word t.bits r := by
  have h0 := t.bits_ne_zero
  have h := t.bits_le
  have hpos : 0 < t.bits := by omega
  unfold divide at hd
  split at hd
  · cases hd
  next hzero =>
  rw [lowBits_eq_zero_iff h0 h] at hzero
  cases hs : t.signed with
  | true =>
    simp only [hs, if_true] at hd
    split at hd
    · cases hd
    next hmin =>
    refine ⟨?_, ?_⟩
    · have hnot : word t.bits l = BitVec.intMin t.bits → word t.bits r ≠ -1#t.bits := by
        intro hl hr
        refine hmin ⟨signedValue_of_word_eq_neg_one hr, ?_⟩
        rw [toInt_signedValue h0 h, hl]
        exact BitVec.toInt_intMin_of_pos hpos
      simpa [traps, hs, hzero] using hnot
    · obtain rfl := Option.some.inj hd
      cases quotient with
      | true => exact word_signedDiv h0 h l r
      | false => exact word_signedRem h0 h l r
  | false =>
    simp only [hs, Bool.false_eq_true, if_false] at hd
    obtain rfl := Option.some.inj hd
    refine ⟨by simp [traps, hs, hzero], ?_⟩
    cases quotient with
    | true => exact word_lowDiv h0 h l r
    | false => exact word_lowRem h0 h l r

theorem evalBinary_eq_some {op : BinOp} {l r bits : UInt64}
    (he : t.evalBinary op l r = some bits) :
    t.operate? op (word t.bits l) (word t.bits r) = some (some (word t.bits bits)) := by
  have h := t.bits_le
  cases op with
  | add =>
    obtain rfl := Option.some.inj he
    rw [operate?, word_add h]
  | sub =>
    obtain rfl := Option.some.inj he
    rw [operate?, word_sub h]
  | mul =>
    obtain rfl := Option.some.inj he
    rw [operate?, word_mul h]
  | and =>
    obtain rfl := Option.some.inj he
    rw [operate?, word_and]
  | or =>
    obtain rfl := Option.some.inj he
    rw [operate?, word_or]
  | xor =>
    obtain rfl := Option.some.inj he
    rw [operate?, word_xor]
  | div =>
    obtain ⟨htraps, hword⟩ := divide_eq_some he
    simp [operate?, htraps, hword]
  | rem =>
    obtain ⟨htraps, hword⟩ := divide_eq_some he
    simp [operate?, htraps, hword]
  | other => cases he

/-- The order of two patterns is that of the numbers they stand for. -/
theorem order_eq (l r : UInt64) :
    t.order l r = Ord.compare (t.value (word t.bits l)) (t.value (word t.bits r)) := by
  have h0 := t.bits_ne_zero
  have h := t.bits_le
  unfold order value
  cases t.signed with
  | true =>
    simp only [if_true]
    rw [← toInt_signedValue h0 h, ← toInt_signedValue h0 h]
    show compareOfLessAndEq _ _ = compareOfLessAndEq _ _
    simp only [compareOfLessAndEq, Int64.lt_iff_toInt_lt, Int64.toInt_inj]
  | false =>
    simp only [Bool.false_eq_true, if_false]
    rw [toNat_word h0 h, toNat_word h0 h]
    show compareOfLessAndEq _ _ = compareOfLessAndEq _ _
    simp only [compareOfLessAndEq, UInt64.lt_iff_toNat_lt, Int.ofNat_lt, Int.ofNat_inj,
      UInt64.toNat_inj]

theorem holds_compare (p : CmpPred) (x y : BitVec t.bits) :
    p.holds (Ord.compare (t.value x) (t.value y)) = t.relate? p x y := by
  generalize hx : t.value x = a
  generalize hy : t.value y = b
  have hcompare : Ord.compare a b = if a < b then .lt else if a = b then .eq else .gt := rfl
  rw [hcompare]
  unfold relate?
  rw [hx, hy]
  rcases Int.lt_trichotomy a b with hlt | rfl | hgt
  · have hne : a ≠ b := by omega
    have hle : a ≤ b := by omega
    have hnot : ¬ b < a := by omega
    have hge : ¬ b ≤ a := by omega
    rw [if_pos hlt]
    cases p <;> simp [CmpPred.holds, hlt, hne, hle, hnot, hge]
  · rw [if_neg (Int.lt_irrefl a), if_pos rfl]
    cases p <;> simp [CmpPred.holds]
  · have hne : a ≠ b := by omega
    have hle : b ≤ a := by omega
    have hnot : ¬ a < b := by omega
    have hge : ¬ a ≤ b := by omega
    rw [if_neg hnot, if_neg hne]
    cases p <;> simp [CmpPred.holds, hgt, hne, hle, hnot, hge]

end IntType

/-- An integer or a truth value that has no bits but those of its type. -/
structure ConstValue.Legal (x : ConstValue) : Prop where
  kind : x.ty = .bool ∨ ∃ t, x.ty = .int t
  fits : truncateBits (some x.ty) x.bits = x.bits

theorem Const.legal_of_value? {c : Const} {x : ConstValue} (h : c.value? = some x) : x.Legal := by
  obtain ⟨ty, -, hx⟩ := Option.bind_eq_some_iff.1 h
  split at hx
  · next bits hbits =>
    obtain rfl := Option.some.inj hx
    refine ⟨?_, truncateBits_of_literalBits hbits⟩
    cases ty with
    | bool => exact Or.inl rfl
    | int t => exact Or.inr ⟨t, rfl⟩
    | _ => cases hbits
  · cases hx

/-- The value of a constant that is written for some bits. -/
theorem Const.value?_formatBits {ty : Ty} (h : ty = .bool ∨ ∃ t, ty = .int t) (id : ValueId)
    (bits : UInt64) :
    Const.value? ⟨id, some ty, formatBits (some ty) bits⟩ =
      some ⟨ty, truncateBits (some ty) bits⟩ := by
  simp [Const.value?, literalBits_formatBits h]

theorem Const.value?_boolLiteral (id : ValueId) (b : Bool) :
    Const.value? ⟨id, some .bool, boolLiteral b⟩ = some (.ofBool b) := by
  cases b <;> rfl

theorem truncateBits_int (t : IntType) (v : UInt64) :
    truncateBits (some (.int t)) v = pattern (word t.bits v) :=
  lowBits_eq t.bits_ne_zero t.bits_le v

theorem truncateBits_bool (v : UInt64) : truncateBits (some .bool) v = pattern (word 1 v) :=
  lowBits_eq (by decide) (by decide) v

theorem evalBinary_meaning {op : BinOp} {ty : Ty} {l r bits : UInt64}
    (he : evalBinary op ty l r = some bits) :
    (ty = .bool ∨ ∃ t, ty = .int t) ∧
      ConstValue.operate? op ⟨ty, l⟩ ⟨ty, r⟩ = some (some ⟨ty, truncateBits (some ty) bits⟩) := by
  cases ty with
  | int t =>
    refine ⟨Or.inr ⟨t, rfl⟩, ?_⟩
    rw [truncateBits_int]
    simp only [ConstValue.operate?, if_true, IntType.evalBinary_eq_some he, Option.map_some,
      ConstValue.ofWord]
  | bool =>
    refine ⟨Or.inl rfl, ?_⟩
    rw [truncateBits_bool]
    cases op with
    | and =>
      obtain rfl := Option.some.inj he
      simp only [ConstValue.operate?, operateBool?, Option.map_some, word_and]
    | or =>
      obtain rfl := Option.some.inj he
      simp only [ConstValue.operate?, operateBool?, Option.map_some, word_or]
    | xor =>
      obtain rfl := Option.some.inj he
      simp only [ConstValue.operate?, operateBool?, Option.map_some, word_xor]
    | _ => cases he
  | _ => cases he

theorem evalCompare_meaning {p : CmpPred} {ty : Ty} {l r : UInt64} {b : Bool}
    (hl : ConstValue.Legal ⟨ty, l⟩) (hr : ConstValue.Legal ⟨ty, r⟩)
    (he : evalCompare p ty l r = some b) : ConstValue.relate? p ⟨ty, l⟩ ⟨ty, r⟩ = some b := by
  cases ty with
  | int t =>
    rw [evalCompare, IntType.order_eq, IntType.holds_compare] at he
    simpa [ConstValue.relate?] using he
  | bool =>
    have heq : word 1 l = word 1 r ↔ l = r := by
      rw [word_eq_iff (by decide) (by decide)]
      exact ⟨fun h => hl.fits.symm.trans (h.trans hr.fits), fun h => by rw [h]⟩
    have hcompare : Ord.compare l r = .eq ↔ l = r := by
      show compareOfLessAndEq l r = .eq ↔ l = r
      unfold compareOfLessAndEq
      by_cases h : l = r
      · simp [h]
      · simp only [h, if_false, iff_false]
        split <;> simp
    cases p with
    | eq =>
      simpa [evalCompare, CmpPred.holds, ConstValue.relate?, relateBool?, heq, hcompare] using he
    | ne =>
      simpa [evalCompare, CmpPred.holds, ConstValue.relate?, relateBool?, heq, hcompare] using he
    | _ => simp [evalCompare] at he
  | _ => cases he

/-- A pattern that fits a width is extended by zeros. -/
theorem word_of_fits {w u : Nat} (h0 : w ≠ 0) (h : w ≤ 64) (hu : u ≤ 64) {v : UInt64}
    (hv : lowBits w v = v) : word u v = (word w v).setWidth u := by
  rw [word, ← hv, toBitVec_lowBits h0 h, word_lowBits h0 h, BitVec.setWidth_setWidth_of_le _ hu]

/-- **Conversions**, of values that have no bits but those of their types. -/
theorem convert_meaning {x : ConstValue} {ty : Ty} (hx : x.Legal) (hc : x.ty.canCast ty = true) :
    (ty = .bool ∨ ∃ t, ty = .int t) ∧
      x.convert? (some ty) = some ⟨ty, truncateBits (some ty) x.extended⟩ := by
  obtain ⟨xty, bits⟩ := x
  obtain ⟨hkind, hfits⟩ := hx
  dsimp only at hkind hfits hc
  have hbits : xty.isSigned = false → ConstValue.extended ⟨xty, bits⟩ = bits := by
    intro hsigned
    simp [ConstValue.extended, hsigned]
  cases ty with
  | int u =>
    refine ⟨Or.inr ⟨u, rfl⟩, ?_⟩
    rw [truncateBits_int]
    rcases hkind with rfl | ⟨t, rfl⟩
    · rw [hbits rfl, word_of_fits (by decide) (by decide) u.bits_le hfits]
      rfl
    · have hword : word u.bits (ConstValue.extended ⟨.int t, bits⟩) =
          t.convert u (word t.bits bits) := by
        cases hs : t.signed with
        | true =>
          have hext : ConstValue.extended ⟨.int t, bits⟩ = (signedValue t.bits bits).toUInt64 := by
            simp [ConstValue.extended, Ty.isSigned, hs, signExtend, Ty.bits]
          rw [hext, word, Int64.toBitVec_toUInt64, toBitVec_signedValue t.bits_ne_zero t.bits_le,
            setWidth_signExtend u.bits_le, IntType.convert, hs, if_pos rfl]
        | false =>
          rw [hbits hs, word_of_fits t.bits_ne_zero t.bits_le u.bits_le hfits, IntType.convert, hs]
          rfl
      rw [hword]
      rfl
  | bool =>
    rcases hkind with rfl | ⟨t, rfl⟩
    · refine ⟨Or.inl rfl, ?_⟩
      rw [hbits rfl, truncateBits_bool]
      rfl
    · simp [Ty.canCast] at hc
  | _ => rcases hkind with rfl | ⟨t, rfl⟩ <;> simp [Ty.canCast] at hc

theorem Consts.value?_eq (consts : Consts) (id : ValueId) :
    consts.value? id = (consts.lookup id).bind Const.value? := by
  unfold Consts.value?
  cases hl : consts.lookup id with
  | none => rfl
  | some c =>
    obtain ⟨result, ty, literal⟩ := c
    cases ty <;> rfl

theorem Consts.legal_of_value? {consts : Consts} {id : ValueId} {x : ConstValue}
    (h : consts.value? id = some x) : x.Legal := by
  rw [Consts.value?_eq] at h
  obtain ⟨c, -, hx⟩ := Option.bind_eq_some_iff.1 h
  exact Const.legal_of_value? hx

theorem Consts.pair?_eq_some {consts : Consts} {l r : ValueId} {ty : Ty} {a b : UInt64}
    (h : consts.pair? l r = some (ty, a, b)) :
    consts.value? l = some ⟨ty, a⟩ ∧ consts.value? r = some ⟨ty, b⟩ := by
  simp only [Consts.pair?, Option.bind_eq_bind, Option.bind_eq_some_iff,
    Option.ite_none_right_eq_some, Option.some.injEq, Prod.mk.injEq] at h
  obtain ⟨⟨tx, x⟩, hx, ⟨ty', y⟩, hy, rfl, rfl, rfl, rfl⟩ := h
  exact ⟨hx, hy⟩

/-- **Evaluating an instruction.** The constant that takes its place has the value that the
instruction has for the values of its operands. -/
theorem foldInstr_meaning {consts : Consts} {i : Instr} {c : Const}
    (h : foldInstr consts i = some c) :
    c.result = i.result ∧ ∃ xs x, i.operands.mapM consts.value? = some xs ∧
      i.meaning? xs = some (some x) ∧ c.value? = some x := by
  cases i with
  | binary b =>
    simp only [foldInstr, Option.bind_eq_bind, Option.bind_eq_some_iff, Option.some.injEq] at h
    obtain ⟨⟨ty, l, r⟩, hpair, bits, hbits, rfl⟩ := h
    obtain ⟨hl, hr⟩ := Consts.pair?_eq_some hpair
    obtain ⟨hkind, hmeaning⟩ := evalBinary_meaning hbits
    refine ⟨rfl, [⟨ty, l⟩, ⟨ty, r⟩], ⟨ty, truncateBits (some ty) bits⟩, ?_, hmeaning,
      Const.value?_formatBits hkind _ _⟩
    simp [Instr.operands, hl, hr]
  | compare p =>
    simp only [foldInstr, Option.bind_eq_bind, Option.bind_eq_some_iff, Option.some.injEq] at h
    obtain ⟨⟨ty, l, r⟩, hpair, v, hv, rfl⟩ := h
    obtain ⟨hl, hr⟩ := Consts.pair?_eq_some hpair
    have hmeaning := evalCompare_meaning (Consts.legal_of_value? hl) (Consts.legal_of_value? hr) hv
    refine ⟨rfl, [⟨ty, l⟩, ⟨ty, r⟩], .ofBool v, ?_, ?_, Const.value?_boolLiteral _ v⟩
    · simp [Instr.operands, hl, hr]
    · simp [Instr.meaning?, hmeaning]
  | cast k =>
    simp only [foldInstr, Option.bind_eq_bind, Option.bind_eq_some_iff,
      Option.ite_none_right_eq_some, Option.some.injEq] at h
    obtain ⟨x, hx, ty, hty, hcast, rfl⟩ := h
    obtain ⟨hkind, hmeaning⟩ := convert_meaning (Consts.legal_of_value? hx) hcast
    refine ⟨rfl, [x], ⟨ty, truncateBits (some ty) x.extended⟩, ?_, ?_, ?_⟩
    · simp [Instr.operands, hx]
    · simp [Instr.meaning?, hty, hmeaning]
    · rw [hty]
      exact Const.value?_formatBits hkind _ _
  | _ => cases h

end SsaOpt
