import Mathlib.Data.Int.Bitwise
import SsaOpt.Proofs.Arithmetic

/-!
# Fixed-width arithmetic on integers

The operations on words, told without words. A type contains a range of integers
(`IntType.Contains`). Sums, differences and products are taken to the one number of the type that is
congruent modulo a power of two (`IntType.Wraps`), bitwise operations are those of two's complement
(`testBit_value`), and quotients and remainders are cut off toward zero. An operation on two bit
patterns has a result exactly if that on the integers has one, which is then the number that the
result stands for (`IntType.evalBinary_iff`).
-/

namespace SsaOpt

/-! ## The numbers of a type -/

namespace IntType

variable (t : IntType)

/-- The least number of the type. -/
def least : Int := if t.signed then -(Nat.pow 2 (t.bits - 1) : Int) else 0

/-- The numbers of the type: as many as it has words, from the least one on. -/
def Contains (z : Int) : Prop := t.least ≤ z ∧ z < t.least + (Nat.pow 2 t.bits : Int)

/-- The number `z` of the type is congruent to `a`, modulo the number of words. -/
structure Wraps (a z : Int) : Prop where
  contains : t.Contains z
  congruent : ∃ k : Int, z = a + k * (Nat.pow 2 t.bits : Int)

/-- The division of `x` by `y` has no result: the divisor is zero, or the quotient of the least
signed number and minus one is too large. -/
def NoQuotient (x y : Int) : Prop := y = 0 ∨ (t.signed = true ∧ x = t.least ∧ y = -1)

/-- The operation on two numbers of the type gives the number `z`. -/
inductive Evaluates : BinOp → Int → Int → Int → Prop
  | add {x y z : Int} (h : t.Wraps (x + y) z) : Evaluates .add x y z
  | sub {x y z : Int} (h : t.Wraps (x - y) z) : Evaluates .sub x y z
  | mul {x y z : Int} (h : t.Wraps (x * y) z) : Evaluates .mul x y z
  | and (x y : Int) : Evaluates .and x y (Int.land x y)
  | or (x y : Int) : Evaluates .or x y (Int.lor x y)
  | xor (x y : Int) : Evaluates .xor x y (Int.xor x y)
  | div {x y : Int} (h : ¬ t.NoQuotient x y) : Evaluates .div x y (Int.tdiv x y)
  | rem {x y : Int} (h : ¬ t.NoQuotient x y) : Evaluates .rem x y (Int.tmod x y)

/-! ### Words -/

variable {t}

theorem two_mul_pow_pred : 2 * Nat.pow 2 (t.bits - 1) = Nat.pow 2 t.bits := by
  have h0 := t.bits_ne_zero
  obtain ⟨k, hk⟩ : ∃ k, t.bits = k + 1 := ⟨t.bits - 1, by omega⟩
  rw [hk]
  exact (Nat.pow_succ' (m := 2) (n := k)).symm

/-- The number of a word is one of the type. -/
theorem contains_value (v : BitVec t.bits) : t.Contains (t.value v) := by
  have htwo := t.two_mul_pow_pred
  unfold Contains least value
  cases t.signed with
  | true =>
    have hlo : -(Nat.pow 2 (t.bits - 1) : Int) ≤ v.toInt := v.le_toInt
    have hhi : v.toInt < (Nat.pow 2 (t.bits - 1) : Int) := v.toInt_lt
    simp only [if_true]
    omega
  | false =>
    have hlt : v.toNat < Nat.pow 2 t.bits := v.isLt
    simp only [Bool.false_eq_true, if_false]
    omega

/-- A word is the one of its number. -/
theorem ofInt_value (v : BitVec t.bits) : BitVec.ofInt t.bits (t.value v) = v := by
  unfold value
  split
  · exact BitVec.ofInt_toInt
  · rw [BitVec.ofInt_natCast, BitVec.ofNat_toNat, BitVec.setWidth_eq]

theorem value_inj {v w : BitVec t.bits} : t.value v = t.value w ↔ v = w := by
  constructor
  · intro h
    rw [← ofInt_value v, h, ofInt_value]
  · rintro rfl
    rfl

/-- The word of a number stands for the congruent number of the type. -/
theorem wraps_ofInt (a : Int) : t.Wraps a (t.value (BitVec.ofInt t.bits a)) := by
  refine ⟨contains_value _, ?_⟩
  unfold value
  split
  · refine ⟨-a.bdiv (2 ^ t.bits), ?_⟩
    have hdiv := Int.bmod_add_bdiv a (2 ^ t.bits)
    rw [BitVec.toInt_ofInt, Int.neg_mul, Int.mul_comm]
    show a.bmod (2 ^ t.bits) = a + -((2 ^ t.bits : Nat) * a.bdiv (2 ^ t.bits))
    omega
  · have hpos : ((2 ^ t.bits : Nat) : Int) ≠ 0 := by
      have : 0 < 2 ^ t.bits := Nat.pow_pos (by omega)
      omega
    refine ⟨-(a / (2 ^ t.bits : Nat)), ?_⟩
    have hdiv := Int.mul_ediv_add_emod a (2 ^ t.bits : Nat)
    rw [BitVec.toNat_ofInt, Int.toNat_of_nonneg (Int.emod_nonneg a hpos), Int.neg_mul, Int.mul_comm]
    show a % (2 ^ t.bits : Nat) = a + -((2 ^ t.bits : Nat) * (a / (2 ^ t.bits : Nat)))
    omega

/-- There is no other number of the type that is congruent. -/
theorem Wraps.eq {a z z' : Int} (h : t.Wraps a z) (h' : t.Wraps a z') : z = z' := by
  obtain ⟨⟨hlo, hhi⟩, k, hk⟩ := h
  obtain ⟨⟨hlo', hhi'⟩, k', hk'⟩ := h'
  have hdvd : (Nat.pow 2 t.bits : Int) ∣ z - z' := by
    refine ⟨k - k', ?_⟩
    rw [Int.mul_sub, Int.mul_comm _ k, Int.mul_comm _ k']
    omega
  have hzero := Int.eq_zero_of_dvd_of_natAbs_lt_natAbs hdvd (by omega)
  omega

theorem wraps_iff {a z : Int} : t.Wraps a z ↔ t.value (BitVec.ofInt t.bits a) = z :=
  ⟨(wraps_ofInt a).eq, fun h => h ▸ wraps_ofInt a⟩

theorem existsUnique_wraps (a : Int) : ∃! z, t.Wraps a z :=
  ⟨_, wraps_ofInt a, fun _ h => h.eq (wraps_ofInt a)⟩

/-! ### Bits -/

/-- A number has the bits of its word, and then its sign without end. -/
theorem testBit_value (v : BitVec t.bits) (k : Nat) :
    (t.value v).testBit k = if k < t.bits then v.getLsbD k else (t.signed && v.msb) := by
  have hlt : v.toNat < 2 ^ t.bits := v.isLt
  have hnat : (Int.ofNat v.toNat).testBit k = if k < t.bits then v.getLsbD k else false := by
    show v.toNat.testBit k = _
    rw [BitVec.testBit_toNat]
    split
    · rfl
    · next hk => exact BitVec.getLsbD_of_ge v k (by omega)
  unfold value
  cases hs : t.signed with
  | false => simpa using hnat
  | true =>
    simp only [if_true, Bool.true_and]
    rw [BitVec.toInt_eq_msb_cond]
    cases hmsb : v.msb with
    | false => simpa using hnat
    | true =>
      -- a negative number is the complement of one that is not
      have hneg : ((v.toNat : Int) - (2 ^ t.bits : Nat)) =
          Int.negSucc (2 ^ t.bits - (v.toNat + 1)) := by
        rw [Int.negSucc_eq]
        omega
      rw [if_pos rfl, hneg]
      show (!(2 ^ t.bits - (v.toNat + 1)).testBit k) = _
      rw [Nat.testBit_two_pow_sub_succ hlt, BitVec.testBit_toNat]
      by_cases hk : k < t.bits <;> simp [hk]

end IntType

/-- An integer is known by its bits. -/
theorem eq_of_testBit_eq {x y : Int} (h : ∀ k, x.testBit k = y.testBit k) : x = y := by
  -- numbers of different signs differ in all bits above both
  have hsign : ∀ m n : Nat, ¬ ∀ k, (Int.ofNat m).testBit k = (Int.negSucc n).testBit k := by
    intro m n h
    have hlt : m < 2 ^ (m + n) := Nat.lt_of_lt_of_le Nat.lt_two_pow_self
      (Nat.pow_le_pow_right (by omega) (by omega))
    have hlt' : n < 2 ^ (m + n) := Nat.lt_of_lt_of_le Nat.lt_two_pow_self
      (Nat.pow_le_pow_right (by omega) (by omega))
    have hbit : m.testBit (m + n) = !n.testBit (m + n) := h (m + n)
    rw [Nat.testBit_lt_two_pow hlt, Nat.testBit_lt_two_pow hlt'] at hbit
    cases hbit
  cases x with
  | ofNat m =>
    cases y with
    | ofNat n => exact congrArg _ (Nat.eq_of_testBit_eq h)
    | negSucc n => exact absurd h (hsign m n)
  | negSucc m =>
    cases y with
    | ofNat n => exact absurd (fun k => (h k).symm) (hsign n m)
    | negSucc n => exact congrArg _ (Nat.eq_of_testBit_eq fun k => Bool.not_inj (h k))

namespace IntType

variable {t : IntType} (v w : BitVec t.bits)

theorem value_and : t.value (v &&& w) = Int.land (t.value v) (t.value w) := by
  refine eq_of_testBit_eq fun k => ?_
  rw [Int.testBit_land, testBit_value, testBit_value, testBit_value]
  split
  · exact BitVec.getLsbD_and
  · rw [BitVec.msb_and]
    cases t.signed <;> simp

theorem value_or : t.value (v ||| w) = Int.lor (t.value v) (t.value w) := by
  refine eq_of_testBit_eq fun k => ?_
  rw [Int.testBit_lor, testBit_value, testBit_value, testBit_value]
  split
  · exact BitVec.getLsbD_or
  · rw [BitVec.msb_or]
    cases t.signed <;> simp

theorem value_xor : t.value (v ^^^ w) = Int.xor (t.value v) (t.value w) := by
  refine eq_of_testBit_eq fun k => ?_
  rw [Int.testBit_lxor, testBit_value, testBit_value, testBit_value]
  split
  · exact BitVec.getLsbD_xor
  · rw [BitVec.msb_xor]
    cases t.signed <;> simp

/-! ### Operations -/

theorem wraps_add : t.Wraps (t.value v + t.value w) (t.value (v + w)) := by
  rw [wraps_iff, BitVec.ofInt_add, ofInt_value, ofInt_value]

theorem wraps_sub : t.Wraps (t.value v - t.value w) (t.value (v - w)) := by
  rw [wraps_iff, Int.sub_eq_add_neg, BitVec.ofInt_add, BitVec.ofInt_neg, ofInt_value, ofInt_value,
    BitVec.sub_eq_add_neg]

theorem wraps_mul : t.Wraps (t.value v * t.value w) (t.value (v * w)) := by
  rw [wraps_iff, BitVec.ofInt_mul, ofInt_value, ofInt_value]

theorem value_zero : t.value 0#t.bits = 0 := by
  unfold value
  split <;> simp

theorem value_intMin (hs : t.signed = true) : t.value (BitVec.intMin t.bits) = t.least := by
  rw [value, if_pos hs, least, if_pos hs]
  exact BitVec.toInt_intMin_of_pos (Nat.pos_of_ne_zero t.bits_ne_zero)

theorem value_neg_one (hs : t.signed = true) : t.value (-1#t.bits) = -1 := by
  rw [value, if_pos hs, BitVec.neg_one_eq_allOnes, BitVec.toInt_allOnes,
    if_pos (Nat.pos_of_ne_zero t.bits_ne_zero)]

/-- Words trap if their numbers have no quotient. -/
theorem traps_iff : t.traps v w = true ↔ t.NoQuotient (t.value v) (t.value w) := by
  have hzero : w = 0#t.bits ↔ t.value w = 0 := by rw [← value_zero, value_inj]
  unfold traps NoQuotient
  cases hs : t.signed with
  | false => simp [hzero]
  | true =>
    have hmin : v = BitVec.intMin t.bits ↔ t.value v = t.least := by
      rw [← value_intMin hs, value_inj]
    have hneg : w = -1#t.bits ↔ t.value w = -1 := by rw [← value_neg_one hs, value_inj]
    simp [hzero, hmin, hneg]

variable {v w}

theorem value_div (h : t.traps v w = false) :
    t.value (if t.signed then v.sdiv w else v / w) = Int.tdiv (t.value v) (t.value w) := by
  unfold value
  cases hs : t.signed with
  | true =>
    have hne : v ≠ BitVec.intMin t.bits ∨ w ≠ -1#t.bits := by
      simp only [traps, hs, Bool.true_and, Bool.or_eq_false_iff, Bool.and_eq_false_iff,
        decide_eq_false_iff_not] at h
      exact h.2
    exact BitVec.toInt_sdiv_of_ne_or_ne v w hne
  | false =>
    simp only [Bool.false_eq_true, if_false]
    rw [BitVec.toNat_udiv, Int.ofNat_tdiv]

theorem value_rem :
    t.value (if t.signed then v.srem w else v % w) = Int.tmod (t.value v) (t.value w) := by
  unfold value
  cases hs : t.signed with
  | true => exact BitVec.toInt_srem v w
  | false =>
    simp only [Bool.false_eq_true, if_false]
    rw [BitVec.toNat_umod, Int.ofNat_tmod]

/-- **Operations on words** are those on the numbers. -/
theorem evaluates_iff {op : BinOp} {z : Int} : t.Evaluates op (t.value v) (t.value w) z ↔
    ∃ u, t.operate? op v w = some (some u) ∧ t.value u = z := by
  have htraps : t.traps v w = false ↔ ¬ t.NoQuotient (t.value v) (t.value w) := by
    rw [← traps_iff, Bool.not_eq_true]
  constructor
  · intro h
    cases h with
    | add h => exact ⟨_, rfl, (wraps_add v w).eq h⟩
    | sub h => exact ⟨_, rfl, (wraps_sub v w).eq h⟩
    | mul h => exact ⟨_, rfl, (wraps_mul v w).eq h⟩
    | and => exact ⟨_, rfl, value_and v w⟩
    | or => exact ⟨_, rfl, value_or v w⟩
    | xor => exact ⟨_, rfl, value_xor v w⟩
    | div h =>
      have hnot := htraps.2 h
      exact ⟨_, by rw [operate?, hnot]; rfl, value_div hnot⟩
    | rem h =>
      have hnot := htraps.2 h
      exact ⟨_, by rw [operate?, hnot]; rfl, value_rem⟩
  · rintro ⟨u, hu, rfl⟩
    cases op with
    | add =>
      obtain rfl := Option.some.inj (Option.some.inj hu)
      exact .add (wraps_add v w)
    | sub =>
      obtain rfl := Option.some.inj (Option.some.inj hu)
      exact .sub (wraps_sub v w)
    | mul =>
      obtain rfl := Option.some.inj (Option.some.inj hu)
      exact .mul (wraps_mul v w)
    | and =>
      obtain rfl := Option.some.inj (Option.some.inj hu)
      exact value_and v w ▸ .and _ _
    | or =>
      obtain rfl := Option.some.inj (Option.some.inj hu)
      exact value_or v w ▸ .or _ _
    | xor =>
      obtain rfl := Option.some.inj (Option.some.inj hu)
      exact value_xor v w ▸ .xor _ _
    | div =>
      cases hnot : t.traps v w with
      | true => simp [operate?, hnot] at hu
      | false =>
        obtain rfl : _ = u := by simpa [operate?, hnot] using hu
        exact value_div hnot ▸ .div (htraps.1 hnot)
    | rem =>
      cases hnot : t.traps v w with
      | true => simp [operate?, hnot] at hu
      | false =>
        obtain rfl : _ = u := by simpa [operate?, hnot] using hu
        exact value_rem (v := v) ▸ .rem (htraps.1 hnot)
    | other => cases hu

/-- A division without a result is one that traps. -/
theorem traps_of_divide_eq_none {quotient : Bool} {l r : UInt64}
    (h : t.divide quotient l r = none) : t.traps (word t.bits l) (word t.bits r) = true := by
  have h0 := t.bits_ne_zero
  have h64 := t.bits_le
  rw [traps_iff]
  unfold divide at h
  split at h
  · next hzero =>
    rw [lowBits_eq_zero_iff h0 h64] at hzero
    exact Or.inl (by rw [hzero, value_zero])
  cases hs : t.signed with
  | false => simp [hs] at h
  | true =>
    simp only [hs, if_true] at h
    split at h
    · next hmin =>
      have hvalue : ∀ v, t.value (word t.bits v) = (signedValue t.bits v).toInt := by
        intro v
        rw [value, if_pos hs, toInt_signedValue h0 h64]
      refine Or.inr ⟨hs, ?_, ?_⟩
      · rw [hvalue, hmin.2, least, if_pos hs]
      · rw [hvalue, hmin.1]
        rfl
    · cases h

/-- **Operations on patterns** are those on the numbers that they stand for. -/
theorem evalBinary_iff {op : BinOp} {l r : UInt64} {z : Int} :
    (∃ bits, t.evalBinary op l r = some bits ∧ t.value (word t.bits bits) = z) ↔
      t.Evaluates op (t.value (word t.bits l)) (t.value (word t.bits r)) z := by
  rw [evaluates_iff]
  constructor
  · rintro ⟨bits, hbits, rfl⟩
    exact ⟨_, evalBinary_eq_some hbits, rfl⟩
  · rintro ⟨u, hu, rfl⟩
    obtain ⟨bits, hbits⟩ : ∃ bits, t.evalBinary op l r = some bits := by
      refine Option.ne_none_iff_exists'.1 fun hnone => ?_
      cases op with
      | div => simp [operate?, traps_of_divide_eq_none hnone] at hu
      | rem => simp [operate?, traps_of_divide_eq_none hnone] at hu
      | other => cases hu
      | _ => cases hnone
    have heq := (evalBinary_eq_some hbits).symm.trans hu
    exact ⟨bits, hbits, by rw [Option.some.inj (Option.some.inj heq)]⟩

end IntType

end SsaOpt
