import SsaOpt.Literal
import SsaOpt.Proofs.Results

/-!
# Literals

Literals are read as they are written: what `formatBits` writes for a bit pattern, `literalBits`
reads as the bits of it that fit the type (`literalBits_formatBits`). And a literal never has other
bits than those (`truncateBits_of_literalBits`).

A type of `w` bits takes the low bits of a pattern as a word of that width (`word`); `lowBits` and
`signedValue` are that word, extended by zeros or by its sign.
-/

namespace SsaOpt

open Text

/-! ## Words -/

/-- The low bits of a pattern as a word. -/
def word (w : Nat) (v : UInt64) : BitVec w := v.toBitVec.setWidth w

/-- The pattern of a word: zeros stand above it. -/
def pattern {w : Nat} (x : BitVec w) : UInt64 := UInt64.ofBitVec (x.setWidth 64)

namespace Width

variable (w : Width)

theorem bits_ne_zero : w.bits ≠ 0 := by
  cases w <;> decide

theorem bits_le : w.bits ≤ 64 := by
  cases w <;> decide

end Width

section Words

variable {w : Nat}

theorem word_pattern (h : w ≤ 64) (x : BitVec w) : word w (pattern x) = x := by
  rw [word, pattern, UInt64.toBitVec_ofBitVec, BitVec.setWidth_setWidth_of_le x h,
    BitVec.setWidth_eq]

theorem toNat_lowBits (h0 : w ≠ 0) (h : w ≤ 64) (v : UInt64) :
    (lowBits w v).toNat = v.toNat % Nat.pow 2 w := by
  unfold lowBits
  split
  · next hw =>
    obtain rfl : w = 64 := by omega
    exact (Nat.mod_eq_of_lt v.toNat_lt).symm
  · next hw =>
    have hwidth : w.toUInt64.toNat = w := by
      apply Nat.mod_eq_of_lt
      show w < 2 ^ 64
      omega
    have hpos : 0 < 2 ^ w := Nat.pow_pos (by omega)
    have hlt : 2 ^ w < 2 ^ 64 := Nat.pow_lt_pow_right (by omega) (by omega)
    have hshift : (1 <<< w.toUInt64 : UInt64).toNat = 2 ^ w := by
      rw [UInt64.toNat_shiftLeft, hwidth, Nat.mod_eq_of_lt (by omega : w < 64), UInt64.toNat_one,
        Nat.one_shiftLeft, Nat.mod_eq_of_lt hlt]
    have hmask : (1 <<< w.toUInt64 - 1 : UInt64).toNat = 2 ^ w - 1 := by
      rw [UInt64.toNat_sub_of_le, hshift, UInt64.toNat_one]
      rw [UInt64.le_iff_toNat_le, hshift, UInt64.toNat_one]
      omega
    rw [UInt64.toNat_and, hmask, Nat.and_two_pow_sub_one_eq_mod]
    rfl

theorem lowBits_eq (h0 : w ≠ 0) (h : w ≤ 64) (v : UInt64) : lowBits w v = pattern (word w v) := by
  have hlt : v.toNat % 2 ^ w < 2 ^ 64 := Nat.lt_of_le_of_lt (Nat.mod_le _ _) v.toNat_lt
  rw [← UInt64.toNat_inj, toNat_lowBits h0 h, pattern, word]
  show v.toNat % 2 ^ w = ((v.toBitVec.setWidth w).setWidth 64).toNat
  rw [BitVec.toNat_setWidth, BitVec.toNat_setWidth, UInt64.toNat_toBitVec, Nat.mod_eq_of_lt hlt]

theorem lowBits_of_lt (h0 : w ≠ 0) (h : w ≤ 64) {v : UInt64} (hv : v.toNat < Nat.pow 2 w) :
    lowBits w v = v := by
  rw [← UInt64.toNat_inj, toNat_lowBits h0 h, Nat.mod_eq_of_lt hv]

theorem toBitVec_lowBits (h0 : w ≠ 0) (h : w ≤ 64) (v : UInt64) :
    (lowBits w v).toBitVec = (word w v).setWidth 64 := by
  rw [lowBits_eq h0 h, pattern, UInt64.toBitVec_ofBitVec]

theorem word_lowBits (h0 : w ≠ 0) (h : w ≤ 64) (v : UInt64) : word w (lowBits w v) = word w v := by
  rw [lowBits_eq h0 h, word_pattern h]

theorem lowBits_lowBits (h0 : w ≠ 0) (h : w ≤ 64) (v : UInt64) :
    lowBits w (lowBits w v) = lowBits w v := by
  rw [lowBits_eq h0 h (lowBits w v), word_lowBits h0 h, ← lowBits_eq h0 h]

/-- Two shifts extend a word by its sign. -/
theorem toBitVec_signedValue (h0 : w ≠ 0) (h : w ≤ 64) (v : UInt64) :
    (signedValue w v).toBitVec = (word w v).signExtend 64 := by
  unfold signedValue
  split
  · next hw =>
    obtain rfl : w = 64 := by omega
    rw [word, BitVec.setWidth_eq, BitVec.signExtend_eq, UInt64.toBitVec_toInt64]
  · next hw =>
    have hshift : (64 - w).toUInt64.toNat = 64 - w := by
      apply Nat.mod_eq_of_lt
      show 64 - w < 2 ^ 64
      omega
    have hleft : ((64 - w).toUInt64.toBitVec % 64).toNat = 64 - w := by
      rw [BitVec.toNat_umod, UInt64.toNat_toBitVec, hshift]
      apply Nat.mod_eq_of_lt
      show 64 - w < 64
      omega
    have hright : ((64 - w).toUInt64.toInt64.toBitVec.smod 64).toNat = 64 - w := by
      have hmsb : (64 - w).toUInt64.toBitVec.msb = false := by
        rw [BitVec.msb_eq_false_iff_two_mul_lt, UInt64.toNat_toBitVec, hshift]
        omega
      have hmsb' : (64 : BitVec 64).msb = false := by decide
      rw [UInt64.toBitVec_toInt64, BitVec.smod_eq, hmsb, hmsb']
      exact hleft
    rw [Int64.toBitVec_shiftRight, UInt64.toBitVec_toInt64, UInt64.toBitVec_shiftLeft]
    apply BitVec.eq_of_getLsbD_eq
    intro i hi
    rw [BitVec.getLsbD_sshiftRight', BitVec.getLsbD_signExtend, hright, BitVec.shiftLeft_eq',
      hleft, word, BitVec.msb_shiftLeft, BitVec.msb_setWidth, BitVec.getLsbD_shiftLeft,
      BitVec.getLsbD_setWidth]
    have h64 : ¬ 64 ≤ i := by omega
    by_cases hiw : i < w
    · have hlt : 64 - w + i < 64 := by omega
      have hsub : 64 - w + i - (64 - w) = i := by omega
      have hnot : ¬ 64 - w + i < 64 - w := by omega
      simp [hiw, hlt, hsub, hi, hnot, h64]
    · have hge : ¬ 64 - w + i < 64 := by omega
      have hmsb : 64 - 1 - (64 - w) = w - 1 := by omega
      have hlt : 64 - w < 64 := by omega
      have hpos : 0 < w := by omega
      rw [BitVec.getMsbD_eq_getLsbD, hmsb]
      simp [hiw, hge, h64, hlt, hpos, hi]

theorem toInt_signedValue (h0 : w ≠ 0) (h : w ≤ 64) (v : UInt64) :
    (signedValue w v).toInt = (word w v).toInt := by
  rw [← Int64.toInt_toBitVec, toBitVec_signedValue h0 h, BitVec.toInt_signExtend_of_le h]

theorem word_signedValue (h0 : w ≠ 0) (h : w ≤ 64) (v : UInt64) :
    word w (signedValue w v).toUInt64 = word w v := by
  rw [word, Int64.toBitVec_toUInt64, toBitVec_signedValue h0 h]
  apply BitVec.eq_of_getLsbD_eq
  intro i hi
  have hi' : i < 64 := by omega
  rw [BitVec.getLsbD_setWidth, BitVec.getLsbD_signExtend, if_pos hi]
  simp [hi, hi']

end Words

/-! ## Numerals -/

namespace Text

theorem digitValue_digitChar :
    ∀ d < 10, d.digitChar.isDigit = true ∧ digitValue d.digitChar = d := by
  decide

theorem readDigits_append (limit n : Nat) (cs ds : List Char) :
    readDigits limit n (cs ++ ds) =
      (readDigits limit n cs).bind fun n => readDigits limit n ds := by
  induction cs generalizing n with
  | nil => rfl
  | cons c cs ih =>
    rw [List.cons_append, readDigits, readDigits]
    split
    · dsimp only
      split
      · rfl
      · exact ih _
    · rfl

theorem readDigits_digitChar {limit n d : Nat} (hd : d < 10) (h : n * 10 + d ≤ limit) :
    readDigits limit n [d.digitChar] = .ok (n * 10 + d) := by
  obtain ⟨hdigit, hvalue⟩ := digitValue_digitChar d hd
  have hnot : ¬ limit < n * 10 + d := by omega
  simp [readDigits, hdigit, hvalue, hnot]

/-- The digits of a number, the last of which is read last. -/
theorem readDigits_toDigits {limit : Nat} (n : Nat) (h : n ≤ limit) :
    readDigits limit 0 (Nat.toDigits 10 n) = .ok n := by
  induction n using Nat.strongRecOn with
  | ind n ih =>
    by_cases hn : n < 10
    · rw [Nat.toDigits_of_lt_base hn, readDigits_digitChar hn (by omega)]
      congr 1
      omega
    · have hrest := ih (n / 10) (by omega) (by omega)
      rw [Nat.toDigits_of_base_le (by omega) (by omega), readDigits_append, hrest]
      show readDigits limit (n / 10) [(n % 10).digitChar] = .ok n
      rw [readDigits_digitChar (by omega) (by omega)]
      congr 1
      omega

theorem readNat_toDigits {limit n : Nat} (h : n ≤ limit) :
    readNat limit (Nat.toDigits 10 n) = .ok n := by
  rw [← readDigits_toDigits n h]
  cases hds : Nat.toDigits 10 n with
  | nil => exact absurd hds Nat.toDigits_ne_nil
  | cons d ds => rfl

theorem readNat_toString {limit n : Nat} (h : n ≤ limit) :
    readNat limit (toString n).toList = .ok n := by
  rw [Nat.toString_eq_ofList_toDigits, String.toList_ofList, readNat_toDigits h]

/-- A numeral without a sign. -/
theorem readInt_toDigits (bits n : Nat) : readInt bits (Nat.toDigits 10 n) =
    readMagnitude (Nat.pow 2 (bits - 1)) false (Nat.toDigits 10 n) := by
  have hdigit : ∀ c ∈ Nat.toDigits 10 n, c.isDigit = true :=
    fun c hc => Nat.isDigit_of_mem_toDigits (by omega) (by omega) hc
  unfold readInt
  split
  · next cs hcs =>
    have hsign := hdigit '+' (by simp [hcs])
    cases hsign
  · next cs hcs =>
    have hsign := hdigit '-' (by simp [hcs])
    cases hsign
  · rfl

/-- **Signed numerals** in the range of a width. -/
theorem readInt_toString {bits : Nat} {i : Int} (hlo : -(Nat.pow 2 (bits - 1) : Int) ≤ i)
    (hhi : i < (Nat.pow 2 (bits - 1) : Int)) : readInt bits (toString i).toList = .ok i := by
  have hpos : 0 < Nat.pow 2 (bits - 1) := Nat.pow_pos (by omega)
  rw [Int.toString_eq_repr, Int.repr_eq_if]
  split
  · next h0 =>
    have hread : readNat (2 * Nat.pow 2 (bits - 1) - 1) (Nat.toDigits 10 i.toNat) =
        .ok i.toNat := readNat_toDigits (by omega)
    have hle : ¬ Nat.pow 2 (bits - 1) ≤ i.toNat := by omega
    rw [Nat.repr_eq_ofList_toDigits, String.toList_ofList, readInt_toDigits, readMagnitude, hread]
    show (if Nat.pow 2 (bits - 1) ≤ i.toNat then _ else Except.ok (i.toNat : Int)) = .ok i
    rw [if_neg hle, Int.toNat_of_nonneg h0]
  · next h0 =>
    have hread : readNat (2 * Nat.pow 2 (bits - 1) - 1) (Nat.toDigits 10 (-i).toNat) =
        .ok (-i).toNat := readNat_toDigits (by omega)
    have hle : ¬ Nat.pow 2 (bits - 1) < (-i).toNat := by omega
    have hlist : ("-" ++ (-i).toNat.repr).toList = '-' :: Nat.toDigits 10 (-i).toNat := by
      rw [String.toList_append, Nat.repr_eq_ofList_toDigits, String.toList_ofList]
      simp
    rw [hlist, readInt, readMagnitude, hread]
    show (if Nat.pow 2 (bits - 1) < (-i).toNat then _ else Except.ok (-((-i).toNat : Int))) = .ok i
    rw [if_neg hle]
    congr 1
    omega

end Text

/-! ## Literals -/

/-- What a literal of an integer type is read as. -/
theorem IntType.readLiteral_formatBits (t : IntType) (v : UInt64) :
    t.readLiteral (formatBits (some (.int t)) v).toList = .ok (lowBits t.bits v) := by
  obtain ⟨signed, w⟩ := t
  have h0 := w.bits_ne_zero
  have h := w.bits_le
  cases signed with
  | true =>
    have hread : readInt w.bits (toString (signedValue w.bits v).toInt).toList =
        .ok (signedValue w.bits v).toInt := by
      apply readInt_toString
      · rw [toInt_signedValue h0 h]
        exact BitVec.le_toInt _
      · rw [toInt_signedValue h0 h]
        exact BitVec.toInt_lt
    show (readInt w.bits (toString (signedValue w.bits v).toInt).toList).map _ = _
    rw [hread]
    show Except.ok (lowBits w.bits (Int64.ofInt (signedValue w.bits v).toInt).toUInt64) =
      .ok (lowBits w.bits v)
    rw [Int64.ofInt_toInt, lowBits_eq h0 h, word_signedValue h0 h, ← lowBits_eq h0 h]
  | false =>
    have hle : (lowBits w.bits v).toNat ≤ Nat.pow 2 w.bits - 1 := by
      rw [toNat_lowBits h0 h]
      apply Nat.le_sub_one_of_lt
      exact Nat.mod_lt _ (Nat.pow_pos (by omega))
    show (readNat (Nat.pow 2 w.bits - 1) (toString (lowBits w.bits v).toNat).toList).map _ = _
    rw [readNat_toString hle]
    show Except.ok (UInt64.ofNat (lowBits w.bits v).toNat) = .ok (lowBits w.bits v)
    rw [UInt64.ofNat_toNat]

theorem and_one_eq (v : UInt64) : v &&& 1 = if v &&& 1 = 1 then 1 else 0 := by
  split
  · next h => exact h
  · next h =>
    rw [← UInt64.toNat_inj, UInt64.toNat_and, UInt64.toNat_one, Nat.and_one_is_mod] at h ⊢
    show v.toNat % 2 = 0
    omega

/-- **Literals are read as they are written.** -/
theorem literalBits_formatBits {ty : Ty} (h : ty = .bool ∨ ∃ t, ty = .int t) (v : UInt64) :
    literalBits (some ty) (formatBits (some ty) v) = .ok (truncateBits (some ty) v) := by
  rcases h with rfl | ⟨t, rfl⟩
  · have hlow : truncateBits (some .bool) v = v &&& 1 := rfl
    rw [hlow, and_one_eq v]
    by_cases hv : v &&& 1 = 1
    · rw [formatBits, decide_eq_true hv, if_pos hv]
      rfl
    · rw [formatBits, decide_eq_false hv, if_neg hv]
      rfl
  · rw [literalBits, t.readLiteral_formatBits]
    rfl

theorem Text.le_of_readDigits {limit n k : Nat} {cs : List Char} (hn : n ≤ limit)
    (h : readDigits limit n cs = .ok k) : k ≤ limit := by
  induction cs generalizing n with
  | nil =>
    obtain rfl := Except.ok.inj h
    exact hn
  | cons c cs ih =>
    rw [readDigits] at h
    split at h
    · dsimp only at h
      split at h
      · cases h
      · next hle => exact ih (by omega) h
    · cases h

theorem Text.le_of_readNat {limit k : Nat} {cs : List Char} (h : readNat limit cs = .ok k) :
    k ≤ limit := by
  cases cs with
  | nil => cases h
  | cons c cs => exact le_of_readDigits (Nat.zero_le limit) h

/-- **The bits of a literal fit its type.** -/
theorem truncateBits_of_literalBits {ty : Ty} {s : String} {v : UInt64}
    (h : literalBits (some ty) s = .ok v) : truncateBits (some ty) v = v := by
  cases ty with
  | bool =>
    rw [literalBits] at h
    split at h
    · obtain rfl := Except.ok.inj h
      rfl
    · split at h
      · obtain rfl := Except.ok.inj h
        rfl
      · cases h
  | int t =>
    have hread : t.readLiteral s.toList = .ok v := by
      cases hr : t.readLiteral s.toList with
      | error e => simp [literalBits, hr, Except.mapError] at h
      | ok v' => simpa [literalBits, hr, Except.mapError] using h
    obtain ⟨signed, w⟩ := t
    have h0 := w.bits_ne_zero
    have h64 := w.bits_le
    show lowBits w.bits v = v
    cases signed with
    | true =>
      obtain ⟨i, -, rfl⟩ := exists_of_map_eq_ok hread
      exact lowBits_lowBits h0 h64 _
    | false =>
      obtain ⟨n, hn, rfl⟩ := exists_of_map_eq_ok hread
      have hle : n ≤ Nat.pow 2 w.bits - 1 := le_of_readNat hn
      have hpos : 0 < Nat.pow 2 w.bits := Nat.pow_pos (by omega)
      apply lowBits_of_lt h0 h64
      have hmod : (UInt64.ofNat n).toNat ≤ n := Nat.mod_le _ _
      omega
  | _ => cases h

end SsaOpt
