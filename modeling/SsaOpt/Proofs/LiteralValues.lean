import SsaOpt.Proofs.IntegerConstants

/-!
# What literals stand for

A literal of an integer type is a row of digits, behind a sign if the type has one, whose number is
one of the type; its pattern is that number modulo the number of words. `Spells` says so without
reading anything, and a literal is read exactly if it spells a pattern (`literalBits_eq_ok_iff`).
The limits that stop the reader at a digit stop it only if the whole numeral is out of range, since
a numeral never gets smaller by more digits (`le_foldl_digits`).
-/

namespace SsaOpt

/-! ## Numerals -/

namespace Text

theorem le_foldl_digits (cs : List Char) (n : Nat) :
    n ≤ cs.foldl (fun n c => n * 10 + digitValue c) n := by
  induction cs generalizing n with
  | nil => exact Nat.le_refl n
  | cons c cs ih =>
    have hnext := ih (n * 10 + digitValue c)
    rw [List.foldl_cons]
    omega

theorem readDigits_of_foldl_le {limit n : Nat} {cs : List Char} (hall : cs.all Char.isDigit = true)
    (hle : cs.foldl (fun n c => n * 10 + digitValue c) n ≤ limit) :
    readDigits limit n cs = .ok (cs.foldl (fun n c => n * 10 + digitValue c) n) := by
  induction cs generalizing n with
  | nil => rfl
  | cons c cs ih =>
    rw [List.all_cons, Bool.and_eq_true] at hall
    rw [List.foldl_cons] at hle ⊢
    have hnext := le_foldl_digits cs (n * 10 + digitValue c)
    rw [readDigits, if_pos hall.1]
    dsimp only
    rw [if_neg (by omega), ih hall.2 hle]

theorem readNat_eq_ok_iff {limit n : Nat} {cs : List Char} :
    readNat limit cs = .ok n ↔ decimal? cs = some n ∧ n ≤ limit := by
  constructor
  · exact fun h => ⟨decimal?_of_readNat h, le_of_readNat h⟩
  · rintro ⟨h, hle⟩
    rw [decimal?] at h
    split at h
    next hdigits =>
      obtain rfl := Option.some.inj h
      cases cs with
      | nil => exact absurd rfl hdigits.1
      | cons c cs => exact readDigits_of_foldl_le hdigits.2 hle
    · cases h

theorem readMagnitude_eq_ok_iff {bound : Nat} {negative : Bool} {cs : List Char} {i : Int}
    (hbound : 0 < bound) : readMagnitude bound negative cs = .ok i ↔
      ∃ n, decimal? cs = some n ∧ i = (if negative then -(n : Int) else n) ∧
        -(bound : Int) ≤ i ∧ i < bound := by
  refine ⟨readMagnitude_eq_ok hbound, ?_⟩
  rintro ⟨n, hn, rfl, hlo, hhi⟩
  cases negative with
  | true =>
    simp only [if_true] at hlo hhi ⊢
    have hread : readNat (2 * bound - 1) cs = .ok n := readNat_eq_ok_iff.2 ⟨hn, by omega⟩
    have hle : ¬ bound < n := by omega
    simp [readMagnitude, hread, hle, bind, Except.bind]
  | false =>
    simp only [Bool.false_eq_true, if_false] at hlo hhi ⊢
    have hread : readNat (2 * bound - 1) cs = .ok n := readNat_eq_ok_iff.2 ⟨hn, by omega⟩
    have hle : ¬ bound ≤ n := by omega
    simp [readMagnitude, hread, hle, bind, Except.bind]

theorem readInt_eq_ok_iff {bits : Nat} {cs : List Char} {i : Int} :
    readInt bits cs = .ok i ↔ numeral? cs = some i ∧ -(Nat.pow 2 (bits - 1) : Int) ≤ i ∧
      i < (Nat.pow 2 (bits - 1) : Int) := by
  refine ⟨numeral?_of_readInt, ?_⟩
  rintro ⟨hnumeral, hlo, hhi⟩
  have hpos : 0 < Nat.pow 2 (bits - 1) := Nat.pow_pos (by omega)
  unfold numeral? at hnumeral
  split at hnumeral
  · next cs =>
    obtain ⟨n, hn, rfl⟩ : ∃ n : Nat, decimal? cs = some n ∧ n = i := by
      simpa [Option.bind_eq_some_iff] using hnumeral
    exact (readMagnitude_eq_ok_iff hpos).2 ⟨n, hn, rfl, hlo, hhi⟩
  · next cs =>
    obtain ⟨n, hn, rfl⟩ : ∃ n : Nat, decimal? cs = some n ∧ -(n : Int) = i := by
      simpa [Option.bind_eq_some_iff] using hnumeral
    exact (readMagnitude_eq_ok_iff hpos).2 ⟨n, hn, rfl, hlo, hhi⟩
  · next hplus hminus =>
    obtain ⟨n, hn, rfl⟩ : ∃ n : Nat, decimal? cs = some n ∧ n = i := by
      simpa [Option.bind_eq_some_iff] using hnumeral
    rw [readInt.eq_3 bits cs hplus hminus]
    exact (readMagnitude_eq_ok_iff hpos).2 ⟨n, hn, rfl, hlo, hhi⟩

end Text

/-! ## Patterns of numbers -/

/-- The pattern of a number's word is the number modulo the number of words. -/
theorem toNat_pattern_ofInt {w : Nat} (h : w ≤ 64) (x : Int) :
    ((pattern (BitVec.ofInt w x)).toNat : Int) = x % (Nat.pow 2 w : Int) := by
  have hpos : 0 < 2 ^ w := Nat.pow_pos (by omega)
  have hnat : (pattern (BitVec.ofInt w x)).toNat = (BitVec.ofInt w x).toNat := by
    rw [pattern, ← UInt64.toNat_toBitVec, UInt64.toBitVec_ofBitVec, BitVec.toNat_setWidth_of_le h]
  rw [hnat, BitVec.toNat_ofInt, Int.toNat_of_nonneg (Int.emod_nonneg _ (by omega))]
  rfl

theorem eq_pattern_iff {w : Nat} (h : w ≤ 64) {x : Int} {bits : UInt64} :
    bits = pattern (BitVec.ofInt w x) ↔ (bits.toNat : Int) = x % (Nat.pow 2 w : Int) := by
  rw [← toNat_pattern_ofInt h, Int.natCast_inj, UInt64.toNat_inj]

/-! ## Literals -/

/-- The number that a numeral of the type stands for; a sign is for signed types only. -/
def IntType.numeral? (t : IntType) (cs : List Char) : Option Int :=
  if t.signed then Text.numeral? cs else (Text.decimal? cs).map Int.ofNat

/-- The literal of the type stands for the pattern. -/
inductive Spells : Ty → String → UInt64 → Prop
  | false : Spells .bool "false" 0
  | true : Spells .bool "true" 1
  | number {t : IntType} {s : String} {x : Int} {bits : UInt64}
    (hnumeral : t.numeral? s.toList = some x) (hx : t.Contains x)
    (hbits : (bits.toNat : Int) = x % (Nat.pow 2 t.bits : Int)) : Spells (.int t) s bits

namespace IntType

variable {t : IntType}

theorem readLiteral_eq_ok_iff {cs : List Char} {bits : UInt64} :
    t.readLiteral cs = .ok bits ↔ ∃ x, t.numeral? cs = some x ∧ t.Contains x ∧
      (bits.toNat : Int) = x % (Nat.pow 2 t.bits : Int) := by
  have h0 := t.bits_ne_zero
  have h64 := t.bits_le
  have htwo := t.two_mul_pow_pred
  have hpos : 0 < Nat.pow 2 t.bits := Nat.pow_pos (by omega)
  simp only [← eq_pattern_iff h64]
  unfold readLiteral numeral? Contains least
  cases t.signed with
  | true =>
    simp only [if_true]
    have hpattern : ∀ x : Int, lowBits t.bits (Int64.ofInt x).toUInt64 =
        pattern (BitVec.ofInt t.bits x) := fun x => by
      rw [lowBits_eq h0 h64, word, Int64.toBitVec_toUInt64, Int64.toBitVec_ofInt,
        setWidth_ofInt h64]
    constructor
    · intro h
      obtain ⟨x, hx, rfl⟩ := exists_of_map_eq_ok h
      obtain ⟨hnumeral, hlo, hhi⟩ := Text.readInt_eq_ok_iff.1 hx
      exact ⟨x, hnumeral, ⟨hlo, by omega⟩, hpattern x⟩
    · rintro ⟨x, hnumeral, ⟨hlo, hhi⟩, rfl⟩
      rw [Text.readInt_eq_ok_iff.2 ⟨hnumeral, hlo, by omega⟩, ← hpattern x]
      rfl
  | false =>
    simp only [Bool.false_eq_true, if_false]
    have hpattern : ∀ n : Nat, n < Nat.pow 2 t.bits →
        UInt64.ofNat n = pattern (BitVec.ofInt t.bits n) := fun n hn => by
      have hle : Nat.pow 2 t.bits ≤ Nat.pow 2 64 := Nat.pow_le_pow_right (by omega) h64
      have hnat : (UInt64.ofNat n).toNat = n := Nat.mod_eq_of_lt (Nat.lt_of_lt_of_le hn hle)
      rw [eq_pattern_iff h64, hnat]
      exact (Int.emod_eq_of_lt (by omega) (by omega)).symm
    constructor
    · intro h
      obtain ⟨n, hn, rfl⟩ := exists_of_map_eq_ok h
      obtain ⟨hdecimal, hle⟩ := Text.readNat_eq_ok_iff.1 hn
      exact ⟨n, by rw [hdecimal]; rfl, ⟨by omega, by omega⟩, hpattern n (by omega)⟩
    · rintro ⟨x, hnumeral, ⟨hlo, hhi⟩, rfl⟩
      obtain ⟨n, hdecimal, rfl⟩ := Option.map_eq_some_iff.1 hnumeral
      have hlt : n < Nat.pow 2 t.bits := by
        rw [Int.ofNat_eq_natCast] at hhi
        omega
      rw [Text.readNat_eq_ok_iff.2 ⟨hdecimal, by omega⟩]
      exact congrArg Except.ok (hpattern n hlt)

end IntType

/-- **A literal is read** exactly if it stands for the pattern. -/
theorem literalBits_eq_ok_iff {ty : Ty} {s : String} {bits : UInt64} :
    literalBits (some ty) s = .ok bits ↔ Spells ty s bits := by
  constructor
  · intro h
    cases ty with
    | bool =>
      rw [literalBits] at h
      split at h
      next hs =>
        obtain rfl := Except.ok.inj h
        exact hs ▸ .true
      · split at h
        next hs =>
          obtain rfl := Except.ok.inj h
          exact hs ▸ .false
        · cases h
    | int t =>
      cases hread : t.readLiteral s.toList with
      | error e => simp [literalBits, hread, Except.mapError] at h
      | ok v =>
        obtain rfl : v = bits := by simpa [literalBits, hread, Except.mapError] using h
        obtain ⟨x, hnumeral, hx, hbits⟩ := IntType.readLiteral_eq_ok_iff.1 hread
        exact .number hnumeral hx hbits
    | _ => cases h
  · intro h
    cases h with
    | false => rfl
    | true => rfl
    | number hnumeral hx hbits =>
      rw [literalBits, IntType.readLiteral_eq_ok_iff.2 ⟨_, hnumeral, hx, hbits⟩]
      rfl

/-- A pattern is written as the number of the type to which it is congruent. -/
theorem formatBits_wraps (t : IntType) (v : UInt64) :
    ∃ x, t.Wraps v.toNat x ∧ formatBits (some (.int t)) v = toString x := by
  refine ⟨t.value (word t.bits v), IntType.wraps_iff.2 ?_, formatBits_int t v⟩
  rw [BitVec.ofInt_natCast, word, ← UInt64.toNat_toBitVec, BitVec.ofNat_toNat]

theorem toNat_truncateBits {ty : Ty} (hty : ty = .bool ∨ ∃ t, ty = .int t) (v : UInt64) :
    (truncateBits (some ty) v).toNat = v.toNat % Nat.pow 2 (keptBits (some ty)) := by
  rcases hty with rfl | ⟨t, rfl⟩
  · exact toNat_lowBits (by decide) (by decide) v
  · exact toNat_lowBits t.bits_ne_zero t.bits_le v

/-- **Literals and bit patterns are inverse**, for the integer types and `bool`. The literal that is
written for a pattern is read as the bits that the type keeps of it, which are the pattern modulo a
power of two. Of a literal that is read, the type keeps all bits, and the literal that is written
for them is read again with the same result. The literals that are read are those that stand for a
pattern, and a pattern is written as a number without leading zeros. -/
theorem literals_and_patterns_inverse {ty : Ty} (hty : ty = .bool ∨ ∃ t, ty = .int t) :
    (∀ v, literalBits (some ty) (formatBits (some ty) v) = .ok (truncateBits (some ty) v) ∧
        (truncateBits (some ty) v).toNat = v.toNat % Nat.pow 2 (keptBits (some ty))) ∧
      (∀ s bits, literalBits (some ty) s = .ok bits → truncateBits (some ty) bits = bits ∧
        literalBits (some ty) (formatBits (some ty) bits) = .ok bits) ∧
      (∀ s bits, literalBits (some ty) s = .ok bits ↔ Spells ty s bits) ∧
      ∀ t v, ty = .int t →
        ∃ x, t.Wraps (v : UInt64).toNat x ∧ formatBits (some ty) v = toString x := by
  refine ⟨fun v => ⟨literalBits_formatBits hty v, toNat_truncateBits hty v⟩, fun s bits h => ?_,
    fun _ _ => literalBits_eq_ok_iff, ?_⟩
  · have hkept := truncateBits_of_literalBits h
    have hagain := literalBits_formatBits hty bits
    rw [hkept] at hagain
    exact ⟨hkept, hagain⟩
  · rintro t v rfl
    exact formatBits_wraps t v

/-- At the ends of the ranges: bits above the width, the least numbers and the greatest one, and
literals that are out of range or have a sign too much. -/
theorem literals_of_extremes :
    (literalBits (some (.int ⟨true, .w8⟩)) "-128" = .ok 128 ∧
        Spells (.int ⟨true, .w8⟩) "-128" 128 ∧ ¬ Spells (.int ⟨true, .w8⟩) "128" 128) ∧
      literalBits (some (.int ⟨true, .w64⟩)) "-9223372036854775808" = .ok 9223372036854775808 ∧
      (literalBits (some (.int ⟨false, .w64⟩)) "18446744073709551615" = .ok 18446744073709551615 ∧
        ¬ Spells (.int ⟨false, .w64⟩) "+1" 1) ∧
      literalBits (some .bool) "false" = .ok 0 := by
  have hint : ∀ t : IntType, Ty.int t = .bool ∨ ∃ u, Ty.int t = .int u := fun t => .inr ⟨t, rfl⟩
  obtain ⟨hbyte, -, hbytes, -⟩ := literals_and_patterns_inverse (hint ⟨true, .w8⟩)
  obtain ⟨hleast, -⟩ := literals_and_patterns_inverse (hint ⟨true, .w64⟩)
  obtain ⟨hgreatest, -, hwords, -⟩ := literals_and_patterns_inverse (hint ⟨false, .w64⟩)
  obtain ⟨hbool, -⟩ := literals_and_patterns_inverse (.inl (Eq.refl Ty.bool))
  have hread := (hbyte 384).1
  exact ⟨⟨hread, (hbytes _ _).1 hread, fun h => absurd ((hbytes _ _).2 h) (by decide)⟩,
    (hleast 9223372036854775808).1, ⟨(hgreatest 18446744073709551615).1,
      fun h => absurd ((hwords _ _).2 h) (by decide)⟩, (hbool 2).1⟩

end SsaOpt
