import SsaOpt.Proofs.IntegerArithmetic

/-!
# Constants as integers

A literal of an integer type is a decimal numeral, and the constant stands for that number
(`Const.Denotes`). `Consts.FoldsTo` has one rule for each kind of operation on each kind of operand,
in terms of these numbers; evaluating an instruction gives exactly what the rules give
(`Consts.foldsTo_iff`). No rule has operands of different types, an operator that is not known, or
one that the type of the operands does not have.
-/

namespace SsaOpt

/-! ## Literals -/

namespace Text

/-- The number that a row of digits stands for, whatever its size. -/
def decimal? (cs : List Char) : Option Nat :=
  if cs ≠ [] ∧ cs.all Char.isDigit then
    some (cs.foldl (fun n c => n * 10 + digitValue c) 0)
  else none

/-- The number that a numeral with at most one sign in front stands for, whatever its size. -/
def numeral? : List Char → Option Int
  | '+' :: cs => (decimal? cs).map fun n => (n : Int)
  | '-' :: cs => (decimal? cs).map fun n => -(n : Int)
  | cs => (decimal? cs).map fun n => (n : Int)

theorem foldl_of_readDigits {limit n k : Nat} {cs : List Char} (h : readDigits limit n cs = .ok k) :
    cs.all Char.isDigit = true ∧ cs.foldl (fun n c => n * 10 + digitValue c) n = k := by
  induction cs generalizing n with
  | nil =>
    obtain rfl := Except.ok.inj h
    exact ⟨rfl, rfl⟩
  | cons c cs ih =>
    rw [readDigits] at h
    split at h
    · next hdigit =>
      dsimp only at h
      split at h
      · cases h
      · obtain ⟨hall, hfold⟩ := ih h
        exact ⟨by rw [List.all_cons, hdigit, hall]; rfl, hfold⟩
    · cases h

/-- A numeral that is read is read as the number that it stands for. -/
theorem decimal?_of_readNat {limit n : Nat} {cs : List Char} (h : readNat limit cs = .ok n) :
    decimal? cs = some n := by
  cases cs with
  | nil => cases h
  | cons c cs =>
    obtain ⟨hall, hfold⟩ := foldl_of_readDigits h
    rw [decimal?, if_pos ⟨List.cons_ne_nil c cs, hall⟩, hfold]

theorem readMagnitude_eq_ok {bound : Nat} {negative : Bool} {cs : List Char} {i : Int}
    (hbound : 0 < bound) (h : readMagnitude bound negative cs = .ok i) :
    ∃ n, decimal? cs = some n ∧ i = (if negative then -(n : Int) else n) ∧
      -(bound : Int) ≤ i ∧ i < bound := by
  cases hn : readNat (2 * bound - 1) cs with
  | error e => simp [readMagnitude, hn, bind, Except.bind] at h
  | ok n =>
    refine ⟨n, decimal?_of_readNat hn, ?_⟩
    simp only [readMagnitude, hn, bind, Except.bind] at h
    cases negative with
    | true =>
      simp only [if_true] at h ⊢
      split at h
      · cases h
      · obtain rfl := Except.ok.inj h
        omega
    | false =>
      simp only [Bool.false_eq_true, if_false] at h ⊢
      split at h
      · cases h
      · obtain rfl := Except.ok.inj h
        omega

theorem numeral?_of_readInt {bits : Nat} {cs : List Char} {i : Int} (h : readInt bits cs = .ok i) :
    numeral? cs = some i ∧ -(Nat.pow 2 (bits - 1) : Int) ≤ i ∧
      i < (Nat.pow 2 (bits - 1) : Int) := by
  have hpos : 0 < Nat.pow 2 (bits - 1) := Nat.pow_pos (by omega)
  unfold readInt at h
  unfold numeral?
  split at h
  all_goals
    obtain ⟨n, hn, rfl, hlo, hhi⟩ := readMagnitude_eq_ok hpos h
    exact ⟨by simp [hn], hlo, hhi⟩

theorem numeral?_of_readNat {limit n : Nat} {cs : List Char} (h : readNat limit cs = .ok n) :
    numeral? cs = some (n : Int) := by
  have hdecimal := decimal?_of_readNat h
  unfold numeral?
  split
  · next cs => simp [readNat, readDigits] at h
  · next cs => simp [readNat, readDigits] at h
  · rw [hdecimal]
    rfl

end Text

/-- The low bits of a number are its word. -/
theorem setWidth_ofInt {w : Nat} (h : w ≤ 64) (i : Int) :
    (BitVec.ofInt 64 i).setWidth w = BitVec.ofInt w i := by
  apply BitVec.eq_of_toInt_eq
  have hdvd : 2 ^ w ∣ 2 ^ 64 := Nat.pow_dvd_pow 2 h
  rw [toInt_setWidth_of_le h, BitVec.toInt_ofInt, BitVec.toInt_ofInt]
  exact Int.bmod_bmod_of_dvd hdvd

/-- **A literal that is accepted** has the bits of the number that it stands for. -/
theorem numeral?_of_literalBits {t : IntType} {s : String} {bits : UInt64}
    (h : literalBits (some (.int t)) s = .ok bits) :
    Text.numeral? s.toList = some (t.value (word t.bits bits)) := by
  have h0 := t.bits_ne_zero
  have h64 := t.bits_le
  have hread : t.readLiteral s.toList = .ok bits := by
    cases hr : t.readLiteral s.toList with
    | error e => simp [literalBits, hr, Except.mapError] at h
    | ok v => simpa [literalBits, hr, Except.mapError] using h
  -- the bits are those of a number of the type, for which its word stands
  have hword : ∀ {i : Int}, t.Contains i → word t.bits bits = BitVec.ofInt t.bits i →
      i = t.value (word t.bits bits) := fun hi heq =>
    heq ▸ (IntType.Wraps.eq ⟨hi, 0, by omega⟩ (IntType.wraps_ofInt _))
  have htwo := t.two_mul_pow_pred
  unfold IntType.readLiteral at hread
  cases hs : t.signed with
  | true =>
    rw [hs, if_pos rfl] at hread
    obtain ⟨i, hi, rfl⟩ := exists_of_map_eq_ok hread
    obtain ⟨hnumeral, hlo, hhi⟩ := Text.numeral?_of_readInt hi
    rw [hnumeral]
    refine congrArg some (hword ⟨?_, ?_⟩ ?_)
    · rwa [IntType.least, if_pos hs]
    · rw [IntType.least, if_pos hs]
      omega
    · rw [word_lowBits h0 h64, word, Int64.toBitVec_toUInt64, Int64.toBitVec_ofInt,
        setWidth_ofInt h64]
  | false =>
    rw [hs, if_neg (by simp)] at hread
    obtain ⟨n, hn, rfl⟩ := exists_of_map_eq_ok hread
    have hle := Text.le_of_readNat hn
    rw [Text.numeral?_of_readNat hn]
    refine congrArg some (hword ⟨?_, ?_⟩ ?_)
    · rw [IntType.least, if_neg (by simp [hs])]
      omega
    · rw [IntType.least, if_neg (by simp [hs])]
      have hpos : 0 < Nat.pow 2 t.bits := Nat.pow_pos (by omega)
      omega
    · rw [word, UInt64.toBitVec_ofNat', BitVec.setWidth_ofNat_of_le h64, BitVec.ofInt_natCast]

theorem formatBits_int (t : IntType) (bits : UInt64) :
    formatBits (some (.int t)) bits = toString (t.value (word t.bits bits)) := by
  obtain ⟨signed, w⟩ := t
  cases signed with
  | true =>
    show toString (signedValue w.bits bits).toInt = toString (word w.bits bits).toInt
    rw [toInt_signedValue w.bits_ne_zero w.bits_le]
  | false =>
    show toString (lowBits w.bits bits).toNat = toString ((word w.bits bits).toNat : Int)
    rw [toNat_word w.bits_ne_zero w.bits_le]
    rfl

/-- The constant is of the integer type, its literal is accepted, and it stands for the number. -/
structure Const.Denotes (c : Const) (t : IntType) (x : Int) : Prop where
  ty_eq : c.ty = some (.int t)
  accepted : ∃ bits, literalBits c.ty c.literal = .ok bits
  numeral : Text.numeral? c.literal.toList = some x

theorem Const.denotes_iff {c : Const} {t : IntType} {x : Int} : c.Denotes t x ↔
    ∃ bits, c.value? = some ⟨.int t, bits⟩ ∧ t.value (word t.bits bits) = x := by
  constructor
  · rintro ⟨hty, ⟨bits, hbits⟩, hnumeral⟩
    rw [hty] at hbits
    refine ⟨bits, by simp [Const.value?, hty, hbits], ?_⟩
    exact Option.some.inj ((numeral?_of_literalBits hbits).symm.trans hnumeral)
  · rintro ⟨bits, hvalue, rfl⟩
    obtain ⟨ty, hty, hx⟩ := Option.bind_eq_some_iff.1 hvalue
    split at hx
    · next hbits =>
      obtain ⟨rfl, rfl⟩ := ConstValue.mk.inj (Option.some.inj hx)
      exact ⟨hty, ⟨_, hty ▸ hbits⟩, numeral?_of_literalBits hbits⟩
    · cases hx

namespace Consts

variable {consts : Consts} {v : ValueId}

/-- The value is known to be a constant that stands for the number `x` of the type `t`. -/
def Number (consts : Consts) (v : ValueId) (t : IntType) (x : Int) : Prop :=
  ∃ c, consts.lookup v = some c ∧ c.Denotes t x

/-- The value is known to be a constant that stands for the truth value `b`. -/
def Truth (consts : Consts) (v : ValueId) (b : Bool) : Prop :=
  ∃ c, consts.lookup v = some c ∧ c.ty = some .bool ∧ c.literal = boolLiteral b

theorem number_iff {t : IntType} {x : Int} : consts.Number v t x ↔
    ∃ bits, consts.value? v = some ⟨.int t, bits⟩ ∧ t.value (word t.bits bits) = x := by
  simp only [Number, Const.denotes_iff, Consts.value?_eq, Option.bind_eq_some_iff]
  grind

theorem truth_iff {b : Bool} : consts.Truth v b ↔ consts.value? v = some (.ofBool b) := by
  rw [Consts.value?_eq, Truth, Option.bind_eq_some_iff]
  refine exists_congr fun c => and_congr_right fun _ => ?_
  obtain ⟨id, ty, literal⟩ := c
  constructor
  · rintro ⟨rfl, rfl⟩
    exact Const.value?_boolLiteral id b
  · intro h
    obtain ⟨ty, rfl, hx⟩ := Option.bind_eq_some_iff.1 h
    split at hx
    · next bits hbits =>
      obtain ⟨rfl, rfl⟩ := ConstValue.mk.inj (Option.some.inj hx)
      refine ⟨rfl, ?_⟩
      cases b <;> grind [literalBits, boolLiteral]
    · cases hx

/-- What is known of a value is a number or a truth. -/
theorem number_or_truth {ty : Ty} {bits : UInt64} (h : consts.value? v = some ⟨ty, bits⟩) :
    (∃ t, ty = .int t ∧ consts.Number v t (t.value (word t.bits bits))) ∨
      ∃ b, ConstValue.mk ty bits = .ofBool b ∧ consts.Truth v b := by
  obtain ⟨hkind, hfits⟩ := legal_of_value? h
  dsimp only at hkind hfits
  rcases hkind with rfl | ⟨t, rfl⟩
  · have hbit : bits &&& 1 = bits := hfits
    have hbool : ConstValue.mk .bool bits = .ofBool (decide (bits &&& 1 = 1)) := by
      simp only [ConstValue.ofBool, decide_eq_true_eq]
      rw [← and_one_eq bits, hbit]
    exact Or.inr ⟨_, hbool, truth_iff.2 (h.trans (congrArg some hbool))⟩
  · exact Or.inl ⟨t, rfl, number_iff.2 ⟨bits, h, rfl⟩⟩

end Consts

/-! ## Evaluating constants -/

/-- The operation on two truth values, for the operators that have one. -/
def BinOp.logic? (op : BinOp) (a b : Bool) : Option Bool :=
  match op with
  | .and => some (a && b)
  | .or => some (a || b)
  | .xor => some (a != b)
  | _ => none

/-- The truth of the predicate for two integers. -/
def CmpPred.compares? (p : CmpPred) (x y : Int) : Option Bool :=
  match p with
  | .eq => some (x = y)
  | .ne => some (x ≠ y)
  | .lt => some (x < y)
  | .le => some (x ≤ y)
  | .gt => some (x > y)
  | .ge => some (x ≥ y)
  | .other _ _ => none

/-- The truth of the predicate for two truth values, which are only compared for equality. -/
def CmpPred.agrees? (p : CmpPred) (a b : Bool) : Option Bool :=
  match p with
  | .eq => some (a = b)
  | .ne => some (a ≠ b)
  | _ => none

/-- The instruction evaluates to the constant, by the rules of integers and truth values. The type
that an operation or a comparison declares does not matter. -/
inductive Consts.FoldsTo (consts : Consts) : Instr → Const → Prop
  | arithmetic {id l r : ValueId} {op : BinOp} {ty : Option Ty} {t : IntType} {x y z : Int}
      (hl : consts.Number l t x) (hr : consts.Number r t y) (h : t.Evaluates op x y z) :
      FoldsTo consts (.binary ⟨id, op, l, r, ty⟩) ⟨id, some (.int t), toString z⟩
  | logic {id l r : ValueId} {op : BinOp} {ty : Option Ty} {a b c : Bool}
      (hl : consts.Truth l a) (hr : consts.Truth r b) (h : op.logic? a b = some c) :
      FoldsTo consts (.binary ⟨id, op, l, r, ty⟩) ⟨id, some .bool, boolLiteral c⟩
  | order {id l r : ValueId} {p : CmpPred} {ty : Option Ty} {t : IntType} {x y : Int} {c : Bool}
      (hl : consts.Number l t x) (hr : consts.Number r t y) (h : p.compares? x y = some c) :
      FoldsTo consts (.compare ⟨id, p, l, r, ty⟩) ⟨id, some .bool, boolLiteral c⟩
  | agreement {id l r : ValueId} {p : CmpPred} {ty : Option Ty} {a b c : Bool}
      (hl : consts.Truth l a) (hr : consts.Truth r b) (h : p.agrees? a b = some c) :
      FoldsTo consts (.compare ⟨id, p, l, r, ty⟩) ⟨id, some .bool, boolLiteral c⟩
  | convert {id v : ValueId} {t u : IntType} {x z : Int}
      (hv : consts.Number v t x) (h : u.Wraps x z) :
      FoldsTo consts (.cast ⟨id, v, some (.int u)⟩) ⟨id, some (.int u), toString z⟩
  | widen {id v : ValueId} {u : IntType} {b : Bool} {z : Int}
      (hv : consts.Truth v b) (h : u.Wraps (if b then 1 else 0) z) :
      FoldsTo consts (.cast ⟨id, v, some (.int u)⟩) ⟨id, some (.int u), toString z⟩
  | keep {id v : ValueId} {b : Bool} (hv : consts.Truth v b) :
      FoldsTo consts (.cast ⟨id, v, some .bool⟩) ⟨id, some .bool, boolLiteral b⟩

/-- The bits of a truth value. -/
abbrev bitOf (b : Bool) : UInt64 := (ConstValue.ofBool b).bits

theorem evalBoolBinary_bitOf (op : BinOp) (a b : Bool) :
    evalBoolBinary op (bitOf a) (bitOf b) = (op.logic? a b).map bitOf := by
  cases op <;> cases a <;> cases b <;> rfl

theorem evalCompare_bitOf (p : CmpPred) (a b : Bool) :
    evalCompare p .bool (bitOf a) (bitOf b) = p.agrees? a b := by
  cases p <;> cases a <;> cases b <;> rfl

theorem formatBits_bitOf (b : Bool) : formatBits (some .bool) (bitOf b) = boolLiteral b := by
  cases b <;> rfl

theorem IntType.evalCompare_eq (t : IntType) (p : CmpPred) (l r : UInt64) :
    evalCompare p (.int t) l r =
      p.compares? (t.value (word t.bits l)) (t.value (word t.bits r)) := by
  rw [evalCompare, order_eq, holds_compare]
  cases p <;> rfl

theorem IntType.wraps_convert (t u : IntType) (v : BitVec t.bits) :
    u.Wraps (t.value v) (u.value (t.convert u v)) := by
  have hword : BitVec.ofInt u.bits (t.value v) = t.convert u v := by
    unfold value convert
    split
    · rfl
    · rw [BitVec.ofInt_natCast, BitVec.ofNat_toNat]
  rw [wraps_iff, hword]

/-- A number that is converted. -/
theorem IntType.wraps_extended {t : IntType} (u : IntType) {bits : UInt64}
    (h : ConstValue.Legal ⟨.int t, bits⟩) :
    u.Wraps (t.value (word t.bits bits))
      (u.value (word u.bits (ConstValue.extended ⟨.int t, bits⟩))) := by
  obtain ⟨-, hconvert⟩ := @convert_meaning _ (.int u) h (by simp [Ty.canCast])
  rw [truncateBits_int] at hconvert
  have hpattern := (ConstValue.mk.inj (Option.some.inj hconvert)).2
  rw [← word_pattern u.bits_le (word u.bits _), ← hpattern, word_pattern u.bits_le]
  exact t.wraps_convert u _

theorem IntType.wraps_bitOf (u : IntType) (b : Bool) :
    u.Wraps (if b then 1 else 0) (u.value (word u.bits (bitOf b))) := by
  have hword : word u.bits (bitOf b) = BitVec.ofInt u.bits (if b then 1 else 0) := by
    cases b with
    | false => exact (BitVec.setWidth_ofNat_of_le u.bits_le 0).trans (BitVec.ofInt_natCast _ 0).symm
    | true => exact (BitVec.setWidth_ofNat_of_le u.bits_le 1).trans (BitVec.ofInt_natCast _ 1).symm
  rw [wraps_iff, hword]

namespace Consts

variable {consts : Consts} {c : Const}

theorem foldInstr_binary_iff {b : Binary} : foldInstr consts (.binary b) = some c ↔
    ∃ ty l r bits, consts.value? b.left = some ⟨ty, l⟩ ∧ consts.value? b.right = some ⟨ty, r⟩ ∧
      evalBinary b.op ty l r = some bits ∧ c = ⟨b.result, some ty, formatBits (some ty) bits⟩ := by
  constructor
  · intro h
    simp only [foldInstr, Option.bind_eq_bind, Option.bind_eq_some_iff, Option.some.injEq] at h
    obtain ⟨⟨ty, l, r⟩, hpair, bits, hbits, rfl⟩ := h
    obtain ⟨hl, hr⟩ := pair?_eq_some hpair
    exact ⟨ty, l, r, bits, hl, hr, hbits, rfl⟩
  · rintro ⟨ty, l, r, bits, hl, hr, hbits, rfl⟩
    simp [foldInstr, pair?, hl, hr, hbits]

theorem foldInstr_compare_iff {p : Compare} : foldInstr consts (.compare p) = some c ↔
    ∃ ty l r b, consts.value? p.left = some ⟨ty, l⟩ ∧ consts.value? p.right = some ⟨ty, r⟩ ∧
      evalCompare p.pred ty l r = some b ∧ c = ⟨p.result, some .bool, boolLiteral b⟩ := by
  constructor
  · intro h
    simp only [foldInstr, Option.bind_eq_bind, Option.bind_eq_some_iff, Option.some.injEq] at h
    obtain ⟨⟨ty, l, r⟩, hpair, b, hb, rfl⟩ := h
    obtain ⟨hl, hr⟩ := pair?_eq_some hpair
    exact ⟨ty, l, r, b, hl, hr, hb, rfl⟩
  · rintro ⟨ty, l, r, b, hl, hr, hb, rfl⟩
    simp [foldInstr, pair?, hl, hr, hb]

theorem foldInstr_cast_iff {k : Cast} : foldInstr consts (.cast k) = some c ↔
    ∃ x ty, consts.value? k.operand = some x ∧ k.ty = some ty ∧ x.ty.canCast ty = true ∧
      c = ⟨k.result, some ty, formatBits (some ty) x.extended⟩ := by
  constructor
  · intro h
    simp only [foldInstr, Option.bind_eq_bind, Option.bind_eq_some_iff,
      Option.ite_none_right_eq_some, Option.some.injEq] at h
    obtain ⟨x, hx, ty, hty, hcast, rfl⟩ := h
    exact ⟨x, ty, hx, hty, hcast, by rw [hty]⟩
  · rintro ⟨x, ty, hx, hty, hcast, rfl⟩
    simp [foldInstr, hx, hty, hcast]

/-- **Evaluating an operation.** -/
theorem binary_foldsTo_iff {b : Binary} :
    foldInstr consts (.binary b) = some c ↔ consts.FoldsTo (.binary b) c := by
  rw [foldInstr_binary_iff]
  constructor
  · rintro ⟨ty, l, r, bits, hl, hr, hbits, rfl⟩
    rcases number_or_truth hl with ⟨t, rfl, hx⟩ | ⟨a, ha, hx⟩
    · rw [formatBits_int]
      exact .arithmetic hx (number_iff.2 ⟨r, hr, rfl⟩)
        (IntType.evalBinary_iff.1 ⟨bits, hbits, rfl⟩)
    · obtain ⟨rfl, rfl⟩ := ConstValue.mk.inj ha
      rcases number_or_truth hr with ⟨t, ht, -⟩ | ⟨b', hb', hy⟩
      · cases ht
      · obtain ⟨-, rfl⟩ := ConstValue.mk.inj hb'
        have hlogic : (b.op.logic? a b').map bitOf = some bits :=
          (evalBoolBinary_bitOf b.op a b').symm.trans hbits
        obtain ⟨c, hc, rfl⟩ := Option.map_eq_some_iff.1 hlogic
        rw [formatBits_bitOf]
        exact .logic hx hy hc
  · intro h
    cases h with
    | @arithmetic id l r op ty t x y z hl hr h =>
      obtain ⟨a, ha, rfl⟩ := number_iff.1 hl
      obtain ⟨b', hb', rfl⟩ := number_iff.1 hr
      obtain ⟨bits, hbits, rfl⟩ := IntType.evalBinary_iff.2 h
      exact ⟨_, _, _, bits, ha, hb', hbits, by rw [formatBits_int]⟩
    | @logic id l r op ty a b' c hl hr h =>
      refine ⟨_, _, _, bitOf c, truth_iff.1 hl, truth_iff.1 hr, ?_, ?_⟩
      · exact (evalBoolBinary_bitOf op a b').trans (by rw [h]; rfl)
      · exact congrArg _ (formatBits_bitOf c).symm

/-- **Evaluating a comparison.** -/
theorem compare_foldsTo_iff {p : Compare} :
    foldInstr consts (.compare p) = some c ↔ consts.FoldsTo (.compare p) c := by
  rw [foldInstr_compare_iff]
  constructor
  · rintro ⟨ty, l, r, b, hl, hr, hb, rfl⟩
    rcases number_or_truth hl with ⟨t, rfl, hx⟩ | ⟨a, ha, hx⟩
    · rw [IntType.evalCompare_eq] at hb
      exact .order hx (number_iff.2 ⟨r, hr, rfl⟩) hb
    · obtain ⟨rfl, rfl⟩ := ConstValue.mk.inj ha
      rcases number_or_truth hr with ⟨t, ht, -⟩ | ⟨b', hb', hy⟩
      · cases ht
      · obtain ⟨-, rfl⟩ := ConstValue.mk.inj hb'
        exact .agreement hx hy ((evalCompare_bitOf p.pred a b').symm.trans hb)
  · intro h
    cases h with
    | @order id l r p ty t x y c hl hr h =>
      obtain ⟨a, ha, rfl⟩ := number_iff.1 hl
      obtain ⟨b, hb, rfl⟩ := number_iff.1 hr
      exact ⟨_, _, _, c, ha, hb, (t.evalCompare_eq p a b).trans h, rfl⟩
    | @agreement id l r p ty a b c hl hr h =>
      exact ⟨_, _, _, c, truth_iff.1 hl, truth_iff.1 hr, (evalCompare_bitOf p a b).trans h, rfl⟩

/-- **Evaluating a conversion.** -/
theorem cast_foldsTo_iff {k : Cast} :
    foldInstr consts (.cast k) = some c ↔ consts.FoldsTo (.cast k) c := by
  rw [foldInstr_cast_iff]
  constructor
  · rintro ⟨⟨ty', bits⟩, ty, hx, hty, hcast, rfl⟩
    obtain ⟨id, v, kty⟩ := k
    dsimp only at hx hty hcast ⊢
    subst hty
    obtain ⟨hkind, -⟩ := convert_meaning (legal_of_value? hx) hcast
    rcases number_or_truth hx with ⟨t, rfl, hv⟩ | ⟨a, ha, hv⟩
    · rcases hkind with rfl | ⟨u, rfl⟩
      · simp [Ty.canCast] at hcast
      · rw [formatBits_int]
        exact .convert hv (IntType.wraps_extended u (legal_of_value? hx))
    · obtain ⟨rfl, rfl⟩ := ConstValue.mk.inj ha
      rcases hkind with rfl | ⟨u, rfl⟩
      · show consts.FoldsTo _ ⟨id, some .bool, formatBits (some .bool) (bitOf a)⟩
        rw [formatBits_bitOf]
        exact .keep hv
      · rw [formatBits_int]
        exact .widen hv (u.wraps_bitOf a)
  · intro h
    cases h with
    | @convert id v t u x z hv h =>
      obtain ⟨a, ha, rfl⟩ := number_iff.1 hv
      refine ⟨_, _, ha, rfl, by simp [Ty.canCast], ?_⟩
      rw [formatBits_int, h.eq (IntType.wraps_extended u (legal_of_value? ha))]
    | @widen id v u b z hv h =>
      refine ⟨_, _, truth_iff.1 hv, rfl, rfl, ?_⟩
      have hextended : (ConstValue.ofBool b).extended = bitOf b := rfl
      rw [formatBits_int, hextended, h.eq (u.wraps_bitOf b)]
    | @keep id v b hv =>
      exact ⟨_, _, truth_iff.1 hv, rfl, rfl, congrArg _ (formatBits_bitOf b).symm⟩

theorem foldsTo_iff {i : Instr} : foldInstr consts i = some c ↔ consts.FoldsTo i c := by
  cases i with
  | binary b => exact binary_foldsTo_iff
  | compare p => exact compare_foldsTo_iff
  | cast k => exact cast_foldsTo_iff
  | _ =>
    constructor
    · intro h
      cases h
    · intro h
      cases h

/-- **The divisions that are left**, of two numbers. -/
theorem foldInstr_eq_none_iff {id l r : ValueId} {op : BinOp} {ty : Option Ty} {t : IntType}
    {x y : Int} (hop : op = .div ∨ op = .rem) (hl : consts.Number l t x)
    (hr : consts.Number r t y) :
    foldInstr consts (.binary ⟨id, op, l, r, ty⟩) = none ↔ t.NoQuotient x y := by
  obtain ⟨a, ha, rfl⟩ := number_iff.1 hl
  obtain ⟨b, hb, rfl⟩ := number_iff.1 hr
  have hfold : foldInstr consts (.binary ⟨id, op, l, r, ty⟩) = none ↔
      t.evalBinary op a b = none := by
    cases he : t.evalBinary op a b <;> simp [foldInstr, pair?, ha, hb, evalBinary, he]
  have hnumber : (∃ z, t.Evaluates op (t.value (word t.bits a)) (t.value (word t.bits b)) z) ↔
      ¬ t.NoQuotient (t.value (word t.bits a)) (t.value (word t.bits b)) := by
    constructor
    · rintro ⟨z, hz⟩
      rcases hop with rfl | rfl <;> cases hz <;> assumption
    · intro h
      rcases hop with rfl | rfl
      · exact ⟨_, .div h⟩
      · exact ⟨_, .rem h⟩
  rw [hfold, ← not_iff_not, ← hnumber]
  simp only [← IntType.evalBinary_iff, ← ne_eq, Option.ne_none_iff_exists']
  grind

/-- Instructions that evaluate to something have operands of one type. -/
theorem operands_of_foldInstr {i : Instr} (h : foldInstr consts i = some c) :
    ∃ ty, ∀ v ∈ i.operands, ∃ bits, consts.value? v = some ⟨ty, bits⟩ := by
  cases i with
  | binary b =>
    obtain ⟨ty, l, r, -, hl, hr, -⟩ := foldInstr_binary_iff.1 h
    exact ⟨ty, by simp [Instr.operands, hl, hr]⟩
  | compare p =>
    obtain ⟨ty, l, r, -, hl, hr, -⟩ := foldInstr_compare_iff.1 h
    exact ⟨ty, by simp [Instr.operands, hl, hr]⟩
  | cast k =>
    obtain ⟨⟨ty, bits⟩, -, hx, -⟩ := foldInstr_cast_iff.1 h
    exact ⟨ty, by simp [Instr.operands, hx]⟩
  | _ => cases h

theorem ty_of_value? {v : ValueId} {k : Const} {x : ConstValue} (h : consts.value? v = some x)
    (hk : consts.lookup v = some k) : k.ty = some x.ty := by
  rw [value?_eq, hk, Option.bind_some, Const.value?] at h
  obtain ⟨ty, hty, hx⟩ := Option.bind_eq_some_iff.1 h
  split at hx
  · rw [hty, ← Option.some.inj hx]
  · cases hx

/-- **Constant evaluation is integer arithmetic.** An instruction evaluates to exactly the constant
that the rules of integers and truth values give; there is no rule for unknown operators and for
operators that the type of the operands does not have. The number that a result is wrapped to exists
and is the only one, the divisions of numbers that are left are those without a result, and nothing
is evaluated whose operands have different types. -/
theorem foldInstr_evaluates_integers (consts : Consts) :
    (∀ i c, foldInstr consts i = some c ↔ consts.FoldsTo i c) ∧
      (∀ (t : IntType) (a : Int), ∃! z, t.Wraps a z) ∧
      (∀ id l r op ty t x y, (op = .div ∨ op = .rem) → consts.Number l t x → consts.Number r t y →
        (foldInstr consts (.binary ⟨id, op, l, r, ty⟩) = none ↔ t.NoQuotient x y)) ∧
      ∀ i : Instr, ∀ l ∈ i.operands, ∀ r ∈ i.operands, ∀ c c', consts.lookup l = some c →
        consts.lookup r = some c' → c.ty ≠ c'.ty → foldInstr consts i = none := by
  refine ⟨fun i c => foldsTo_iff, fun t a => IntType.existsUnique_wraps a,
    fun id l r op ty t x y hop hl hr => foldInstr_eq_none_iff hop hl hr, ?_⟩
  intro i l hl r hr c c' hc hc' hne
  refine Option.eq_none_iff_forall_ne_some.2 fun k hk => hne ?_
  obtain ⟨ty, hty⟩ := operands_of_foldInstr hk
  obtain ⟨a, ha⟩ := hty l hl
  obtain ⟨b, hb⟩ := hty r hr
  rw [ty_of_value? ha hc, ty_of_value? hb hc']

/-- Constants at the ends of ranges, one with a sign and one with a zero in front. -/
def extremes : Consts :=
  [(1, ⟨1, some (.int ⟨true, .w8⟩), "-128"⟩), (2, ⟨2, some (.int ⟨true, .w8⟩), "-1"⟩),
    (3, ⟨3, some (.int ⟨true, .w8⟩), "+127"⟩), (4, ⟨4, some (.int ⟨false, .w8⟩), "0255"⟩)]

theorem number_extremes : extremes.Number 1 ⟨true, .w8⟩ (-128) ∧
    extremes.Number 2 ⟨true, .w8⟩ (-1) ∧ extremes.Number 3 ⟨true, .w8⟩ 127 ∧
    extremes.Number 4 ⟨false, .w8⟩ 255 :=
  ⟨⟨_, rfl, rfl, ⟨128, by decide⟩, by decide⟩, ⟨_, rfl, rfl, ⟨255, by decide⟩, by decide⟩,
    ⟨_, rfl, rfl, ⟨127, by decide⟩, by decide⟩, ⟨_, rfl, rfl, ⟨255, by decide⟩, by decide⟩⟩

/-- A sum that wraps around, a division without a result, a remainder, a comparison, a conversion
that changes the sign, and operands of different types. -/
theorem foldInstr_extremes :
    foldInstr extremes (.binary ⟨6, .add, 3, 3, none⟩) =
        some ⟨6, some (.int ⟨true, .w8⟩), "-2"⟩ ∧
      foldInstr extremes (.binary ⟨6, .div, 1, 2, none⟩) = none ∧
      foldInstr extremes (.binary ⟨6, .rem, 1, 3, none⟩) =
        some ⟨6, some (.int ⟨true, .w8⟩), "-1"⟩ ∧
      foldInstr extremes (.compare ⟨6, .lt, 1, 2, none⟩) = some ⟨6, some .bool, "true"⟩ ∧
      foldInstr extremes (.cast ⟨6, 4, some (.int ⟨true, .w8⟩)⟩) =
        some ⟨6, some (.int ⟨true, .w8⟩), "-1"⟩ ∧
      foldInstr extremes (.binary ⟨6, .add, 3, 4, none⟩) = none := by
  obtain ⟨h₁, h₂, h₃, h₄⟩ := number_extremes
  obtain ⟨hrules, -, hleft, hmixed⟩ := foldInstr_evaluates_integers extremes
  refine ⟨?_, ?_, ?_, ?_, ?_, ?_⟩
  · refine (hrules _ _).2 (.arithmetic h₃ h₃ (.add (z := -2) ?_))
    exact ⟨⟨by decide, by decide⟩, -1, by decide⟩
  · exact (hleft 6 1 2 .div none _ _ _ (Or.inl rfl) h₁ h₂).2 (Or.inr ⟨rfl, rfl, rfl⟩)
  · refine (hrules _ _).2 (.arithmetic h₁ h₃ (.rem ?_))
    simp [IntType.NoQuotient]
  · exact (hrules _ _).2 (.order (c := true) h₁ h₂ rfl)
  · refine (hrules _ _).2 (.convert (z := -1) h₄ ?_)
    exact ⟨⟨by decide, by decide⟩, -1, by decide⟩
  · exact hmixed _ 3 (by decide) 4 (by decide) _ _ rfl rfl (by decide)

end Consts

end SsaOpt
