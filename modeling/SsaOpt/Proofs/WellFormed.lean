import SsaOpt.Checker
import SsaOpt.Proofs.FlowGraph

/-!
# Well-formed functions

The structural rules as properties of a function, in three groups: names (`Named`), the values that
are read (`Closed`), and everything else (`Shape`). A function with blocks has no defects exactly if
it follows them all (`defects_eq_nil_iff`). A function that follows the rules of `Shape` has defects
of two sorts only, and `Shape.defect` says which.
-/

namespace SsaOpt

/-- A merge of values. -/
def Instr.isPhi : Instr → Bool
  | .phi _ => true
  | _ => false

/-- A call. -/
def Instr.isCall : Instr → Bool
  | .call _ => true
  | _ => false

/-- An instruction has a type if it defines a value, and if it has a type but is no call it defines
one. The effect of a call is a known one. -/
structure Instr.Typed (i : Instr) : Prop where
  result_ne_zero : i.resultType ≠ none → i.isCall = false → i.result ≠ 0
  type_ne_none : i.result ≠ 0 → i.resultType ≠ none
  effect_listed : ∀ c, i = .call c → c.effect.isListed = true

namespace Function

/-- The function defines the value. -/
def Defined (fn : Function) (v : ValueId) : Prop := v ≠ 0 ∧ v ∈ fn.definedIds

/-- Phis stand in front of other instructions. -/
def PhisFirst (instrs : List Instr) : Prop :=
  instrs.Pairwise fun i j => j.isPhi = true → i.isPhi = true

/-- The rules on numbers, definitions, phis and terminators. -/
structure Shape (fn : Function) : Prop where
  id_ne_zero : ∀ b ∈ fn.blocks, b.id ≠ 0
  ids_nodup : fn.blockIds.Nodup
  entry_mem : fn.entry ≠ 0 → fn.entry ∈ fn.blockIds
  param_ne_zero : ∀ p ∈ fn.params, p.id ≠ 0
  defined_nodup : (fn.definedIds.filter (· ≠ 0)).Nodup
  typed : ∀ i ∈ fn.instrs, i.Typed
  phis_first : ∀ b ∈ fn.blocks, PhisFirst b.instrs
  incoming_edge : ∀ b ∈ fn.blocks, ∀ p, .phi p ∈ b.instrs → ∀ e ∈ p.incoming,
    fn.hasEdge e.pred b.id = true
  has_term : ∀ b ∈ fn.blocks, b.term ≠ none
  succ_mem : ∀ b ∈ fn.blocks, ∀ s ∈ b.successors, s ∈ fn.blockIds
  returns : ∀ b ∈ fn.blocks, ∀ v hasValue, b.term = some (.ret v hasValue) →
    hasValue = !fn.returnsNothing

/-- The names of blocks that have one are distinct. -/
def Named (fn : Function) : Prop := ((fn.blocks.map Block.name).filter (· ≠ "")).Nodup

/-- All values that are read are defined. -/
structure Closed (fn : Function) : Prop where
  operand : ∀ b ∈ fn.blocks, ∀ i ∈ b.instrs, ∀ v ∈ i.operands, fn.Defined v
  termOperand : ∀ b ∈ fn.blocks, ∀ t, b.term = some t → ∀ v ∈ t.operands, fn.Defined v

theorem paramIds_filter {fn : Function} (h : ∀ p ∈ fn.params, p.id ≠ 0) :
    (fn.params.map Param.id).filter (· ≠ 0) = fn.params.map Param.id := by
  rw [List.filter_eq_self]
  simpa using h

theorem mem_instrs {fn : Function} {i : Instr} :
    i ∈ fn.instrs ↔ ∃ b ∈ fn.blocks, i ∈ b.instrs := by
  simp [instrs]

theorem defines_iff {fn : Function} {v : ValueId} : fn.defines v = true ↔ fn.Defined v := by
  simp [defines, Defined]

theorem hasEdge_iff {fn : Function} {p q : BlockId} :
    fn.hasEdge p q = true ↔ ∃ b ∈ fn.blocks, b.id = p ∧ q ∈ b.successors := by
  simp [hasEdge]

theorem hasBlock_iff {fn : Function} (h : ∀ b ∈ fn.blocks, b.id ≠ 0) {id : BlockId} :
    fn.hasBlock id = true ↔ id ∈ fn.blockIds := by
  simp only [hasBlock, Bool.and_eq_true, decide_eq_true_eq, List.any_eq_true, mem_blockIds]
  constructor
  · exact fun hid => hid.2
  · rintro ⟨b, hb, rfl⟩
    exact ⟨h b hb, b, hb, rfl⟩

/-! ## Each check -/

theorem mem_flawIf {c : Bool} {f g : Flaw} : f ∈ flawIf c g ↔ c = true ∧ f = g := by
  cases c <;> simp [flawIf]

theorem flawIf_eq_nil {c : Bool} {f : Flaw} : flawIf c f = [] ↔ c = false := by
  cases c <;> simp [flawIf]

theorem blockFlaws_eq_nil_iff (ids : List BlockId) (names : List String) (blocks : List Block) :
    blockFlaws ids names blocks = [] ↔
      (∀ b ∈ blocks, b.id ≠ 0 ∧ b.id ∉ ids ∧ (b.name ≠ "" → b.name ∉ names)) ∧
        (blocks.map Block.id).Nodup ∧ ((blocks.map Block.name).filter (· ≠ "")).Nodup := by
  induction blocks generalizing ids names with
  | nil => simp [blockFlaws]
  | cons b rest ih =>
    rw [blockFlaws]
    by_cases h0 : b.id = 0
    · simp [h0]
    · rw [if_neg h0, List.append_eq_nil_iff, List.map_eq_nil_iff, List.append_eq_nil_iff,
        flawIf_eq_nil, flawIf_eq_nil, ih]
      by_cases hname : b.name = ""
      · simp [h0, hname, List.nodup_cons]
        grind
      · simp [h0, hname, List.nodup_cons]
        grind

/-- With distinct block numbers the only flaws are those of names that come twice. -/
theorem blockFlaws_of_nodup {ids : List BlockId} {names : List String} {blocks : List Block}
    (hids : ∀ b ∈ blocks, b.id ≠ 0 ∧ b.id ∉ ids) (hnodup : (blocks.map Block.id).Nodup)
    {e : BlockId × Flaw} (he : e ∈ blockFlaws ids names blocks) :
    ∃ n, e.2 = .duplicateBlockName n ∧ n ≠ "" ∧ n ∈ blocks.map Block.name ∧
      (n ∈ names ∨ 2 ≤ (blocks.map Block.name).count n) := by
  induction blocks generalizing ids names with
  | nil => simp [blockFlaws] at he
  | cons b rest ih =>
    obtain ⟨h0, hb⟩ := hids b (by simp)
    rw [List.map_cons, List.nodup_cons] at hnodup
    rw [blockFlaws, if_neg h0] at he
    rcases List.mem_append.1 he with he | he
    · obtain ⟨f, hf, rfl⟩ := List.mem_map.1 he
      rcases List.mem_append.1 hf with hf | hf
      · simp [hb, mem_flawIf] at hf
      · obtain ⟨hcond, rfl⟩ := mem_flawIf.1 hf
        simp only [ne_eq, decide_not, Bool.and_eq_true, Bool.not_eq_true', decide_eq_false_iff_not,
          List.contains_iff_mem] at hcond
        exact ⟨b.name, rfl, hcond.1, by simp, Or.inl hcond.2⟩
    · have hrest : ∀ c ∈ rest, c.id ≠ 0 ∧ c.id ∉ b.id :: ids := by
        intro c hc
        rw [List.mem_cons, not_or]
        exact ⟨(hids c (by simp [hc])).1, fun h => hnodup.1 (h ▸ List.mem_map_of_mem hc),
          (hids c (by simp [hc])).2⟩
      obtain ⟨n, hn, hne, hmem, hor⟩ := ih hrest hnodup.2 he
      refine ⟨n, hn, hne, by simp [hmem], ?_⟩
      have hpos := List.count_pos_iff.2 hmem
      rw [List.map_cons]
      rcases hor with hor | hor
      · rcases List.mem_cons.1 hor with rfl | hor
        · exact Or.inr (by rw [List.count_cons_self]; omega)
        · exact Or.inl hor
      · exact Or.inr (Nat.le_trans hor List.count_le_count_cons)

theorem entryFlaws_eq_nil_iff {fn : Function} (h : ∀ b ∈ fn.blocks, b.id ≠ 0) :
    fn.entryFlaws = [] ↔ (fn.entry ≠ 0 → fn.entry ∈ fn.blockIds) := by
  rw [entryFlaws, List.map_eq_nil_iff, flawIf_eq_nil, ← hasBlock_iff h]
  by_cases h0 : fn.entry = 0 <;> simp [h0]

theorem redefinition_eq_nil {earlier : List ValueId} {id : ValueId} :
    redefinition earlier id = [] ↔ (id ≠ 0 → id ∉ earlier) := by
  rw [redefinition, flawIf_eq_nil]
  by_cases h0 : id = 0 <;> simp [h0]

theorem paramFlaws_eq_nil_iff (earlier : List ValueId) (params : List Param) :
    paramFlaws earlier params = [] ↔
      (∀ p ∈ params, p.id ≠ 0 ∧ p.id ∉ earlier) ∧ (params.map Param.id).Nodup := by
  induction params generalizing earlier with
  | nil => simp [paramFlaws]
  | cons p rest ih =>
    rw [paramFlaws, List.append_eq_nil_iff, List.map_eq_nil_iff, List.append_eq_nil_iff,
      flawIf_eq_nil, redefinition_eq_nil, ih]
    by_cases h0 : p.id = 0
    · simp [h0]
    · simp [h0, List.nodup_cons]
      grind

/-- The flaw of the effect of a call. -/
def effectFlaws : Instr → List Flaw
  | .call c => flawIf (!c.effect.isListed) (.unlistedEffect c.target c.effect.code)
  | _ => []

theorem instrFlaws_eq (i : Instr) :
    instrFlaws i = flawIf (i.result = 0 && i.resultType ≠ none && !i.isCall) (.noResult i) ++
      flawIf (i.result ≠ 0 && i.resultType = none) (.noType i) ++ effectFlaws i := by
  cases i <;> rfl

theorem effectFlaws_eq_nil_iff (i : Instr) :
    effectFlaws i = [] ↔ ∀ c, i = .call c → c.effect.isListed = true := by
  cases i <;> simp [effectFlaws, flawIf_eq_nil]

theorem instrFlaws_eq_nil_iff (i : Instr) : instrFlaws i = [] ↔ i.Typed := by
  rw [instrFlaws_eq, List.append_eq_nil_iff, List.append_eq_nil_iff, flawIf_eq_nil, flawIf_eq_nil,
    effectFlaws_eq_nil_iff]
  constructor
  · rintro ⟨⟨h₁, h₂⟩, h₃⟩
    refine ⟨fun hty hc h0 => ?_, fun h0 hty => ?_, h₃⟩
    · simp [h0, hc, hty] at h₁
    · simp [h0, hty] at h₂
  · rintro ⟨h₁, h₂, h₃⟩
    refine ⟨⟨?_, ?_⟩, h₃⟩
    · by_cases h0 : i.result = 0 <;> by_cases hty : i.resultType = none <;>
        cases hc : i.isCall <;> simp_all
    · by_cases h0 : i.result = 0 <;> simp_all

theorem definitionFlaws_eq_nil_iff (earlier : List ValueId) (placed : List (BlockId × Instr)) :
    definitionFlaws earlier placed = [] ↔
      (∀ e ∈ placed, e.2.Typed) ∧
        (∀ e ∈ placed, e.2.result ≠ 0 → e.2.result ∉ earlier) ∧
        ((placed.map fun e => e.2.result).filter (· ≠ 0)).Nodup := by
  induction placed generalizing earlier with
  | nil => simp [definitionFlaws]
  | cons e rest ih =>
    obtain ⟨b, i⟩ := e
    rw [definitionFlaws, List.append_eq_nil_iff, List.map_eq_nil_iff, List.append_eq_nil_iff,
      instrFlaws_eq_nil_iff, redefinition_eq_nil, ih]
    by_cases h0 : i.result = 0
    · simp [h0]
      grind
    · simp [h0, List.nodup_cons]
      grind

/-- The flaws of a phi at its place. -/
def phiFlaws (fn : Function) (b : BlockId) (late : Bool) : Instr → List Flaw
  | .phi p => flawIf late (.latePhi p.result) ++
      (p.incoming.filter fun e => !fn.hasEdge e.pred b).map fun e => .strayIncoming p.result e.pred
  | _ => []

theorem phiFlaws_eq_nil_iff {fn : Function} {b : BlockId} {late : Bool} {i : Instr} :
    phiFlaws fn b late i = [] ↔ (late = true → i.isPhi = false) ∧
      ∀ p, i = .phi p → ∀ e ∈ p.incoming, fn.hasEdge e.pred b = true := by
  cases i <;> simp [phiFlaws, Instr.isPhi, flawIf_eq_nil]

theorem useFlaws_cons (fn : Function) (b : BlockId) (late : Bool) (i : Instr) (rest : List Instr) :
    useFlaws fn b late (i :: rest) = phiFlaws fn b late i ++
      (i.operands.filter fun v => !fn.defines v).map (.undefinedOperand i ·) ++
      useFlaws fn b (late || !i.isPhi) rest := by
  cases i <;> rfl

theorem useFlaws_eq_nil_iff {fn : Function} {b : BlockId} {late : Bool} {is : List Instr} :
    useFlaws fn b late is = [] ↔
      (late = true → ∀ i ∈ is, i.isPhi = false) ∧ PhisFirst is ∧
        (∀ p, .phi p ∈ is → ∀ e ∈ p.incoming, fn.hasEdge e.pred b = true) ∧
        ∀ i ∈ is, ∀ v ∈ i.operands, fn.Defined v := by
  induction is generalizing late with
  | nil => simp [useFlaws, PhisFirst]
  | cons i rest ih =>
    rw [useFlaws_cons, List.append_eq_nil_iff, List.append_eq_nil_iff, ih, phiFlaws_eq_nil_iff]
    simp only [PhisFirst, List.map_eq_nil_iff, List.filter_eq_nil_iff, List.pairwise_cons,
      List.mem_cons, forall_eq_or_imp, Bool.or_eq_true, Bool.not_eq_true', ← defines_iff]
    cases late <;> cases hphi : i.isPhi <;> grind

/-- Where phis are in order, the only flaws are those of values that are not defined. -/
theorem useFlaws_of_phis {fn : Function} {b : BlockId} {late : Bool} {is : List Instr}
    (hlate : late = true → ∀ i ∈ is, i.isPhi = false) (hfirst : PhisFirst is)
    (hedge : ∀ p, .phi p ∈ is → ∀ e ∈ p.incoming, fn.hasEdge e.pred b = true) {f : Flaw}
    (hf : f ∈ useFlaws fn b late is) :
    ∃ i ∈ is, ∃ v ∈ i.operands, ¬ fn.Defined v ∧ f = .undefinedOperand i v := by
  induction is generalizing late with
  | nil => simp [useFlaws] at hf
  | cons i rest ih =>
    obtain ⟨hhead, hrest⟩ := List.pairwise_cons.1 hfirst
    have hphi : phiFlaws fn b late i = [] :=
      phiFlaws_eq_nil_iff.2 ⟨fun h => hlate h i (by simp), fun p hp => hedge p (by simp [hp])⟩
    rw [useFlaws_cons, hphi, List.nil_append] at hf
    rcases List.mem_append.1 hf with hf | hf
    · obtain ⟨v, hv, rfl⟩ := List.mem_map.1 hf
      obtain ⟨hv, hdef⟩ := List.mem_filter.1 hv
      exact ⟨i, by simp, v, hv, by simpa [← defines_iff] using hdef, rfl⟩
    · have hlate' : (late || !i.isPhi) = true → ∀ j ∈ rest, j.isPhi = false := by
        intro h j hj
        rcases Bool.or_eq_true_iff.1 h with h | h
        · exact hlate h j (by simp [hj])
        · by_contra hc
          simp [hhead j hj (by simpa using hc)] at h
      obtain ⟨j, hj, hv⟩ := ih hlate' hrest (fun p hp => hedge p (by simp [hp])) hf
      exact ⟨j, by simp [hj], hv⟩

/-- The flaws of a return. -/
def returnFlaws (fn : Function) : Term → List Flaw
  | .ret _ hasValue =>
    flawIf (fn.returnsNothing && hasValue) .valueReturned ++
      flawIf (!fn.returnsNothing && !hasValue) (.noValueReturned fn.ret)
  | _ => []

theorem returnFlaws_eq_nil_iff {fn : Function} {t : Term} :
    returnFlaws fn t = [] ↔ ∀ v hasValue, t = .ret v hasValue → hasValue = !fn.returnsNothing := by
  cases t with
  | ret v hasValue =>
    cases hr : fn.returnsNothing <;> cases hasValue <;> simp [returnFlaws, flawIf, hr]
  | _ => simp [returnFlaws]

theorem endFlaws_eq {fn : Function} {b : Block} {t : Term} (h : b.term = some t) :
    fn.endFlaws b = (t.operands.filter fun v => !fn.defines v).map (.undefinedTermOperand t ·) ++
      (b.successors.filter fun s => !fn.hasBlock s).map .missingTarget ++ returnFlaws fn t := by
  unfold endFlaws
  rw [h]
  cases t <;> rfl

theorem endFlaws_eq_nil_iff {fn : Function} (h : ∀ b ∈ fn.blocks, b.id ≠ 0) {b : Block} :
    fn.endFlaws b = [] ↔ b.term ≠ none ∧ (∀ s ∈ b.successors, s ∈ fn.blockIds) ∧
      (∀ v hasValue, b.term = some (.ret v hasValue) → hasValue = !fn.returnsNothing) ∧
      ∀ t, b.term = some t → ∀ v ∈ t.operands, fn.Defined v := by
  cases ht : b.term with
  | none => simp [endFlaws, ht]
  | some t =>
    rw [endFlaws_eq ht]
    simp only [List.append_eq_nil_iff, List.map_eq_nil_iff, List.filter_eq_nil_iff,
      returnFlaws_eq_nil_iff, Bool.not_eq_true', Bool.not_eq_false, hasBlock_iff h, defines_iff,
      Option.some.injEq]
    grind

/-- Where targets and returns are in order, the only flaws are those of values that are not
defined. -/
theorem endFlaws_of_targets {fn : Function} (h : ∀ b ∈ fn.blocks, b.id ≠ 0) {b : Block}
    (hterm : b.term ≠ none) (hsucc : ∀ s ∈ b.successors, s ∈ fn.blockIds)
    (hret : ∀ v hasValue, b.term = some (.ret v hasValue) → hasValue = !fn.returnsNothing)
    {f : Flaw} (hf : f ∈ fn.endFlaws b) :
    ∃ t, b.term = some t ∧ ∃ v ∈ t.operands, ¬ fn.Defined v ∧ f = .undefinedTermOperand t v := by
  obtain ⟨t, ht⟩ := Option.ne_none_iff_exists'.1 hterm
  have htargets : (b.successors.filter fun s => !fn.hasBlock s) = [] := by
    simpa [hasBlock_iff h] using hsucc
  have hreturn : returnFlaws fn t = [] :=
    returnFlaws_eq_nil_iff.2 fun v hasValue heq => hret v hasValue (ht.trans (congrArg some heq))
  rw [endFlaws_eq ht, htargets, hreturn, List.map_nil, List.append_nil, List.append_nil] at hf
  obtain ⟨v, hv, rfl⟩ := List.mem_map.1 hf
  obtain ⟨hv, hdef⟩ := List.mem_filter.1 hv
  exact ⟨t, ht, v, hv, by simpa [← defines_iff] using hdef, rfl⟩

/-! ## All checks together -/

variable {fn : Function}

theorem placedInstrs_snd (fn : Function) : fn.placedInstrs.map Prod.snd = fn.instrs := by
  simp [placedInstrs, instrs, List.map_flatMap, Function.comp_def]

theorem forall_placedInstrs {P : Instr → Prop} :
    (∀ e ∈ fn.placedInstrs, P e.2) ↔ ∀ i ∈ fn.instrs, P i := by
  rw [← placedInstrs_snd, List.forall_mem_map]

/-- The checks of parameters and of definitions, together. -/
theorem definitions_iff (fn : Function) :
    (paramFlaws [] fn.params = [] ∧
        definitionFlaws (fn.params.map Param.id) fn.placedInstrs = []) ↔
      (∀ p ∈ fn.params, p.id ≠ 0) ∧ (fn.definedIds.filter (· ≠ 0)).Nodup ∧
        ∀ i ∈ fn.instrs, i.Typed := by
  have hresults : (fn.placedInstrs.map fun e => e.2.result) = fn.instrs.map Instr.result := by
    rw [← placedInstrs_snd, List.map_map]
    rfl
  rw [paramFlaws_eq_nil_iff, definitionFlaws_eq_nil_iff, forall_placedInstrs,
    forall_placedInstrs (P := fun i => i.result ≠ 0 → i.result ∉ fn.params.map Param.id), hresults,
    definedIds, List.filter_append, List.nodup_append']
  by_cases hparams : ∀ p ∈ fn.params, p.id ≠ 0
  · have hself : (fn.params.map Param.id).filter (· ≠ 0) = fn.params.map Param.id := by
      rw [List.filter_eq_self]
      simpa using hparams
    have hdisjoint : (∀ i ∈ fn.instrs, i.result ≠ 0 → i.result ∉ fn.params.map Param.id) ↔
        (fn.params.map Param.id).Disjoint ((fn.instrs.map Instr.result).filter (· ≠ 0)) := by
      simp only [List.Disjoint, List.mem_filter, List.mem_map, decide_eq_true_eq]
      grind
    rw [hself, hdisjoint]
    simp only [List.not_mem_nil, not_false_eq_true, and_true]
    tauto
  · simp only [List.not_mem_nil, not_false_eq_true, and_true, hparams, false_and]

/-- The checks of block numbers and all later ones, together. -/
theorem checks_iff (fn : Function) :
    (((∀ b ∈ fn.blocks, b.id ≠ 0) ∧ fn.blockIds.Nodup) ∧ fn.entryFlaws = [] ∧
        (paramFlaws [] fn.params = [] ∧
          definitionFlaws (fn.params.map Param.id) fn.placedInstrs = []) ∧
        ∀ b ∈ fn.blocks, useFlaws fn b.id false b.instrs = [] ∧ fn.endFlaws b = []) ↔
      fn.Shape ∧ fn.Closed := by
  constructor
  · rintro ⟨⟨hne, hnodup⟩, he, hd, hu⟩
    obtain ⟨hparams, hdefined, htyped⟩ := (definitions_iff fn).1 hd
    have huse := fun b hb => useFlaws_eq_nil_iff.1 (hu b hb).1
    have hend := fun b hb => (endFlaws_eq_nil_iff hne).1 (hu b hb).2
    refine ⟨?_, fun b hb => (huse b hb).2.2.2, fun b hb => (hend b hb).2.2.2⟩
    exact ⟨hne, hnodup, (entryFlaws_eq_nil_iff hne).1 he, hparams, hdefined, htyped,
      fun b hb => (huse b hb).2.1, fun b hb => (huse b hb).2.2.1, fun b hb => (hend b hb).1,
      fun b hb => (hend b hb).2.1, fun b hb => (hend b hb).2.2.1⟩
  · rintro ⟨h, hclosed⟩
    refine ⟨⟨h.id_ne_zero, h.ids_nodup⟩, (entryFlaws_eq_nil_iff h.id_ne_zero).2 h.entry_mem,
      (definitions_iff fn).2 ⟨h.param_ne_zero, h.defined_nodup, h.typed⟩, fun b hb => ⟨?_, ?_⟩⟩
    · rw [useFlaws_eq_nil_iff]
      exact ⟨by simp, h.phis_first b hb, h.incoming_edge b hb, hclosed.operand b hb⟩
    · rw [endFlaws_eq_nil_iff h.id_ne_zero]
      exact ⟨h.has_term b hb, h.succ_mem b hb, h.returns b hb, hclosed.termOperand b hb⟩

/-- **A function without defects** is one that follows the rules. -/
theorem defects_eq_nil_iff (hblocks : fn.isExternal = false) :
    fn.defects = [] ↔ fn.Shape ∧ fn.Named ∧ fn.Closed := by
  have hids : blockFlaws [] [] fn.blocks = [] ↔
      ((∀ b ∈ fn.blocks, b.id ≠ 0) ∧ fn.blockIds.Nodup) ∧ fn.Named := by
    simp [blockFlaws_eq_nil_iff, blockIds, Named, and_assoc]
  have huses : (fn.blocks.flatMap fun b =>
      (useFlaws fn b.id false b.instrs ++ fn.endFlaws b).map (b.id, ·)) = [] ↔
        ∀ b ∈ fn.blocks, useFlaws fn b.id false b.instrs = [] ∧ fn.endFlaws b = [] := by
    simp
  have hchecks := fn.checks_iff
  simp only [defects, hblocks, Bool.false_eq_true, if_false, List.map_eq_nil_iff,
    List.append_eq_nil_iff, huses, hids]
  tauto

theorem isExternal_of_mem {b : Block} (h : b ∈ fn.blocks) : fn.isExternal = false := by
  cases hblocks : fn.blocks with
  | nil => simp [hblocks] at h
  | cons c rest => simp [isExternal, hblocks]

theorem Shape.entryId_mem (h : fn.Shape) (hblocks : fn.isExternal = false) :
    fn.entryId ∈ fn.blockIds := by
  unfold entryId entryBlock?
  split
  · cases hb : fn.blocks with
    | nil => simp [isExternal, hb] at hblocks
    | cons c rest => simp [blockIds, hb]
  · next h0 =>
    obtain ⟨c, hc, hid⟩ := mem_blockIds.1 (h.entry_mem h0)
    rw [← hid, block?_of_mem h.ids_nodup hc]
    exact mem_blockIds.2 ⟨c, hc, rfl⟩

/-- A phi names blocks of the function. -/
theorem Shape.pred_mem (h : fn.Shape) {b : Block} (hb : b ∈ fn.blocks) {p : Phi}
    (hp : .phi p ∈ b.instrs) {e : Incoming} (he : e ∈ p.incoming) : e.pred ∈ fn.blockIds := by
  obtain ⟨c, hc, hid, -⟩ := hasEdge_iff.1 (h.incoming_edge b hb p hp e he)
  exact mem_blockIds.2 ⟨c, hc, hid⟩

/-- **The defects that are left** in a function of good shape: a name that comes twice, or a value
that is read and not defined. -/
theorem Shape.defect (h : fn.Shape) {d : Defect} (hd : d ∈ fn.defects) :
    (∃ n, d.flaw = .duplicateBlockName n ∧ n ≠ "" ∧ 2 ≤ (fn.blocks.map Block.name).count n) ∨
      ∃ b ∈ fn.blocks, d.block = b.id ∧
        ((∃ i ∈ b.instrs, ∃ v ∈ i.operands, ¬ fn.Defined v ∧ d.flaw = .undefinedOperand i v) ∨
          ∃ t, b.term = some t ∧ ∃ v ∈ t.operands, ¬ fn.Defined v ∧
            d.flaw = .undefinedTermOperand t v) := by
  obtain ⟨hp, hdef⟩ := (definitions_iff fn).2 ⟨h.param_ne_zero, h.defined_nodup, h.typed⟩
  unfold defects at hd
  split at hd
  · simp at hd
  rw [(entryFlaws_eq_nil_iff h.id_ne_zero).2 h.entry_mem, hp, hdef, List.append_nil,
    List.append_nil, List.append_nil] at hd
  obtain ⟨⟨id, f⟩, he, rfl⟩ := List.mem_map.1 hd
  rcases List.mem_append.1 he with he | he
  · obtain ⟨n, hn, hne, -, hor⟩ := blockFlaws_of_nodup
      (fun b hb => ⟨h.id_ne_zero b hb, by simp⟩) h.ids_nodup he
    exact Or.inl ⟨n, hn, hne, by simpa using hor⟩
  · obtain ⟨b, hb, he⟩ := List.mem_flatMap.1 he
    obtain ⟨f', hf, heq⟩ := List.mem_map.1 he
    obtain ⟨rfl, rfl⟩ := Prod.mk.inj heq
    refine Or.inr ⟨b, hb, rfl, ?_⟩
    rcases List.mem_append.1 hf with hf | hf
    · exact Or.inl (useFlaws_of_phis (by simp) (h.phis_first b hb) (h.incoming_edge b hb) hf)
    · exact Or.inr (endFlaws_of_targets h.id_ne_zero (h.has_term b hb) (h.succ_mem b hb)
        (h.returns b hb) hf)

theorem function_of_mem_defects {d : Defect} (hd : d ∈ fn.defects) : d.function = fn.name := by
  unfold defects at hd
  split at hd
  · simp at hd
  · obtain ⟨e, -, rfl⟩ := List.mem_map.1 hd
    rfl

/-- Names that are distinct do not come twice. -/
theorem Named.count_le_one (h : fn.Named) {n : String} (hn : n ≠ "") :
    (fn.blocks.map Block.name).count n ≤ 1 := by
  rw [← List.count_filter (p := (· ≠ "")) (by simpa using hn)]
  exact List.nodup_iff_count_le_one.1 h n

end Function

/-! ## Modules -/

namespace Module

variable {m : Module}

theorem functionDefects_eq_nil_iff (earlier : List String) (fns : List Function) :
    functionDefects earlier fns = [] ↔
      (∀ fn ∈ fns, fn.name ≠ "" ∧ fn.name ∉ earlier) ∧ (fns.map Function.name).Nodup ∧
        ∀ fn ∈ fns, fn.defects = [] := by
  induction fns generalizing earlier with
  | nil => simp [functionDefects]
  | cons fn rest ih =>
    have hname : nameDefects earlier fn.name = [] ↔ fn.name ≠ "" ∧ fn.name ∉ earlier := by
      unfold nameDefects
      split
      · simp [*]
      · split <;> simp_all
    rw [functionDefects, List.append_eq_nil_iff, List.append_eq_nil_iff, hname, ih]
    simp only [List.mem_cons, forall_eq_or_imp, List.map_cons, List.nodup_cons, List.mem_map]
    grind

theorem defects_eq_nil_iff :
    m.defects = [] ↔ (∀ fn ∈ m.functions, fn.name ≠ "") ∧ (m.functions.map Function.name).Nodup ∧
      ∀ fn ∈ m.functions, fn.defects = [] := by
  simp [defects, functionDefects_eq_nil_iff]

/-- A module is verified if it has neither structural nor memory defects. -/
theorem moduleErr?_eq_none_iff :
    moduleErr? (some m) = none ↔ m.defects = [] ∧ m.memoryDefects = [] := by
  have hstructure : structureErr? (some m) = none ↔ m.defects = [] := by
    cases hd : m.defects <;> simp [structureErr?, hd, Err.ofList?]
  have hjoin : ∀ parts, Err.join? parts = none ↔ ∀ p ∈ parts, p = none := by
    intro parts
    have hnil : parts.reduceOption = [] ↔ ∀ p ∈ parts, p = none := List.filterMap_eq_nil_iff
    rw [← hnil]
    cases hr : parts.reduceOption <;> simp [Err.join?, hr]
  rw [moduleErr?, hjoin]
  simp [hstructure, List.eq_nil_iff_forall_not_mem]

/-- The functions of a verified module are well formed. -/
theorem wellFormed_of_verified (h : moduleErr? (some m) = none) {fn : Function}
    (hfn : fn ∈ m.functions) (hblocks : fn.isExternal = false) :
    fn.Shape ∧ fn.Named ∧ fn.Closed := by
  obtain ⟨hdefects, -⟩ := moduleErr?_eq_none_iff.1 h
  exact (Function.defects_eq_nil_iff hblocks).1 ((defects_eq_nil_iff.1 hdefects).2.2 fn hfn)

end Module

end SsaOpt
