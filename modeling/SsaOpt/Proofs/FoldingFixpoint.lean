import SsaOpt.Proofs.Dominators
import SsaOpt.Proofs.FoldingRuns
import SsaOpt.Proofs.IntegerConstants
import SsaOpt.Proofs.PassEffects

/-!
# Constant folding settles in one run

If the operations of a function read only what is at hand (`Function.ReadsAtHand`), a run of
constant folding that does not fail leaves nothing to fold in the blocks that can be reached
(`ConstFold.Settled`, `ConstFold.run_settled`), and a further run does not touch these blocks
(`ConstFold.run_of_settled`).

A run is understood as one pass over the code in the order of visit: `foldBlocks_code` says that the
new code is what `plan` makes of the old one, as if it were one block. What is at hand at an
operation stands before it in this code, because a dominator comes earlier in reverse post-order
(`visitOrder_of_dominates`). So the constants that are at hand in the end were known when the
operation was planned.
-/

namespace SsaOpt

/-! ## Operations that read what is at hand -/

/-- Arithmetic, comparisons and conversions. -/
def Instr.isOperation : Instr → Bool
  | .binary _ => true
  | .compare _ => true
  | .cast _ => true
  | _ => false

namespace Function

variable {fn : Function}

/-- Every way from the entry to block `b` goes through block `a`, and there is one. -/
def Dominates (fn : Function) (a b : BlockId) : Prop :=
  ∃ e, fn.entryBlock? = some e ∧ Flow.Dominates fn.Flows e.id a b

/-- A value that is at hand after some instructions of a block: a parameter, or the result of one of
these instructions or of one in another block that dominates this one. -/
def AtHand (fn : Function) (b : Block) (before : List Instr) (v : ValueId) : Prop :=
  (∃ p ∈ fn.params, p.id = v) ∨ (∃ i ∈ before, i.result = v) ∨
    ∃ d ∈ fn.blocks, d.id ≠ b.id ∧ fn.Dominates d.id b.id ∧ ∃ i ∈ d.instrs, i.result = v

/-- The operations of blocks that can be reached read what is at hand. -/
def ReadsAtHand (fn : Function) : Prop :=
  ∀ b ∈ fn.blocks, fn.Reachable b.id → ∀ k i, b.instrs[k]? = some i → i.isOperation = true →
    ∀ v ∈ i.operands, fn.AtHand b (b.instrs.take k) v

/-- The dominator tree decides dominance. -/
theorem dominates_iff (hne : ∀ b ∈ fn.blocks, b.id ≠ 0) (hnodup : fn.blockIds.Nodup)
    {a b : BlockId} :
    fn.Dominates a b ↔ fn.entryBlock? ≠ none ∧
      (DomTree.build (FlowGraph.build fn)).dominates a b = true := by
  rw [Dominates]
  cases he : fn.entryBlock? with
  | none => simp
  | some e =>
    have hg := FlowGraph.build_ordered hne hnodup he
    obtain ⟨-, n, hn, s⟩ := DomTree.build_settles hg
    simp [DomTree.dominates_iff hg s hn]

/-- Whether the operations of a function read what is at hand can be evaluated. -/
theorem readsAtHand_iff (hne : ∀ b ∈ fn.blocks, b.id ≠ 0) (hnodup : fn.blockIds.Nodup) :
    fn.ReadsAtHand ↔ ∀ b ∈ fn.blocks, b.id ∈ (FlowGraph.build fn).rpo → ∀ e ∈ b.instrs.zipIdx,
      e.1.isOperation = true → (e.1.operands.all fun v => (∃ p ∈ fn.params, p.id = v) ∨
        (∃ i ∈ b.instrs.take e.2, i.result = v) ∨ ∃ d ∈ fn.blocks, d.id ≠ b.id ∧
          (fn.entryBlock? ≠ none ∧
            (DomTree.build (FlowGraph.build fn)).dominates d.id b.id = true) ∧
          ∃ i ∈ d.instrs, i.result = v) = true := by
  simp only [ReadsAtHand, AtHand, dominates_iff hne hnodup, FlowGraph.mem_rpo_iff hnodup,
    List.all_eq_true, decide_eq_true_iff]
  constructor
  · exact fun h b hb hreach e he => h b hb hreach e.2 e.1 (List.mem_zipIdx_iff_getElem?.1 he)
  · exact fun h b hb hreach k i hi => h b hb hreach (i, k) (List.mem_zipIdx_iff_getElem?.2 hi)

/-- A block is found at its position. -/
theorem blockIndex?_of_getElem? (hnodup : fn.blockIds.Nodup) {p : Nat} {b : Block}
    (hb : fn.blocks[p]? = some b) : fn.blockIndex? b.id = some p := by
  obtain ⟨hp, hget⟩ := List.getElem?_eq_some_iff.1 hb
  refine List.findIdx?_eq_some_iff_getElem.2 ⟨hp, by simp [hget], fun q hq => ?_⟩
  have hne : fn.blocks[q].id ≠ b.id := by
    intro hid
    have hlt : q < fn.blockIds.length := by
      rw [length_blockIds]
      omega
    have heq : fn.blockIds[q]? = fn.blockIds[p]? := by
      simp [blockIds, hb, List.getElem?_eq_getElem (Nat.lt_trans hq hp), hid]
    exact Nat.ne_of_lt hq ((List.getElem?_inj hlt hnodup).1 heq)
  simpa using hne

theorem getElem?_of_blockIndex? {p : Nat} {id : BlockId} (h : fn.blockIndex? id = some p) :
    ∃ b, fn.blocks[p]? = some b ∧ b.id = id := by
  obtain ⟨hp, hid, -⟩ := List.findIdx?_eq_some_iff_getElem.1 h
  exact ⟨fn.blocks[p], List.getElem?_eq_getElem hp, by simpa using hid⟩

/-- Instructions do not define parameters. -/
theorem Shape.result_ne_param (h : fn.Shape) {p : Param} (hp : p ∈ fn.params) {i : Instr}
    (hi : i ∈ fn.instrs) : i.result ≠ p.id := by
  intro heq
  have h0 := h.param_ne_zero p hp
  have hnodup := h.defined_nodup
  rw [definedIds, List.filter_append] at hnodup
  refine List.disjoint_of_nodup_append hnodup (List.mem_filter.2 ⟨List.mem_map_of_mem hp, by simpa⟩)
    (List.mem_filter.2 ⟨List.mem_map.2 ⟨i, hi, heq⟩, by simpa⟩)

end Function

namespace ConstFold

variable {fn : Function}

/-! ## The order of visit -/

/-- The positions of the blocks that can be reached, in reverse post-order. -/
def reachedOrder (fn : Function) : List Nat := (FlowGraph.build fn).rpo.filterMap fn.blockIndex?

/-- The positions of the blocks that cannot be reached. -/
def unreachedOrder (fn : Function) : List Nat :=
  (List.range fn.blocks.length).filter fun i =>
    fn.blocks[i]?.any fun b => !(FlowGraph.build fn).reachable b.id

theorem visitOrder_eq (fn : Function) : visitOrder fn = reachedOrder fn ++ unreachedOrder fn := rfl

theorem mem_reachedOrder (hnodup : fn.blockIds.Nodup) {p : Nat} :
    p ∈ reachedOrder fn ↔ ∃ b, fn.blocks[p]? = some b ∧ fn.Reachable b.id := by
  rw [reachedOrder, List.mem_filterMap]
  constructor
  · rintro ⟨id, hid, hp⟩
    obtain ⟨b, hb, rfl⟩ := Function.getElem?_of_blockIndex? hp
    exact ⟨b, hb, (FlowGraph.mem_rpo_iff hnodup).1 hid⟩
  · rintro ⟨b, hb, hreach⟩
    exact ⟨b.id, (FlowGraph.mem_rpo_iff hnodup).2 hreach,
      Function.blockIndex?_of_getElem? hnodup hb⟩

theorem mem_unreachedOrder (hnodup : fn.blockIds.Nodup) {p : Nat} :
    p ∈ unreachedOrder fn ↔ ∃ b, fn.blocks[p]? = some b ∧ ¬ fn.Reachable b.id := by
  simp only [unreachedOrder, List.mem_filter, List.mem_range, Option.any_eq_true,
    Bool.not_eq_true', FlowGraph.reachable, ← FlowGraph.mem_rpo_iff hnodup]
  constructor
  · rintro ⟨-, b, hb, hreach⟩
    exact ⟨b, hb, by simpa using hreach⟩
  · rintro ⟨b, hb, hreach⟩
    exact ⟨(List.getElem?_eq_some_iff.1 hb).1, b, hb, by simpa using hreach⟩

/-- No block is visited twice. -/
theorem visitOrder_nodup (hnodup : fn.blockIds.Nodup) : (visitOrder fn).Nodup := by
  rw [visitOrder_eq]
  refine List.Nodup.append ?_ (List.nodup_range.filter _) fun p hp hp' => ?_
  · refine FlowGraph.rpo_nodup.filterMap fun id id' p hp hp' => ?_
    obtain ⟨b, hb, rfl⟩ := Function.getElem?_of_blockIndex? hp
    obtain ⟨b', hb', rfl⟩ := Function.getElem?_of_blockIndex? hp'
    rw [Option.some.inj (hb.symm.trans hb')]
  · obtain ⟨b, hb, hreach⟩ := (mem_reachedOrder hnodup).1 hp
    obtain ⟨b', hb', hreach'⟩ := (mem_unreachedOrder hnodup).1 hp'
    obtain rfl := Option.some.inj (hb.symm.trans hb')
    exact hreach' hreach

theorem mem_visitOrder (hnodup : fn.blockIds.Nodup) {p : Nat} {b : Block}
    (hb : fn.blocks[p]? = some b) : p ∈ visitOrder fn := by
  rw [visitOrder_eq, List.mem_append, mem_reachedOrder hnodup, mem_unreachedOrder hnodup]
  by_cases hreach : fn.Reachable b.id
  · exact Or.inl ⟨b, hb, hreach⟩
  · exact Or.inr ⟨b, hb, hreach⟩

/-- **Dominators are visited first.** -/
theorem visitOrder_of_dominates (hfn : fn.Shape) {p : Nat} {b : Block}
    (hb : fn.blocks[p]? = some b) (hreach : fn.Reachable b.id) :
    ∃ l₁ l₂, visitOrder fn = l₁ ++ p :: l₂ ∧
      ∀ q d, fn.blocks[q]? = some d → d.id ≠ b.id → fn.Dominates d.id b.id → q ∈ l₁ := by
  have hnodup := hfn.ids_nodup
  have hmem := (FlowGraph.mem_rpo_iff hnodup).2 hreach
  obtain ⟨ids₁, ids₂, hrpo⟩ := List.append_of_mem hmem
  refine ⟨ids₁.filterMap fn.blockIndex?, ids₂.filterMap fn.blockIndex? ++ unreachedOrder fn, ?_,
    fun q d hd hne hdom => ?_⟩
  · rw [visitOrder_eq, reachedOrder, hrpo, List.filterMap_append, List.filterMap_cons,
      Function.blockIndex?_of_getElem? hnodup hb]
    simp
  · obtain ⟨e, he, hdom⟩ := hdom
    have hg := FlowGraph.build_ordered hfn.id_ne_zero hnodup he
    have hle := hg.place_le_of_dominates hdom
    have hd' : d.id ∈ ids₁ := by
      by_contra hnot
      have hb' : b.id ∉ ids₁ := fun h =>
        List.disjoint_of_nodup_append (hrpo ▸ FlowGraph.rpo_nodup) h (by simp)
      rw [FlowGraph.place, FlowGraph.place, hrpo, List.idxOf_append_of_notMem hnot,
        List.idxOf_append_of_notMem hb', List.idxOf_cons_self, List.idxOf_cons_ne _ hne.symm] at hle
      omega
    exact List.mem_filterMap.2 ⟨d.id, hd', Function.blockIndex?_of_getElem? hnodup hd⟩

/-! ## A run as one pass over the code -/

section Code

variable {refuse : Instr → Const → Option Failure} {consts : Consts}

/-- The instructions of the block at a position. -/
def codeAt (fn : Function) (p : Nat) : List Instr := (fn.blocks[p]?.map Block.instrs).getD []

/-- The instructions of the blocks at some positions, in this order. -/
def code (fn : Function) (positions : List Nat) : List Instr := positions.flatMap (codeAt fn)

/-- What stands in the place of an instruction after its replacement, if one is planned. -/
def replaced (e : Instr × Option Const) : Instr := (e.2.map Instr.const).getD e.1

/-- The function with the replacements of one block. -/
def foldedAt (consts : Consts) (p : Nat) (fn : Function) : Function :=
  fn.modifyBlock (fun b => { b with instrs := (plan consts (codeAt fn p)).1.map replaced }) p

theorem codeAt_of_getElem? {p : Nat} {b : Block} (hb : fn.blocks[p]? = some b) :
    codeAt fn p = b.instrs := by
  simp [codeAt, hb]

theorem mem_instrs_of_codeAt {p : Nat} {i : Instr} (hi : i ∈ codeAt fn p) : i ∈ fn.instrs := by
  cases hb : fn.blocks[p]? with
  | none => simp [codeAt, hb] at hi
  | some b =>
    rw [codeAt_of_getElem? hb] at hi
    exact Function.mem_instrs.2 ⟨b, List.mem_of_getElem? hb, hi⟩

theorem mem_instrs_of_code {positions : List Nat} {i : Instr} (hi : i ∈ code fn positions) :
    i ∈ fn.instrs := by
  obtain ⟨p, -, hi⟩ := List.mem_flatMap.1 hi
  exact mem_instrs_of_codeAt hi

theorem mem_code_visitOrder (hnodup : fn.blockIds.Nodup) {i : Instr} (hi : i ∈ fn.instrs) :
    i ∈ code fn (visitOrder fn) := by
  obtain ⟨b, hb, hi⟩ := Function.mem_instrs.1 hi
  obtain ⟨p, hp⟩ := List.getElem?_of_mem hb
  exact List.mem_flatMap.2 ⟨p, mem_visitOrder hnodup hp, (codeAt_of_getElem? hp).symm ▸ hi⟩

theorem codeAt_foldedAt_self (consts : Consts) (p : Nat) (fn : Function) :
    codeAt (foldedAt consts p fn) p = (plan consts (codeAt fn p)).1.map replaced := by
  cases hb : fn.blocks[p]? with
  | none => simp [codeAt, foldedAt, Function.modifyBlock, hb, plan]
  | some b => simp [codeAt, foldedAt, Function.modifyBlock, hb]

theorem codeAt_foldedAt_of_ne {p q : Nat} (h : q ≠ p) :
    codeAt (foldedAt consts p fn) q = codeAt fn q := by
  simp [codeAt, foldedAt, Function.modifyBlock, List.getElem?_modify_ne _ _ h.symm]

theorem code_foldedAt_of_notMem {p : Nat} {positions : List Nat} (h : p ∉ positions) :
    code (foldedAt consts p fn) positions = code fn positions := by
  refine List.flatMap_congr fun q hq => codeAt_foldedAt_of_ne ?_
  rintro rfl
  exact h hq

/-! ### Plans -/

theorem plan_append (consts : Consts) (is js : List Instr) :
    plan consts (is ++ js) = ((plan consts is).1 ++ (plan (plan consts is).2 js).1,
      (plan (plan consts is).2 js).2) := by
  induction is generalizing consts with
  | nil => rfl
  | cons i is ih =>
    rw [List.cons_append, plan, plan, ih]
    rfl

/-- What is known in the end was known before or is planned. -/
theorem mem_known {is : List Instr} {v : ValueId} {c : Const} :
    (v, c) ∈ (plan consts is).2 ↔
      (v, c) ∈ consts ∨ c.result = v ∧ ∃ i, (i, some c) ∈ (plan consts is).1 := by
  induction is generalizing consts with
  | nil => simp [plan]
  | cons i is ih =>
    rw [plan]
    cases hnew : foldInstr consts i with
    | none => simp [ih]
    | some k =>
      simp only [ih, List.mem_cons, Prod.mk.injEq, Option.some.injEq]
      grind

/-- An instruction is evaluated at what is known after the instructions before it. -/
theorem split_of_mem_plan {is : List Instr} {i : Instr} {new : Option Const}
    (h : (i, new) ∈ (plan consts is).1) :
    ∃ is₁ is₂, is = is₁ ++ i :: is₂ ∧ foldInstr (plan consts is₁).2 i = new := by
  induction is generalizing consts with
  | nil => simp [plan] at h
  | cons j is ih =>
    rcases List.mem_cons.1 h with heq | h
    · obtain ⟨rfl, rfl⟩ := Prod.mk.inj heq
      exact ⟨[], is, rfl, rfl⟩
    · obtain ⟨is₁, is₂, rfl, hfold⟩ := ih h
      exact ⟨j :: is₁, is₂, rfl, hfold⟩

theorem mem_plan {is : List Instr} {i : Instr} (hi : i ∈ is) :
    ∃ new, (i, new) ∈ (plan consts is).1 := by
  rw [← planned_fst consts is] at hi
  obtain ⟨⟨_, new⟩, he, rfl⟩ := List.mem_map.1 hi
  exact ⟨new, he⟩

/-- Replacements that are not refused are made as planned. -/
theorem commit_replaced {planned : List (Instr × Option Const)}
    (hnone : (commit refuse planned).failure = none) :
    (commit refuse planned).instrs = planned.map replaced := by
  induction planned with
  | nil => rfl
  | cons e planned ih =>
    obtain ⟨i, new⟩ := e
    cases new with
    | none => exact congrArg (i :: ·) (ih hnone)
    | some c =>
      rw [commit] at hnone ⊢
      cases hrefuse : refuse i c with
      | some f => simp [hrefuse] at hnone
      | none =>
        simp only [hrefuse] at hnone ⊢
        exact congrArg (Instr.const c :: ·) (ih hnone)

/-! ### Runs -/

/-- **One step of a run** that does not fail. -/
theorem foldBlocks_cons {p : Nat} {rest : List Nat}
    (hnone : (foldBlocks refuse (p :: rest) consts fn).failure = none) :
    (foldBlocks refuse rest (plan consts (codeAt fn p)).2 (foldedAt consts p fn)).failure = none ∧
      (foldBlocks refuse (p :: rest) consts fn).function =
        (foldBlocks refuse rest (plan consts (codeAt fn p)).2 (foldedAt consts p fn)).function := by
  rw [foldBlocks] at hnone ⊢
  dsimp only at hnone ⊢
  cases hf : (commit refuse
      (plan consts ((fn.blocks[p]?.map Block.instrs).getD [])).1).failure with
  | some f => simp [hf] at hnone
  | none =>
    simp only [hf, commit_replaced hf] at hnone ⊢
    exact ⟨hnone, rfl⟩

/-- A run leaves alone what it does not visit, whether or not it fails. -/
theorem foldBlocks_of_notMem {positions : List Nat} {q : Nat} (hq : q ∉ positions)
    (consts : Consts) (fn : Function) :
    (foldBlocks refuse positions consts fn).function.blocks[q]? = fn.blocks[q]? := by
  induction positions generalizing consts fn with
  | nil => rfl
  | cons p rest ih =>
    obtain ⟨hne, hrest⟩ := not_or.1 (mt List.mem_cons.2 hq)
    rw [foldBlocks]
    dsimp only
    split
    · simp [Function.modifyBlock, List.getElem?_modify_ne _ _ (Ne.symm hne)]
    · rw [ih hrest]
      simp [Function.modifyBlock, List.getElem?_modify_ne _ _ (Ne.symm hne)]

/-- **A run that does not fail** makes of the code that it visits first what is planned for it, as
if that were one block. -/
theorem foldBlocks_code {l₁ l₂ : List Nat} (hnodup : (l₁ ++ l₂).Nodup)
    (hnone : (foldBlocks refuse (l₁ ++ l₂) consts fn).failure = none) :
    code (foldBlocks refuse (l₁ ++ l₂) consts fn).function l₁ =
      (plan consts (code fn l₁)).1.map replaced := by
  induction l₁ generalizing consts fn with
  | nil => rfl
  | cons p l₁ ih =>
    rw [List.cons_append] at hnodup hnone ⊢
    obtain ⟨hp, hnodup⟩ := List.nodup_cons.1 hnodup
    obtain ⟨hnone', hfunction⟩ := foldBlocks_cons hnone
    -- later steps do not come back to the block
    have hhead : codeAt (foldBlocks refuse (p :: (l₁ ++ l₂)) consts fn).function p =
        (plan consts (codeAt fn p)).1.map replaced := by
      rw [hfunction, ← codeAt_foldedAt_self, codeAt, foldBlocks_of_notMem hp]
      rfl
    have htail := ih hnodup hnone'
    rw [code_foldedAt_of_notMem fun h => hp (List.mem_append_left _ h), ← hfunction] at htail
    rw [code, code, List.flatMap_cons, List.flatMap_cons, plan_append, List.map_append]
    exact congrArg₂ (· ++ ·) hhead htail

end Code

/-! ## Nothing left to fold -/

/-- In blocks that can be reached nothing evaluates any more at the constants of the function. -/
def Settled (fn : Function) : Prop :=
  ∀ b ∈ fn.blocks, fn.Reachable b.id → ∀ i ∈ b.instrs, foldInstr (initialConsts fn) i = none

/-- An instruction that evaluates to a constant does so wherever its operands have the same
values. -/
theorem foldInstr_mono {consts known : Consts} {i : Instr} {c : Const}
    (h : ∀ v ∈ i.operands, ∀ x, consts.value? v = some x → known.value? v = some x)
    (hc : foldInstr consts i = some c) : foldInstr known i = some c := by
  cases i with
  | binary b =>
    obtain ⟨ty, l, r, bits, hl, hr, hbits, rfl⟩ := Consts.foldInstr_binary_iff.1 hc
    exact Consts.foldInstr_binary_iff.2 ⟨ty, l, r, bits, h _ (by simp [Instr.operands]) _ hl,
      h _ (by simp [Instr.operands]) _ hr, hbits, rfl⟩
  | compare p =>
    obtain ⟨ty, l, r, b, hl, hr, hb, rfl⟩ := Consts.foldInstr_compare_iff.1 hc
    exact Consts.foldInstr_compare_iff.2 ⟨ty, l, r, b, h _ (by simp [Instr.operands]) _ hl,
      h _ (by simp [Instr.operands]) _ hr, hb, rfl⟩
  | cast k =>
    obtain ⟨x, ty, hx, hty⟩ := Consts.foldInstr_cast_iff.1 hc
    exact Consts.foldInstr_cast_iff.2 ⟨x, ty, h _ (by simp [Instr.operands]) _ hx, hty⟩
  | _ => cases hc

theorem isOperation_of_foldInstr {consts : Consts} {i : Instr} {c : Const}
    (h : foldInstr consts i = some c) : i.isOperation = true := by
  cases i with
  | binary | compare | cast => rfl
  | _ => cases h

/-- Among constants of a function a constant is known by its number. -/
theorem lookup_of_mem (hfn : fn.Shape) {known : Consts}
    (hsub : known ⊆ initialConsts fn) {v : ValueId} {c : Const} (h0 : v ≠ 0)
    (hmem : (v, c) ∈ known) : known.lookup v = some c := by
  have hsome : (known.lookup v).isSome := List.lookup_isSome_iff.2 ⟨_, hmem, by simp⟩
  obtain ⟨c', hc'⟩ := Option.isSome_iff_exists.1 hsome
  obtain ⟨hi, rfl⟩ := mem_initialConsts.1 (hsub hmem)
  obtain ⟨hi', hresult⟩ := mem_initialConsts.1 (hsub (mem_of_lookup_eq_some hc'))
  obtain rfl := Instr.const.inj (hfn.eq_of_result_eq hi hi' h0 hresult)
  exact hc'

theorem result_replaced {consts : Consts} {is : List Instr} {i : Instr} {new : Option Const}
    (h : (i, new) ∈ (plan consts is).1) : (replaced (i, new)).result = i.result := by
  obtain ⟨_, _, -, hfold⟩ := split_of_mem_plan h
  cases new with
  | none => rfl
  | some c => exact (foldInstr_meaning hfold).1

namespace Folded

variable {fn' : Function}

theorem reachable_iff (h : Folded fn fn') (hnodup : fn.blockIds.Nodup) {id : BlockId} :
    fn'.Reachable id ↔ fn.Reachable id := by
  rw [← FlowGraph.mem_rpo_iff hnodup, ← FlowGraph.mem_rpo_iff (h.blockIds_eq ▸ hnodup),
    h.flowGraph_eq]

/-- Blocks keep their positions and numbers. -/
theorem exists_block_at (h : Folded fn fn') {p : Nat} {b' : Block}
    (hb' : fn'.blocks[p]? = some b') : ∃ b, fn.blocks[p]? = some b ∧ b.id = b'.id := by
  have hid : fn.blockIds[p]? = some b'.id := by
    rw [← h.blockIds_eq, Function.blockIds, List.getElem?_map, hb']
    rfl
  rw [Function.blockIds, List.getElem?_map] at hid
  exact Option.map_eq_some_iff.1 hid

end Folded

section Run

variable {checker : Option Checker} (hfn : fn.Shape) (hnone : (run checker fn).failure = none)

include hfn hnone

theorem code_run {l₁ l₂ : List Nat} (horder : visitOrder fn = l₁ ++ l₂) :
    code (run checker fn).function l₁ = (plan (initialConsts fn) (code fn l₁)).1.map replaced := by
  have hnodup := visitOrder_nodup hfn.ids_nodup
  rw [horder] at hnodup
  rw [run, horder] at hnone ⊢
  exact foldBlocks_code hnodup hnone

/-- What becomes of a block: it is planned at what is known after the blocks that are visited before
it. -/
theorem codeAt_run {l₁ l₂ : List Nat} {p : Nat} (horder : visitOrder fn = l₁ ++ p :: l₂) :
    codeAt (run checker fn).function p =
      (plan (plan (initialConsts fn) (code fn l₁)).2 (codeAt fn p)).1.map replaced := by
  have hbefore := code_run hfn hnone horder
  have hupto := code_run hfn hnone (horder.trans (List.append_cons l₁ p l₂))
  have happend : ∀ g : Function, code g (l₁ ++ [p]) = code g l₁ ++ codeAt g p := by
    simp [code]
  rw [happend, happend, plan_append, List.map_append, hbefore] at hupto
  exact List.append_cancel_left hupto

section Before

-- the instructions that are visited before and after some point
variable {is js : List Instr} (hcode : code fn (visitOrder fn) = is ++ js)

include hcode

theorem replaced_mem {e : Instr × Option Const} (he : e ∈ (plan (initialConsts fn) is).1) :
    replaced e ∈ (run checker fn).function.instrs := by
  have hrun := code_run hfn hnone (List.append_nil (visitOrder fn)).symm
  rw [hcode, plan_append] at hrun
  apply @mem_instrs_of_code _ (visitOrder fn)
  rw [hrun]
  exact List.mem_map_of_mem (List.mem_append_left _ he)

/-- What is known at some point are constants of the folded function. -/
theorem known_subset :
    (plan (initialConsts fn) is).2 ⊆ initialConsts (run checker fn).function := by
  rintro ⟨v, c⟩ hknown
  rcases mem_known.1 hknown with hinitial | ⟨hresult, i, he⟩
  · -- a constant is never replaced
    obtain ⟨hmem, hresult⟩ := mem_initialConsts.1 hinitial
    obtain ⟨new, he⟩ := mem_plan (mem_code_visitOrder hfn.ids_nodup hmem)
    obtain ⟨_, _, -, rfl⟩ := split_of_mem_plan he
    exact mem_initialConsts.2 ⟨replaced_mem hfn hnone (List.append_nil _).symm he, hresult⟩
  · exact mem_initialConsts.2 ⟨replaced_mem hfn hnone hcode he, hresult⟩

/-- A constant of the folded function is known after the instruction whose number it has. -/
theorem known_of_result {i : Instr} (hi : i ∈ is) (h0 : i.result ≠ 0) {c : Const}
    (hc : (i.result, c) ∈ initialConsts (run checker fn).function) :
    (i.result, c) ∈ (plan (initialConsts fn) is).2 := by
  obtain ⟨new, he⟩ := mem_plan hi
  obtain ⟨hmem, hresult⟩ := mem_initialConsts.1 hc
  have hshape := (run_folded checker fn).shape hfn
  have heq : replaced (i, new) = .const c := by
    have hin := replaced_mem hfn hnone hcode he
    have h0' : (Instr.const c).result ≠ 0 := hresult.trans_ne h0
    exact hshape.eq_of_result_eq hmem hin h0' ((result_replaced he).trans hresult.symm)
  cases new with
  | none =>
    obtain rfl : i = .const c := heq
    have hin := mem_instrs_of_code (hcode ▸ List.mem_append_left js hi)
    exact mem_known.2 (Or.inl (mem_initialConsts.2 ⟨hin, rfl⟩))
  | some c' =>
    obtain rfl := Instr.const.inj heq
    exact mem_known.2 (Or.inr ⟨hresult, i, he⟩)

/-- A value that is a constant in the end, and that is a parameter or defined before some point, is
known at that point. -/
theorem value?_known {v : ValueId} (h0 : v ≠ 0)
    (hv : (∃ p ∈ fn.params, p.id = v) ∨ ∃ i ∈ is, i.result = v) {x : ConstValue}
    (hx : (initialConsts (run checker fn).function).value? v = some x) :
    (plan (initialConsts fn) is).2.value? v = some x := by
  have hfolded := run_folded checker fn
  rw [Consts.value?_eq] at hx ⊢
  obtain ⟨c, hc, hvalue⟩ := Option.bind_eq_some_iff.1 hx
  have hmem := mem_of_lookup_eq_some hc
  rcases hv with ⟨p, hp, rfl⟩ | ⟨i, hi, rfl⟩
  · -- a parameter is not a constant
    obtain ⟨hin, hresult⟩ := mem_initialConsts.1 hmem
    obtain ⟨i, hi, hstands⟩ := forall₂_exists_left hfolded.instrs hin
    exact absurd (hstands.result_eq.symm.trans hresult) (hfn.result_ne_param hp hi)
  · have hknown := known_of_result hfn hnone hcode hi h0 hmem
    rw [lookup_of_mem (hfolded.shape hfn) (known_subset hfn hnone hcode) h0 hknown]
    exact hvalue

end Before

end Run

/-- What is at hand at an instruction is a parameter or comes before it in the order of visit. -/
theorem visited_of_atHand {b : Block} {is : List Instr} {v : ValueId} {positions : List Nat}
    (h : fn.AtHand b is v) (hfirst : ∀ q d, fn.blocks[q]? = some d → d.id ≠ b.id →
      fn.Dominates d.id b.id → q ∈ positions) :
    (∃ p ∈ fn.params, p.id = v) ∨ ∃ i ∈ code fn positions ++ is, i.result = v := by
  rcases h with hparam | ⟨i, hi, hv⟩ | ⟨d, hd, hne, hdom, i, hi, hv⟩
  · exact Or.inl hparam
  · exact Or.inr ⟨i, List.mem_append_right _ hi, hv⟩
  · obtain ⟨q, hq⟩ := List.getElem?_of_mem hd
    have hcode : i ∈ code fn positions :=
      List.mem_flatMap.2 ⟨q, hfirst q d hq hne hdom, (codeAt_of_getElem? hq).symm ▸ hi⟩
    exact Or.inr ⟨i, List.mem_append_left _ hcode, hv⟩

/-- **One run settles a function** whose operations read what is at hand. -/
theorem run_settled {checker : Option Checker} (hfn : fn.Sound) (hread : fn.ReadsAtHand)
    (hnone : (run checker fn).failure = none) : Settled (run checker fn).function := by
  intro b' hb' hreach' i' hi'
  have hshape := hfn.shape
  have hfolded := run_folded checker fn
  obtain ⟨p, hp'⟩ := List.getElem?_of_mem hb'
  obtain ⟨b, hp, hid⟩ := hfolded.exists_block_at hp'
  have hb := List.mem_of_getElem? hp
  have hreach : fn.Reachable b.id := hid ▸ (hfolded.reachable_iff hshape.ids_nodup).1 hreach'
  obtain ⟨l₁, l₂, horder, hfirst⟩ := visitOrder_of_dominates hshape hp hreach
  rw [← codeAt_of_getElem? hp', codeAt_run hshape hnone horder, codeAt_of_getElem? hp] at hi'
  obtain ⟨⟨i, new⟩, he, rfl⟩ := List.mem_map.1 hi'
  obtain ⟨is, js, hinstrs, hfold⟩ := split_of_mem_plan he
  cases new with
  | some c => rfl
  | none =>
    -- what evaluates in the end would have evaluated at what was known then
    refine Option.eq_none_iff_forall_ne_some.2 fun c hc => ?_
    have hcode : code fn (visitOrder fn) = (code fn l₁ ++ is) ++ (i :: js ++ code fn l₂) := by
      simp [horder, code, codeAt_of_getElem? hp, hinstrs]
    have hknown : (plan (plan (initialConsts fn) (code fn l₁)).2 is).2 =
        (plan (initialConsts fn) (code fn l₁ ++ is)).2 := by rw [plan_append]
    have hvalues : ∀ v ∈ i.operands, ∀ x,
        (initialConsts (run checker fn).function).value? v = some x →
          (plan (initialConsts fn) (code fn l₁ ++ is)).2.value? v = some x := by
      intro v hv x hx
      have h0 := (hfn.closed.operand b hb i (by simp [hinstrs]) v hv).1
      have hhand := hread b hb hreach is.length i (by simp [hinstrs])
        (isOperation_of_foldInstr hc) v hv
      rw [hinstrs, List.take_left] at hhand
      exact value?_known hshape hnone hcode h0 (visited_of_atHand hhand hfirst) hx
    have hthen := foldInstr_mono hvalues hc
    rw [← hknown, hfold] at hthen
    cases hthen

/-! ## A further run -/

section FurtherRun

variable {refuse : Instr → Const → Option Failure} {consts : Consts}

theorem plan_of_none {is : List Instr} (h : ∀ i ∈ is, foldInstr consts i = none) :
    plan consts is = (is.map fun i => (i, none), consts) := by
  induction is with
  | nil => rfl
  | cons i is ih =>
    rw [plan, h i (by simp)]
    dsimp only
    rw [ih fun j hj => h j (by simp [hj])]
    rfl

theorem commit_of_none (is : List Instr) :
    commit refuse (is.map fun i => (i, none)) = { instrs := is } := by
  induction is with
  | nil => rfl
  | cons i is ih => rw [List.map_cons, commit, ih]

/-- A run passes by blocks in which nothing evaluates. -/
theorem foldBlocks_append_of_none {l₁ : List Nat}
    (h : ∀ p ∈ l₁, ∀ i ∈ codeAt fn p, foldInstr consts i = none) (l₂ : List Nat) :
    foldBlocks refuse (l₁ ++ l₂) consts fn = foldBlocks refuse l₂ consts fn := by
  induction l₁ with
  | nil => rfl
  | cons p l₁ ih =>
    have hplan : plan consts ((fn.blocks[p]?.map Block.instrs).getD []) = _ :=
      plan_of_none (h p (by simp))
    rw [List.cons_append, foldBlocks, hplan]
    dsimp only
    rw [commit_of_none]
    dsimp only
    rw [modifyBlock_self, ih fun q hq => h q (by simp [hq]), Nat.zero_add]

/-- **A run over a settled function** visits its unreachable blocks only. -/
theorem run_of_settled (hnodup : fn.blockIds.Nodup) (h : Settled fn) (checker : Option Checker) :
    run checker fn =
      foldBlocks (refusal checker fn.name) (unreachedOrder fn) (initialConsts fn) fn := by
  rw [run, visitOrder_eq]
  refine foldBlocks_append_of_none (fun p hp i hi => ?_) _
  obtain ⟨b, hb, hreach⟩ := (mem_reachedOrder hnodup).1 hp
  rw [codeAt_of_getElem? hb] at hi
  exact h b (List.mem_of_getElem? hb) hreach i hi

theorem getElem?_run_of_settled (hnodup : fn.blockIds.Nodup) (h : Settled fn)
    (checker : Option Checker) {p : Nat} {b : Block} (hb : fn.blocks[p]? = some b)
    (hreach : fn.Reachable b.id) : (run checker fn).function.blocks[p]? = some b := by
  rw [run_of_settled hnodup h, foldBlocks_of_notMem _ _ _, hb]
  intro hp
  obtain ⟨b', hb', hreach'⟩ := (mem_unreachedOrder hnodup).1 hp
  obtain rfl := Option.some.inj (hb.symm.trans hb')
  exact hreach' hreach

theorem run_of_all_reachable (hnodup : fn.blockIds.Nodup) (h : Settled fn)
    (checker : Option Checker) (hreach : ∀ b ∈ fn.blocks, fn.Reachable b.id) :
    run checker fn = { function := fn } := by
  have hnone : unreachedOrder fn = [] := by
    refine List.eq_nil_iff_forall_not_mem.2 fun p hp => ?_
    obtain ⟨b, hb, hnot⟩ := (mem_unreachedOrder hnodup).1 hp
    exact hnot (hreach b (List.mem_of_getElem? hb))
  rw [run_of_settled hnodup h, hnone]
  rfl

end FurtherRun

end ConstFold

theorem Listing.function?_setFunction {l : Listing} {k : Nat} {fn : Function}
    (h : l.function? k = some fn) (fn' : Function) :
    (l.setFunction k fn').function? k = some fn' := by
  obtain ⟨hlt, -⟩ := List.getElem?_eq_some_iff.1 (Option.join_eq_some_iff.1 h)
  simp [function?, setFunction, hlt]

namespace Transform

variable {σ : Type} {env : PassEnv} {r : Run σ} {k : Nat} {fn : Function}

/-- A run over a function puts the result in its place. -/
theorem constFold_function? (hplace : r.listing.function? k = some fn) :
    (constFold.onFunction env k r).2.listing.function? k =
      some (ConstFold.run env.checker fn).function := by
  simp only [onFunction, hplace, foldFunction, Run.setFunction]
  exact Listing.function?_setFunction hplace _

/-- **Constant folding settles in one run.** Let the operations in reachable blocks of a verified
function read what is at hand. If a run over the function does not fail, then nothing in its
reachable blocks evaluates any more. A further run, whatever its checker, leaves the reachable
blocks as they are, whether or not it fails; and if all blocks can be reached, it does not fail,
reports no change and changes nothing. -/
theorem constFold_settles_in_one_run {m : Module} (hm : moduleErr? (some m) = none)
    (hfn : fn ∈ m.functions) (hplace : r.listing.function? k = some fn) (hread : fn.ReadsAtHand)
    (hnone : (constFold.onFunction env k r).1.failure = none) :
    ∃ fn', (constFold.onFunction env k r).2.listing.function? k = some fn' ∧
      ConstFold.Settled fn' ∧
      ∀ (env' : PassEnv) (r' : Run σ) (k' : Nat), r'.listing.function? k' = some fn' →
        (∃ fn'', (constFold.onFunction env' k' r').2.listing.function? k' = some fn'' ∧
          ∀ (p : Nat) b, fn'.blocks[p]? = some b → fn'.Reachable b.id → fn''.blocks[p]? = some b) ∧
        ((∀ b ∈ fn'.blocks, fn'.Reachable b.id) →
          constFold.onFunction env' k' r' = ({ modified := false, failure := none }, r')) := by
  have hrun : (ConstFold.run env.checker fn).failure = none := by
    simpa only [onFunction, hplace, foldFunction] using hnone
  have hfolded := ConstFold.run_folded env.checker fn
  obtain ⟨hnodup, hsettled⟩ : (ConstFold.run env.checker fn).function.blockIds.Nodup ∧
      ConstFold.Settled (ConstFold.run env.checker fn).function := by
    cases hbody : fn.isExternal with
    | true =>
      have hempty : (ConstFold.run env.checker fn).function.blocks = [] :=
        List.isEmpty_iff.1 (hfolded.isExternal_eq.trans hbody)
      simp [Function.blockIds, ConstFold.Settled, hempty]
    | false =>
      have hsound := (Module.verified_iff.1 hm).2 fn hfn hbody
      exact ⟨(hfolded.shape hsound.shape).ids_nodup, ConstFold.run_settled hsound hread hrun⟩
  refine ⟨_, constFold_function? hplace, hsettled, fun env' r' k' hplace' => ⟨?_, fun hreach => ?_⟩⟩
  · exact ⟨_, constFold_function? hplace', fun p b hb hreach =>
      ConstFold.getElem?_run_of_settled hnodup hsettled env'.checker hb hreach⟩
  · have hself := ConstFold.run_of_all_reachable hnodup hsettled env'.checker hreach
    simp only [onFunction, hplace', foldFunction, hself, Run.setFunction,
      Listing.setFunction_self hplace']
    rfl

/-- A loop whose operations evaluate one after the other from block to block, in another order than
that of the list. Block 2 dominates block 3, and both are in the loop. -/
def chainedLoop (more : List Block) : Function where
  name := "f"
  ret := some (.int ⟨true, .w32⟩)
  entry := 1
  blocks :=
    [{ id := 3
       instrs := [.cast ⟨5, 4, some (.int ⟨true, .w32⟩)⟩,
         .binary ⟨6, .mul, 5, 3, some (.int ⟨true, .w32⟩)⟩]
       term := some (.br 2) },
     { id := 2
       instrs := [.binary ⟨3, .add, 2, 2, some (.int ⟨true, .w32⟩)⟩,
         .compare ⟨4, .eq, 3, 3, some .bool⟩]
       term := some (.brIf 4 3 4) },
     { id := 1
       instrs := [.const ⟨1, some (.int ⟨true, .w32⟩), "2"⟩,
         .binary ⟨2, .mul, 1, 1, some (.int ⟨true, .w32⟩)⟩]
       term := some (.br 2) },
     { id := 4, term := some (.ret 3 true) }] ++ more

/-- The loop with all its operations evaluated. -/
def settledLoop (more : List Block) : Function :=
  { chainedLoop more with
    blocks :=
      [{ id := 3
         instrs := [.const ⟨5, some (.int ⟨true, .w32⟩), "1"⟩,
           .const ⟨6, some (.int ⟨true, .w32⟩), "8"⟩]
         term := some (.br 2) },
       { id := 2
         instrs := [.const ⟨3, some (.int ⟨true, .w32⟩), "8"⟩, .const ⟨4, some .bool, "true"⟩]
         term := some (.brIf 4 3 4) },
       { id := 1
         instrs := [.const ⟨1, some (.int ⟨true, .w32⟩), "2"⟩,
           .const ⟨2, some (.int ⟨true, .w32⟩), "4"⟩]
         term := some (.br 2) },
       { id := 4, term := some (.ret 3 true) }] ++ more }

/-- Two blocks that cannot be reached, with an instruction each. The first one stands before the
second one, which flows into it. -/
def unreachedPair (first second : Instr) : List Block :=
  [{ id := 5, instrs := [first], term := some (.br 4) },
   { id := 6, instrs := [second], term := some (.br 5) }]

/-- A sum in the first block of a product in the second one. -/
def backwardPair : List Block :=
  unreachedPair (.binary ⟨7, .add, 8, 8, some (.int ⟨true, .w32⟩)⟩)
    (.binary ⟨8, .mul, 1, 1, some (.int ⟨true, .w32⟩)⟩)

/-- The first run evaluates the product only. -/
def halfwayPair : List Block :=
  unreachedPair (.binary ⟨7, .add, 8, 8, some (.int ⟨true, .w32⟩)⟩)
    (.const ⟨8, some (.int ⟨true, .w32⟩), "4"⟩)

/-- The second run evaluates the sum, too. -/
def forwardPair : List Block :=
  unreachedPair (.const ⟨7, some (.int ⟨true, .w32⟩), "8"⟩)
    (.const ⟨8, some (.int ⟨true, .w32⟩), "4"⟩)

theorem chainedLoop_settles_in_one_run :
    let env : PassEnv := ⟨some .standard, "constfold"⟩
    let start (fn : Function) : Run Unit := { listing := .ofModule ⟨"m", [fn]⟩, world := () }
    (moduleErr? (some ⟨"m", [chainedLoop []]⟩) = none ∧ (chainedLoop []).ReadsAtHand ∧
      (constFold.onFunction env 0 (start (chainedLoop []))).2.listing.function? 0 =
        some (settledLoop []) ∧
      constFold.onFunction env 0 (start (settledLoop [])) = ({}, start (settledLoop []))) ∧
    moduleErr? (some ⟨"m", [chainedLoop backwardPair]⟩) = none ∧
      (chainedLoop backwardPair).ReadsAtHand ∧ ConstFold.Settled (settledLoop halfwayPair) ∧
      (constFold.onFunction env 0 (start (settledLoop halfwayPair))).2.listing.function? 0 =
        some (settledLoop forwardPair) := by
  intro env start
  have hm : moduleErr? (some ⟨"m", [chainedLoop []]⟩) = none := by decide
  have hread : (chainedLoop []).ReadsAtHand :=
    (Function.readsAtHand_iff (by decide) (by decide)).2 (by decide +kernel)
  have hm' : moduleErr? (some ⟨"m", [chainedLoop backwardPair]⟩) = none := by decide
  have hread' : (chainedLoop backwardPair).ReadsAtHand :=
    (Function.readsAtHand_iff (by decide) (by decide)).2 (by decide +kernel)
  obtain ⟨fn₁, hfn₁, -, hagain⟩ := @constFold_settles_in_one_run _ env (start (chainedLoop [])) 0 _
    _ hm (by simp) rfl hread (by decide +kernel)
  obtain ⟨fn₂, hfn₂, hsettled, -⟩ := @constFold_settles_in_one_run _ env
    (start (chainedLoop backwardPair)) 0 _ _ hm' (by simp) rfl hread' (by decide +kernel)
  obtain rfl : fn₁ = settledLoop [] := Option.some.inj (hfn₁.symm.trans (by decide +kernel))
  obtain rfl : fn₂ = settledLoop halfwayPair :=
    Option.some.inj (hfn₂.symm.trans (by decide +kernel))
  have hreach : ∀ b ∈ (settledLoop []).blocks, (settledLoop []).Reachable b.id := by
    simp only [← FlowGraph.mem_rpo_iff (show (settledLoop []).blockIds.Nodup by decide)]
    decide
  exact ⟨⟨hm, hread, hfn₁, (hagain env (start (settledLoop [])) 0 rfl).2 hreach⟩,
    hm', hread', hsettled, by decide +kernel⟩

end Transform

end SsaOpt
