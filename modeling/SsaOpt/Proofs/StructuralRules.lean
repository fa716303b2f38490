import SsaOpt.Proofs.Numbering

/-!
# The structural rules

What it means for a function to be well formed, told by the parts of the function alone and without
the checks that are made: `Function.Structured` has one field for each rule. A function with blocks
has no defects exactly if it follows the rules (`Function.no_defects_iff_structured`), so nothing is
left out by the checks, whatever they have found before, and nothing else is refused.
-/

namespace SsaOpt

/-! ## Edges -/

/-- The terminator branches to the block of the number. -/
inductive Term.BranchesTo : Term → BlockId → Prop
  | always (id : BlockId) : BranchesTo (.br id) id
  | yes (cond : ValueId) (id no : BlockId) : BranchesTo (.brIf cond id no) id
  | no (cond : ValueId) (yes id : BlockId) : BranchesTo (.brIf cond yes id) id

/-- There is an edge from the block to that of the number: a branch or the handler. -/
inductive Block.LeadsTo (b : Block) : BlockId → Prop
  | branch {t : Term} {id : BlockId} (hterm : b.term = some t) (hbranch : t.BranchesTo id) :
    LeadsTo b id
  | handler (h : b.handler ≠ 0) : LeadsTo b b.handler

theorem Term.mem_targets_iff {t : Term} {id : BlockId} : id ∈ t.targets ↔ t.BranchesTo id := by
  cases t with
  | br target =>
    rw [targets, List.mem_singleton]
    constructor
    · rintro rfl
      exact .always id
    · rintro ⟨⟩
      rfl
  | brIf cond yes no =>
    rw [mem_targets_brIf]
    constructor
    · rintro (rfl | rfl)
      · exact .yes cond id no
      · exact .no cond yes id
    · rintro (_ | _ | _)
      · exact .inl rfl
      · exact .inr rfl
  | ret => exact iff_of_false List.not_mem_nil (by rintro ⟨⟩)
  | unreachable => exact iff_of_false List.not_mem_nil (by rintro ⟨⟩)

theorem Block.mem_successors_iff {b : Block} {id : BlockId} :
    id ∈ b.successors ↔ b.LeadsTo id := by
  rw [mem_successors]
  constructor
  · rintro (⟨t, hterm, hid⟩ | ⟨hhandler, rfl⟩)
    · exact .branch hterm (Term.mem_targets_iff.1 hid)
    · exact .handler hhandler
  · rintro (⟨hterm, hbranch⟩ | hhandler)
    · exact .inl ⟨_, hterm, Term.mem_targets_iff.2 hbranch⟩
    · exact .inr ⟨hhandler, rfl⟩

/-! ## Instructions -/

theorem Effect.isListed_iff {e : Effect} :
    e.isListed = true ↔ e = .pure ∨ e = .side ∨ e = .critical := by
  cases e <;> simp [isListed]

theorem Instr.isPhi_iff {i : Instr} : i.isPhi = true ↔ ∃ p, i = .phi p := by
  cases i <;> simp [isPhi]

/-- Phis stand in front exactly if the instructions are some phis and then others. -/
theorem Function.phisFirst_iff {instrs : List Instr} : PhisFirst instrs ↔
    ∃ (phis : List Phi) (rest : List Instr), instrs = phis.map .phi ++ rest ∧
      ∀ p, .phi p ∉ rest := by
  constructor
  · intro h
    induction instrs with
    | nil => exact ⟨[], [], rfl, fun _ => List.not_mem_nil⟩
    | cons i instrs ih =>
      obtain ⟨hi, hfirst⟩ := List.pairwise_cons.1 h
      by_cases hphi : i.isPhi = true
      · obtain ⟨p, rfl⟩ := Instr.isPhi_iff.1 hphi
        obtain ⟨phis, rest, rfl, hrest⟩ := ih hfirst
        exact ⟨p :: phis, rest, rfl, hrest⟩
      · refine ⟨[], i :: instrs, rfl, fun p hp => hphi ?_⟩
        rcases List.mem_cons.1 hp with rfl | hp
        · rfl
        · exact hi _ hp rfl
  · rintro ⟨phis, rest, rfl, hrest⟩
    refine List.pairwise_append.2 ⟨?_, ?_, ?_⟩
    · exact List.pairwise_map.2 (List.pairwise_of_forall fun _ _ _ => rfl)
    · refine List.pairwise_of_forall_mem_list fun i _ j hj hphi => ?_
      obtain ⟨p, rfl⟩ := Instr.isPhi_iff.1 hphi
      exact absurd hj (hrest p)
    · intro i hi j _ _
      obtain ⟨p, -, rfl⟩ := List.mem_map.1 hi
      rfl

/-! ## Functions -/

namespace Function

variable {fn : Function}

/-- The function has a block of the number. -/
def HasBlock (fn : Function) (id : BlockId) : Prop := ∃ b ∈ fn.blocks, b.id = id

/-- The value is a parameter or the result of an instruction. -/
def Provides (fn : Function) (v : ValueId) : Prop :=
  (∃ p ∈ fn.params, p.id = v) ∨ ∃ b ∈ fn.blocks, ∃ i ∈ b.instrs, i.result ≠ 0 ∧ i.result = v

/-- The function follows the structural rules. -/
structure Structured (fn : Function) : Prop where
  blockIds_ne_zero : ∀ b ∈ fn.blocks, b.id ≠ 0
  blockIds_distinct : (fn.blocks.map Block.id).Nodup
  blockNames_distinct : ((fn.blocks.map Block.name).filter (· ≠ "")).Nodup
  entry_block : fn.entry = 0 ∨ fn.HasBlock fn.entry
  paramIds_ne_zero : ∀ p ∈ fn.params, p.id ≠ 0
  /-- No value is defined twice. -/
  values_distinct : (fn.params.map Param.id ++ fn.results).Nodup
  result_typed : ∀ b ∈ fn.blocks, ∀ i ∈ b.instrs, i.result ≠ 0 → ∃ ty, i.resultType = some ty
  typed_result : ∀ b ∈ fn.blocks, ∀ i ∈ b.instrs, ∀ ty, i.resultType = some ty →
    i.result ≠ 0 ∨ ∃ c, i = .call c
  call_effect : ∀ b ∈ fn.blocks, ∀ c, .call c ∈ b.instrs →
    c.effect = .pure ∨ c.effect = .side ∨ c.effect = .critical
  phis_first : ∀ b ∈ fn.blocks, ∃ (phis : List Phi) (rest : List Instr),
    b.instrs = phis.map .phi ++ rest ∧ ∀ p, .phi p ∉ rest
  phi_incoming : ∀ b ∈ fn.blocks, ∀ p, .phi p ∈ b.instrs → ∀ e ∈ p.incoming,
    ∃ c ∈ fn.blocks, c.id = e.pred ∧ c.LeadsTo b.id
  operand_provided : ∀ b ∈ fn.blocks, ∀ i ∈ b.instrs, ∀ v ∈ i.operands, fn.Provides v
  has_terminator : ∀ b ∈ fn.blocks, ∃ t, b.term = some t
  terminator_provided : ∀ b ∈ fn.blocks, ∀ t, b.term = some t → ∀ v ∈ t.operands, fn.Provides v
  /-- Branches and handlers lead to blocks. -/
  target_block : ∀ b ∈ fn.blocks, ∀ id, b.LeadsTo id → fn.HasBlock id
  /-- A value is returned exactly by a function of a type other than `void`. -/
  returns_value : ∀ b ∈ fn.blocks, ∀ v hasValue, b.term = some (.ret v hasValue) →
    (hasValue = true ↔ ∃ ty, fn.ret = some ty ∧ ty ≠ .void)

theorem defined_iff_provides (h : ∀ p ∈ fn.params, p.id ≠ 0) {v : ValueId} :
    fn.Defined v ↔ fn.Provides v := by
  simp only [defined_iff h, Provides, List.mem_map, mem_results, mem_instrs]
  constructor
  · rintro (hparam | ⟨hv, i, ⟨b, hb, hi⟩, rfl⟩)
    · exact .inl hparam
    · exact .inr ⟨b, hb, i, hi, hv, rfl⟩
  · rintro (hparam | ⟨b, hb, i, hi, hv, rfl⟩)
    · exact .inl hparam
    · exact .inr ⟨hv, i, ⟨b, hb, hi⟩, rfl⟩

theorem returnsNothing_eq_false_iff :
    fn.returnsNothing = false ↔ ∃ ty, fn.ret = some ty ∧ ty ≠ .void := by
  cases h : fn.ret <;> simp [returnsNothing, h]

theorem structured_of_rules (hshape : fn.Shape) (hnamed : fn.Named) (hclosed : fn.Closed) :
    fn.Structured where
  blockIds_ne_zero := hshape.id_ne_zero
  blockIds_distinct := hshape.ids_nodup
  blockNames_distinct := hnamed
  entry_block := or_iff_not_imp_left.2 fun h => mem_blockIds.1 (hshape.entry_mem h)
  paramIds_ne_zero := hshape.param_ne_zero
  values_distinct := definedIds_filter hshape.param_ne_zero ▸ hshape.defined_nodup
  result_typed b hb i hi h :=
    Option.ne_none_iff_exists'.1 ((hshape.typed i (mem_instrs.2 ⟨b, hb, hi⟩)).type_ne_none h)
  typed_result b hb i hi ty hty := by
    have htyped := (hshape.typed i (mem_instrs.2 ⟨b, hb, hi⟩)).result_ne_zero (by simp [hty])
    cases i with
    | call c => exact .inr ⟨c, rfl⟩
    | _ => exact .inl (htyped rfl)
  call_effect b hb c hc :=
    Effect.isListed_iff.1 ((hshape.typed _ (mem_instrs.2 ⟨b, hb, hc⟩)).effect_listed c rfl)
  phis_first b hb := phisFirst_iff.1 (hshape.phis_first b hb)
  phi_incoming b hb p hp e he := by
    obtain ⟨c, hc, hid, hsucc⟩ := hasEdge_iff.1 (hshape.incoming_edge b hb p hp e he)
    exact ⟨c, hc, hid, Block.mem_successors_iff.1 hsucc⟩
  operand_provided b hb i hi v hv :=
    (defined_iff_provides hshape.param_ne_zero).1 (hclosed.operand b hb i hi v hv)
  has_terminator b hb := Option.ne_none_iff_exists'.1 (hshape.has_term b hb)
  terminator_provided b hb t ht v hv :=
    (defined_iff_provides hshape.param_ne_zero).1 (hclosed.termOperand b hb t ht v hv)
  target_block b hb id hid :=
    mem_blockIds.1 (hshape.succ_mem b hb id (Block.mem_successors_iff.2 hid))
  returns_value b hb v hasValue hterm := by
    rw [hshape.returns b hb v hasValue hterm, Bool.not_eq_true', returnsNothing_eq_false_iff]

theorem Structured.shape (h : fn.Structured) : fn.Shape where
  id_ne_zero := h.blockIds_ne_zero
  ids_nodup := h.blockIds_distinct
  entry_mem hentry := mem_blockIds.2 (h.entry_block.resolve_left hentry)
  param_ne_zero := h.paramIds_ne_zero
  defined_nodup := (definedIds_filter h.paramIds_ne_zero).symm ▸ h.values_distinct
  typed i hi := by
    obtain ⟨b, hb, hi⟩ := mem_instrs.1 hi
    refine ⟨fun hty hcall => ?_, fun hresult => ?_, ?_⟩
    · obtain ⟨ty, hty⟩ := Option.ne_none_iff_exists'.1 hty
      rcases h.typed_result b hb i hi ty hty with hresult | ⟨c, rfl⟩
      · exact hresult
      · cases hcall
    · exact Option.ne_none_iff_exists'.2 (h.result_typed b hb i hi hresult)
    · rintro c rfl
      exact Effect.isListed_iff.2 (h.call_effect b hb c hi)
  phis_first b hb := phisFirst_iff.2 (h.phis_first b hb)
  incoming_edge b hb p hp e he := by
    obtain ⟨c, hc, hid, hleads⟩ := h.phi_incoming b hb p hp e he
    exact hasEdge_iff.2 ⟨c, hc, hid, Block.mem_successors_iff.2 hleads⟩
  has_term b hb := Option.ne_none_iff_exists'.2 (h.has_terminator b hb)
  succ_mem b hb s hs := mem_blockIds.2 (h.target_block b hb s (Block.mem_successors_iff.1 hs))
  returns b hb v hasValue hterm := by
    rw [Bool.eq_iff_iff, h.returns_value b hb v hasValue hterm, Bool.not_eq_true',
      returnsNothing_eq_false_iff]

theorem Structured.closed (h : fn.Structured) : fn.Closed where
  operand b hb i hi v hv :=
    (defined_iff_provides h.paramIds_ne_zero).2 (h.operand_provided b hb i hi v hv)
  termOperand b hb t ht v hv :=
    (defined_iff_provides h.paramIds_ne_zero).2 (h.terminator_provided b hb t ht v hv)

/-- **The structural rules.** A function with blocks has no defects exactly if it follows them. -/
theorem no_defects_iff_structured (hblocks : fn.blocks ≠ []) :
    fn.defects = [] ↔ fn.Structured := by
  have hbody : fn.isExternal = false := by
    rw [isExternal, List.isEmpty_eq_false_iff]
    exact hblocks
  rw [defects_eq_nil_iff hbody]
  constructor
  · rintro ⟨hshape, hnamed, hclosed⟩
    exact structured_of_rules hshape hnamed hclosed
  · intro h
    exact ⟨h.shape, h.blockNames_distinct, h.closed⟩

/-- A loop that counts with a call, whose handler leads out of it. The blocks before and after the
loop have names, and the entry is not the first block. -/
def guardedLoop : Function where
  name := "count"
  params := [⟨1, "limit", some (.int ⟨true, .w64⟩)⟩]
  ret := some (.int ⟨true, .w64⟩)
  entry := 7
  blocks := [
    { id := 4
      instrs := [.phi ⟨3, some (.int ⟨true, .w64⟩), [⟨7, 2⟩, ⟨5, 6⟩]⟩,
        .compare ⟨8, .lt, 3, 1, some .bool⟩]
      term := some (.brIf 8 5 9) },
    { id := 5
      instrs := [.call ⟨6, "next", [3], some (.int ⟨true, .w64⟩), .critical, false⟩,
        .call ⟨0, "log", [6], some .void, .side, false⟩]
      term := some (.br 4), handler := 9 },
    { id := 7, name := "start"
      instrs := [.const ⟨2, some (.int ⟨true, .w64⟩), "0"⟩], term := some (.br 4) },
    { id := 9, name := "done"
      instrs := [.phi ⟨10, some (.int ⟨true, .w64⟩), [⟨4, 3⟩, ⟨5, 3⟩]⟩]
      term := some (.ret 10 true) }]

/-- The same loop without the handler, to which the last phi refers. -/
def unguardedLoop : Function := guardedLoop.mapBlocks fun b => { b with handler := 0 }

theorem structured_guardedLoop : guardedLoop.Structured ∧ ¬ unguardedLoop.Structured := by
  have hguarded : guardedLoop.blocks ≠ [] := by decide
  have hunguarded : unguardedLoop.blocks ≠ [] := by decide
  exact ⟨(no_defects_iff_structured hguarded).1 (by decide),
    fun h => absurd ((no_defects_iff_structured hunguarded).2 h) (by decide)⟩

end Function

end SsaOpt
