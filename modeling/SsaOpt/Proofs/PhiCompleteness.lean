import SsaOpt.Proofs.CallSite

/-!
# Complete phis

A phi is complete if it lists all predecessors of its block, over terminators and handlers, and each
once (`Phi.Complete`). The rules only ask that what is listed is a predecessor.

Replacing a call makes new edges. Those into the exit block and into the blocks that the call's
block jumped to are listed by the phis there, and so are those within the copy. Two kinds are not:
the jump to the copy of the callee's entry, and the edges to the handler of the call's block, which
is now the handler of the exit block and of the copies as well (`CallSite.Unlisted`). The phis of
these two blocks are the ones that are not complete afterwards (`CallSite.complete_result`).
-/

namespace SsaOpt

/-! ## Phis and what they list -/

/-- The phi that the instruction is. -/
def Instr.phi? : Instr → Option Phi
  | .phi p => some p
  | _ => none

/-- The phis of a block. -/
def Block.phis (b : Block) : List Phi := b.instrs.filterMap Instr.phi?

namespace Phi

/-- The predecessors that a phi lists. -/
def preds (p : Phi) : List BlockId := p.incoming.map Incoming.pred

/-- The phi lists all blocks from which control may come to block `id`, and each once. -/
structure Complete (fn : Function) (id : BlockId) (p : Phi) : Prop where
  nodup : p.preds.Nodup
  mem_iff : ∀ q, q ∈ p.preds ↔ fn.hasEdge q id = true

/-- A phi with other predecessors. -/
def mapPreds (f : BlockId → BlockId) (p : Phi) : Phi :=
  { p with incoming := p.incoming.map fun e => { e with pred := f e.pred } }

/-- A phi with the numbers of the caller. -/
def rename (r : Renaming) (p : Phi) : Phi :=
  ⟨r.value p.result, p.ty, p.incoming.map fun e => ⟨r.block e.pred, r.value e.value⟩⟩

@[simp] theorem preds_mapPreds (f : BlockId → BlockId) (p : Phi) :
    (p.mapPreds f).preds = p.preds.map f := by
  simp [preds, mapPreds, Function.comp_def]

@[simp] theorem preds_rename (r : Renaming) (p : Phi) :
    (p.rename r).preds = p.preds.map r.block := by
  simp [preds, rename, Function.comp_def]

/-- **A phi that lists the images of what another one lists**, in a block that has the images of
the other block's predecessors and some more: it is complete if there are no more. -/
theorem Complete.image_iff {fn fn' : Function} {id id' : BlockId} {p p' : Phi}
    {f : BlockId → BlockId} {More : BlockId → Prop} (h : p.Complete fn id)
    (hpreds : p'.preds = p.preds.map f)
    (hinj : ∀ a b, fn.hasEdge a id = true → fn.hasEdge b id = true → f a = f b → a = b)
    (hedge : ∀ q, fn'.hasEdge q id' = true ↔ (∃ a, fn.hasEdge a id = true ∧ f a = q) ∨ More q)
    (hmore : ∀ a q, fn.hasEdge a id = true → More q → f a ≠ q) :
    p'.Complete fn' id' ↔ ∀ q, ¬ More q := by
  have hlisted : ∀ q, q ∈ p'.preds ↔ ∃ a, fn.hasEdge a id = true ∧ f a = q := by
    intro q
    simp only [hpreds, List.mem_map, h.mem_iff]
  constructor
  · intro h' q hq
    obtain ⟨a, ha, hfa⟩ := (hlisted q).1 ((h'.mem_iff q).2 ((hedge q).2 (Or.inr hq)))
    exact hmore a q ha hq hfa
  · intro hnone
    refine ⟨?_, fun q => ?_⟩
    · rw [hpreds]
      refine List.Nodup.map_on (fun a ha b hb => ?_) h.nodup
      exact hinj a b ((h.mem_iff a).1 ha) ((h.mem_iff b).1 hb)
    · rw [hlisted, hedge, or_iff_left (hnone q)]

end Phi

theorem Instr.phi?_mapPreds (f : BlockId → BlockId) (i : Instr) :
    (i.mapPreds f).phi? = i.phi?.map (Phi.mapPreds f) := by
  cases i <;> rfl

theorem Renaming.phi?_instr (r : Renaming) (i : Instr) :
    (r.instr i).phi? = i.phi?.map (Phi.rename r) := by
  cases i with
  | phi p =>
    simp [instr, Instr.setResult, Instr.mapOperands, Instr.mapPreds, Instr.mapIncoming, Instr.phi?,
      Phi.rename, Instr.result]
  | _ => rfl

theorem Instr.phi?_eq_none {i : Instr} (h : i.isPhi = false) : i.phi? = none := by
  cases i with
  | phi p => cases h
  | _ => rfl

/-- Every phi of the function is complete. -/
def Function.PhiComplete (fn : Function) : Prop :=
  ∀ b ∈ fn.blocks, ∀ p ∈ b.phis, p.Complete fn b.id

theorem Phi.complete_iff {fn : Function} {id : BlockId} {p : Phi} : p.Complete fn id ↔
    p.preds.Nodup ∧ (p.preds.all fun q => fn.hasEdge q id) = true ∧
      ∀ c ∈ fn.blocks, id ∈ c.successors → c.id ∈ p.preds := by
  rw [List.all_eq_true]
  constructor
  · intro h
    refine ⟨h.nodup, fun q => (h.mem_iff q).1, fun c hc hid => (h.mem_iff _).2 ?_⟩
    exact Function.hasEdge_iff.2 ⟨c, hc, rfl, hid⟩
  · rintro ⟨hnodup, hlisted, hall⟩
    refine ⟨hnodup, fun q => ⟨hlisted q, fun hq => ?_⟩⟩
    obtain ⟨c, hc, rfl, hid⟩ := Function.hasEdge_iff.1 hq
    exact hall c hc hid

instance (fn : Function) (id : BlockId) (p : Phi) : Decidable (p.Complete fn id) :=
  decidable_of_iff _ Phi.complete_iff.symm

instance (fn : Function) : Decidable fn.PhiComplete :=
  inferInstanceAs (Decidable (∀ b ∈ fn.blocks, ∀ p ∈ b.phis, p.Complete fn b.id))

namespace CallSite

open CallPlace

variable {fn callee : Function} (s : CallSite fn callee)

/-! ## The phis of the result -/

theorem phis_other (c : Block) : (s.other c).phis = c.phis.map (Phi.mapPreds (s.source c.id)) := by
  rw [Block.phis, other_instrs, List.filterMap_map, Block.phis, List.map_filterMap]
  exact List.filterMap_congr fun i _ => Instr.phi?_mapPreds _ i

/-- No phi of the call's block stands behind the call. -/
theorem phis_take : (s.block.instrs.take s.place).filterMap Instr.phi? = s.block.phis := by
  have hdrop : (s.block.instrs.drop (s.place + 1)).filterMap Instr.phi? = [] :=
    List.filterMap_eq_nil_iff.2 fun i hi => Instr.phi?_eq_none (s.not_isPhi_of_mem_drop hi)
  conv_rhs => rw [Block.phis, s.instrs_eq, List.filterMap_append, List.filterMap_cons, hdrop]
  simp [Instr.phi?]

theorem phis_head : s.head.phis = s.block.phis.map (Phi.mapPreds (s.source s.block.id)) := by
  rw [Block.phis, head_instrs, List.filterMap_map, ← s.phis_take, List.map_filterMap]
  exact List.filterMap_congr fun i _ => Instr.phi?_mapPreds _ i

theorem phis_copy (c : Block) : (s.copy c).phis = c.phis.map (Phi.rename s.numbers) := by
  rw [Block.phis, copy_instrs, List.filterMap_map, Block.phis, List.map_filterMap]
  exact List.filterMap_congr fun i _ => Renaming.phi?_instr _ i

/-- The only phi of the exit block collects what the callee returns. -/
theorem mem_phis_exit {p : Phi} (hp : p ∈ s.exit.phis) : s.call.result ≠ 0 ∧
    p = ⟨s.call.result, s.call.ty, callee.blocks.filterMap (Splice.returned s.numbers)⟩ := by
  obtain ⟨i, hi, hphi⟩ := List.mem_filterMap.1 hp
  rw [exit_instrs] at hi
  rcases List.mem_append.1 hi with hi | hi
  · obtain ⟨h0, rfl⟩ := s.mem_merge hi
    exact ⟨h0, (Option.some.inj hphi).symm⟩
  · rw [Instr.phi?_eq_none (s.not_isPhi_of_mem_drop hi)] at hphi
    cases hphi

/-! ## The edges of the result -/

theorem hasEdge_result_iff {p q : BlockId} :
    s.result.hasEdge p q = true ↔ ∃ c, s.Part c ∧ c.id = p ∧ q ∈ c.successors := by
  simp only [Function.hasEdge_iff, mem_result]

theorem handler_mem (h0 : s.block.handler ≠ 0) : s.block.handler ∈ fn.blockIds :=
  s.caller.succ_mem _ s.block_mem _ (Block.mem_successors.2 (Or.inr ⟨h0, rfl⟩))

theorem block_ne_of_mem {id q : BlockId} (hid : id ∈ callee.blockIds) (hq : q ∈ fn.blockIds) :
    s.numbers.block id ≠ q :=
  fun heq => (s.fresh.block id hid).2.1 (heq ▸ hq)

theorem exitId_ne_of_mem {q : BlockId} (hq : q ∈ fn.blockIds) : s.exitId ≠ q := by
  rintro rfl
  exact s.fresh.exit.2 hq

theorem exit_successors : s.exit.successors = s.block.successors := rfl

/-- The predecessors of the call's handler that its phis do not list: one of the two parts of the
call's block, and the copies of blocks without a handler of their own. -/
def Unlisted (q : BlockId) : Prop :=
  (q = if s.block.handler ∈ (s.block.term.map Term.targets).getD [] then s.block.id
    else s.exitId) ∨ ∃ c ∈ callee.blocks, c.handler = 0 ∧ s.numbers.block c.id = q

theorem mem_targets_or_handler {q : BlockId} (hq : q ∈ s.block.successors) :
    q ∈ (s.block.term.map Term.targets).getD [] ∨ q = s.block.handler := by
  rcases Block.mem_successors.1 hq with ⟨t, ht, hmem⟩ | ⟨-, heq⟩
  · exact Or.inl (by simpa [ht] using hmem)
  · exact Or.inr heq

/-- **The edges to the blocks of the caller**: the former ones, as the phis list them, and some to
the handler. -/
theorem hasEdge_caller_iff {q t : BlockId} (ht : t ∈ fn.blockIds) : s.result.hasEdge q t = true ↔
    (∃ p, fn.hasEdge p t = true ∧ s.source t p = q) ∨ (t = s.block.handler ∧ s.Unlisted q) := by
  have hblock : ∀ t ∈ s.block.successors, fn.hasEdge s.block.id t = true := fun t h =>
    Function.hasEdge_iff.2 ⟨_, s.block_mem, rfl, h⟩
  constructor
  · intro h
    obtain ⟨c, hc, rfl, hsucc⟩ := s.hasEdge_result_iff.1 h
    cases hc with
    | @other d hd hne =>
      rw [other_successors] at hsucc
      refine Or.inl ⟨d.id, Function.hasEdge_iff.2 ⟨d, hd, rfl, hsucc⟩, ?_⟩
      rw [source, if_neg fun h => hne h.1, other_id]
    | head =>
      rcases Block.mem_successors.1 hsucc with ⟨u, hu, hmem⟩ | ⟨h0, rfl⟩
      · rw [head_term] at hu
        obtain rfl := Option.some.inj hu
        exact absurd (List.mem_singleton.1 hmem).symm (s.block_ne_of_mem s.entryId_mem ht)
      · rw [head_handler] at h0 ⊢
        rw [head_id]
        -- the phis of the handler keep the call's block unless it also jumps there
        by_cases htarget : s.block.handler ∈ (s.block.term.map Term.targets).getD []
        · exact Or.inr ⟨rfl, Or.inl (if_pos htarget).symm⟩
        · refine Or.inl ⟨s.block.id, hblock _ (Block.mem_successors.2 (Or.inr ⟨h0, rfl⟩)), ?_⟩
          rw [source, if_neg fun h => htarget h.2]
    | @copy d hd =>
      rw [s.copy_id hd]
      rcases s.of_mem_copy_successors (s.called.has_term d hd) hsucc with
        ⟨-, rfl⟩ | ⟨h0, -, rfl⟩ | ⟨t', ht', rfl⟩
      · exact absurd rfl (s.exitId_ne_of_mem ht)
      · exact Or.inr ⟨rfl, Or.inr ⟨d, hd, h0, rfl⟩⟩
      · exact absurd rfl (s.block_ne_of_mem (s.called.succ_mem d hd t' ht') ht)
    | exit =>
      by_cases htarget : t ∈ (s.block.term.map Term.targets).getD []
      · refine Or.inl ⟨s.block.id, hblock t hsucc, ?_⟩
        rw [source, if_pos ⟨rfl, htarget⟩, exit_id]
      · obtain rfl := (s.mem_targets_or_handler hsucc).resolve_left htarget
        exact Or.inr ⟨rfl, Or.inl (if_neg htarget).symm⟩
  · rintro (⟨p, hp, rfl⟩ | ⟨rfl, hq⟩)
    · exact s.hasEdge_source hp
    obtain ⟨c, hc, hid⟩ := Function.mem_blockIds.1 ht
    have h0 : s.block.handler ≠ 0 := hid ▸ s.caller.id_ne_zero c hc
    rcases hq with rfl | ⟨d, hd, hd0, rfl⟩
    · split
      · refine s.hasEdge_result .head s.head_id (Block.mem_successors.2 (Or.inr ⟨?_, ?_⟩)) <;>
          rw [head_handler]
        exact h0
      · exact s.hasEdge_result .exit rfl (Block.mem_successors.2 (Or.inr ⟨h0, rfl⟩))
    · refine s.hasEdge_result (.copy hd) (s.copy_id hd) (Block.mem_successors.2 (Or.inr ?_))
      rw [copy_handler, if_pos hd0]
      exact ⟨h0, rfl⟩

/-- **The edges to the copies** are copies of edges, and the jump to the entry. -/
theorem hasEdge_copy_iff {q t : BlockId} (ht : t ∈ callee.blockIds) :
    s.result.hasEdge q (s.numbers.block t) = true ↔
      (∃ p, callee.hasEdge p t = true ∧ s.numbers.block p = q) ∨
        (t = callee.entryId ∧ q = s.block.id) := by
  have hnot : ∀ {c : Block}, c ∈ fn.blocks → s.numbers.block t ∉ c.successors := fun hc hsucc =>
    s.block_ne_of_mem ht (s.caller.succ_mem _ hc _ hsucc) rfl
  constructor
  · intro h
    obtain ⟨c, hc, rfl, hsucc⟩ := s.hasEdge_result_iff.1 h
    cases hc with
    | @other d hd hne =>
      rw [other_successors] at hsucc
      exact absurd hsucc (hnot hd)
    | head =>
      rcases Block.mem_successors.1 hsucc with ⟨u, hu, hmem⟩ | ⟨h0, heq⟩
      · rw [head_term] at hu
        obtain rfl := Option.some.inj hu
        exact Or.inr ⟨s.fresh.block_inj _ ht _ s.entryId_mem (List.mem_singleton.1 hmem), s.head_id⟩
      · rw [head_handler] at h0 heq
        exact absurd heq (s.block_ne_of_mem ht (s.handler_mem h0))
    | @copy d hd =>
      rw [s.copy_id hd]
      rcases s.of_mem_copy_successors (s.called.has_term d hd) hsucc with
        ⟨-, heq⟩ | ⟨-, h0, heq⟩ | ⟨t', ht', heq⟩
      · exact absurd heq (s.fresh.block t ht).2.2
      · exact absurd heq (s.block_ne_of_mem ht (s.handler_mem h0))
      · obtain rfl := s.fresh.block_inj _ (s.called.succ_mem d hd t' ht') _ ht heq
        exact Or.inl ⟨d.id, Function.hasEdge_iff.2 ⟨d, hd, rfl, ht'⟩, rfl⟩
    | exit =>
      rw [exit_successors] at hsucc
      exact absurd hsucc (hnot s.block_mem)
  · rintro (⟨p, hp, rfl⟩ | ⟨rfl, rfl⟩)
    · obtain ⟨d, hd, rfl, hsucc⟩ := Function.hasEdge_iff.1 hp
      exact s.hasEdge_result (.copy hd) (s.copy_id hd) (s.mem_copy_successors hd hsucc)
    · refine s.hasEdge_result .head s.head_id (Block.mem_successors.2 (Or.inl ?_))
      exact ⟨_, s.head_term, List.mem_singleton.2 rfl⟩

/-- **The edges to the exit block** come from the copies of returns. -/
theorem hasEdge_exit_iff {q : BlockId} : s.result.hasEdge q s.exitId = true ↔
    ∃ c ∈ callee.blocks, (∃ v hasValue, c.term = some (.ret v hasValue)) ∧
      s.numbers.block c.id = q := by
  have hnot : ∀ {c : Block}, c ∈ fn.blocks → s.exitId ∉ c.successors := fun hc hsucc =>
    s.fresh.exit.2 (s.caller.succ_mem _ hc _ hsucc)
  constructor
  · intro h
    obtain ⟨c, hc, rfl, hsucc⟩ := s.hasEdge_result_iff.1 h
    cases hc with
    | @other d hd hne =>
      rw [other_successors] at hsucc
      exact absurd hsucc (hnot hd)
    | head =>
      rcases Block.mem_successors.1 hsucc with ⟨u, hu, hmem⟩ | ⟨h0, heq⟩
      · rw [head_term] at hu
        obtain rfl := Option.some.inj hu
        exact absurd (List.mem_singleton.1 hmem).symm (s.fresh.block _ s.entryId_mem).2.2
      · rw [head_handler] at h0 heq
        exact absurd heq (s.exitId_ne_of_mem (s.handler_mem h0))
    | @copy d hd =>
      rcases s.of_mem_copy_successors (s.called.has_term d hd) hsucc with
        ⟨hret, -⟩ | ⟨-, h0, heq⟩ | ⟨t', ht', heq⟩
      · exact ⟨d, hd, hret, (s.copy_id hd).symm⟩
      · exact absurd heq (s.exitId_ne_of_mem (s.handler_mem h0))
      · exact absurd heq (s.fresh.block _ (s.called.succ_mem d hd t' ht')).2.2
    | exit =>
      rw [exit_successors] at hsucc
      exact absurd hsucc (hnot s.block_mem)
  · rintro ⟨d, hd, ⟨v, hasValue, hret⟩, rfl⟩
    refine s.hasEdge_result (.copy hd) (s.copy_id hd) (Block.mem_successors.2 (Or.inl ?_))
    exact ⟨_, s.copy_term_ret hret, List.mem_singleton.2 rfl⟩

/-! ## Which phis are complete -/

theorem source_injOn {t p p' : BlockId} (hp : p ∈ fn.blockIds) (hp' : p' ∈ fn.blockIds)
    (h : s.source t p = s.source t p') : p = p' := by
  unfold source at h
  split at h <;> split at h
  · next h₁ h₂ => exact h₁.1.trans h₂.1.symm
  · exact absurd h (s.exitId_ne_of_mem hp')
  · exact absurd h.symm (s.exitId_ne_of_mem hp)
  · exact h

/-- The phis of the handler do not list what is called unlisted. -/
theorem source_ne_of_unlisted {p q : BlockId} (hp : p ∈ fn.blockIds) (hq : s.Unlisted q) :
    s.source s.block.handler p ≠ q := by
  have hid : s.block.id ∈ fn.blockIds := Function.mem_blockIds.2 ⟨_, s.block_mem, rfl⟩
  unfold source
  rcases hq with rfl | ⟨c, hc, -, rfl⟩
  · by_cases htarget : s.block.handler ∈ (s.block.term.map Term.targets).getD []
    · by_cases hblock : p = s.block.id
      · rw [if_pos ⟨hblock, htarget⟩, if_pos htarget]
        exact s.exitId_ne_of_mem hid
      · rwa [if_neg fun h => hblock h.1, if_pos htarget]
    · rw [if_neg fun h => htarget h.2, if_neg htarget]
      exact (s.exitId_ne_of_mem hp).symm
  · have hc' : c.id ∈ callee.blockIds := Function.mem_blockIds.2 ⟨c, hc, rfl⟩
    split
    · exact (s.fresh.block _ hc').2.2.symm
    · exact (s.block_ne_of_mem hc' hp).symm

theorem pred_mem_blockIds {f : Function} {p t : BlockId} (h : f.hasEdge p t = true) :
    p ∈ f.blockIds := by
  obtain ⟨c, hc, rfl, -⟩ := Function.hasEdge_iff.1 h
  exact Function.mem_blockIds.2 ⟨c, hc, rfl⟩

/-- The phis of the caller stay complete, but those of the handler. -/
theorem complete_caller_iff {c : Block} (hc : c ∈ fn.blocks) {p : Phi} (hp : p.Complete fn c.id) :
    (p.mapPreds (s.source c.id)).Complete s.result c.id ↔ c.id ≠ s.block.handler := by
  have hid : c.id ∈ fn.blockIds := Function.mem_blockIds.2 ⟨c, hc, rfl⟩
  rw [hp.image_iff (p.preds_mapPreds _)
    (fun a b ha hb => s.source_injOn (pred_mem_blockIds ha) (pred_mem_blockIds hb))
    (fun q => s.hasEdge_caller_iff hid)
    (fun a q ha hq => hq.1 ▸ s.source_ne_of_unlisted (pred_mem_blockIds ha) hq.2)]
  constructor
  · exact fun hnone heq => hnone _ ⟨heq, Or.inl rfl⟩
  · exact fun hne q hq => hne hq.1

/-- The copied phis are complete, but those of the entry. -/
theorem complete_copy_iff {c : Block} (hc : c ∈ callee.blocks) {p : Phi}
    (hp : p.Complete callee c.id) :
    (p.rename s.numbers).Complete s.result (s.numbers.block c.id) ↔ c.id ≠ callee.entryId := by
  have hid : s.block.id ∈ fn.blockIds := Function.mem_blockIds.2 ⟨_, s.block_mem, rfl⟩
  rw [hp.image_iff (p.preds_rename _)
    (fun a b ha hb => s.fresh.block_inj a (pred_mem_blockIds ha) b (pred_mem_blockIds hb))
    (fun q => s.hasEdge_copy_iff (Function.mem_blockIds.2 ⟨c, hc, rfl⟩))
    (fun a q ha hq => hq.2 ▸ s.block_ne_of_mem (pred_mem_blockIds ha) hid)]
  constructor
  · exact fun hnone heq => hnone _ ⟨heq, rfl⟩
  · exact fun hne q hq => hne hq.1

theorem returned_eq_some_iff {c : Block} (hc : c ∈ callee.blocks) {e : Incoming} :
    Splice.returned s.numbers c = some e ↔ ∃ v, c.term = some (.ret v true) ∧
      e = ⟨s.numbers.block c.id, s.numbers.value v⟩ := by
  have hid : (s.numbers.blocks.lookup c.id).getD 0 = s.numbers.block c.id := s.copy_id hc
  unfold Splice.returned
  split
  · next v hterm => simp [hterm, hid, eq_comm]
  · next hterm => simpa using fun v hv => absurd hv (hterm v)

/-- The phi of the exit block is complete if all returns have a value. -/
theorem complete_merge (hvalue : callee.returnsNothing = false) :
    (⟨s.call.result, s.call.ty, callee.blocks.filterMap (Splice.returned s.numbers)⟩ : Phi).Complete
      s.result s.exitId := by
  refine ⟨?_, fun q => ?_⟩
  · have hids : callee.blocks.Pairwise fun c d => c.id ≠ d.id :=
      List.pairwise_map.1 s.called.ids_nodup
    refine List.pairwise_map.2 (List.pairwise_filterMap.2 (hids.imp_of_mem ?_))
    intro c d hc hd hne e he e' he' heq
    obtain ⟨v, -, rfl⟩ := (s.returned_eq_some_iff hc).1 he
    obtain ⟨w, -, rfl⟩ := (s.returned_eq_some_iff hd).1 he'
    exact hne (s.fresh.block_inj _ (List.mem_map_of_mem hc) _ (List.mem_map_of_mem hd) heq)
  · simp only [Phi.preds, List.mem_map, List.mem_filterMap, hasEdge_exit_iff]
    constructor
    · rintro ⟨e, ⟨c, hc, he⟩, rfl⟩
      obtain ⟨v, hterm, rfl⟩ := (s.returned_eq_some_iff hc).1 he
      exact ⟨c, hc, ⟨v, true, hterm⟩, rfl⟩
    · rintro ⟨c, hc, ⟨v, hasValue, hterm⟩, rfl⟩
      obtain rfl : hasValue = true := by simpa [hvalue] using s.called.returns c hc v hasValue hterm
      exact ⟨_, ⟨c, hc, (s.returned_eq_some_iff hc).2 ⟨v, hterm, rfl⟩⟩, rfl⟩

/-- The blocks of the caller are still there, with the same phis up to what they list. -/
theorem part_of_caller {c : Block} (hc : c ∈ fn.blocks) :
    ∃ c', s.Part c' ∧ c'.id = c.id ∧ c'.phis = c.phis.map (Phi.mapPreds (s.source c.id)) := by
  by_cases hid : c.id = s.block.id
  · obtain rfl := Function.eq_of_id_eq s.caller.ids_nodup hc s.block_mem hid
    exact ⟨_, .head, s.head_id, s.phis_head⟩
  · exact ⟨_, .other hc hid, s.other_id c, s.phis_other c⟩

/-- The blocks of the result by their phis. -/
theorem phis_cases {c : Block} (hc : s.Part c) :
    (∃ d ∈ fn.blocks, c.id = d.id ∧ c.phis = d.phis.map (Phi.mapPreds (s.source d.id))) ∨
      (∃ d ∈ callee.blocks, c.id = s.numbers.block d.id ∧
        c.phis = d.phis.map (Phi.rename s.numbers)) ∨ c = s.exit := by
  cases hc with
  | @other d hd hne => exact Or.inl ⟨d, hd, s.other_id d, s.phis_other d⟩
  | head => exact Or.inl ⟨_, s.block_mem, s.head_id, s.phis_head⟩
  | @copy d hd => exact Or.inr (Or.inl ⟨d, hd, s.copy_id hd, s.phis_copy d⟩)
  | exit => exact Or.inr (Or.inr rfl)

theorem block_ne_handler {id : BlockId} (hid : id ∈ callee.blockIds) :
    s.numbers.block id ≠ s.block.handler := by
  obtain ⟨h0, hnew, -⟩ := s.fresh.block id hid
  exact fun heq => hnew (heq ▸ s.handler_mem (heq ▸ h0))

theorem exitId_ne_handler : s.exitId ≠ s.block.handler := by
  obtain ⟨h0, hnew⟩ : s.exitId ≠ 0 ∧ s.exitId ∉ fn.blockIds := s.fresh.exit
  exact fun heq => hnew (heq ▸ s.handler_mem (heq ▸ h0))

/-- **Which phis of the result are complete.** -/
theorem complete_result_iff (hfn : fn.PhiComplete) (hcallee : callee.PhiComplete)
    (hvalue : callee.returnsNothing = false ∨ s.call.result = 0) {c : Block} (hc : s.Part c)
    {p : Phi} (hp : p ∈ c.phis) : p.Complete s.result c.id ↔
      c.id ≠ s.block.handler ∧ c.id ≠ s.numbers.block callee.entryId := by
  rcases s.phis_cases hc with ⟨d, hd, hid, hphis⟩ | ⟨d, hd, hid, hphis⟩ | rfl
  · obtain ⟨p, hp', rfl⟩ := List.mem_map.1 (hphis ▸ hp)
    have hd' : d.id ∈ fn.blockIds := Function.mem_blockIds.2 ⟨d, hd, rfl⟩
    rw [hid, s.complete_caller_iff hd (hfn d hd p hp'),
      and_iff_left (s.block_ne_of_mem s.entryId_mem hd').symm]
  · obtain ⟨p, hp', rfl⟩ := List.mem_map.1 (hphis ▸ hp)
    have hd' : d.id ∈ callee.blockIds := Function.mem_blockIds.2 ⟨d, hd, rfl⟩
    rw [hid, s.complete_copy_iff hd (hcallee d hd p hp'), and_iff_right (s.block_ne_handler hd')]
    exact not_congr ⟨congrArg _, s.fresh.block_inj _ hd' _ s.entryId_mem⟩
  · obtain ⟨h0, rfl⟩ := s.mem_phis_exit hp
    exact iff_of_true (s.complete_merge (hvalue.resolve_right h0))
      ⟨s.exitId_ne_handler, (s.fresh.block _ s.entryId_mem).2.2.symm⟩

/-- **When all phis of the result are complete.** -/
theorem phiComplete_result_iff (hfn : fn.PhiComplete) (hcallee : callee.PhiComplete)
    (hvalue : callee.returnsNothing = false ∨ s.call.result = 0) : s.result.PhiComplete ↔
      (∀ c ∈ fn.blocks, c.id = s.block.handler → c.phis = []) ∧
        ∀ c ∈ callee.blocks, c.id = callee.entryId → c.phis = [] := by
  have hcomplete {c : Block} (hc : s.Part c) {p : Phi} (hp : p ∈ c.phis) :=
    s.complete_result_iff hfn hcallee hvalue hc hp
  constructor
  · intro h
    refine ⟨fun c hc hid => List.eq_nil_iff_forall_not_mem.2 fun p hp => ?_,
      fun c hc hid => List.eq_nil_iff_forall_not_mem.2 fun p hp => ?_⟩
    · obtain ⟨c', hc', hid', hphis⟩ := s.part_of_caller hc
      have hp' : p.mapPreds (s.source c.id) ∈ c'.phis := hphis ▸ List.mem_map_of_mem hp
      have hall := h _ (s.mem_result.2 hc') _ hp'
      exact ((hcomplete hc' hp').1 hall).1 (hid'.trans hid)
    · have hp' : p.rename s.numbers ∈ (s.copy c).phis := s.phis_copy c ▸ List.mem_map_of_mem hp
      have hall := h _ (s.mem_result.2 (.copy hc)) _ hp'
      refine ((hcomplete (.copy hc) hp').1 hall).2 ?_
      rw [s.copy_id hc, hid]
  · rintro ⟨hhandler, hentry⟩ c hc p hp
    have hc := s.mem_result.1 hc
    rw [hcomplete hc hp]
    rcases s.phis_cases hc with ⟨d, hd, hid, hphis⟩ | ⟨d, hd, hid, hphis⟩ | rfl
    · have hd' : d.id ∈ fn.blockIds := Function.mem_blockIds.2 ⟨d, hd, rfl⟩
      rw [hid]
      refine ⟨fun heq => ?_, (s.block_ne_of_mem s.entryId_mem hd').symm⟩
      simp [hphis, hhandler d hd heq] at hp
    · have hd' : d.id ∈ callee.blockIds := Function.mem_blockIds.2 ⟨d, hd, rfl⟩
      rw [hid]
      refine ⟨s.block_ne_handler hd', fun heq => ?_⟩
      simp [hphis, hentry d hd (s.fresh.block_inj _ hd' _ s.entryId_mem heq)] at hp
    · exact ⟨s.exitId_ne_handler, (s.fresh.block _ s.entryId_mem).2.2.symm⟩

end CallSite

namespace Function

variable {fn callee : Function}

/-- **Replacing a call keeps phis complete, but in two blocks.** Both functions are verified and
have complete phis, and a call whose value is used is one of a function that returns values. The
counters of the caller are above its numbers and have been set together (`Counted`), and there are
numbers left. Afterwards the complete phis are those of all blocks but the handler of the call's
block and the copy of the callee's entry. So all are complete exactly if the handler and the
callee's entry have no phis. -/
theorem splice_phiComplete_iff {position place : Nat} {b : Block} {call : Call}
    (hfn : fn.defects = []) (hcounted : fn.Counted) (hfits : fn.Fits callee)
    (hblock : fn.blocks[position]? = some b) (hcall : b.instrs[place]? = some (.call call))
    (hcompatible : Inline.compatible call callee = true) (hbody : callee.isExternal = false)
    (hcallee : callee.defects = [])
    (hvalue : callee.returnsNothing = false ∨ call.result = 0)
    (hphis : fn.PhiComplete) (hcalleePhis : callee.PhiComplete) :
    let fn' := (fn.splice position place call callee).1
    (∀ c ∈ fn'.blocks, ∀ p ∈ c.phis, p.Complete fn' c.id ↔
      c.id ≠ b.handler ∧ c.id ≠ (Splice.rename fn call callee).block callee.entryId) ∧
    (fn'.PhiComplete ↔ (∀ c ∈ fn.blocks, c.id = b.handler → c.phis = []) ∧
      ∀ c ∈ callee.blocks, c.id = callee.entryId → c.phis = []) := by
  intro fn'
  have hcallerBody := isExternal_of_mem (List.mem_of_getElem? hblock)
  obtain ⟨hshape, -, -⟩ := (defects_eq_nil_iff hcallerBody).1 hfn
  obtain ⟨hcalleeShape, -, -⟩ := (defects_eq_nil_iff hbody).1 hcallee
  let s : CallPlace fn callee := .ofIndex callee hshape.ids_nodup hblock hcall
  let site : CallSite fn callee := ⟨s, hcompatible, hbody, hshape, hcalleeShape,
    s.fresh_of_counted hcounted hfits hcalleeShape (Inline.compatible_args hcompatible)⟩
  have hresult : fn' = site.result :=
    (CallPlace.result_ofIndex callee hshape.ids_nodup hblock hcall).symm
  have hnumbers : site.numbers = Splice.rename fn call callee := site.numbers_eq hcounted hfits
  rw [hresult, ← hnumbers]
  refine ⟨fun c hc p hp => ?_, site.phiComplete_result_iff hphis hcalleePhis hvalue⟩
  exact site.complete_result_iff hphis hcalleePhis hvalue (site.mem_result.1 hc) hp

/-- A function that picks one of two values. -/
def pick : Function where
  name := "pick"
  params := [⟨1, "c", some .bool⟩]
  ret := some .bool
  blocks :=
    [{ id := 1, term := some (.brIf 1 2 3) },
     { id := 2, instrs := [.const ⟨2, some .bool, "true"⟩], term := some (.br 3) },
     { id := 3, instrs := [.phi ⟨3, some .bool, [⟨2, 2⟩, ⟨1, 1⟩]⟩], term := some (.ret 3 true) }]

/-- A function whose entry is a loop. -/
def spin : Function where
  name := "spin"
  params := [⟨1, "c", some .bool⟩]
  ret := some .bool
  blocks :=
    [{ id := 1, instrs := [.phi ⟨2, some .bool, [⟨1, 1⟩]⟩], term := some (.brIf 1 1 2) },
     { id := 2, term := some (.ret 1 true) }]

/-- A loop over a call, whose block has a handler. The phis are in the loop and behind it, and in
the handler if `guarded` is set. -/
def loopOverCallee (callee : String) (guarded : Bool) : Function where
  name := "f"
  params := [⟨1, "c", some .bool⟩]
  ret := some .bool
  blocks :=
    [{ id := 1, term := some (.br 2) },
     { id := 2
       handler := 4
       instrs := [.phi ⟨2, some .bool, [⟨1, 1⟩, ⟨2, 3⟩]⟩,
         .call ⟨3, callee, [2], some .bool, .pure, false⟩]
       term := some (.brIf 3 2 3) },
     { id := 3, instrs := [.phi ⟨4, some .bool, [⟨2, 3⟩]⟩], term := some (.ret 4 true) },
     { id := 4
       instrs := if guarded then [.phi ⟨5, some .bool, [⟨2, 1⟩]⟩] else []
       term := some (.ret 1 true) }]

/-- Phis that stay complete, and both ways to lose this. -/
theorem splice_loopOverCallee_phis :
    (loopOverCallee "pick" false).PhiComplete ∧ pick.PhiComplete ∧
      ((loopOverCallee "pick" false).splice 1 1 ⟨3, "pick", [2], some .bool, .pure, false⟩
        pick).1.PhiComplete ∧
    (loopOverCallee "pick" true).PhiComplete ∧
      ¬ ((loopOverCallee "pick" true).splice 1 1 ⟨3, "pick", [2], some .bool, .pure, false⟩
        pick).1.PhiComplete ∧
    (loopOverCallee "spin" false).PhiComplete ∧ spin.PhiComplete ∧
      ¬ ((loopOverCallee "spin" false).splice 1 1 ⟨3, "spin", [2], some .bool, .pure, false⟩
        spin).1.PhiComplete := by
  have hpick : pick.PhiComplete := by decide
  have hspin : spin.PhiComplete := by decide
  have hplain : (loopOverCallee "pick" false).PhiComplete := by decide
  have hguarded : (loopOverCallee "pick" true).PhiComplete := by decide
  have hspinning : (loopOverCallee "spin" false).PhiComplete := by decide
  refine ⟨hplain, hpick, ?_, hguarded, ?_, hspinning, hspin, ?_⟩
  · refine (@splice_phiComplete_iff _ _ 1 1 _ _ (by decide) (.of_zero rfl rfl) (by decide) rfl rfl
      rfl rfl (by decide) (Or.inl rfl) hplain hpick).2.2 ?_
    decide
  · rw [(@splice_phiComplete_iff _ _ 1 1 _ _ (by decide) (.of_zero rfl rfl) (by decide) rfl rfl
      rfl rfl (by decide) (Or.inl rfl) hguarded hpick).2]
    decide
  · rw [(@splice_phiComplete_iff _ _ 1 1 _ _ (by decide) (.of_zero rfl rfl) (by decide) rfl rfl
      rfl rfl (by decide) (Or.inl rfl) hspinning hspin).2]
    decide

end Function

end SsaOpt
