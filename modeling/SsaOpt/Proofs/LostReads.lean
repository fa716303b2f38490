import SsaOpt.Proofs.Addresses
import SsaOpt.Proofs.DeadCode
import SsaOpt.Proofs.Results

/-!
# What dead code elimination can break

Any number of rounds leaves a function restricted to the blocks that can be reached (`Trims`). Such
a restriction keeps all rules but one: a block that can be reached may read a value that only blocks
that cannot be reached define, for the rules do not ask that a definition comes before its uses.
With those blocks the definition goes, and the reads that are left are all the defects of the result
(`Trims.defects`).
-/

namespace SsaOpt

namespace Instr

variable {live : BlockId → Bool} {i : Instr}

@[simp] theorem resultType_prune : (i.prune live).resultType = i.resultType := by cases i <;> rfl

@[simp] theorem isPhi_prune : (i.prune live).isPhi = i.isPhi := by cases i <;> rfl

@[simp] theorem isCall_prune : (i.prune live).isCall = i.isCall := by cases i <;> rfl

@[simp] theorem accessAddr?_prune :
    Function.accessAddr? (i.prune live) = Function.accessAddr? i := by
  cases i <;> rfl

theorem prune_eq_phi {p : Phi} (h : i.prune live = .phi p) :
    ∃ p', i = .phi p' ∧ p.incoming = p'.incoming.filter fun e => live e.pred := by
  cases i with
  | phi p' =>
    obtain rfl := Instr.phi.inj h
    exact ⟨p', rfl, rfl⟩
  | _ => cases h

theorem ReadsFrom.mem_operands {P : BlockId → Prop} {v : ValueId} (h : i.ReadsFrom P v) :
    v ∈ i.operands := by
  cases i with
  | phi p =>
    obtain ⟨e, he, -, rfl⟩ := h
    exact List.mem_map_of_mem he
  | _ => exact h

theorem ReadsFrom.of_incoming {P Q : BlockId → Prop} {v : ValueId} (h : i.ReadsFrom P v)
    (hPQ : ∀ p, i = .phi p → ∀ e ∈ p.incoming, P e.pred → Q e.pred) : i.ReadsFrom Q v := by
  cases i with
  | phi p =>
    obtain ⟨e, he, hP, hv⟩ := h
    exact ⟨e, he, hPQ p rfl e he hP, hv⟩
  | _ => exact h

theorem Typed.prune (h : i.Typed) : (i.prune live).Typed where
  result_ne_zero := by simpa using h.result_ne_zero
  type_ne_none := by simpa using h.type_ne_none
  effect_listed c hc := by
    cases i with
    | call c' => exact h.effect_listed c hc
    | _ => cases hc

end Instr

namespace Function

variable {fn : Function} {live : BlockId → Bool} {keep : Instr → Bool}

theorem mem_instrs_restrict {j : Instr} : j ∈ (fn.restrict live keep).instrs ↔
    ∃ b ∈ fn.blocks, live b.id = true ∧ ∃ i ∈ b.instrs, keep i = true ∧ i.prune live = j := by
  simp only [mem_instrs, mem_restrict]
  constructor
  · rintro ⟨c, ⟨b, hb, hlive, rfl⟩, hj⟩
    obtain ⟨i, hi, rfl⟩ := List.mem_map.1 hj
    obtain ⟨hi, hkeep⟩ := List.mem_filter.1 hi
    exact ⟨b, hb, hlive, i, hi, hkeep, rfl⟩
  · rintro ⟨b, hb, hlive, i, hi, hkeep, rfl⟩
    exact ⟨_, ⟨b, hb, hlive, rfl⟩, List.mem_map_of_mem (List.mem_filter.2 ⟨hi, hkeep⟩)⟩

/-- Restricting a function drops definitions and does not change their order. -/
theorem results_restrict_sublist :
    ((fn.restrict live keep).instrs.map Instr.result).Sublist (fn.instrs.map Instr.result) := by
  have hblocks : ∀ blocks : List Block,
      ((((blocks.filter fun b => live b.id).map (Block.restrict live keep)).flatMap
        Block.instrs).map Instr.result).Sublist
        ((blocks.flatMap Block.instrs).map Instr.result) := by
    intro blocks
    induction blocks with
    | nil => simp
    | cons b rest ih =>
      rw [List.flatMap_cons, List.map_append]
      cases hlive : live b.id with
      | false =>
        rw [List.filter_cons_of_neg (by simp [hlive])]
        exact ih.trans (List.sublist_append_right _ _)
      | true =>
        rw [List.filter_cons_of_pos (by simp [hlive]), List.map_cons, List.flatMap_cons,
          List.map_append]
        refine List.Sublist.append ?_ ih
        have hprune : (b.restrict live keep).instrs.map Instr.result =
            (b.instrs.filter keep).map Instr.result := by
          simp [Block.restrict, Function.comp_def]
        rw [hprune]
        exact List.Sublist.map _ List.filter_sublist
  exact hblocks fn.blocks

theorem HasType.of_restrict {v : ValueId} {ty : Option Ty}
    (h : (fn.restrict live keep).HasType v ty) : fn.HasType v ty := by
  refine h.imp id ?_
  rintro ⟨j, hj, h0, hv, hty⟩
  obtain ⟨b, hb, -, i, hi, -, rfl⟩ := mem_instrs_restrict.1 hj
  exact ⟨i, mem_instrs.2 ⟨b, hb, hi⟩, by simpa using h0, by simpa using hv, by simpa using hty⟩

/-- A value that is defined in blocks that cannot be reached, and nowhere else. -/
structure Stranded (fn : Function) (v : ValueId) : Prop where
  defined : fn.Defined v
  not_param : ∀ p ∈ fn.params, p.id ≠ v
  not_reachable : ∀ b ∈ fn.blocks, ∀ i ∈ b.instrs, i.result = v → ¬ fn.Reachable b.id

/-- A defect of what is left of `fn`: a block that can be reached reads a stranded value, a phi in
it from a predecessor that can be reached. -/
structure StrandedRead (fn : Function) (d : Defect) : Prop where
  function_eq : d.function = fn.name
  reads : ∃ b ∈ fn.blocks, d.block = b.id ∧ fn.Reachable b.id ∧ ∃ v, fn.Stranded v ∧
    ((∃ i ∈ b.instrs, i.ReadsFrom fn.Reachable v ∧ ∃ i', d.flaw = .undefinedOperand i' v) ∨
      ∃ t, b.term = some t ∧ v ∈ t.operands ∧ d.flaw = .undefinedTermOperand t v)

end Function

namespace DeadCode

/-- A restriction to the blocks that can be reached, in which nothing reads what has been deleted
from them. -/
structure Trims (fn : Function) (live : BlockId → Bool) (keep : Instr → Bool) : Prop where
  reachable : ∀ id, fn.Reachable id → live id = true
  only : ∀ id ∈ fn.blockIds, live id = true → fn.Reachable id
  unread : ∀ b ∈ fn.blocks, live b.id = true → ∀ i ∈ b.instrs, keep i = false → i.result ≠ 0 →
    (UseDef.build (fn.restrict live keep)).hasUsers i.result = false

namespace Trims

variable {fn : Function} {live : BlockId → Bool} {keep : Instr → Bool}

theorem hasEdge {p q : BlockId} (hp : live p = true)
    (h : fn.hasEdge p q = true) : (fn.restrict live keep).hasEdge p q = true := by
  obtain ⟨c, hc, rfl, hq⟩ := Function.hasEdge_iff.1 h
  exact Function.hasEdge_iff.2 ⟨_, Function.mem_restrict.2 ⟨c, hc, hp, rfl⟩, rfl, hq⟩

theorem reachable_entry (hfn : fn.Shape) (h0 : fn.entry ≠ 0) : fn.Reachable fn.entry := by
  obtain ⟨b, hb, hid⟩ := Function.mem_blockIds.1 (hfn.entry_mem h0)
  refine ⟨b, ?_, hid ▸ .refl⟩
  rw [Function.entryBlock?, if_neg h0, ← hid]
  exact Function.block?_of_mem hfn.ids_nodup hb

/-- **All rules on numbers, definitions, phis and terminators are kept.** -/
theorem shape (h : Trims fn live keep) (hfn : fn.Shape) : (fn.restrict live keep).Shape where
  id_ne_zero c hc := by
    obtain ⟨b, hb, -, rfl⟩ := Function.mem_restrict.1 hc
    exact hfn.id_ne_zero b hb
  ids_nodup := by
    rw [Function.blockIds_restrict]
    exact hfn.ids_nodup.filter live
  entry_mem h0 := by
    rw [Function.blockIds_restrict, List.mem_filter]
    exact ⟨hfn.entry_mem h0, h.reachable _ (reachable_entry hfn h0)⟩
  param_ne_zero := hfn.param_ne_zero
  defined_nodup := by
    refine List.Nodup.sublist (List.Sublist.filter _ ?_) hfn.defined_nodup
    exact List.Sublist.append (List.Sublist.refl _) Function.results_restrict_sublist
  typed j hj := by
    obtain ⟨b, hb, -, i, hi, -, rfl⟩ := Function.mem_instrs_restrict.1 hj
    exact (hfn.typed i (Function.mem_instrs.2 ⟨b, hb, hi⟩)).prune
  phis_first c hc := by
    obtain ⟨b, hb, -, rfl⟩ := Function.mem_restrict.1 hc
    refine List.pairwise_map.2 ?_
    simpa using (hfn.phis_first b hb).filter keep
  incoming_edge c hc p hp e he := by
    obtain ⟨b, hb, hlive, rfl⟩ := Function.mem_restrict.1 hc
    obtain ⟨i, hi, hprune⟩ := List.mem_map.1 hp
    obtain ⟨p', rfl, hincoming⟩ := Instr.prune_eq_phi hprune
    rw [hincoming, List.mem_filter] at he
    exact hasEdge he.2 (hfn.incoming_edge b hb p' (List.mem_filter.1 hi).1 e he.1)
  has_term c hc := by
    obtain ⟨b, hb, -, rfl⟩ := Function.mem_restrict.1 hc
    exact hfn.has_term b hb
  succ_mem c hc s hs := by
    obtain ⟨b, hb, hlive, rfl⟩ := Function.mem_restrict.1 hc
    have hmem := hfn.succ_mem b hb s hs
    have hreach := h.only b.id (List.mem_map_of_mem hb) hlive
    rw [Function.blockIds_restrict, List.mem_filter]
    exact ⟨hmem, h.reachable s (hreach.step ⟨⟨b, hb, rfl, hs⟩, hmem⟩)⟩
  returns c hc := by
    obtain ⟨b, hb, -, rfl⟩ := Function.mem_restrict.1 hc
    exact hfn.returns b hb

theorem named (hfn : fn.Named) : (fn.restrict live keep).Named := by
  have hnames : (fn.restrict live keep).blocks.map Block.name =
      (fn.blocks.filter fun b => live b.id).map Block.name := by
    simp [Function.restrict, Function.comp_def, Block.restrict]
  refine List.Nodup.sublist (List.Sublist.filter _ ?_) hfn
  rw [hnames]
  exact List.Sublist.map _ List.filter_sublist

theorem addressed (hfn : fn.Addressed) : (fn.restrict live keep).Addressed := by
  intro j hj a ha ty hty
  obtain ⟨b, hb, -, i, hi, -, rfl⟩ := Function.mem_instrs_restrict.1 hj
  exact hfn i (Function.mem_instrs.2 ⟨b, hb, hi⟩) a (by simpa using ha) ty hty.of_restrict

/-- **A value that is read and no longer defined** was defined where nothing can be reached. -/
theorem stranded (h : Trims fn live keep) {v : ValueId} (hdefined : fn.Defined v)
    (hlost : ¬ (fn.restrict live keep).Defined v)
    (hread : (UseDef.build (fn.restrict live keep)).hasUsers v = true) : fn.Stranded v where
  defined := hdefined
  not_param p hp hid := by
    refine hlost ⟨hdefined.1, List.mem_append_left _ ?_⟩
    exact hid ▸ List.mem_map_of_mem hp
  not_reachable b hb i hi hv hreach := by
    have hlive := h.reachable b.id hreach
    cases hkeep : keep i with
    | true =>
      refine hlost ⟨hdefined.1, List.mem_append_right _ (List.mem_map.2 ⟨i.prune live, ?_, ?_⟩)⟩
      · exact Function.mem_instrs_restrict.2 ⟨b, hb, hlive, i, hi, hkeep, rfl⟩
      · simpa using hv
    | false =>
      have hunread := h.unread b hb hlive i hi hkeep (hv ▸ hdefined.1)
      rw [hv, hread] at hunread
      cases hunread

/-- **All defects of the result** are reads of stranded values. -/
theorem defects (h : Trims fn live keep) (hfn : fn.Sound) {d : Defect}
    (hd : d ∈ (fn.restrict live keep).defects) : fn.StrandedRead d := by
  have hname : d.function = (fn.restrict live keep).name := Function.function_of_mem_defects hd
  refine ⟨hname, ?_⟩
  rcases (h.shape hfn.shape).defect hd with ⟨n, -, hn, htwice⟩ | ⟨c, hc, hid, hread⟩
  · have hone := (named hfn.named : (fn.restrict live keep).Named).count_le_one hn
    omega
  obtain ⟨b, hb, hlive, rfl⟩ := Function.mem_restrict.1 hc
  have hreach := h.only b.id (List.mem_map_of_mem hb) hlive
  refine ⟨b, hb, hid, hreach, ?_⟩
  rcases hread with ⟨j, hj, v, hv, hlost, hflaw⟩ | ⟨t, ht, v, hv, hlost, hflaw⟩
  · obtain ⟨i, hi, rfl⟩ := List.mem_map.1 hj
    obtain ⟨hi, hkeep⟩ := List.mem_filter.1 hi
    have hreads := Instr.mem_operands_prune.1 hv
    have hdefined := hfn.closed.operand b hb i hi v hreads.mem_operands
    refine ⟨v, h.stranded hdefined hlost ?_, Or.inl ⟨i, hi, ?_, _, hflaw⟩⟩
    · exact hasUsers_restrict_iff.2 ⟨b, hb, hlive, Or.inl ⟨i, hi, hkeep, hreads⟩⟩
    · refine hreads.of_incoming fun p hp e he hpred => ?_
      exact h.only e.pred (hfn.shape.pred_mem hb (hp ▸ hi) he) hpred
  · refine ⟨v, h.stranded (hfn.closed.termOperand b hb t ht v hv) hlost ?_,
      Or.inr ⟨t, ht, hv, hflaw⟩⟩
    exact hasUsers_restrict_iff.2 ⟨b, hb, hlive, Or.inr ⟨t, ht, hv⟩⟩

/-- A defect is in a block that is left. -/
theorem block_of_defect (h : Trims fn live keep) (hfn : fn.Sound) {d : Defect}
    (hd : d ∈ (fn.restrict live keep).defects) : d.block ∈ (fn.restrict live keep).blockIds := by
  obtain ⟨b, hb, hid, hreach, -⟩ := (h.defects hfn hd).reads
  rw [Function.blockIds_restrict, hid, List.mem_filter]
  exact ⟨Function.mem_blockIds.2 ⟨b, hb, rfl⟩, h.reachable _ hreach⟩

end Trims

/-- What is left of a function that has been trimmed. -/
def Trimmed (fn fn' : Function) : Prop :=
  ∃ live keep, Trims fn live keep ∧ fn' = fn.restrict live keep

theorem Trimmed.name_eq {fn fn' : Function} (h : Trimmed fn fn') : fn'.name = fn.name := by
  obtain ⟨live, keep, -, rfl⟩ := h
  rfl

theorem trimmed_of_isExternal {fn : Function} (h : fn.isExternal = true) : Trimmed fn fn := by
  have hblocks : fn.blocks = [] := List.isEmpty_iff.1 h
  refine ⟨fun _ => true, fun _ => true, ⟨fun _ _ => rfl, ?_, ?_⟩, Function.restrict_true.symm⟩
  · simp [Function.blockIds, hblocks]
  · simp [hblocks]

/-- **The defects of a module whose functions have been trimmed.** -/
theorem defects_of_trimmed {m : Module} {fns : List Function} (hm : moduleErr? (some m) = none)
    (h : List.Forall₂ Trimmed m.functions fns) :
    (∀ d ∈ ({ m with functions := fns } : Module).defects, ∃ fn ∈ m.functions, fn.StrandedRead d ∧
      ∃ fn' ∈ fns, fn'.name = fn.name ∧ d.block ∈ fn'.blockIds) ∧
      ({ m with functions := fns } : Module).memoryDefects = [] := by
  obtain ⟨hnames, hsound⟩ := Module.verified_iff.1 hm
  have hnames' : Module.DistinctNames { m with functions := fns } :=
    hnames.congr (forall₂_map_eq h fun _ _ h => h.name_eq)
  -- what is left of a function without a body has no body, and no defects
  have hbody : ∀ fn fn', Trimmed fn fn' → fn.isExternal = true →
      fn'.defects = [] ∧ fn'.memoryDefects = [] := by
    rintro fn fn' ⟨live, keep, -, rfl⟩ hext
    refine Function.defects_of_isExternal (List.isEmpty_iff.2 ?_)
    simp [Function.restrict, List.isEmpty_iff.1 hext]
  refine ⟨fun d hd => ?_, List.flatMap_eq_nil_iff.2 fun fn' hfn' => ?_⟩
  · obtain ⟨fn', hfn', hd⟩ := (Module.mem_defects hnames').1 hd
    obtain ⟨fn, hfn, htrimmed⟩ := forall₂_exists_left h hfn'
    cases hext : fn.isExternal with
    | true => simp [(hbody fn fn' htrimmed hext).1] at hd
    | false =>
      obtain ⟨live, keep, htrims, rfl⟩ := htrimmed
      have hfn'' := hsound fn hfn hext
      exact ⟨fn, hfn, htrims.defects hfn'' hd, _, hfn', rfl, htrims.block_of_defect hfn'' hd⟩
  · obtain ⟨fn, hfn, htrimmed⟩ := forall₂_exists_left h hfn'
    cases hext : fn.isExternal with
    | true => exact (hbody fn fn' htrimmed hext).2
    | false =>
      obtain ⟨live, keep, htrims, rfl⟩ := htrimmed
      have hfn'' := hsound fn hfn hext
      exact (Function.memoryDefects_eq_nil_iff_addressed (htrims.shape hfn''.shape)).2
        (Trims.addressed hfn''.addressed)

/-! ## Runs with a limit -/

variable {rules : Rules} {m : Module} {fn : Function} {live : BlockId → Bool} {keep : Instr → Bool}

/-- What rounds leave, whatever their limit, once there has been one. -/
theorem rounds_kept (hrules : rules.critical = m.isCritical) (hids : fn.blockIds.Nodup)
    (fuel : Nat) :
    ∀ limit live keep, Kept m fn live keep →
      (fuel = 0 ∨ limit = some 0 → ∀ id ∈ fn.blockIds, live id = true → fn.Reachable id) →
      (rounds rules fuel limit (fn.restrict live keep)).failure = none →
      ∃ live' keep', Kept m fn live' keep' ∧
        (∀ id ∈ fn.blockIds, live' id = true → fn.Reachable id) ∧
        (rounds rules fuel limit (fn.restrict live keep)).function = fn.restrict live' keep' := by
  induction fuel with
  | zero =>
    intro limit live keep h honly _
    exact ⟨live, keep, h, honly (Or.inl rfl), rfl⟩
  | succ fuel ih =>
    intro limit live keep h honly hnone
    rw [rounds] at hnone ⊢
    split at hnone
    · next hlimit =>
      rw [if_pos hlimit]
      exact ⟨live, keep, h, honly (Or.inr hlimit), rfl⟩
    · next hlimit =>
      rw [if_neg hlimit]
      dsimp only at hnone ⊢
      cases hf : (round rules (fn.restrict live keep)).failure with
      | some f => simp [hf] at hnone
      | none =>
        -- a round leaves reachable blocks only, so from here on nothing is asked of the limit
        obtain ⟨live', keep', hround, hkept, honly'⟩ := h.round hrules hids hf
        simp only [hf, hround] at hnone ⊢
        split at hnone
        · next hzero =>
          rw [if_pos hzero]
          exact ⟨live', keep', hkept, honly', rfl⟩
        · next hzero =>
          rw [if_neg hzero]
          exact ih _ live' keep' hkept (fun _ => honly') hnone

theorem roundLimit_ne_zero (n : Int) : roundLimit n ≠ some 0 := by
  unfold roundLimit
  split
  · next hpos => simp [hpos]
  · simp

/-- **What a run leaves**, whatever its limit. -/
theorem run_kept {checker : Option Checker} {n : Int} (hids : fn.blockIds.Nodup)
    (hnone : (run checker m n fn).failure = none) :
    ∃ live keep, Kept m fn live keep ∧ (∀ id ∈ fn.blockIds, live id = true → fn.Reachable id) ∧
      (run checker m n fn).function = fn.restrict live keep := by
  have hself : fn.restrict (fun _ => true) (fun _ => true) = fn := Function.restrict_true
  have hfirst : ¬(enoughRounds fn = 0 ∨ roundLimit n = some 0) := by
    simp [enoughRounds, roundLimit_ne_zero]
  have hrules : (rulesFor checker m fn.name).critical = m.isCritical := rfl
  have hkept := rounds_kept hrules hids (enoughRounds fn) (roundLimit n) _ _ (Kept.init m fn)
    (absurd · hfirst)
  rw [hself] at hkept
  exact hkept hnone

theorem run_trimmed {checker : Option Checker} {n : Int} (hids : fn.blockIds.Nodup)
    (hnone : (run checker m n fn).failure = none) :
    Trimmed fn (run checker m n fn).function := by
  obtain ⟨live, keep, hkept, honly, hfunction⟩ := run_kept hids hnone
  exact ⟨live, keep, ⟨hkept.reachable, honly, hkept.unread⟩, hfunction⟩

/-- A run that reports no change leaves the function as it is. -/
theorem rounds_of_unmodified {fuel : Nat} {limit : Option Nat}
    (hnone : (rounds rules fuel limit fn).failure = none)
    (hmodified : (rounds rules fuel limit fn).modified = false) :
    (rounds rules fuel limit fn).function = fn := by
  cases fuel with
  | zero => rfl
  | succ fuel =>
    rw [rounds] at hnone hmodified ⊢
    split at hnone
    · next hlimit => rw [if_pos hlimit]
    · next hlimit =>
      rw [if_neg hlimit] at hmodified ⊢
      dsimp only at hnone hmodified ⊢
      cases hf : (round rules fn).failure with
      | some f => simp [hf] at hnone
      | none =>
        simp only [hf] at hmodified ⊢
        split at hmodified
        · next hzero =>
          rw [if_pos hzero]
          exact (round_eq_self hf hzero.1 hzero.2).2.2
        · cases hmodified

end DeadCode

end SsaOpt
