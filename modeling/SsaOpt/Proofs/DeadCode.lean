import SsaOpt.Proofs.PassRuns
import Mathlib.Data.List.Find
import Mathlib.Order.Bounds.Defs

/-!
# What dead code elimination leaves

Rounds of deletions leave of a function the blocks that can be reached and the instructions of the
greatest set that supports itself (`Unrolls.cleaned`). A set supports itself (`Supported`) if each
member is critical, or is there for what it does, or defines a value that a terminator or a member
reads.

Every state on the way is the function restricted to some blocks and instructions
(`Function.restrict`). Each round keeps all that can be reached and every set that supports itself
(`Kept.round`), and what is left when nothing is dead supports itself (`Kept.supported`). `Unrolls`
is the loop without a bound on its rounds; it ends since every round but the last removes something
(`rounds_unrolls`).
-/

namespace SsaOpt

open Relation

/-! ## Restrictions -/

/-- Keeps the phi entries for some predecessors. -/
def Instr.prune (live : BlockId → Bool) : Instr → Instr :=
  Instr.mapIncoming fun entries => entries.filter fun e => live e.pred

/-- The value is read by an instruction, where a phi reads from some predecessors only. -/
def Instr.ReadsFrom (P : BlockId → Prop) (v : ValueId) : Instr → Prop
  | .phi p => ∃ e ∈ p.incoming, P e.pred ∧ e.value = v
  | i => v ∈ i.operands

namespace Instr

variable {live live' : BlockId → Bool} {i : Instr}

@[simp] theorem prune_result : (i.prune live).result = i.result := by cases i <;> rfl

@[simp] theorem prune_eq_nop : i.prune live = .nop ↔ i = .nop := by
  cases i <;> simp [prune, mapIncoming]

theorem prune_prune : (i.prune live).prune live' = i.prune fun id => live id && live' id := by
  cases i <;> simp [prune, mapIncoming, List.filter_filter, Bool.and_comm]

theorem prune_true : prune (fun _ => true) = id := by
  funext i
  cases i <;> simp [prune, mapIncoming]

theorem prune_congr (h : ∀ p, i = .phi p → ∀ e ∈ p.incoming, live e.pred = live' e.pred) :
    i.prune live = i.prune live' := by
  cases i with
  | phi p =>
    have hfilter := List.filter_congr (h p rfl)
    simp only [prune, mapIncoming, hfilter]
  | _ => rfl

theorem mem_operands_prune {v : ValueId} :
    v ∈ (i.prune live).operands ↔ i.ReadsFrom (fun id => live id = true) v := by
  cases i with
  | phi p => simp [prune, mapIncoming, operands, ReadsFrom, and_assoc]
  | _ => rfl

theorem ReadsFrom.mono {P Q : BlockId → Prop} (h : ∀ id, P id → Q id) {v : ValueId}
    (hv : i.ReadsFrom P v) : i.ReadsFrom Q v := by
  cases i with
  | phi p =>
    obtain ⟨e, he, hp, hv⟩ := hv
    exact ⟨e, he, h _ hp, hv⟩
  | _ => exact hv

end Instr

/-- What is left of a block when some instructions and some predecessors are kept. -/
def Block.restrict (live : BlockId → Bool) (keep : Instr → Bool) (b : Block) : Block :=
  { b with instrs := (b.instrs.filter keep).map (Instr.prune live) }

namespace Function

/-- What is left of a function when some blocks and some instructions are kept. -/
def restrict (live : BlockId → Bool) (keep : Instr → Bool) (fn : Function) : Function :=
  { fn with blocks := (fn.blocks.filter fun b => live b.id).map (Block.restrict live keep) }

variable {fn : Function} {live live' : BlockId → Bool} {keep keep' : Instr → Bool}

theorem mem_restrict {c : Block} : c ∈ (fn.restrict live keep).blocks ↔
    ∃ b ∈ fn.blocks, live b.id = true ∧ b.restrict live keep = c := by
  simp [restrict, and_assoc]

theorem blockIds_restrict :
    (fn.restrict live keep).blockIds = fn.blockIds.filter live := by
  simp [restrict, blockIds, List.filter_map, Function.comp_def, Block.restrict]

/-- Restrictions that agree on all that there is are the same. -/
theorem restrict_congr (hlive : ∀ b ∈ fn.blocks, live b.id = live' b.id)
    (hpred : ∀ b ∈ fn.blocks, ∀ p, .phi p ∈ b.instrs → ∀ e ∈ p.incoming,
      live e.pred = live' e.pred)
    (hkeep : ∀ b ∈ fn.blocks, live b.id = true → ∀ i ∈ b.instrs, keep i = keep' i) :
    fn.restrict live keep = fn.restrict live' keep' := by
  unfold restrict
  rw [List.filter_congr hlive]
  congr 1
  refine List.map_congr_left fun b hb => ?_
  obtain ⟨hb, hlb⟩ := List.mem_filter.1 hb
  unfold Block.restrict
  rw [List.filter_congr (hkeep b hb ((hlive b hb).trans hlb))]
  congr 1
  refine List.map_congr_left fun i hi => Instr.prune_congr fun p hp => ?_
  exact hpred b hb p (hp ▸ (List.mem_filter.1 hi).1)

theorem restrict_true : fn.restrict (fun _ => true) (fun _ => true) = fn := by
  have hblock : Block.restrict (fun _ => true) (fun _ => true) = id := by
    funext b
    simp [Block.restrict, Instr.prune_true]
  simp [restrict, hblock]

/-- Restricting once more. -/
theorem restrict_restrict : (fn.restrict live keep).restrict live' keep' =
    fn.restrict (fun id => live id && live' id) (fun i => keep i && keep' (i.prune live)) := by
  have hblock : Block.restrict live' keep' ∘ Block.restrict live keep =
      Block.restrict (fun id => live id && live' id) fun i => keep i && keep' (i.prune live) := by
    funext b
    simp [Block.restrict, List.filter_map, List.filter_filter, Function.comp_def, Instr.prune_prune,
      Bool.and_comm]
  have hid : ∀ b : Block, (b.restrict live keep).id = b.id := fun _ => rfl
  simp [restrict, List.filter_map, List.filter_filter, Function.comp_def, hid, ← hblock,
    Bool.and_comm]

/-! ## Restrictions and what can be reached -/

theorem entryBlock?_restrict (h : ∀ e, fn.entryBlock? = some e → live e.id = true) :
    (fn.restrict live keep).entryBlock? = fn.entryBlock?.map (Block.restrict live keep) := by
  unfold entryBlock? at h ⊢
  change (if fn.entry = 0 then _ else _) = _
  by_cases h0 : fn.entry = 0
  · rw [if_pos h0, if_pos h0] at *
    cases hb : fn.blocks with
    | nil => simp [restrict, hb]
    | cons b rest =>
      have hlive : live b.id = true := by simpa [h0, hb] using h b
      simp [restrict, hb, hlive]
  · rw [if_neg h0, if_neg h0] at *
    have hlive : ∀ b ∈ fn.blocks, b.id = fn.entry → live b.id = true := by
      intro b hb hid
      obtain ⟨e, he⟩ := Option.isSome_iff_exists.1
        (List.find?_isSome.2 ⟨b, hb, decide_eq_true hid⟩ : (fn.block? fn.entry).isSome)
      rw [hid, ← (mem_of_block? he).2]
      exact h e he
    have hfind : (fn.blocks.filter fun b => live b.id).find? (fun b => b.id = fn.entry) =
        fn.blocks.find? fun b => b.id = fn.entry := by
      rw [List.find?_filter]
      refine List.find?_congr fun b hb => ?_
      by_cases hid : b.id = fn.entry
      · have hl := hlive b hb hid
        rw [hid] at hl
        simp [hid, hl]
      · simp [hid]
    rw [block?, restrict, List.find?_map, block?, ← hfind]
    rfl

theorem flows_restrict {p q : BlockId} :
    (fn.restrict live keep).Flows p q ↔ fn.Flows p q ∧ live p = true ∧ live q = true := by
  simp only [Flows, mem_restrict, blockIds_restrict, List.mem_filter]
  constructor
  · rintro ⟨⟨c, ⟨b, hb, hlive, rfl⟩, rfl, hq⟩, hmem, hlq⟩
    exact ⟨⟨⟨b, hb, rfl, hq⟩, hmem⟩, hlive, hlq⟩
  · rintro ⟨⟨⟨b, hb, rfl, hq⟩, hmem⟩, hlp, hlq⟩
    exact ⟨⟨_, ⟨b, hb, hlp, rfl⟩, rfl, hq⟩, hmem, hlq⟩

/-- The blocks that can be reached are the same if they are all kept. -/
theorem reachable_restrict (h : ∀ id, fn.Reachable id → live id = true) (id : BlockId) :
    (fn.restrict live keep).Reachable id ↔ fn.Reachable id := by
  have hentry : (fn.restrict live keep).entryBlock? =
      fn.entryBlock?.map (Block.restrict live keep) :=
    entryBlock?_restrict fun e he => h e.id ⟨e, he, .refl⟩
  constructor
  · rintro ⟨c, hc, hpath⟩
    rw [hentry] at hc
    obtain ⟨e, he, rfl⟩ := Option.map_eq_some_iff.1 hc
    exact ⟨e, he, ReflTransGen.mono (fun p q hpq => (flows_restrict.1 hpq).1) _ _ hpath⟩
  · rintro ⟨e, he, hpath⟩
    refine ⟨_, by rw [hentry, he]; rfl, ?_⟩
    induction hpath with
    | refl => exact .refl
    | @tail p q hpath hpq ih =>
      have hp : fn.Reachable p := ⟨e, he, hpath⟩
      exact ih.tail (flows_restrict.2 ⟨hpq, h p hp, h q (hp.step hpq)⟩)

end Function

namespace DeadCode

/-! ## Rounds -/

variable {rules : Rules} {fn : Function}

theorem sweepInstrs_of_none {dead : Instr → Bool} {refuse : Instr → Option Failure}
    {is : List Instr} (h : (sweepInstrs dead refuse is).failure = none) :
    (sweepInstrs dead refuse is).instrs = is.filter (fun i => !dead i) ∧
      (sweepInstrs dead refuse is).removed = is.countP dead := by
  induction is with
  | nil => simp [sweepInstrs]
  | cons i rest ih =>
    unfold sweepInstrs at h ⊢
    cases hd : dead i with
    | true =>
      cases hr : refuse i with
      | some failure => simp [hd, hr] at h
      | none =>
        obtain ⟨hinstrs, hremoved⟩ := ih (by simpa [hd, hr] using h)
        simp [hd, hinstrs, hremoved]
    | false =>
      obtain ⟨hinstrs, hremoved⟩ := ih (by simpa [hd] using h)
      simp [hd, hinstrs, hremoved]

theorem sweepBlocks_of_none {dead : Instr → Bool} {refuse : Instr → Option Failure}
    {blocks : List Block} (h : (sweepBlocks dead refuse blocks).failure = none) :
    (sweepBlocks dead refuse blocks).blocks =
        (blocks.map fun b => { b with instrs := b.instrs.filter fun i => !dead i }) ∧
      (sweepBlocks dead refuse blocks).removed = (blocks.flatMap Block.instrs).countP dead := by
  induction blocks with
  | nil => simp [sweepBlocks]
  | cons b rest ih =>
    unfold sweepBlocks at h ⊢
    cases hf : (sweepInstrs dead refuse b.instrs).failure with
    | some failure => simp [hf] at h
    | none =>
      obtain ⟨hinstrs, hremoved⟩ := sweepInstrs_of_none hf
      obtain ⟨hblocks, hlater⟩ := ih (by simpa [hf] using h)
      simp [hinstrs, hremoved, hblocks, hlater, hf]

/-- The function without the instructions that are dead. -/
def swept (rules : Rules) (fn : Function) : Function :=
  fn.restrict (fun _ => true) fun i => !isDead rules.critical (UseDef.build fn) i

/-- The blocks that a round finds not to be reached. -/
def unreached (rules : Rules) (fn : Function) : List BlockId :=
  ((swept rules fn).blocks.filter fun b => !(swept rules fn).reach.contains b.id).map Block.id

theorem swept_eq (rules : Rules) (fn : Function) :
    swept rules fn = fn.mapBlocks fun b =>
      { b with instrs := b.instrs.filter fun i => !isDead rules.critical (UseDef.build fn) i } := by
  simp [swept, Function.restrict, Block.restrict, Function.mapBlocks, Instr.prune_true]

/-- Keeping the blocks that are reached is a restriction. -/
theorem keepBlocks_eq (reach : List BlockId) (fn : Function) :
    { fn with blocks := keepBlocks reach fn.blocks } = fn.restrict
      (fun id => !((fn.blocks.filter fun b => !reach.contains b.id).map Block.id).contains id)
      fun _ => true := by
  unfold keepBlocks Function.restrict
  generalize hremoved : (fn.blocks.filter fun b => !reach.contains b.id).map Block.id = removed
  have hreach : ∀ b ∈ fn.blocks, reach.contains b.id = !removed.contains b.id := by
    intro b hb
    rw [← hremoved, Bool.eq_iff_iff]
    simp only [List.contains_eq_mem, Bool.not_eq_true', decide_eq_true_eq, decide_eq_false_iff_not,
      List.mem_map, List.mem_filter]
    grind
  have hblock : Block.mapInstrs (stripIncoming removed) =
      Block.restrict (fun id => !removed.contains id) fun _ => true := by
    funext b
    rw [Block.mapInstrs, Block.restrict, List.filter_eq_self.2 (by simp)]
    rfl
  dsimp only
  rw [List.filter_congr hreach, hblock]

/-- A sweep that is not refused deletes all that is dead. -/
theorem sweepBlocks_eq (hnone : (sweepBlocks (isDead rules.critical (UseDef.build fn))
      rules.refuseInstr fn.blocks).failure = none) :
    sweepBlocks (isDead rules.critical (UseDef.build fn)) rules.refuseInstr fn.blocks =
      { blocks := (swept rules fn).blocks
        removed := fn.instrs.countP (isDead rules.critical (UseDef.build fn)) } := by
  obtain ⟨hblocks, hremoved⟩ := sweepBlocks_of_none hnone
  have hswept : (sweepBlocks (isDead rules.critical (UseDef.build fn)) rules.refuseInstr
      fn.blocks).blocks = (swept rules fn).blocks := by
    rw [swept_eq, hblocks]
    rfl
  rw [← hswept, Function.instrs, ← hremoved, ← hnone]

/-- In a round that is not refused the sweep is not refused. -/
theorem sweepBlocks_of_round (h : (round rules fn).failure = none) :
    sweepBlocks (isDead rules.critical (UseDef.build fn)) rules.refuseInstr fn.blocks =
      { blocks := (swept rules fn).blocks
        removed := fn.instrs.countP (isDead rules.critical (UseDef.build fn)) } := by
  refine sweepBlocks_eq ?_
  by_contra hsome
  obtain ⟨failure, hf⟩ := Option.ne_none_iff_exists'.1 hsome
  simp [round, hf] at h

/-- **A round that is not refused** deletes what is dead, then what is not reached. -/
theorem round_of_none (h : (round rules fn).failure = none) :
    (round rules fn).function =
        (swept rules fn).restrict (fun id => !(unreached rules fn).contains id) (fun _ => true) ∧
      (round rules fn).instrs = fn.instrs.countP (isDead rules.critical (UseDef.build fn)) ∧
      (round rules fn).blocks = (unreached rules fn).length := by
  have hsweep := sweepBlocks_of_round h
  have hself : { fn with blocks := (swept rules fn).blocks } = swept rules fn := rfl
  have hround : round rules fn =
      { function := { swept rules fn with
          blocks := keepBlocks (swept rules fn).reach (swept rules fn).blocks }
        instrs := fn.instrs.countP (isDead rules.critical (UseDef.build fn))
        blocks := (unreached rules fn).length } := by
    unfold round at h ⊢
    simp only [hsweep, hself] at h ⊢
    split
    · next hempty =>
      have hkeep := keepBlocks_eq (swept rules fn).reach (swept rules fn)
      rw [List.isEmpty_iff.1 hempty] at hkeep
      rw [hkeep, unreached, List.isEmpty_iff.1 hempty]
      simp [Function.restrict_true]
    · next hne =>
      rw [if_neg hne] at h
      split
      · next hrefused =>
        rw [hrefused] at h
        simp at h
      · rw [unreached, List.length_map]
        rfl
  rw [hround]
  exact ⟨keepBlocks_eq _ _, rfl, rfl⟩

/-- No instruction of a block that goes is refused. -/
theorem refuseInBlock_of_round (h : (round rules fn).failure = none) {b : Block}
    (hb : b ∈ (swept rules fn).blocks) (hid : b.id ∈ unreached rules fn) {i : Instr}
    (hi : i ∈ b.instrs) : rules.refuseInBlock b.id i = none := by
  have hsweep := sweepBlocks_of_round h
  have hself : { fn with blocks := (swept rules fn).blocks } = swept rules fn := rfl
  obtain ⟨c, hc, heq⟩ := List.mem_map.1 hid
  have hgone : b ∈ (swept rules fn).blocks.filter fun b =>
      !(swept rules fn).reach.contains b.id := by
    rw [List.mem_filter] at hc ⊢
    exact ⟨hb, heq ▸ hc.2⟩
  unfold round at h
  simp only [hsweep, hself] at h
  split at h
  · next hempty =>
    rw [List.isEmpty_iff.1 hempty] at hgone
    cases hgone
  · split at h
    · cases h
    · next hnone =>
      have hblock := List.findSome?_eq_none_iff.1 hnone b hgone
      exact List.findSome?_eq_none_iff.1 hblock i hi

/-- A round that changes nothing finds nothing dead and all blocks reached. -/
theorem round_eq_self (h : (round rules fn).failure = none) (hinstrs : (round rules fn).instrs = 0)
    (hblocks : (round rules fn).blocks = 0) :
    (∀ i ∈ fn.instrs, isDead rules.critical (UseDef.build fn) i = false) ∧
      unreached rules fn = [] ∧ (round rules fn).function = fn := by
  obtain ⟨hfunction, hcount, hlength⟩ := round_of_none h
  have hdead : ∀ i ∈ fn.instrs, isDead rules.critical (UseDef.build fn) i = false := by
    simpa using List.countP_eq_zero.1 (hcount.symm.trans hinstrs)
  have hunreached : unreached rules fn = [] :=
    List.eq_nil_of_length_eq_zero (hlength.symm.trans hblocks)
  have hswept : swept rules fn = fn.restrict (fun _ => true) fun _ => true := by
    refine Function.restrict_congr (fun _ _ => rfl) (fun _ _ _ _ _ _ => rfl) fun b hb _ i hi => ?_
    rw [hdead i (Function.mem_instrs.2 ⟨b, hb, hi⟩)]
    rfl
  rw [Function.restrict_true] at hswept
  refine ⟨hdead, hunreached, ?_⟩
  rw [hfunction, hunreached, hswept]
  exact Function.restrict_true

/-! ## The loop -/

/-- Rounds until one changes nothing or is refused, without a bound on their number. -/
inductive Unrolls (rules : Rules) : Function → Function → Option Failure → Prop
  | refused {fn : Function} {f : Failure} (h : (round rules fn).failure = some f) :
      Unrolls rules fn (round rules fn).function (some f)
  | done {fn : Function} (h : (round rules fn).failure = none)
      (hinstrs : (round rules fn).instrs = 0) (hblocks : (round rules fn).blocks = 0) :
      Unrolls rules fn (round rules fn).function none
  | again {fn fn' : Function} {f : Option Failure} (h : (round rules fn).failure = none)
      (hne : ¬ ((round rules fn).instrs = 0 ∧ (round rules fn).blocks = 0))
      (hrest : Unrolls rules (round rules fn).function fn' f) : Unrolls rules fn fn' f

theorem size_restrict_le (live : BlockId → Bool) (keep : Instr → Bool) (fn : Function) :
    (fn.restrict live keep).size ≤ fn.size := by
  unfold Function.size Function.instrs Function.restrict
  dsimp only
  induction fn.blocks with
  | nil => simp
  | cons b rest ih =>
    have hlen : (b.restrict live keep).instrs.length ≤ b.instrs.length := by
      simpa [Block.restrict] using List.length_filter_le keep b.instrs
    rw [List.filter_cons]
    split
    · simp only [List.map_cons, List.flatMap_cons, List.length_append] at ih ⊢
      omega
    · simp only [List.flatMap_cons, List.length_append] at ih ⊢
      omega

theorem size_swept (rules : Rules) (fn : Function) :
    (swept rules fn).size + fn.instrs.countP (isDead rules.critical (UseDef.build fn)) =
      fn.size := by
  have hinstrs : (swept rules fn).instrs =
      fn.instrs.filter fun i => !isDead rules.critical (UseDef.build fn) i := by
    simp [swept_eq, Function.mapBlocks, Function.instrs, List.flatMap_map, List.filter_flatMap]
  have hcount := List.length_eq_countP_add_countP (isDead rules.critical (UseDef.build fn))
    (l := fn.instrs)
  rw [Function.size, Function.size, hinstrs, ← List.countP_eq_length_filter, hcount]
  simp [Nat.add_comm]

/-- A round that changes something makes the function smaller. -/
theorem round_lt (h : (round rules fn).failure = none)
    (hne : ¬ ((round rules fn).instrs = 0 ∧ (round rules fn).blocks = 0)) :
    (round rules fn).function.size + (round rules fn).function.blocks.length <
      fn.size + fn.blocks.length := by
  obtain ⟨hfunction, hinstrs, hblocks⟩ := round_of_none h
  have hsize := size_restrict_le (fun id => !(unreached rules fn).contains id) (fun _ => true)
    (swept rules fn)
  have hswept := size_swept rules fn
  have hlength : (round rules fn).function.blocks.length + (round rules fn).blocks =
      fn.blocks.length := by
    have hcount := List.length_eq_countP_add_countP
      (fun b : Block => (swept rules fn).reach.contains b.id) (l := (swept rules fn).blocks)
    have hsame : (swept rules fn).blocks.length = fn.blocks.length := by
      simp [swept_eq, Function.mapBlocks]
    rw [hfunction, hblocks, unreached, ← keepBlocks_eq, ← hsame, hcount]
    simp [keepBlocks, List.countP_eq_length_filter]
  rw [hfunction] at hlength ⊢
  omega

/-- **The loop ends**, with one round for every block and instruction and one more. -/
theorem rounds_unrolls (rules : Rules) (fuel : Nat) :
    ∀ fn : Function, fn.size + fn.blocks.length < fuel →
      Unrolls rules fn (rounds rules fuel none fn).function
        (rounds rules fuel none fn).failure := by
  induction fuel with
  | zero => exact fun fn h => absurd h (Nat.not_lt_zero _)
  | succ fuel ih =>
    intro fn hfuel
    have hnone : (none : Option Nat) ≠ some 0 := by simp
    rw [rounds, if_neg hnone]
    cases h : (round rules fn).failure with
    | some f =>
      simp only [h]
      exact .refused h
    | none =>
      by_cases hzero : (round rules fn).instrs = 0 ∧ (round rules fn).blocks = 0
      · simp only [h, if_pos hzero]
        exact .done h hzero.1 hzero.2
      · simp only [h, if_neg hzero]
        have hlt := round_lt h hzero
        exact .again h hzero (ih (round rules fn).function (by omega))

/-! ## What supports itself -/

/-- A set of instructions that supports itself. A phi reads from predecessors that can be
reached. -/
structure Supported (m : Module) (fn : Function) (S : Set Instr) : Prop where
  placed : ∀ i ∈ S, ∃ b ∈ fn.blocks, fn.Reachable b.id ∧ i ∈ b.instrs
  needed : ∀ i ∈ S, m.isCritical i = true ∨ (i ≠ .nop ∧ i.result = 0) ∨
    (i.result ≠ 0 ∧
      ((∃ b ∈ fn.blocks, fn.Reachable b.id ∧ ∃ t, b.term = some t ∧ i.result ∈ t.operands) ∨
        ∃ j ∈ S, j.ReadsFrom fn.Reachable i.result))

/-- What dead code elimination leaves of a function of `m`: the blocks that can be reached, and in
them the instructions of the greatest set that supports itself. -/
def Cleaned (m : Module) (fn fn' : Function) : Prop :=
  ∃ (live : BlockId → Bool) (keep : Instr → Bool),
    (∀ id, live id = true ↔ fn.Reachable id) ∧
      IsGreatest {S | Supported m fn S} {i | keep i = true} ∧ fn' = fn.restrict live keep

/-- A restriction that keeps all that can be reached and every set that supports itself. Nothing
that is kept reads what has been deleted in a block that is kept. -/
structure Kept (m : Module) (fn : Function) (live : BlockId → Bool) (keep : Instr → Bool) :
    Prop where
  reachable : ∀ id, fn.Reachable id → live id = true
  supported : ∀ S, Supported m fn S → ∀ i ∈ S, keep i = true
  unread : ∀ b ∈ fn.blocks, live b.id = true → ∀ i ∈ b.instrs, keep i = false → i.result ≠ 0 →
    (UseDef.build (fn.restrict live keep)).hasUsers i.result = false

variable {m : Module} {live live' : BlockId → Bool} {keep keep' : Instr → Bool}

theorem hasUsers_iff {v : ValueId} : (UseDef.build fn).hasUsers v = true ↔
    ∃ b ∈ fn.blocks, (∃ i ∈ b.instrs, v ∈ i.operands) ∨ ∃ t, b.term = some t ∧ v ∈ t.operands := by
  have hterm : ∀ b : Block, v ∈ (b.term.map Term.operands).getD [] ↔
      ∃ t, b.term = some t ∧ v ∈ t.operands := by
    intro b
    cases b.term <;> simp
  simp only [UseDef.hasUsers, UseDef.uses, UseDef.build, decide_eq_true_eq, List.count_pos_iff,
    List.mem_flatMap, UseDef.blockUses, List.mem_append, hterm]

theorem isDead_eq_false_iff {critical : Instr → Bool} {ud : UseDef} {i : Instr} :
    isDead critical ud i = false ↔
      critical i = true ∨ (i ≠ .nop ∧ (i.result = 0 ∨ ud.hasUsers i.result = true)) := by
  cases hc : critical i <;> cases hu : ud.hasUsers i.result <;> by_cases h0 : i.result = 0 <;>
    simp [isDead, hc, hu, h0]

theorem isCritical_prune (m : Module) (live : BlockId → Bool) (i : Instr) :
    m.isCritical (i.prune live) = m.isCritical i := by
  cases i <;> rfl

theorem isDead_prune (ud : UseDef) (i : Instr) :
    isDead m.isCritical ud (i.prune live) = isDead m.isCritical ud i := by
  simp [isDead, isCritical_prune]

/-- What is read in a restriction. -/
theorem hasUsers_restrict_iff {v : ValueId} :
    (UseDef.build (fn.restrict live keep)).hasUsers v = true ↔
      ∃ b ∈ fn.blocks, live b.id = true ∧
        ((∃ i ∈ b.instrs, keep i = true ∧ i.ReadsFrom (fun id => live id = true) v) ∨
          ∃ t, b.term = some t ∧ v ∈ t.operands) := by
  rw [hasUsers_iff]
  constructor
  · rintro ⟨c, hc, huse⟩
    obtain ⟨b, hb, hlive, rfl⟩ := Function.mem_restrict.1 hc
    refine ⟨b, hb, hlive, huse.imp ?_ id⟩
    rintro ⟨j, hj, hv⟩
    obtain ⟨i, hi, rfl⟩ := List.mem_map.1 hj
    obtain ⟨hi, hkeep⟩ := List.mem_filter.1 hi
    exact ⟨i, hi, hkeep, Instr.mem_operands_prune.1 hv⟩
  · rintro ⟨b, hb, hlive, huse⟩
    refine ⟨_, Function.mem_restrict.2 ⟨b, hb, hlive, rfl⟩, huse.imp ?_ id⟩
    rintro ⟨i, hi, hkeep, hv⟩
    exact ⟨i.prune live, List.mem_map_of_mem (List.mem_filter.2 ⟨hi, hkeep⟩),
      Instr.mem_operands_prune.2 hv⟩

/-- What is not read in a restriction is not read when less is kept. -/
theorem hasUsers_restrict_mono (hlive : ∀ id, live' id = true → live id = true)
    (hkeep : ∀ i, keep' i = true → keep i = true) {v : ValueId}
    (h : (UseDef.build (fn.restrict live keep)).hasUsers v = false) :
    (UseDef.build (fn.restrict live' keep')).hasUsers v = false := by
  rw [← Bool.not_eq_true] at h ⊢
  refine fun husers => h ?_
  obtain ⟨b, hb, hl, huse⟩ := hasUsers_restrict_iff.1 husers
  refine hasUsers_restrict_iff.2 ⟨b, hb, hlive _ hl, huse.imp ?_ id⟩
  rintro ⟨i, hi, hk, hread⟩
  exact ⟨i, hi, hkeep i hk, hread.mono hlive⟩

theorem not_hasUsers_of_isDead {critical : Instr → Bool} {ud : UseDef} {i : Instr}
    (h : isDead critical ud i = true) (h0 : i.result ≠ 0) : ud.hasUsers i.result = false := by
  have hnop : i ≠ .nop := by
    rintro rfl
    exact h0 rfl
  simpa [isDead, hnop, h0] using (Bool.and_eq_true_iff.1 h).2

namespace Kept

theorem init (m : Module) (fn : Function) : Kept m fn (fun _ => true) fun _ => true :=
  ⟨fun _ _ => rfl, fun _ _ _ _ => rfl, by simp⟩

/-- Nothing of a set that supports itself is dead. -/
theorem not_dead (h : Kept m fn live keep) {S : Set Instr} (hS : Supported m fn S) {i : Instr}
    (hi : i ∈ S) :
    isDead m.isCritical (UseDef.build (fn.restrict live keep)) i = false := by
  rw [isDead_eq_false_iff]
  rcases hS.needed i hi with hcritical | ⟨hnop, h0⟩ | ⟨h0, hread⟩
  · exact Or.inl hcritical
  · exact Or.inr ⟨hnop, Or.inl h0⟩
  · refine Or.inr ⟨?_, Or.inr (hasUsers_restrict_iff.2 ?_)⟩
    · rintro rfl
      exact h0 rfl
    rcases hread with ⟨b, hb, hreach, ht⟩ | ⟨j, hj, hv⟩
    · exact ⟨b, hb, h.reachable b.id hreach, Or.inr ht⟩
    · obtain ⟨b, hb, hreach, hjb⟩ := hS.placed j hj
      exact ⟨b, hb, h.reachable b.id hreach,
        Or.inl ⟨j, hjb, h.supported S hS j hj, hv.mono h.reachable⟩⟩

/-- Deleting what is dead. -/
theorem swept (h : Kept m fn live keep) (hrules : rules.critical = m.isCritical) :
    ∃ keep', DeadCode.swept rules (fn.restrict live keep) = fn.restrict live keep' ∧
      Kept m fn live keep' := by
  refine ⟨fun i =>
    keep i && !isDead m.isCritical (UseDef.build (fn.restrict live keep)) (i.prune live), ?_, ?_⟩
  · simp [DeadCode.swept, hrules, Function.restrict_restrict]
  refine ⟨h.reachable, fun S hS i hi => ?_, fun b hb hlive i hi hkeep h0 => ?_⟩
  · simp [h.supported S hS i hi, isDead_prune, h.not_dead hS hi]
  · refine hasUsers_restrict_mono (fun _ => id) (fun j hj => (Bool.and_eq_true_iff.1 hj).1) ?_
    cases hk : keep i with
    | false => exact h.unread b hb hlive i hi hk h0
    | true =>
      rw [hk, Bool.true_and, Bool.not_eq_false', isDead_prune] at hkeep
      exact not_hasUsers_of_isDead hkeep h0

/-- The blocks that a round finds not to be reached. -/
theorem mem_unreached (h : Kept m fn live keep) (hrules : rules.critical = m.isCritical)
    (hids : fn.blockIds.Nodup) {id : BlockId} : id ∈ unreached rules (fn.restrict live keep) ↔
      id ∈ fn.blockIds ∧ live id = true ∧ ¬ fn.Reachable id := by
  obtain ⟨keep', hswept, -⟩ := h.swept hrules
  have hnodup : (fn.restrict live keep').blockIds.Nodup := by
    rw [Function.blockIds_restrict]
    exact hids.filter live
  have hreach : ∀ b ∈ (fn.restrict live keep').blocks,
      b.id ∈ (fn.restrict live keep').reach ↔ fn.Reachable b.id := by
    intro b hb
    rw [Function.mem_reach_iff hnodup (List.mem_map_of_mem hb),
      Function.reachable_restrict h.reachable]
  have hmem : id ∈ (fn.restrict live keep').blockIds ↔ id ∈ fn.blockIds ∧ live id = true := by
    rw [Function.blockIds_restrict, List.mem_filter]
  rw [unreached, hswept, List.mem_map, ← and_assoc, ← hmem, Function.mem_blockIds]
  constructor
  · rintro ⟨b, hb, rfl⟩
    obtain ⟨hb, hnot⟩ := List.mem_filter.1 hb
    exact ⟨⟨b, hb, rfl⟩, by simpa [hreach b hb] using hnot⟩
  · rintro ⟨⟨b, hb, rfl⟩, hnot⟩
    exact ⟨b, List.mem_filter.2 ⟨hb, by simpa [hreach b hb] using hnot⟩, rfl⟩

/-- **What a round preserves.** After it, all blocks that are kept can be reached. -/
theorem round (h : Kept m fn live keep) (hrules : rules.critical = m.isCritical)
    (hids : fn.blockIds.Nodup)
    (hnone : (DeadCode.round rules (fn.restrict live keep)).failure = none) :
    ∃ live' keep', (DeadCode.round rules (fn.restrict live keep)).function =
      fn.restrict live' keep' ∧ Kept m fn live' keep' ∧
        ∀ id ∈ fn.blockIds, live' id = true → fn.Reachable id := by
  obtain ⟨keep', hswept, hkept⟩ := h.swept hrules
  rw [(round_of_none hnone).1, hswept, Function.restrict_restrict]
  refine ⟨_, _, rfl,
    ⟨fun id hid => ?_, fun S hS i hi => ?_, fun b hb hlive i hi hkeep h0 => ?_⟩, ?_⟩
  · simp [h.reachable id hid, h.mem_unreached hrules hids, hid]
  · simp [hkept.supported S hS i hi]
  · refine hasUsers_restrict_mono (fun id hid => (Bool.and_eq_true_iff.1 hid).1)
      (fun j hj => (Bool.and_eq_true_iff.1 hj).1) ?_
    exact hkept.unread b hb (Bool.and_eq_true_iff.1 hlive).1 i hi (by simpa using hkeep) h0
  · intro id hid hlive
    rw [Bool.and_eq_true, Bool.not_eq_true', List.contains_eq_mem, decide_eq_false_iff_not,
      h.mem_unreached hrules hids] at hlive
    by_contra hnot
    exact hlive.2 ⟨hid, hlive.1, hnot⟩

/-- What is kept and not dead is needed: by itself, by a terminator, or by what is kept as well. -/
theorem needed (h : Kept m fn live keep) (hshape : fn.Shape)
    (hdead : ∀ i ∈ (fn.restrict live keep).instrs,
      isDead m.isCritical (UseDef.build (fn.restrict live keep)) i = false)
    (hlive : ∀ id ∈ fn.blockIds, live id = true → fn.Reachable id) {b : Block} (hb : b ∈ fn.blocks)
    (hreach : fn.Reachable b.id) {i : Instr} (hi : i ∈ b.instrs) (hkeep : keep i = true) :
    m.isCritical i = true ∨ (i ≠ .nop ∧ i.result = 0) ∨ (i.result ≠ 0 ∧
      ((∃ c ∈ fn.blocks, fn.Reachable c.id ∧ ∃ t, c.term = some t ∧ i.result ∈ t.operands) ∨
        ∃ c ∈ fn.blocks, fn.Reachable c.id ∧
          ∃ j ∈ c.instrs, keep j = true ∧ j.ReadsFrom fn.Reachable i.result)) := by
  have hmem : i.prune live ∈ (fn.restrict live keep).instrs :=
    Function.mem_instrs.2 ⟨_, Function.mem_restrict.2 ⟨b, hb, h.reachable b.id hreach, rfl⟩,
      List.mem_map_of_mem (List.mem_filter.2 ⟨hi, hkeep⟩)⟩
  have halive := hdead _ hmem
  rw [isDead_prune, isDead_eq_false_iff] at halive
  rcases halive with hcritical | ⟨hnop, h0 | husers⟩
  · exact Or.inl hcritical
  · exact Or.inr (Or.inl ⟨hnop, h0⟩)
  by_cases h0 : i.result = 0
  · exact Or.inr (Or.inl ⟨hnop, h0⟩)
  refine Or.inr (Or.inr ⟨h0, ?_⟩)
  obtain ⟨c, hc, hlc, ⟨j, hj, hkj, hread⟩ | hterm⟩ := hasUsers_restrict_iff.1 husers
  · refine Or.inr ⟨c, hc, hlive c.id (List.mem_map_of_mem hc) hlc, j, hj, hkj, ?_⟩
    cases j with
    | phi p =>
      obtain ⟨e, he, hle, hv⟩ := hread
      exact ⟨e, he, hlive e.pred (hshape.pred_mem hc hj he) hle, hv⟩
    | _ => exact hread
  · exact Or.inl ⟨c, hc, hlive c.id (List.mem_map_of_mem hc) hlc, hterm⟩

/-- **What is left when nothing is dead** and all blocks are reached. -/
theorem cleaned (h : Kept m fn live keep) (hshape : fn.Shape)
    (hdead : ∀ i ∈ (fn.restrict live keep).instrs,
      isDead m.isCritical (UseDef.build (fn.restrict live keep)) i = false)
    (hlive : ∀ id ∈ fn.blockIds, live id = true → fn.Reachable id) :
    Cleaned m fn (fn.restrict live keep) := by
  -- of the numbers and instructions that are kept, only those of the function matter
  let live' := fun id => fn.blockIds.contains id && live id
  let keep' := fun i => keep i && fn.blocks.any fun b => live b.id && b.instrs.contains i
  have hlive' : ∀ id, live' id = true ↔ fn.Reachable id := by
    intro id
    simp only [live', Bool.and_eq_true, List.contains_iff_mem]
    exact ⟨fun hid => hlive id hid.1 hid.2, fun hid => ⟨hid.mem_blockIds, h.reachable id hid⟩⟩
  have hkeep' : ∀ i, keep' i = true ↔
      keep i = true ∧ ∃ b ∈ fn.blocks, fn.Reachable b.id ∧ i ∈ b.instrs := by
    intro i
    simp only [keep', Bool.and_eq_true, List.any_eq_true, List.contains_iff_mem]
    refine and_congr_right fun _ => exists_congr fun b => and_congr_right fun hb => ?_
    exact and_congr_left fun _ =>
      ⟨hlive b.id (List.mem_map_of_mem hb), h.reachable b.id⟩
  have hsame : ∀ id ∈ fn.blockIds, live id = live' id := by
    intro id hid
    simp [live', hid]
  refine ⟨live', keep', hlive', ⟨⟨fun i hi => ((hkeep' i).1 hi).2, fun i hi => ?_⟩, ?_⟩, ?_⟩
  · obtain ⟨hki, b, hb, hreach, hib⟩ := (hkeep' i).1 hi
    refine (h.needed hshape hdead hlive hb hreach hib hki).imp_right (Or.imp_right ?_)
    refine And.imp_right (Or.imp_right ?_)
    rintro ⟨c, hc, hrc, j, hj, hkj, hread⟩
    exact ⟨j, (hkeep' j).2 ⟨hkj, c, hc, hrc, hj⟩, hread⟩
  · intro S hS i hi
    exact (hkeep' i).2 ⟨h.supported S hS i hi, hS.placed i hi⟩
  · refine Function.restrict_congr (fun b hb => hsame b.id (List.mem_map_of_mem hb))
      (fun b hb p hp e he => hsame e.pred (hshape.pred_mem hb hp he)) fun b hb hlb i hi => ?_
    have hany : (fn.blocks.any fun b => live b.id && b.instrs.contains i) = true :=
      List.any_eq_true.2 ⟨b, hb, by simp [hlb, hi]⟩
    rw [show keep' i = (keep i && _) from rfl, hany, Bool.and_true]

end Kept

/-- **What the loop leaves** if it is not refused. -/
theorem Unrolls.cleaned {cur fn' : Function} (h : Unrolls rules cur fn' none)
    (hrules : rules.critical = m.isCritical) (hshape : fn.Shape) (hkept : Kept m fn live keep)
    (hcur : cur = fn.restrict live keep) : Cleaned m fn fn' := by
  generalize hf : (none : Option Failure) = f at h
  induction h generalizing live keep with
  | refused => simp at hf
  | @done cur hnone hinstrs hblocks =>
    subst hcur
    obtain ⟨hdead, hunreached, hself⟩ := round_eq_self hnone hinstrs hblocks
    rw [hself]
    refine hkept.cleaned hshape (hrules ▸ hdead) fun id hid hlive => ?_
    by_contra hnot
    have := (hkept.mem_unreached hrules hshape.ids_nodup).2 ⟨hid, hlive, hnot⟩
    simp [hunreached] at this
  | @again cur fn' f hnone _ _ ih =>
    subst hcur
    obtain ⟨live', keep', hround, hkept', -⟩ := hkept.round hrules hshape.ids_nodup hnone
    exact ih hkept' hround hf

theorem run_unrolls (checker : Option Checker) (m : Module) (fn : Function) :
    Unrolls (rulesFor checker m fn.name) fn (run checker m 0 fn).function
      (run checker m 0 fn).failure :=
  rounds_unrolls _ _ fn (Nat.lt_succ_self _)

theorem run_cleaned {checker : Option Checker} (hshape : fn.Shape)
    (h : (run checker m 0 fn).failure = none) : Cleaned m fn (run checker m 0 fn).function := by
  have hunrolls := run_unrolls checker m fn
  rw [h] at hunrolls
  exact hunrolls.cleaned rfl hshape (.init m fn) Function.restrict_true.symm

/-- A function without blocks is left as it is. -/
theorem cleaned_of_isExternal (m : Module) (h : fn.isExternal = true) : Cleaned m fn fn := by
  have hblocks : fn.blocks = [] := List.isEmpty_iff.1 h
  refine ⟨fun _ => false, fun _ => false, fun id => ?_, ⟨⟨by simp, by simp⟩, ?_⟩, ?_⟩
  · refine iff_of_false (by simp) fun hid => ?_
    simpa [Function.blockIds, hblocks] using hid.mem_blockIds
  · intro S hS i hi
    obtain ⟨b, hb, -⟩ := hS.placed i hi
    simp [hblocks] at hb
  · rw [Function.restrict, hblocks, List.filter_nil, List.map_nil, ← hblocks]

end DeadCode

/-! ## The pass -/

/-- What is critical depends on the names and flags of the functions only. -/
theorem Module.isCritical_congr {m m' : Module}
    (h : (m'.functions.map fun fn => (fn.name, fn.critical)) =
      m.functions.map fun fn => (fn.name, fn.critical)) : m'.isCritical = m.isCritical := by
  have hfind : ∀ (m : Module) name, (m.function? name).any Function.critical =
      (((m.functions.map fun fn => (fn.name, fn.critical)).find? fun e => e.1 = name).any
        fun e => e.2) := by
    intro m name
    rw [List.find?_map]
    cases hf : m.functions.find? fun fn => fn.name = name <;>
      simp [Module.function?, hf]
  funext i
  cases i with
  | call c => simp only [Module.isCritical, hfind, h]
  | _ => rfl

namespace DeadCode

/-- What is left of a function is as much as of the same function in a module that calls the same
instructions critical. -/
theorem Cleaned.congr {m m' : Module} (h : m'.isCritical = m.isCritical) {fn fn' : Function}
    (hfn : Cleaned m' fn fn') : Cleaned m fn fn' := by
  have hsupported : ∀ S, Supported m' fn S ↔ Supported m fn S := by
    intro S
    constructor <;> exact fun hS => ⟨hS.placed, by simpa only [h] using hS.needed⟩
  simpa only [Cleaned, hsupported] using hfn

/-- A function keeps its name and its flag. -/
theorem Cleaned.flags_eq {m : Module} {fn fn' : Function} (h : Cleaned m fn fn') :
    (fn'.name, fn'.critical) = (fn.name, fn.critical) := by
  obtain ⟨live, keep, -, -, rfl⟩ := h
  rfl

end DeadCode

/-- What dead code elimination does to the function at a position. -/
theorem Transform.deadCode_onFunction {σ : Type} {env : PassEnv} {r : Run σ} {m : Module}
    {fn : Function} {k : Nat} (n : Int) (hr : r.listing = .ofModule m)
    (hfn : m.functions[k]? = some fn) :
    ((deadCode n).onFunction env k r).1.failure = (DeadCode.run env.checker m n fn).failure ∧
      ((deadCode n).onFunction env k r).2.listing = .ofModule { m with
        functions := m.functions.set k (DeadCode.run env.checker m n fn).function } := by
  have hjudge : (fn.blocks.all fun b => b.instrs.all r.listing.canJudge) = true := by simp [hr]
  have hplace : r.listing.function? k = some fn := by rw [hr, Listing.function?_ofModule, hfn]
  have hfront : r.listing.front = m := by rw [hr, Listing.front_ofModule]
  simp only [onFunction, hplace, cleanFunction, hjudge, hfront, Bool.not_true, Bool.false_eq_true,
    if_false, true_and]
  rw [← Listing.setFunction_ofModule, ← hr]
  split <;> rfl

open DeadCode in
/-- **What dead code elimination leaves.** The loop over every function ends; and if the pass does
not fail, it leaves of each function the blocks that can be reached with the instructions of the
greatest set that supports itself. -/
theorem Transform.deadCode_leaves_greatest_supported {σ : Type} {env : PassEnv} {r : Run σ}
    {m : Module} (hr : r.listing = .ofModule m) (hm : moduleErr? (some m) = none) :
    (∀ m' fn, Unrolls (rulesFor env.checker m' fn.name) fn (run env.checker m' 0 fn).function
      (run env.checker m' 0 fn).failure) ∧
      (((deadCode 0).pass.onModule env r).1.failure = none →
        ∃ fns, ((deadCode 0).pass.onModule env r).2.listing =
            .ofModule { m with functions := fns } ∧ List.Forall₂ (Cleaned m) m.functions fns) := by
  refine ⟨run_unrolls env.checker, fun hnone => ?_⟩
  refine Run.allFunctions_changed hr (fun fn => cleaned_of_isExternal m)
    (fun k r' m' fn hr' h hfn hmem hext hnone => ?_) hnone
  obtain ⟨hfailure, hlisting⟩ := Transform.deadCode_onFunction 0 hr' hfn
  have hshape := (Module.wellFormed_of_verified hm hmem hext).1
  have hcritical := Module.isCritical_congr (h.map_eq fun _ _ => Cleaned.flags_eq)
  exact ⟨_, hlisting, (run_cleaned hshape (hfailure ▸ hnone)).congr hcritical⟩

/-- A function with a chain of unused values, values that only read each other, and a block that
cannot be reached but has a phi entry. -/
def DeadCode.tangle : Function where
  name := "tangle"
  params := [⟨1, "c", some .bool⟩]
  blocks :=
    [{ id := 1
       instrs := [.const ⟨2, some .bool, "true"⟩, .binary ⟨3, .xor, 2, 2, some .bool⟩,
         .binary ⟨4, .and, 3, 3, some .bool⟩, .const ⟨5, some .bool, "true"⟩]
       term := some (.br 2) },
     { id := 2
       instrs := [.phi ⟨6, some .bool, [⟨1, 5⟩, ⟨2, 7⟩, ⟨4, 8⟩]⟩,
         .binary ⟨7, .xor, 6, 6, some .bool⟩]
       term := some (.brIf 1 2 3) },
     { id := 3, instrs := [.nop], term := some (.ret 0 false) },
     { id := 4, instrs := [.const ⟨8, some .bool, "false"⟩], term := some (.br 2) }]

/-- What is left of it. -/
def DeadCode.untangled : Function where
  name := "tangle"
  params := [⟨1, "c", some .bool⟩]
  blocks :=
    [{ id := 1, instrs := [.const ⟨5, some .bool, "true"⟩], term := some (.br 2) },
     { id := 2
       instrs := [.phi ⟨6, some .bool, [⟨1, 5⟩, ⟨2, 7⟩]⟩, .binary ⟨7, .xor, 6, 6, some .bool⟩]
       term := some (.brIf 1 2 3) },
     { id := 3, term := some (.ret 0 false) }]

open DeadCode in
theorem Transform.deadCode_tangle :
    moduleErr? (some ⟨"m", [tangle]⟩) = none ∧ Cleaned ⟨"m", [tangle]⟩ tangle untangled := by
  have hm : moduleErr? (some ⟨"m", [tangle]⟩) = none := by decide
  let r : Run Unit := { listing := .ofModule ⟨"m", [tangle]⟩, world := () }
  have hnone : ((deadCode 0).pass.onModule ⟨some .standard, "dce"⟩ r).1.failure = none := by
    decide
  obtain ⟨fns, hlisting, hfns⟩ := (deadCode_leaves_greatest_supported rfl hm).2 hnone
  have hresult : ((deadCode 0).pass.onModule ⟨some .standard, "dce"⟩ r).2.listing =
      .ofModule ⟨"m", [untangled]⟩ := by
    decide
  obtain rfl : fns = [untangled] := by
    have heq := congrArg Listing.front (hlisting.symm.trans hresult)
    simpa using heq
  exact ⟨hm, (List.forall₂_cons.1 hfns).1⟩

end SsaOpt
