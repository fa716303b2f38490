import SsaOpt.Proofs.CriticalInstrs
import SsaOpt.Proofs.LostReads
import SsaOpt.Proofs.Refusals

/-!
# When dead code elimination fails

The standard checker refuses to remove what is critical and nothing else, and what is critical is
never dead. So a round can only fail over a block that cannot be reached and holds a critical
instruction (`DeadCode.Blocked`). Deleting instructions changes neither what can be reached nor what
is critical, and a round that does not fail leaves no block that cannot be reached: if a run fails,
its first round does (`DeadCode.run_failure_cases`), before any block is removed.
-/

namespace SsaOpt

theorem removalErr?_of_not_critical {m : Module} {i : Instr} (h : m.isCritical i = false) :
    removalErr? (some m) i = none := by
  have hself : i.isCritical = false := (Bool.or_eq_false_iff.1 h).1
  cases i with
  | call c => simp [removalErr?, hself, h]
  | _ => simp [removalErr?, hself]

namespace DeadCode

/-! ## What the standard checker refuses -/

/-- The failure to remove a block with a critical instruction. -/
def blockage (function : String) (b : BlockId) (i : Instr) : PassFailure where
  kind := .unsafeBlockElimination
  pass := passName
  function := function
  detail :=
    let shown := Text.quote i.render
    s!"unreachable block b{b.toNat} contains {shown}, which has critical side effects"

section Rules

variable {m m' : Module} {function : String} {b : BlockId} {i : Instr}

theorem refuseInstr_of_not_critical (h : m.isCritical i = false) :
    (rulesFor (some .standard) m function).refuseInstr i = none := by
  simp [rulesFor, h, checkerRefusal, Checker.standard, removalErr?_of_not_critical h]

theorem refuseInBlock_eq : (rulesFor (some .standard) m function).refuseInBlock b i =
    if m.isCritical i then some (.error (.failed (blockage function b i))) else none := by
  cases h : m.isCritical i with
  | true => simp [rulesFor, h, blockage]
  | false => simp [rulesFor, h, checkerRefusal, Checker.standard, removalErr?_of_not_critical h]

/-- The rules depend on what is critical only. -/
theorem rulesFor_congr (h : m'.isCritical = m.isCritical) :
    rulesFor (some .standard) m' function = rulesFor (some .standard) m function := by
  have hinstr : (rulesFor (some .standard) m' function).refuseInstr =
      (rulesFor (some .standard) m function).refuseInstr := by
    funext i
    cases hi : m.isCritical i with
    | true => simp [rulesFor, h, hi]
    | false => rw [refuseInstr_of_not_critical hi, refuseInstr_of_not_critical (h ▸ hi)]
  have hblock : (rulesFor (some .standard) m' function).refuseInBlock =
      (rulesFor (some .standard) m function).refuseInBlock := by
    funext b i
    rw [refuseInBlock_eq, refuseInBlock_eq, h]
  unfold rulesFor at hinstr hblock ⊢
  rw [Rules.mk.injEq]
  exact ⟨h, hinstr, hblock⟩

theorem run_congr (h : m'.isCritical = m.isCritical) (n : Int) (fn : Function) :
    run (some .standard) m' n fn = run (some .standard) m n fn := by
  rw [run, run, rulesFor_congr h]

/-- What is dead is never refused. -/
theorem sweepBlocks_standard (ud : UseDef) (blocks : List Block) :
    (sweepBlocks (isDead m.isCritical ud) (rulesFor (some .standard) m function).refuseInstr
      blocks).failure = none := by
  cases hf : (sweepBlocks (isDead m.isCritical ud)
      (rulesFor (some .standard) m function).refuseInstr blocks).failure with
  | none => rfl
  | some f =>
    obtain ⟨i, hdead, hi⟩ := sweepBlocks_failure hf
    have hcritical : m.isCritical i = false := by
      simpa using (Bool.and_eq_true_iff.1 hdead).1
    rw [refuseInstr_of_not_critical hcritical] at hi
    cases hi

end Rules

/-! ## Rounds that fail -/

/-- A block that cannot be reached holds an instruction that is critical in the module. -/
def Blocked (m : Module) (fn : Function) : Prop :=
  ∃ b ∈ fn.blocks, ¬ fn.Reachable b.id ∧ ∃ i ∈ b.instrs, m.isCritical i = true

/-- The blocks that a round finds not to be reached, without what is dead in them. -/
def unreachedBlocks (rules : Rules) (fn : Function) : List Block :=
  (swept rules fn).blocks.filter fun b => !(swept rules fn).reach.contains b.id

theorem map_id_unreachedBlocks (rules : Rules) (fn : Function) :
    (unreachedBlocks rules fn).map Block.id = unreached rules fn := rfl

/-- **A round whose sweep is not refused** fails over the blocks that are not reached, and then it
has only swept. -/
theorem round_blocked {rules : Rules} {fn : Function}
    (hsweep : (sweepBlocks (isDead rules.critical (UseDef.build fn)) rules.refuseInstr
      fn.blocks).failure = none) :
    (round rules fn).failure = blockRefusal rules (unreachedBlocks rules fn) ∧
      ((round rules fn).failure ≠ none → (round rules fn).function = swept rules fn) := by
  have hself : { fn with blocks := (swept rules fn).blocks } = swept rules fn := rfl
  have hblocks : (swept rules fn).blocks.filter (fun b => !(swept rules fn).reach.contains b.id) =
      unreachedBlocks rules fn := rfl
  unfold round
  simp only [sweepBlocks_eq hsweep, hself, hblocks]
  split
  · next hempty => simp [List.isEmpty_iff.1 hempty, blockRefusal]
  · split
    · next hf => exact ⟨hf.symm, fun _ => rfl⟩
    · next hf => exact ⟨hf.symm, fun hne => absurd rfl hne⟩

section Round

variable {m : Module} {fn : Function} {function : String} (hids : fn.blockIds.Nodup)

include hids

theorem mem_unreachedBlocks {rules : Rules} (hrules : rules.critical = m.isCritical) {b : Block} :
    b ∈ unreachedBlocks rules fn ↔ b ∈ (swept rules fn).blocks ∧ ¬ fn.Reachable b.id := by
  have hid : ∀ id, id ∈ unreached rules fn ↔ id ∈ fn.blockIds ∧ ¬ fn.Reachable id := by
    intro id
    have h := @Kept.mem_unreached _ _ _ _ _ (Kept.init m fn) hrules hids id
    simpa [Function.restrict_true] using h
  constructor
  · intro hb
    exact ⟨(List.mem_filter.1 hb).1, ((hid b.id).1 (List.mem_map_of_mem hb)).2⟩
  · rintro ⟨hb, hreach⟩
    have hmem : b.id ∈ fn.blockIds := by
      obtain ⟨c, hc, -, rfl⟩ := Function.mem_restrict.1 hb
      exact Function.mem_blockIds.2 ⟨c, hc, rfl⟩
    obtain ⟨c, hc, heq⟩ := List.mem_map.1 ((hid b.id).2 ⟨hmem, hreach⟩)
    exact List.mem_filter.2 ⟨hb, heq ▸ (List.mem_filter.1 hc).2⟩

/-- **The first round fails** if and only if a block that cannot be reached holds a critical
instruction. -/
theorem round_failure_cases :
    let rules := rulesFor (some .standard) m function
    (¬ Blocked m fn ∧ (round rules fn).failure = none) ∨
      ∃ b ∈ fn.blocks, ¬ fn.Reachable b.id ∧ ∃ i ∈ b.instrs, m.isCritical i = true ∧
        (round rules fn).failure = some (.error (.failed (blockage function b.id i))) ∧
        (round rules fn).function = swept rules fn := by
  intro rules
  obtain ⟨hfailure, hswept⟩ := @round_blocked rules fn (sweepBlocks_standard _ _)
  have hrules : rules.critical = m.isCritical := rfl
  cases hf : (round rules fn).failure with
  | none =>
    refine Or.inl ⟨?_, rfl⟩
    rintro ⟨b, hb, hreach, i, hi, hcritical⟩
    -- what is critical is not dead, so the block still holds it
    have hb' : (b.restrict (fun _ => true) fun i => !isDead rules.critical (UseDef.build fn) i) ∈
        unreachedBlocks rules fn :=
      (mem_unreachedBlocks hids hrules).2 ⟨Function.mem_restrict.2 ⟨b, hb, rfl, rfl⟩, hreach⟩
    have hi' : i ∈ (b.restrict (fun _ => true) fun i =>
        !isDead rules.critical (UseDef.build fn) i).instrs := by
      have halive : isDead rules.critical (UseDef.build fn) i = false :=
        isDead_eq_false_iff.2 (Or.inl hcritical)
      simpa [Block.restrict, Instr.prune_true, halive] using hi
    have hnone := List.findSome?_eq_none_iff.1 (hfailure.symm.trans hf) _ hb'
    have hnone' := List.findSome?_eq_none_iff.1 hnone i hi'
    rw [refuseInBlock_eq, hcritical] at hnone'
    cases hnone'
  | some f =>
    refine Or.inr ?_
    obtain ⟨c, hc, hrefused⟩ := List.exists_of_findSome?_eq_some (hfailure.symm.trans hf)
    obtain ⟨i, hi, hrefused⟩ := List.exists_of_findSome?_eq_some hrefused
    obtain ⟨hc, hreach⟩ := (mem_unreachedBlocks hids hrules).1 hc
    obtain ⟨b, hb, -, rfl⟩ := Function.mem_restrict.1 hc
    have hi' : i ∈ b.instrs := by
      rw [Block.restrict, Instr.prune_true, List.map_id] at hi
      exact (List.mem_filter.1 hi).1
    rw [refuseInBlock_eq] at hrefused
    split at hrefused
    · next hcritical =>
      exact ⟨b, hb, hreach, i, hi', hcritical, hrefused ▸ rfl, hswept (by simp [hf])⟩
    · cases hrefused

variable {live : BlockId → Bool} {keep : Instr → Bool}

/-- Nothing fails once all blocks can be reached. -/
theorem rounds_standard (fuel : Nat) : ∀ limit live keep, Kept m fn live keep →
    (∀ id ∈ fn.blockIds, live id = true → fn.Reachable id) →
      (rounds (rulesFor (some .standard) m function) fuel limit
        (fn.restrict live keep)).failure = none := by
  induction fuel with
  | zero => exact fun _ _ _ _ _ => rfl
  | succ fuel ih =>
    intro limit live keep hkept honly
    have hrules : (rulesFor (some .standard) m function).critical = m.isCritical := rfl
    have hunreached : unreachedBlocks (rulesFor (some .standard) m function)
        (fn.restrict live keep) = [] := by
      rw [← List.map_eq_nil_iff, map_id_unreachedBlocks, List.eq_nil_iff_forall_not_mem]
      intro id hid
      obtain ⟨hmem, hlive, hreach⟩ := (hkept.mem_unreached hrules hids).1 hid
      exact hreach (honly id hmem hlive)
    have hnone : (round (rulesFor (some .standard) m function)
        (fn.restrict live keep)).failure = none := by
      rw [(round_blocked (sweepBlocks_standard _ _)).1, hunreached]
      rfl
    obtain ⟨live', keep', hround, hkept', honly'⟩ := hkept.round hrules hids hnone
    rw [rounds]
    split
    · rfl
    · dsimp only
      rw [hnone]
      dsimp only
      split
      · rfl
      · rw [hround]
        exact ih _ live' keep' hkept' honly'

/-- **A run fails** if and only if a block that cannot be reached holds a critical instruction, and
then in its first round. -/
theorem run_failure_cases (n : Int) :
    (¬ Blocked m fn ∧ (run (some .standard) m n fn).failure = none) ∨
      ∃ b ∈ fn.blocks, ¬ fn.Reachable b.id ∧ ∃ i ∈ b.instrs, m.isCritical i = true ∧
        (run (some .standard) m n fn).failure =
          some (.error (.failed (blockage fn.name b.id i))) ∧
        (run (some .standard) m n fn).function =
          swept (rulesFor (some .standard) m fn.name) fn := by
  rcases @round_failure_cases m fn fn.name hids with
    ⟨hfree, hnone⟩ | ⟨b, hb, hreach, i, hi, hcritical, hfailure, hfunction⟩
  · refine Or.inl ⟨hfree, ?_⟩
    have hself : fn.restrict (fun _ => true) (fun _ => true) = fn := Function.restrict_true
    obtain ⟨live, keep, hround, hkept, honly⟩ := @Kept.round _ _ _ _ _ (Kept.init m fn) rfl hids
      (hself.symm ▸ hnone)
    rw [hself] at hround
    rw [run, enoughRounds, rounds, if_neg (roundLimit_ne_zero n)]
    dsimp only
    rw [hnone]
    dsimp only
    split
    · rfl
    · rw [hround]
      exact rounds_standard hids _ _ live keep hkept honly
  · refine Or.inr ⟨b, hb, hreach, i, hi, hcritical, ?_⟩
    rw [run, enoughRounds, rounds, if_neg (roundLimit_ne_zero n)]
    dsimp only
    rw [hfailure]
    exact ⟨rfl, hfunction⟩

theorem run_failure_ne_none_iff (n : Int) :
    (run (some .standard) m n fn).failure ≠ none ↔ Blocked m fn := by
  rcases @run_failure_cases m fn hids n with
    ⟨hfree, hnone⟩ | ⟨b, hb, hreach, i, hi, hcritical, hfailure, -⟩
  · exact iff_of_false (fun hne => hne hnone) hfree
  · exact iff_of_true (by simp [hfailure]) ⟨b, hb, hreach, i, hi, hcritical⟩

end Round

/-! ## The pass -/

theorem round_flags (rules : Rules) (fn : Function) :
    ((round rules fn).function.name, (round rules fn).function.critical) =
      (fn.name, fn.critical) := by
  unfold round
  dsimp only
  split
  · rfl
  · split
    · rfl
    · split <;> rfl

/-- A function keeps its name and its flag, whether or not the run fails. -/
theorem rounds_flags (rules : Rules) (fuel : Nat) (left : Option Nat) (fn : Function) :
    ((rounds rules fuel left fn).function.name, (rounds rules fuel left fn).function.critical) =
      (fn.name, fn.critical) := by
  induction fuel generalizing left fn with
  | zero => rfl
  | succ fuel ih =>
    rw [rounds]
    split
    · rfl
    · dsimp only
      split
      · exact round_flags rules fn
      · split
        · exact round_flags rules fn
        · exact (ih _ _).trans (round_flags rules fn)

theorem run_of_isExternal {m : Module} {fn : Function} (n : Int) (h : fn.isExternal = true) :
    (run (some .standard) m n fn).function = fn ∧ (run (some .standard) m n fn).failure = none := by
  have hblocks : fn.blocks = [] := List.isEmpty_iff.1 h
  have hids : fn.blockIds.Nodup := by simp [Function.blockIds, hblocks]
  have hnone : (run (some .standard) m n fn).failure = none := by
    refine not_not.1 (mt (run_failure_ne_none_iff hids n).1 ?_)
    simp [Blocked, hblocks]
  refine ⟨?_, hnone⟩
  obtain ⟨live, keep, -, -, hfunction⟩ := run_kept hids hnone
  rw [hfunction, Function.restrict, hblocks, List.filter_nil, List.map_nil, ← hblocks]

/-- Nothing is lost with the instruction: it does nothing, or it defines a value that neither an
instruction nor a terminator reads. -/
def Useless (fn : Function) (i : Instr) : Prop :=
  i = .nop ∨ i.result ≠ 0 ∧ ∀ b ∈ fn.blocks,
    (∀ j ∈ b.instrs, i.result ∉ j.operands) ∧ ∀ t, b.term = some t → i.result ∉ t.operands

theorem useless_of_isDead {critical : Instr → Bool} {fn : Function} {i : Instr}
    (h : isDead critical (UseDef.build fn) i = true) : critical i = false ∧ Useless fn i := by
  obtain ⟨hcritical, hdead⟩ := Bool.and_eq_true_iff.1 h
  refine ⟨by simpa using hcritical, ?_⟩
  by_cases hnop : i = .nop
  · exact Or.inl hnop
  · have h0 : i.result ≠ 0 := by
      rintro h0
      simp [hnop, h0] at hdead
    refine Or.inr ⟨h0, fun b hb => ?_⟩
    have hunread := mt hasUsers_iff.2 (Bool.eq_false_iff.1 (not_hasUsers_of_isDead h h0))
    exact ⟨fun j hj hread => hunread ⟨b, hb, Or.inl ⟨j, hj, hread⟩⟩,
      fun t ht hread => hunread ⟨b, hb, Or.inr ⟨t, ht, hread⟩⟩⟩

end DeadCode

namespace Transform

open DeadCode

variable {σ : Type} {env : PassEnv} {r : Run σ} {m : Module}

theorem deadCode_firstFailure (n : Int) (henv : env.checker = some .standard)
    (hr : r.listing = .ofModule m) :
    m.FirstFailure (fun fn => (DeadCode.run (some .standard) m n fn).function)
      (fun fn => (DeadCode.run (some .standard) m n fn).failure)
      ((deadCode n).pass.onModule env r).1.failure
      ((deadCode n).pass.onModule env r).2.listing := by
  refine Run.allFunctions_firstFailure (fun fn => run_of_isExternal n) ?_ hr
  intro k r' m' fn hr' hchanged hfn _
  -- what is critical does not change on the way
  have hcritical : m'.isCritical = m.isCritical := by
    refine Module.isCritical_congr (hchanged.map_eq fun fn fn' hfn' => ?_)
    rw [hfn']
    exact rounds_flags _ _ _ fn
  have hstep := @deadCode_onFunction _ env _ _ _ _ n hr' hfn
  rwa [henv, run_congr hcritical] at hstep

/-- **When dead code elimination fails.** A run over a verified module, with any limit on the
rounds, fails if and only if some function has a block that cannot be reached and holds a critical
instruction. The error is about the first function of that kind. The functions before it are as the
run leaves them, those after it are as they were, and the function itself has lost no blocks and no
phi entries, and only instructions that are useless and not critical. -/
theorem deadCode_fails_at_first_blocked (n : Int) (henv : env.checker = some .standard)
    (hr : r.listing = .ofModule m) (hm : moduleErr? (some m) = none) :
    (((deadCode n).pass.onModule env r).1.failure ≠ none ↔ ∃ fn ∈ m.functions, Blocked m fn) ∧
    ∀ (k : Nat) (fn : Function), m.functions[k]? = some fn → Blocked m fn →
      (∀ j g, j < k → m.functions[j]? = some g → ¬ Blocked m g) →
      (∃ b ∈ fn.blocks, ¬ fn.Reachable b.id ∧ ∃ i ∈ b.instrs, m.isCritical i = true ∧
        ((deadCode n).pass.onModule env r).1.failure =
          some (.error (.failed (blockage fn.name b.id i)))) ∧
      ∃ m' keep, ((deadCode n).pass.onModule env r).2.listing = .ofModule m' ∧
        m'.name = m.name ∧ m'.functions.length = m.functions.length ∧
        (∀ j g, j < k → m.functions[j]? = some g →
          (DeadCode.run env.checker m n g).failure = none ∧
            m'.functions[j]? = some (DeadCode.run env.checker m n g).function) ∧
        (∀ j, k < j → m'.functions[j]? = m.functions[j]?) ∧
        m'.functions[k]? =
          some (fn.mapBlocks fun b => { b with instrs := b.instrs.filter keep }) ∧
        ∀ i ∈ fn.instrs, keep i = false → m.isCritical i = false ∧ Useless fn i := by
  have hrun := deadCode_firstFailure n henv hr
  have hblocked {fn : Function} (hfn : fn ∈ m.functions) :
      (DeadCode.run (some .standard) m n fn).failure ≠ none ↔ Blocked m fn :=
    run_failure_ne_none_iff (Module.blockIds_nodup hm hfn) n
  refine ⟨?_, fun k fn hfn hmine hothers => ?_⟩
  · rw [hrun.ne_none_iff]
    exact exists_congr fun fn => and_congr_right fun hfn => hblocked hfn
  · have hmem := List.mem_of_getElem? hfn
    have hbefore : ∀ j g, j < k → m.functions[j]? = some g →
        (DeadCode.run (some .standard) m n g).failure = none := fun j g hj hg =>
      not_not.1 (mt (hblocked (List.mem_of_getElem? hg)).1 (hothers j g hj hg))
    rcases run_failure_cases (Module.blockIds_nodup hm hmem) n with
      ⟨hfree, -⟩ | ⟨b, hb, hreach, i, hi, hcritical, hfailure, hfunction⟩
    · exact absurd hmine hfree
    · obtain ⟨hfailed, m', hlisting, hchanged⟩ := hrun.of_first hfn hfailure hbefore
      have hpart {j : Nat} {g : Function} (hj : j < k + 1) (hg : m.functions[j]? = some g) :
          m'.functions[j]? = some (DeadCode.run (some .standard) m n g).function := by
        have hlt : j < m'.functions.length :=
          hchanged.length_eq ▸ (List.getElem?_eq_some_iff.1 hg).1
        rw [List.getElem?_eq_getElem hlt,
          hchanged.changed j g _ hj hg (List.getElem?_eq_getElem hlt)]
      refine ⟨⟨b, hb, hreach, i, hi, hcritical, ?_⟩, m',
        fun i => !isDead m.isCritical (UseDef.build fn) i, hlisting, hchanged.name_eq,
        hchanged.length_eq, fun j g hj hg => ?_, fun j hj => hchanged.same j hj, ?_,
        fun i _ hgone => useless_of_isDead (by simpa using hgone)⟩
      · rw [hfailed]
        exact congrArg some (Failure.inFunction_failed _)
      · rw [henv]
        exact ⟨hbefore j g hj hg, hpart (Nat.lt_succ_of_lt hj) hg⟩
      · rw [hpart (Nat.lt_succ_self k) hfn, hfunction, swept_eq]
        rfl

/-- A block that cannot be reached calls a function that is flagged as critical. A phi reads from
that block, and the entry has an instruction that is dead. -/
def barred : Function where
  name := "f"
  params := [⟨1, "n", some (.int ⟨true, .w32⟩)⟩]
  ret := some (.int ⟨true, .w32⟩)
  blocks :=
    [{ id := 1, instrs := [.const ⟨2, some .bool, "true"⟩, .nop], term := some (.br 2) },
     { id := 2
       instrs := [.phi ⟨3, some (.int ⟨true, .w32⟩), [⟨1, 1⟩, ⟨3, 4⟩]⟩]
       term := some (.ret 3 true) },
     { id := 3
       instrs :=
         [.const ⟨4, some (.int ⟨true, .w32⟩), "1"⟩, .call ⟨0, "log", [], none, .side, false⟩]
       term := some (.br 2) }]

/-- It stands between two functions with dead code. -/
def barredModule : Module where
  name := "m"
  functions :=
    [tangle, barred, { tangle with name := "other" }, { name := "log", critical := true }]

theorem barred_fails_at_first_blocked :
    let env : PassEnv := ⟨some .standard, "dce"⟩
    let r : Run Unit := { listing := .ofModule barredModule, world := () }
    moduleErr? (some barredModule) = none ∧ ¬ Blocked barredModule tangle ∧
      Blocked barredModule barred ∧
      (∃ b ∈ barred.blocks, ¬ barred.Reachable b.id ∧ ∃ i ∈ b.instrs,
        ((deadCode 1).pass.onModule env r).1.failure =
          some (.error (.failed (blockage "f" b.id i)))) ∧
      ∃ m' keep, ((deadCode 1).pass.onModule env r).2.listing = .ofModule m' ∧
        m'.functions[0]? = some (DeadCode.run (some .standard) barredModule 1 tangle).function ∧
        m'.functions[1]? =
          some (barred.mapBlocks fun b => { b with instrs := b.instrs.filter keep }) ∧
        (∀ i ∈ barred.instrs, keep i = false → Useless barred i) ∧
        m'.functions[2]? = some { tangle with name := "other" } := by
  intro env r
  have hm : moduleErr? (some barredModule) = none := by decide
  have hfree : ¬ Blocked barredModule tangle := by
    rw [← run_failure_ne_none_iff (by decide) 1]
    decide +kernel
  have hblocked : Blocked barredModule barred := by
    rw [← run_failure_ne_none_iff (by decide) 1]
    decide +kernel
  have hothers : ∀ j g, j < 1 → barredModule.functions[j]? = some g → ¬ Blocked barredModule g := by
    intro j g hj hg
    obtain rfl : j = 0 := by omega
    obtain rfl : tangle = g := Option.some.inj hg
    exact hfree
  obtain ⟨-, hfirst⟩ :=
    @deadCode_fails_at_first_blocked _ env r barredModule 1 rfl rfl hm
  obtain ⟨⟨b, hb, hreach, i, hi, -, hfailure⟩, m', keep, hlisting, -, -, hbefore, hafter, hmine,
    hlost⟩ := hfirst 1 barred rfl hblocked hothers
  exact ⟨hm, hfree, hblocked, ⟨b, hb, hreach, i, hi, hfailure⟩, m', keep, hlisting,
    (hbefore 0 tangle (by decide) rfl).2, hmine, fun i hi hgone => (hlost i hi hgone).2,
    hafter 2 (by decide)⟩

end Transform

end SsaOpt
