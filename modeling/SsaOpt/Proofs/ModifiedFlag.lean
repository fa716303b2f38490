import Mathlib.Data.List.TakeWhile
import SsaOpt.Proofs.ChangeCounts
import SsaOpt.Proofs.ManagerSteps

/-!
# The report of a run over all functions

A run over the functions of a module collects what its steps report. Up to the step at which it
stops, the report is right: something has been changed exactly if it says so, and if not, the tally
is as it was (`Run.ReportedUpTo`). So the report of a run that does not fail is right. The step that
fails is another matter. What it has done stays done, but what it reports does not count
(`Run.Concluded`): a run that fails may have changed the function that it stops at, and reports
nothing of it.
-/

namespace SsaOpt

variable {σ : Type}

/-! ## Runs -/

namespace Module.ChangedUpTo

variable {R : Function → Function → Prop} {m m' : Module} {k : Nat} {fn fn' : Function}

theorem set_self (hfn : m.functions[k]? = some fn) :
    ({ m with functions := m.functions.set k fn } : Module) = m := by
  obtain ⟨hlt, hget⟩ := List.getElem?_eq_some_iff.1 hfn
  rw [← hget, List.set_getElem_self]

/-- One more function is put in its place. The module is as it was only if all functions are. -/
theorem set_eq_iff (h : ChangedUpTo R m k m') (hfn : m.functions[k]? = some fn) :
    ({ m' with functions := m'.functions.set k fn' } : Module) = m ↔ m' = m ∧ fn' = fn := by
  have hfn' : m'.functions[k]? = some fn := (h.same k (Nat.le_refl k)).trans hfn
  constructor
  · intro heq
    have hlt := (List.getElem?_eq_some_iff.1 hfn').1
    have hplace : (m'.functions.set k fn')[k]? = m.functions[k]? :=
      congrArg (fun m : Module => m.functions[k]?) heq
    rw [List.getElem?_set_self hlt, hfn] at hplace
    obtain rfl := Option.some.inj hplace
    rw [set_self hfn'] at heq
    exact ⟨heq, rfl⟩
  · rintro ⟨rfl, rfl⟩
    exact set_self hfn

/-- A change shows in one of the functions that have been reached. -/
theorem ne_iff (h : ChangedUpTo R m k m') :
    m' ≠ m ↔ ∃ j, j < k ∧ m'.functions[j]? ≠ m.functions[j]? := by
  constructor
  · intro hne
    by_contra hall
    push Not at hall
    refine hne ?_
    have hfunctions : m'.functions = m.functions := by
      refine List.ext_getElem? fun j => ?_
      by_cases hj : j < k
      · exact hall j hj
      · exact h.same j (Nat.not_lt.1 hj)
    obtain ⟨name, functions⟩ := m'
    obtain ⟨name', functions'⟩ := m
    exact congrArg₂ Module.mk h.name_eq hfunctions
  · rintro ⟨j, -, hj⟩ rfl
    exact hj rfl

end Module.ChangedUpTo

/-- Functions that differ in their blocks if they differ at all. -/
def Function.SameOrOtherBlocks (fn fn' : Function) : Prop := fn'.blocks = fn.blocks → fn' = fn

namespace Run

/-- The first `k` functions have had their turn, no step has failed, and `modified` has been
reported. -/
structure ReportedUpTo (m : Module) (r : Run σ) (k : Nat) (modified : Bool) (r' : Run σ)
    (m' : Module) : Prop where
  listing_eq : r'.listing = .ofModule m'
  changed : m.ChangedUpTo Function.SameOrOtherBlocks k m'
  flag : modified = true ↔ m' ≠ m
  tally_eq : m' = m → r'.tally = r.tally

/-- How a run over the functions of `m` ends: all functions have had their turn, or one of the steps
has failed. -/
def Concluded (step : Nat → Run σ → Outcome × Run σ) (m : Module) (r : Run σ)
    (result : Outcome × Run σ) : Prop :=
  (result.1.failure = none ∧
      ∃ m', ReportedUpTo m r m.functions.length result.1.modified result.2 m') ∨
    ∃ k r' m' fn f, ReportedUpTo m r k result.1.modified r' m' ∧ m.functions[k]? = some fn ∧
      (step k r').1.failure = some f ∧ result.1.failure = some (f.inFunction fn.name) ∧
      result.2 = (step k r').2

namespace ReportedUpTo

variable {m m' : Module} {r r' : Run σ} {k : Nat} {modified : Bool} {fn : Function}

theorem init (hr : r.listing = .ofModule m) : ReportedUpTo m r 0 false r m :=
  ⟨hr, .init _ m, by simp, fun _ => rfl⟩

theorem skip (h : ReportedUpTo m r k modified r' m') (hfn : m.functions[k]? = some fn) :
    ReportedUpTo m r (k + 1) modified r' m' :=
  ⟨h.listing_eq, h.changed.skip hfn fun _ => rfl, h.flag, h.tally_eq⟩

/-- **What a step that does not fail preserves.** -/
theorem step {result : Outcome × Run σ} {fn' : Function}
    (h : ReportedUpTo m r k modified r' m') (hfn : m.functions[k]? = some fn)
    (hreports : Reports m' k fn r' result fn') (hnone : result.1.failure = none) :
    ReportedUpTo m r (k + 1) (modified || result.1.modified) result.2
      { m' with functions := m'.functions.set k fn' } where
  listing_eq := hreports.listing_eq
  changed := h.changed.step hfn hreports.eq_of_blocks
  flag := by
    rw [Bool.or_eq_true, h.flag, hreports.flag hnone, Ne, Ne, Ne, h.changed.set_eq_iff hfn,
      not_and_or]
  tally_eq heq := by
    obtain ⟨rfl, hself⟩ := (h.changed.set_eq_iff hfn).1 heq
    exact (hreports.tally_eq_iff.2 hself).trans (h.tally_eq rfl)

end ReportedUpTo

/-- **A run over all functions**, from a position on. -/
theorem eachFunction_concluded {step : Nat → Run σ → Outcome × Run σ} {m : Module} {r : Run σ}
    (hstep : ∀ k r' m' fn, r'.listing = .ofModule m' → m'.functions[k]? = some fn →
      ∃ fn', Reports m' k fn r' (step k r') fn') (n : Nat) :
    ∀ k r' m' modified, k + n = m.functions.length → ReportedUpTo m r k modified r' m' →
      Concluded step m r (eachFunction step (List.range' k n) modified r') := by
  induction n with
  | zero => exact fun k r' m' modified hn h => Or.inl ⟨rfl, m', hn ▸ h⟩
  | succ n ih =>
    intro k r' m' modified hn h
    obtain ⟨fn, hfn⟩ : ∃ fn, m.functions[k]? = some fn :=
      ⟨_, List.getElem?_eq_getElem (by omega)⟩
    have hfn' : m'.functions[k]? = some fn := (h.changed.same k (Nat.le_refl k)).trans hfn
    have hplace : r'.listing.function? k = some fn := by
      rw [h.listing_eq, Listing.function?_ofModule, hfn']
    rw [List.range'_succ]
    cases hext : fn.isExternal with
    | true =>
      rw [eachFunction_skip hplace hext]
      exact ih (k + 1) r' m' modified (by omega) (h.skip hfn)
    | false =>
      cases hf : (step k r').1.failure with
      | some f =>
        rw [eachFunction_stop hplace hext hf]
        exact Or.inr ⟨k, r', m', fn, f, h, hfn, hf, rfl, rfl⟩
      | none =>
        obtain ⟨fn', hreports⟩ := hstep k r' m' fn h.listing_eq hfn'
        rw [eachFunction_next hplace hext hf]
        exact ih (k + 1) _ _ _ (by omega) (h.step hfn hreports hf)

end Run

/-- **A run of a transformation over all functions.** -/
theorem Transform.onModule_concluded (t : Transform) (env : PassEnv) {r : Run σ} {m : Module}
    (hr : r.listing = .ofModule m) :
    Run.Concluded (t.onFunction env) m r (t.pass.onModule env r) := by
  have hlen : r.listing.places.length = m.functions.length := by simp [hr, Listing.ofModule]
  change Run.Concluded _ m r (r.allFunctions _)
  rw [Run.allFunctions, hlen, List.range_eq_range']
  exact Run.eachFunction_concluded (fun _ _ _ _ hr' hfn => t.onFunction_reports hr' hfn) _ 0 r m
    false (Nat.zero_add _) (.init hr)

/-! ## Steps that fail -/

namespace DeadCode

theorem isDead_iff {critical : Instr → Bool} {fn : Function} {i : Instr} :
    isDead critical (UseDef.build fn) i = true ↔ critical i = false ∧ Useless fn i := by
  refine ⟨useless_of_isDead, ?_⟩
  rintro ⟨hcritical, rfl | ⟨h0, hunread⟩⟩
  · simp [isDead, hcritical]
  · have husers : (UseDef.build fn).hasUsers i.result = false := by
      rw [← Bool.not_eq_true, hasUsers_iff]
      rintro ⟨b, hb, ⟨j, hj, hread⟩ | ⟨t, ht, hread⟩⟩
      · exact (hunread b hb).1 j hj hread
      · exact (hunread b hb).2 t ht hread
    simp [isDead, hcritical, h0, husers]

theorem swept_eq_self_iff {rules : Rules} {fn : Function} :
    swept rules fn = fn ↔
      ∀ i ∈ fn.instrs, isDead rules.critical (UseDef.build fn) i = false := by
  constructor
  · intro heq
    have hsize := size_swept rules fn
    rw [heq] at hsize
    simpa using List.countP_eq_zero.1 (show fn.instrs.countP _ = 0 by omega)
  · intro hdead
    have hkeep : swept rules fn = fn.restrict (fun _ => true) fun _ => true := by
      refine Function.restrict_congr (fun _ _ => rfl) (fun _ _ _ _ _ _ => rfl)
        fun b hb _ i hi => ?_
      rw [hdead i (Function.mem_instrs.2 ⟨b, hb, hi⟩)]
      rfl
    rw [hkeep, Function.restrict_true]

/-- A run that fails leaves the function as it was if everything that is useless in it is
critical. -/
theorem run_of_failure {m : Module} {fn : Function} (hids : fn.blockIds.Nodup) {n : Int}
    (hf : (run (some .standard) m n fn).failure ≠ none) :
    (run (some .standard) m n fn).function = fn ↔
      ∀ i ∈ fn.instrs, Useless fn i → m.isCritical i = true := by
  rcases run_failure_cases hids n with ⟨-, hnone⟩ | ⟨_, _, _, _, _, _, _, hfunction⟩
  · exact absurd hnone hf
  · rw [hfunction, swept_eq_self_iff]
    refine forall₂_congr fun i _ => ?_
    rw [← Bool.not_eq_true, isDead_iff]
    change ¬ (m.isCritical i = false ∧ Useless fn i) ↔ _
    rw [← Bool.not_eq_true]
    tauto

end DeadCode

namespace ConstFold

variable {refuse : Instr → Const → Option Failure} {consts : Consts} {fn : Function}

/-- The planned replacements in front of the first that is refused. -/
def accepted (refuse : Instr → Const → Option Failure) (planned : List (Instr × Option Const)) :
    List (Instr × Option Const) :=
  planned.takeWhile fun e => (refused refuse e).isNone

theorem commit_folded (planned : List (Instr × Option Const)) :
    (commit refuse planned).folded = (accepted refuse planned).countP fun e => e.2.isSome := by
  induction planned with
  | nil => rfl
  | cons e planned ih =>
    obtain ⟨i, new⟩ := e
    cases new with
    | none => simpa [commit, accepted, refused] using ih
    | some c =>
      rw [commit, accepted, List.takeWhile_cons, refused, Option.bind_some]
      cases hrefuse : refuse i c with
      | some f => rfl
      | none => simpa [accepted] using ih

theorem accepted_eq_self_iff {planned : List (Instr × Option Const)} :
    accepted refuse planned = planned ↔ (commit refuse planned).failure = none := by
  rw [commit_firstRefused, List.findSome?_eq_none_iff, accepted, List.takeWhile_eq_self_iff]
  simp

theorem accepted_append_of_none {planned later : List (Instr × Option Const)}
    (h : (commit refuse planned).failure = none) :
    accepted refuse (planned ++ later) = planned ++ accepted refuse later :=
  List.takeWhile_append_of_pos (List.takeWhile_eq_self_iff.1 (accepted_eq_self_iff.2 h))

theorem accepted_append_of_some {planned later : List (Instr × Option Const)} {f : Failure}
    (h : (commit refuse planned).failure = some f) :
    accepted refuse (planned ++ later) = accepted refuse planned := by
  rw [accepted, List.takeWhile_append, if_neg]
  · rfl
  · intro hlength
    have hnone := accepted_eq_self_iff.1 ((List.takeWhile_prefix _).eq_of_length hlength)
    simp [h] at hnone

/-- **What a run folds** are the replacements in front of the first that is refused, in the code
that it visits. -/
theorem foldBlocks_foldedCount {positions : List Nat} (hnodup : positions.Nodup) :
    (foldBlocks refuse positions consts fn).folded =
      (accepted refuse (plan consts (code fn positions)).1).countP fun e => e.2.isSome := by
  induction positions generalizing consts fn with
  | nil => rfl
  | cons p rest ih =>
    obtain ⟨hp, hnodup⟩ := List.nodup_cons.1 hnodup
    have hcode : (fn.blocks[p]?.map Block.instrs).getD [] = codeAt fn p := rfl
    rw [code, List.flatMap_cons, plan_append]
    simp only [foldBlocks, hcode]
    cases hf : (commit refuse (plan consts (codeAt fn p)).1).failure with
    | some f => rw [accepted_append_of_some hf, ← commit_folded]
    | none =>
      have hblock := @commit_folded refuse (plan consts (codeAt fn p)).1
      rw [accepted_eq_self_iff.2 hf] at hblock
      have hrest := @ih (plan consts (codeAt fn p)).2 (foldedAt consts p fn) hnodup
      rw [code_foldedAt_of_notMem hp, foldedAt, ← commit_replaced hf] at hrest
      rw [accepted_append_of_none hf, List.countP_append, ← hblock]
      exact congrArg _ hrest

/-- Nothing is refused in front of the first instruction that cannot be replaced. -/
theorem FirstMisfold.refused_eq_none {before : List Instr} {i : Instr} {c : Const}
    (h : FirstMisfold fn before i c) {e : Instr × Option Const}
    (he : e ∈ (plan (initialConsts fn) before).1) :
    refused (refusal (some .standard) fn.name) e = none := by
  obtain ⟨j, _ | c'⟩ := e
  · rfl
  · obtain ⟨is, js, hbefore, hfold⟩ := split_of_mem_plan he
    refine refusal_of_not_mistyped hfold fun hmis => ?_
    -- the instruction would be an earlier one of that sort
    have hvisited : is ++ [j] <+: code fn (visitOrder fn) := by
      refine List.IsPrefix.trans ?_ h.visited
      exact ⟨js ++ [i], by simp [hbefore]⟩
    have hlength := (h.first is j c' ⟨hvisited, hfold, hmis⟩).length_le
    rw [hbefore, List.length_append, List.length_cons] at hlength
    omega

theorem FirstMisfold.accepted_eq {before : List Instr} {i : Instr} {c : Const}
    (h : FirstMisfold fn before i c) :
    accepted (refusal (some .standard) fn.name)
        (plan (initialConsts fn) (code fn (visitOrder fn))).1 =
      (plan (initialConsts fn) before).1 := by
  obtain ⟨js, hcode⟩ := h.visited
  have hi : refused (refusal (some .standard) fn.name)
      (i, foldInstr (plan (initialConsts fn) before).2 i) ≠ none := by
    rw [h.folds, refused, Option.bind_some, h.refused]
    simp
  rw [← hcode, List.append_assoc, plan_append, accepted,
    List.takeWhile_append_of_pos fun e he => by simp [h.refused_eq_none he]]
  simp [plan, hi]

/-- A run that fails leaves the function as it was if nothing is folded in front of the instruction
that it fails at. -/
theorem run_of_failure (hids : fn.blockIds.Nodup)
    (hf : (run (some .standard) fn).failure ≠ none) :
    (run (some .standard) fn).function = fn ↔
      ∃ before i c, FirstMisfold fn before i c ∧
        ∀ e ∈ (plan (initialConsts fn) before).1, e.2 = none := by
  have hcount : (run (some .standard) fn).folded = _ :=
    foldBlocks_foldedCount (visitOrder_nodup hids)
  have hfirst {before : List Instr} {i : Instr} {c : Const} (h : FirstMisfold fn before i c) :
      (run (some .standard) fn).folded = 0 ↔
        ∀ e ∈ (plan (initialConsts fn) before).1, e.2 = none := by
    rw [hcount, h.accepted_eq, List.countP_eq_zero]
    simp
  rw [(run_counts (some .standard) fn).eq_iff]
  constructor
  · intro hzero
    rcases run_failure_cases hids with ⟨hnone, -⟩ | ⟨before, i, c, h, -⟩
    · exact absurd hnone hf
    · exact ⟨before, i, c, h, (hfirst h).1 hzero⟩
  · rintro ⟨before, i, c, h, hnone⟩
    exact (hfirst h).2 hnone

end ConstFold

/-! ## Statistics -/

namespace Manager

theorem modifiedCount_record (mgr : Manager σ) (name : String) (modified : Bool) :
    (mgr.record name modified).modifiedCount name =
      mgr.modifiedCount name + if modified then 1 else 0 := by
  unfold record modifiedCount
  dsimp only
  split
  · next hany =>
    have hnames : ((fun s : PassStats => decide (s.name = name)) ∘ fun s : PassStats =>
        if s.name = name then
          { s with runs := s.runs + 1, modified := s.modified + if modified then 1 else 0 }
        else s) = fun s => decide (s.name = name) := by
      funext s
      dsimp only [Function.comp_apply]
      split <;> rfl
    obtain ⟨s, hs⟩ : ∃ s, mgr.stats.find? (fun s => s.name = name) = some s := by
      rw [← Option.isSome_iff_exists, List.find?_isSome]
      exact List.any_eq_true.1 hany
    have hname : s.name = name := by simpa using List.find?_some hs
    rw [List.find?_map, hnames, hs]
    simp [hname]
  · next hany =>
    have hnone : mgr.stats.find? (fun s => s.name = name) = none := by simpa using hany
    rw [List.find?_append, hnone]
    simp

/-- A call of a pass counts as a change if it reports one, whether or not it fails. -/
theorem Work.runPass_modifiedCount (w : Work σ) (p : Pass σ)
    (hfault : (p.onModule (w.manager.envFor p.name) w.toRun).1.failure ≠ some .fault) :
    (w.runPass p id).2.manager.modifiedCount p.name = w.manager.modifiedCount p.name +
      if (p.onModule (w.manager.envFor p.name) w.toRun).1.modified then 1 else 0 := by
  unfold Work.runPass
  dsimp only
  split
  · next hfailure => exact absurd hfailure hfault
  · exact modifiedCount_record _ p.name _

end Manager

/-! ## Runs that fail -/

namespace Transform

open ConstFold DeadCode

variable {env : PassEnv} {r : Run σ} {m : Module} {fn : Function} {k : Nat}

/-- A step that fails. -/
theorem onFunction_reports_of_failure (t : Transform) (henv : env.checker = some .standard)
    (hr : r.listing = .ofModule m) (hfn : m.functions[k]? = some fn) (hids : fn.blockIds.Nodup)
    (hf : (t.onFunction env k r).1.failure ≠ none) :
    ∃ fn', Run.Reports m k fn r (t.onFunction env k r) fn' ∧
      (t = constFold → (fn' = fn ↔ ∃ before i c, FirstMisfold fn before i c ∧
        ∀ e ∈ (plan (initialConsts fn) before).1, e.2 = none)) ∧
      ∀ n, t = deadCode n →
        (fn' = fn ↔ ∀ i ∈ fn.instrs, Useless fn i → m.isCritical i = true) := by
  cases t with
  | constFold =>
    rw [(constFold_onFunction hr hfn).1, henv] at hf
    refine ⟨_, constFold_reports hr hfn, fun _ => ?_, nofun⟩
    rw [henv]
    exact ConstFold.run_of_failure hids hf
  | deadCode n =>
    rw [(deadCode_onFunction n hr hfn).1, henv] at hf
    refine ⟨_, deadCode_reports n hr hfn, nofun, fun _ _ => ?_⟩
    rw [henv]
    exact DeadCode.run_of_failure hids hf
  | inline p =>
    obtain ⟨fn', hreports⟩ := inline_reports p hr hfn
    exact ⟨fn', hreports, nofun, nofun⟩

/-- **The report of a run that fails.** The run stops at one function. What it reports, and what the
manager counts, is about the functions before that one. So a run that reports no change has left all
others as they were, but it may have changed the function at which it stops. That shows in the tally
only. Constant folding has not changed it if and only if nothing is folded in front of the
instruction at which it fails, and dead code elimination has not if and only if all instructions
that are useless are critical. -/
theorem onModule_reports_of_failure (t : Transform) (henv : env.checker = some .standard)
    (hr : r.listing = .ofModule m) (hm : moduleErr? (some m) = none) {f : Failure}
    (hf : (t.pass.onModule env r).1.failure = some f) :
    (∃ (k : Nat) (fn fn' : Function) (f' : Failure) (m' : Module),
      m.functions[k]? = some fn ∧ m'.functions[k]? = some fn' ∧ f = f'.inFunction fn.name ∧
      (t.pass.onModule env r).2.listing = .ofModule m' ∧ m'.name = m.name ∧
      m'.functions.length = m.functions.length ∧
      (∀ j, k < j → m'.functions[j]? = m.functions[j]?) ∧
      ((t.pass.onModule env r).1.modified = true ↔
        ∃ j, j < k ∧ m'.functions[j]? ≠ m.functions[j]?) ∧
      ((t.pass.onModule env r).1.modified = false →
        (m' = m ↔ fn' = fn) ∧ (fn' = fn ↔ (t.pass.onModule env r).2.tally = r.tally) ∧
        (t = constFold → (fn' = fn ↔ ∃ before i c, FirstMisfold fn before i c ∧
          ∀ e ∈ (plan (initialConsts fn) before).1, e.2 = none)) ∧
        ∀ n, t = deadCode n →
          (fn' = fn ↔ ∀ i ∈ fn.instrs, Useless fn i → m.isCritical i = true))) ∧
    ∀ w : Manager.Work σ, w.manager.envFor t.name = env → w.toRun = r →
      (w.runPass t.pass id).2.manager.modifiedCount t.name = w.manager.modifiedCount t.name +
        if (t.pass.onModule env r).1.modified then 1 else 0 := by
  constructor
  · rcases t.onModule_concluded env hr with
      ⟨hnone, -⟩ | ⟨k, r₁, m₁, fn, f', h, hfn, hf', hfailure, hrun⟩
    · simp [hnone] at hf
    · have hfn₁ : m₁.functions[k]? = some fn := (h.changed.same k le_rfl).trans hfn
      have hlt : k < m₁.functions.length := (List.getElem?_eq_some_iff.1 hfn₁).1
      obtain ⟨fn', hreports, hfolds, hcleans⟩ := t.onFunction_reports_of_failure henv h.listing_eq
        hfn₁ (Module.blockIds_nodup hm (List.mem_of_getElem? hfn)) (by simp [hf'])
      rw [hrun]
      refine ⟨k, fn, fn', f', { m₁ with functions := m₁.functions.set k fn' }, hfn,
        List.getElem?_set_self hlt, Option.some.inj (hf.symm.trans hfailure), hreports.listing_eq,
        h.changed.name_eq, (List.length_set ..).trans h.changed.length_eq, fun j hj => ?_, ?_,
        fun hquiet => ?_⟩
      · exact (List.getElem?_set_ne (Nat.ne_of_lt hj)).trans (h.changed.same j hj.le)
      · rw [h.flag, h.changed.ne_iff]
        refine exists_congr fun j => and_congr_right fun hj => ?_
        rw [List.getElem?_set_ne (Nat.ne_of_gt hj)]
      · -- the run comes to the function with the module it was given
        obtain rfl : m₁ = m := not_not.1 (mt h.flag.2 (by simp [hquiet]))
        refine ⟨(h.changed.set_eq_iff hfn).trans (and_iff_right rfl), ?_, hfolds, hcleans⟩
        rw [← hreports.tally_eq_iff, h.tally_eq rfl]
  · rintro w rfl rfl
    obtain ⟨e, rfl, -⟩ := onModule_failure henv hr hf
    exact w.runPass_modifiedCount t.pass (by
      change (t.pass.onModule (w.manager.envFor t.name) w.toRun).1.failure ≠ _
      simp [hf])

/-- Of two calls, the first is replaced and the second is of a function that must not be copied. -/
def halfInlined : Module where
  name := "m"
  functions :=
    [{ name := "f"
       blocks :=
         [{ id := 1
            instrs :=
              [.call ⟨0, "g", [], none, .pure, false⟩, .call ⟨0, "log", [], none, .side, false⟩]
            term := some (.ret 0 false) }] },
     { name := "g", blocks := [{ id := 1, term := some (.ret 0 false) }] },
     { name := "log", critical := true, blocks := [{ id := 1, term := some (.ret 0 false) }] }]

/-- A manager that has not run yet, at work on `m`. -/
def workOn (m : Module) : Manager.Work Unit := ⟨{ world := () }, .ofModule m⟩

/-- A run over the verified module fails after a change. It reports none, and none is counted. -/
def HidesChange (t : Transform) (m : Module) : Prop :=
  moduleErr? (some m) = none ∧ ∃ f w m', (workOn m).runPass t.pass id = (⟨false, some f⟩, w) ∧
    w.listing = .ofModule m' ∧ m' ≠ m ∧ w.manager.modifiedCount t.name = 0

theorem failed_runs_hide_changes :
    HidesChange constFold ⟨"m", [miscompared]⟩ ∧
      HidesChange (deadCode 0) ⟨"m", [barred, { name := "log", critical := true }]⟩ ∧
      HidesChange (inline ⟨10, false⟩) halfInlined := by
  have hhides (t : Transform) (m : Module) (hm : moduleErr? (some m) = none)
      (hfailure : (t.pass.onModule ⟨some .standard, t.name⟩ (workOn m).toRun).1.failure ≠ none)
      (hquiet : (t.pass.onModule ⟨some .standard, t.name⟩ (workOn m).toRun).1.modified = false)
      (htally : (t.pass.onModule ⟨some .standard, t.name⟩ (workOn m).toRun).2.tally ≠
        (workOn m).toRun.tally) : HidesChange t m := by
    obtain ⟨f, hf⟩ := Option.ne_none_iff_exists'.1 hfailure
    obtain ⟨⟨_, fn, fn', _, m', _, _, _, hlisting, _, _, _, _, hchange⟩, hcount⟩ :=
      t.onModule_reports_of_failure rfl rfl hm hf
    obtain ⟨hsame, hshows, -, -⟩ := hchange hquiet
    have hcount := hcount (workOn m) rfl rfl
    rw [hquiet] at hcount
    refine ⟨hm, f, _, m', Prod.ext ?_ rfl, ?_, mt hsame.1 (mt hshows.1 htally), hcount⟩
    · rw [(workOn m).runPass_fst t.pass id, ← hquiet, ← hf]
      rfl
    · rw [← hlisting]
      exact congrArg Run.listing ((workOn m).runPass_toRun t.pass id)
  refine ⟨hhides _ _ (by decide) ?_ ?_ ?_, hhides _ _ (by decide) ?_ ?_ ?_,
    hhides _ _ (by decide) ?_ ?_ ?_⟩ <;> decide +kernel

end Transform

end SsaOpt
