import Mathlib.Data.List.Induction
import SsaOpt.Disk.Tree
import SsaOpt.Proofs.CoupledRuns
import SsaOpt.Proofs.FileCalls

/-!
# Runs do not depend on history

A pipeline can be used again, and what earlier calls leave behind does not matter. The built-in
passes count what they do but never look at the counts, so runs over states that differ in nothing
else are the same in everything else (`Manager.coupling_of_isBuiltin`). A run of a pipeline starts
with no diagnostics and an empty cache, and no call changes the setup of the manager
(`Pipeline.AfterCalls.setup`). So a pipeline that has served any calls does to a module what a fresh
one does: `Pipeline.run_independent_of_history`.
-/

namespace SsaOpt

variable {σ : Type}

/-! ## Counts -/

namespace Run

/-- The same state with other counts of what has been done. -/
def withTally (r : Run σ) (t : Tally) : Run σ := { r with tally := t }

/-- Two states that differ at most in the counts. -/
def SameButTally (r r' : Run σ) : Prop := ∃ t, r' = r.withTally t

/-- Two steps that differ at most in the counts that they leave. -/
def SameStep (x y : Outcome × Run σ) : Prop := y.1 = x.1 ∧ x.2.SameButTally y.2

section Lookup

variable (r : Run σ) (t : Tally) (fn : Function)

theorem flowGraph_withTally : (r.withTally t).flowGraph fn =
    ((r.flowGraph fn).1, (r.flowGraph fn).2.withTally t) := by
  unfold flowGraph
  dsimp only [withTally]
  split <;> rfl

theorem domTree_withTally : (r.withTally t).domTree fn =
    ((r.domTree fn).1, (r.domTree fn).2.withTally t) := by
  unfold domTree
  rw [flowGraph_withTally]
  dsimp only [withTally]
  split <;> rfl

theorem loopInfo_withTally : (r.withTally t).loopInfo fn =
    ((r.loopInfo fn).1, (r.loopInfo fn).2.withTally t) := by
  unfold loopInfo
  rw [flowGraph_withTally]
  dsimp only
  rw [domTree_withTally]
  dsimp only [withTally]
  split <;> rfl

theorem callGraph?_withTally : (r.withTally t).callGraph? =
    r.callGraph?.map fun x => (x.1, x.2.withTally t) := by
  unfold callGraph?
  dsimp only [withTally]
  split
  · rfl
  · rw [Option.map_map]
    rfl

end Lookup

theorem outcomeAlike_of_sameStep {x y : Outcome × Run σ} (h : SameStep x y) :
    Manager.OutcomeAlike Eq x.1 y.1 ∧ x.2.SameButTally y.2 := by
  obtain ⟨hout, hafter⟩ := h
  rw [hout]
  exact ⟨⟨rfl, Manager.rel_refl (fun _ => rfl) _⟩, hafter⟩

/-- Steps on functions in turn do the same if each of them does. -/
theorem eachFunction_sameStep {step : Nat → Run σ → Outcome × Run σ}
    (hstep : ∀ k r t, SameStep (step k r) (step k (r.withTally t))) (ks : List Nat)
    (modified : Bool) (r : Run σ) (t : Tally) :
    SameStep (eachFunction step ks modified r) (eachFunction step ks modified (r.withTally t)) := by
  have hplaces : ∀ {r r' : Run σ}, r.SameButTally r' →
      Manager.SamePlaces r.listing r'.listing := by
    rintro r _ ⟨t, rfl⟩
    exact .refl _
  have halike : ∀ k {r r' fn}, r.SameButTally r' → r.listing.function? k = some fn →
      fn.isExternal = false → Manager.OutcomeAlike Eq (step k r).1 (step k r').1 ∧
        (step k r).2.SameButTally (step k r').2 := by
    rintro k r _ fn ⟨t, rfl⟩ - -
    exact outcomeAlike_of_sameStep (hstep k r t)
  obtain ⟨hout, hafter⟩ := Manager.eachFunction_alike hplaces (fun _ h => h ▸ rfl) halike ks
    modified (show r.SameButTally (r.withTally t) from ⟨t, rfl⟩)
  exact ⟨hout.eq, hafter⟩

end Run

/-! ## The built-in passes -/

namespace Analysis

theorem onFunction_sameStep (a : Analysis) (k : Nat) (r : Run σ) (t : Tally) :
    Run.SameStep (a.onFunction k r) (a.onFunction k (r.withTally t)) := by
  have hplace : (r.withTally t).listing.function? k = r.listing.function? k := rfl
  unfold onFunction
  rw [hplace]
  cases r.listing.function? k with
  | none => cases a <;> exact ⟨rfl, t, rfl⟩
  | some fn =>
    cases a with
    | flow => exact ⟨rfl, t, congrArg Prod.snd (r.flowGraph_withTally t fn)⟩
    | dominators => exact ⟨rfl, t, congrArg Prod.snd (r.domTree_withTally t fn)⟩
    | loops => exact ⟨rfl, t, congrArg Prod.snd (r.loopInfo_withTally t fn)⟩
    | calls => exact ⟨rfl, t, rfl⟩

theorem onModule_sameStep (a : Analysis) (r : Run σ) (t : Tally) :
    Run.SameStep (a.onModule r) (a.onModule (r.withTally t)) := by
  cases a with
  | calls =>
    have hcalls := Run.callGraph?_withTally { r with cache := r.cache.invalidate calls.name } t
    unfold onModule
    dsimp only [Run.withTally] at hcalls ⊢
    rw [hcalls]
    cases Run.callGraph? { r with cache := r.cache.invalidate calls.name } with
    | none => exact ⟨rfl, t, rfl⟩
    | some x => exact ⟨rfl, t, rfl⟩
  | _ => exact Run.eachFunction_sameStep (onFunction_sameStep _) _ _ _ t

end Analysis

namespace Transform

theorem warnings_withTally {env : PassEnv} (f : Inline.Warning → String)
    (ws : List Inline.Warning) (name : String) (r : Run σ) (t : Tally) :
    ws.foldl (fun r w => r.warn env "W0003" name (f w)) (r.withTally t) =
      (ws.foldl (fun r w => r.warn env "W0003" name (f w)) r).withTally t := by
  induction ws generalizing r with
  | nil => rfl
  | cons w ws ih => exact ih (r.warn env "W0003" name (f w))

theorem onFunction_sameStep (transform : Transform) (env : PassEnv) (k : Nat) (r : Run σ)
    (t : Tally) :
    Run.SameStep (transform.onFunction env k r) (transform.onFunction env k (r.withTally t)) := by
  have hplace : (r.withTally t).listing.function? k = r.listing.function? k := rfl
  unfold onFunction
  rw [hplace]
  cases r.listing.function? k with
  | none => exact ⟨rfl, t, rfl⟩
  | some fn =>
    cases transform with
    | constFold => exact ⟨rfl, _, rfl⟩
    | deadCode n =>
      have hlisting : (r.withTally t).listing = r.listing := rfl
      dsimp only
      unfold cleanFunction
      rw [hlisting]
      cases fn.blocks.all fun b => b.instrs.all r.listing.canJudge with
      | false => exact ⟨rfl, t, rfl⟩
      | true =>
        cases hlimited : (DeadCode.run env.checker r.listing.front n fn).limited with
        | false =>
          simp only [hlimited]
          exact ⟨rfl, _, rfl⟩
        | true =>
          simp only [hlimited]
          exact ⟨rfl, _, rfl⟩
    | inline p =>
      dsimp only
      unfold inlineFunction
      rw [Run.callGraph?_withTally]
      cases r.callGraph? with
      | none => exact ⟨rfl, t, rfl⟩
      | some x =>
        obtain ⟨g, r'⟩ := x
        dsimp only [Option.map_some]
        rw [Run.domTree_withTally]
        generalize r'.domTree fn = y
        obtain ⟨tree, r₂⟩ := y
        have hlisting : (r₂.withTally t).listing = r₂.listing := rfl
        dsimp only
        rw [hlisting]
        generalize Inline.run p env.checker r₂.listing.front g tree k fn = done
        exact ⟨rfl, { t with inlined := t.inlined + done.inlined }, warnings_withTally _ _ _
          { r₂.setFunction k done.function with
            tally := { r₂.tally with inlined := r₂.tally.inlined + done.inlined } } _⟩

end Transform

namespace Manager

/-- **The built-in passes** do not look at the counts. -/
theorem coupling_of_isBuiltin {passes : List (Pass σ)} (hbuiltin : ∀ q ∈ passes, q.IsBuiltin)
    (checker : Checker) : Coupling passes checker Run.SameButTally Eq where
  refl _ := rfl
  annotate _ h := h ▸ rfl
  failedBy _ h := h ▸ rfl
  world_eq := by
    rintro r _ ⟨t, rfl⟩
    rfl
  validNames_eq := by
    rintro r _ ⟨t, rfl⟩
    rfl
  fingerprint_eq := by
    rintro r _ ⟨t, rfl⟩
    rfl
  markValid := by
    rintro r _ name ⟨t, rfl⟩
    exact ⟨t, rfl⟩
  invalidate := by
    rintro r _ name ⟨t, rfl⟩
    exact ⟨t, rfl⟩
  verify := by
    rintro r _ ⟨t, rfl⟩
    exact rel_refl (fun _ => rfl) _
  refuse := by
    rintro p - r _ ⟨t, rfl⟩
    exact rel_refl (fun _ => rfl) _
  call := by
    rintro p hp r _ ⟨t, rfl⟩ -
    rcases hbuiltin p hp with ⟨a, rfl⟩ | ⟨transform, rfl⟩
    · exact Run.outcomeAlike_of_sameStep (a.onModule_sameStep r t)
    · exact Run.outcomeAlike_of_sameStep
        (Run.eachFunction_sameStep (transform.onFunction_sameStep _) _ _ r t)

end Manager

/-! ## Pipelines -/

namespace Pipeline

variable {config : Option Config} {debug debug' : Bool} {p q : Pipeline}

/-- Whether progress is printed makes no difference to how a pipeline is built. -/
theorem new_debug (h : Pipeline.new config debug = .ok p) :
    Pipeline.new config debug' = .ok { p with debug := debug' } := by
  unfold Pipeline.new at h ⊢
  dsimp only at h ⊢
  split at h
  · cases h
  · obtain ⟨ts, hts, h⟩ := exists_of_bind_eq_ok h
    obtain ⟨mgr, hmgr, h⟩ := exists_of_bind_eq_ok h
    obtain rfl := Except.ok.inj h
    simp only [hts, hmgr, bind, Except.bind]

/-- The passes of a new pipeline are all built-in. -/
theorem new_isBuiltin (h : Pipeline.new config debug = .ok p) :
    ∀ q ∈ p.manager.passes, q.IsBuiltin := by
  obtain ⟨-, ts, -, hpasses⟩ := new_eq_ok h
  intro q hq
  rw [hpasses] at hq
  rcases List.mem_append.1 hq with hq | hq
  · obtain ⟨a, -, rfl⟩ := List.mem_map.1 hq
    exact Or.inl ⟨a, rfl⟩
  · obtain ⟨t, -, rfl⟩ := List.mem_map.1 hq
    exact Or.inr ⟨t, rfl⟩

theorem ordered_passes (ts : List Transform) :
    Manager.Ordered () (Analysis.all.map Analysis.pass ++ ts.map Transform.pass) := by
  induction ts using List.reverseRecOn with
  | nil =>
    have hflow := (Manager.Ordered.nil ()).concat (p := Analysis.flow.pass) (by decide)
    have hdominators := hflow.concat (p := Analysis.dominators.pass) (by decide)
    have hloops := hdominators.concat (p := Analysis.loops.pass) (by decide)
    exact hloops.concat (p := Analysis.calls.pass) (by decide)
  | append_singleton ts t ih =>
    rw [List.map_append, ← List.append_assoc]
    refine ih.concat fun r hr => ?_
    rw [List.map_append]
    refine List.mem_append_left _ ?_
    cases t with
    | inline policy =>
      rcases List.mem_pair.1 hr with rfl | rfl <;> decide
    | constFold => cases hr
    | deadCode n => cases hr

/-- A new pipeline runs its passes in the order in which they are configured. -/
theorem new_sortPasses (h : Pipeline.new config debug = .ok p) :
    p.manager.sortPasses = .ok p.manager.passes := by
  obtain ⟨-, ts, -, hpasses⟩ := new_eq_ok h
  have hnodup : (p.manager.passes.map Pass.name).Nodup := by
    unfold Pipeline.new at h
    dsimp only at h
    split at h
    · cases h
    · obtain ⟨ts, -, h⟩ := exists_of_bind_eq_ok h
      obtain ⟨mgr, hmgr, h⟩ := exists_of_bind_eq_ok h
      obtain rfl := Except.ok.inj h
      obtain ⟨rfl, hnodup, -⟩ := Manager.addPasses_eq_ok hmgr
      exact hnodup
  exact Manager.sortPasses_of_ordered hnodup (hpasses ▸ ordered_passes ts)

/-! ## Runs after calls -/

/-- Two runs that do the same to a module and report the same. -/
structure SameRun (x y : PipelineRun) : Prop where
  module_eq : x.module = y.module
  failure_eq : x.failure = y.failure
  bag_eq : x.pipeline.bag = y.pipeline.bag
  phase_eq : x.pipeline.phase = y.pipeline.phase

theorem optimize_sameRun {l : Listing} {order : List (Pass Unit)}
    (hbuiltin : ∀ pass ∈ q.manager.passes, pass.IsBuiltin)
    (hsetup : Manager.SameSetup q.manager p.manager) (hsort : q.manager.sortPasses = .ok order)
    (hbag : p.manager.bag = q.manager.bag) (hphase : p.phase = q.phase) :
    SameRun (p.optimize l) (q.optimize l) := by
  have hstart : (q.manager.initial l).SameButTally (p.manager.initial l) :=
    ⟨p.manager.tally, by simp [Manager.initial, Manager.Work.toRun, Run.withTally, hbag]⟩
  obtain ⟨hfailure, hbeside⟩ := (Manager.coupling_of_isBuiltin hbuiltin q.manager.checker)
    |>.endAlike_run rfl rfl hsetup hsort hstart
  unfold optimize
  generalize q.manager.run l = x at hfailure hbeside ⊢
  generalize p.manager.run l = y at hfailure hbeside ⊢
  obtain ⟨f, w⟩ := x
  obtain ⟨f', w'⟩ := y
  obtain rfl : f' = f := Manager.eq_of_rel hfailure
  obtain ⟨t, hrelated⟩ := hbeside.related
  have hlisting : w'.listing = w.listing := congrArg Run.listing hrelated
  have hbag' : w'.manager.bag = w.manager.bag := congrArg Run.bag hrelated
  rcases f' with _ | e | _
  · exact ⟨congrArg some hlisting, rfl, hbag', rfl⟩
  · exact ⟨congrArg some hlisting, rfl, congrArg (Bag.addErr e) hbag', hphase⟩
  · exact ⟨congrArg some hlisting, rfl, hbag', hphase⟩

theorem run_sameRun {order : List (Pass Unit)}
    (hbuiltin : ∀ pass ∈ q.manager.passes, pass.IsBuiltin)
    (hsetup : Manager.SameSetup q.manager p.manager) (hsort : q.manager.sortPasses = .ok order)
    (m : Option Listing) : SameRun (p.run m) (q.run m) := by
  unfold run
  have hchecker : (p.load m).manager.checker = (q.load m).manager.checker := hsetup.checker_eq
  dsimp only
  rw [hchecker]
  cases (q.load m).manager.checker.verifyModule m with
  | some f => cases f <;> exact ⟨rfl, rfl, rfl, rfl⟩
  | none =>
    cases m with
    | none => exact ⟨rfl, rfl, rfl, rfl⟩
    | some l =>
      have hloaded : (q.load (some l)).manager.sortPasses = .ok order :=
        (Manager.sortPasses_congr (by rfl) (by rfl)).trans hsort
      have hdone : SameRun ({ p.load (some l) with phase := .verified }.optimize l)
          ({ q.load (some l) with phase := .verified }.optimize l) :=
        optimize_sameRun hbuiltin
          ⟨hsetup.passes_eq, hsetup.checker_eq, hsetup.verifyModified_eq⟩
          hloaded rfl rfl
      exact ⟨hdone.module_eq, hdone.failure_eq, hdone.bag_eq, hdone.phase_eq⟩

/-- **Runs do not depend on history.** A pipeline that has served any calls, however they ended, and
a fresh one of the same configuration leave the same module, fail in the same way or not at all,
report the same in the same order, and come to the same phase. -/
theorem run_independent_of_history {S : Type} [Disk (StateM S)] {p₀ : Pipeline}
    (hp₀ : Pipeline.new config debug = .ok p₀) (hp : AfterCalls S p₀ p)
    (hq : Pipeline.new config debug' = .ok q) (m : Option Listing) :
    (p.run m).module = (q.run m).module ∧ (p.run m).failure = (q.run m).failure ∧
      (p.run m).pipeline.bag = (q.run m).pipeline.bag ∧
      (p.run m).pipeline.phase = (q.run m).pipeline.phase := by
  obtain rfl : { p₀ with debug := debug' } = q := Except.ok.inj ((new_debug hp₀).symm.trans hq)
  obtain ⟨hmodule, hfailure, hbag, hphase⟩ :=
    run_sameRun (new_isBuiltin hq) hp.setup (new_sortPasses hq) m
  exact ⟨hmodule, hfailure, hbag, hphase⟩

end Pipeline

/-- One round of dead code elimination. -/
def Config.oneRound : Config where
  passes := ["dce"]
  maxIterations := 1

/-- The pipeline of this configuration. -/
def Pipeline.oneRound : Pipeline where
  config := .oneRound
  manager :=
    { passes := Analysis.all.map Analysis.pass ++ [Transform.deadCode 1].map Transform.pass
      world := () }

/-- A function with a dead constant, and with a volatile write in a block that cannot be reached. -/
def Module.unreachedWrite : Module where
  name := "m"
  functions :=
    [{ name := "f"
       blocks :=
         [{ id := 1, instrs := [.alloca ⟨1, some .bool⟩, .const ⟨2, some .bool, "true"⟩]
            term := some (.ret 0 false) },
          { id := 2, instrs := [.store ⟨1, 1, true, false⟩], term := some (.ret 0 false) }] }]

/-- A function of the same name with a sum that only a dead product reads. -/
def Module.deadProduct : Module where
  name := "m"
  functions :=
    [{ name := "f"
       blocks :=
         [{ id := 1
            instrs := [.const ⟨1, some .bool, "true"⟩, .binary ⟨2, .or, 1, 1, some .bool⟩,
              .binary ⟨3, .and, 2, 2, some .bool⟩]
            term := some (.ret 0 false) }] }]

/-- A run that stops half-way and a call without a file leave two errors behind. The run after that
is the one of a fresh pipeline, with its one warning. -/
theorem Pipeline.oneRound_after_failures :
    ∃ p, AfterCalls FileTree oneRound p ∧ p.bag.errorCount = 2 ∧ p.phase = .verified ∧
      p.manager.tally.removedInstrs = 1 ∧
      (p.run (some (.ofModule .deadProduct))).module =
        (oneRound.run (some (.ofModule .deadProduct))).module ∧
      (p.run (some (.ofModule .deadProduct))).pipeline.bag.map Diagnostic.message =
        ["no fixed point after 1 iteration(s)"] ∧
      (p.run (some (.ofModule .deadProduct))).pipeline.phase = .optimized := by
  have hnew : Pipeline.new (some .oneRound) false = .ok .oneRound := rfl
  have hstart : AfterCalls FileTree oneRound oneRound := .none
  have hcalls := (hstart.run (some (.ofModule .unreachedWrite))).runFile "" "" {}
  obtain ⟨hmodule, -, hbag, hphase⟩ :=
    run_independent_of_history hnew hcalls hnew (some (.ofModule .deadProduct))
  refine ⟨_, hcalls, by decide +kernel, by decide +kernel, by decide +kernel, hmodule, ?_, ?_⟩
  · rw [hbag]
    decide +kernel
  · rw [hphase]
    decide +kernel

end SsaOpt
