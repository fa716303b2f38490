import SsaOpt.Proofs.BuiltinRuns
import SsaOpt.Proofs.ModifiedFlag
import SsaOpt.Proofs.RoundTrip

/-!
# Changes that are not reported

A manager can be told to take it for a failure if a pass changes the module and reports no change. A
pass that reports its changes, and whose own failures are of other kinds, keeps its part of the
contract (`Pass.Candid`). The built-in passes do (`Pass.candid_of_isBuiltin`), so a manager never
finds such a failure in one of them. The report of a transformation is right in the other direction
too: a change that is reported shows in the module, and not only in the counters for fresh numbers.
-/

namespace SsaOpt

variable {σ : Type}

/-! ## Counters -/

/-- A change of the functions shows in the module without the counters. -/
theorem Module.ChangedUpTo.forgetCounters_eq_iff {m m' : Module}
    (h : ChangedUpTo Function.SameOrOtherBlocks m m.functions.length m') :
    m'.forgetCounters = m.forgetCounters ↔ m' = m := by
  refine ⟨fun heq => ?_, congrArg _⟩
  by_contra hne
  obtain ⟨j, hj, hdiffer⟩ := h.ne_iff.1 hne
  have hfn : m.functions[j]? = some _ := List.getElem?_eq_getElem hj
  have hfn' : m'.functions[j]? = some _ := List.getElem?_eq_getElem (h.length_eq ▸ hj)
  have hplace := congrArg (fun m : Module => m.functions[j]?) heq
  simp only [forgetCounters, List.getElem?_map, hfn, hfn', Option.map_some, Option.some.injEq]
    at hplace
  have hblocks := congrArg Function.blocks hplace
  rw [hfn, hfn', h.changed j _ _ hj hfn hfn' hblocks] at hdiffer
  exact hdiffer rfl

/-- **The report of a transformation that does not fail** is right. -/
theorem Transform.onModule_flag (t : Transform) (env : PassEnv) {r : Run σ} {m : Module}
    (hr : r.listing = .ofModule m) (hnone : (t.pass.onModule env r).1.failure = none) :
    ∃ m', (t.pass.onModule env r).2.listing = .ofModule m' ∧
      ((t.pass.onModule env r).1.modified = true ↔ m' ≠ m) ∧
      (m'.forgetCounters = m.forgetCounters ↔ m' = m) := by
  rcases t.onModule_concluded env hr with ⟨-, m', h⟩ | ⟨_, _, _, _, f, _, _, _, hfailure, _⟩
  · exact ⟨m', h.listing_eq, h.flag, h.changed.forgetCounters_eq_iff⟩
  · simp [hnone] at hfailure

/-! ## The contract -/

/-- No error of the kind `k`. -/
def Failure.Avoids (k : Kind) (f : Failure) : Prop := ∀ e, f = .error e → e.isKind k = false

namespace Failure.Avoids

variable {k : Kind}

theorem fault : fault.Avoids k := nofun

theorem error {e : Err} (h : e.isKind k = false) : (Failure.error e).Avoids k := by
  rintro _ ⟨⟩
  exact h

theorem failedBy {f : PassFailure} {cause : Err} (h : f.kind ≠ k)
    (hcause : cause.isKind k = false) : (Failure.error (.failedBy f cause)).Avoids k := by
  refine error ?_
  rw [Err.isKind, hcause, Bool.or_false]
  exact decide_eq_false h

theorem annotate {f : Failure} (h : f.Avoids k) (pass : String) :
    (Manager.annotate pass f).Avoids k := by
  cases f with
  | fault => exact fault
  | error e => exact error ((e.isKind_annotate k pass).trans (h e rfl))

end Failure.Avoids

/-- What a manager relies on when it looks for changes that are not reported: the pass reports its
changes to the module, and does not fail with an error of that kind itself. -/
structure Pass.Candid (q : Pass σ) (env : PassEnv) (r : Run σ) : Prop where
  avoids : ∀ f, (q.onModule env r).1.failure = some f → f.Avoids .unreportedModification
  unmodified : (q.onModule env r).1.failure = none → (q.onModule env r).1.modified = false →
    (q.onModule env r).2.listing = r.listing

/-- A run over functions ends in a fault if it fails, where a step never fails otherwise. -/
theorem Run.eachFunction_fault {step : Nat → Run σ → Outcome × Run σ}
    (hstep : ∀ k r f, (step k r).1.failure = some f → f = .fault) {ks : List Nat} {modified : Bool}
    {r : Run σ} {f : Failure} (h : (eachFunction step ks modified r).1.failure = some f) :
    f = .fault := by
  fun_induction eachFunction step ks modified r with
  | case1 => cases h
  | case2 => exact (Option.some.inj h).symm
  | case3 _ _ _ _ _ _ _ ih => exact ih h
  | case4 _ _ _ _ _ _ _ _ _ _ _ ih => exact ih h
  | case5 k _ _ r _ _ _ out r' hout e he =>
    have hfault : Failure.error e = .fault := hstep k r _ (by rw [hout]; exact he)
    cases hfault
  | case6 => exact (Option.some.inj h).symm

namespace Analysis

theorem onFunction_listing (a : Analysis) (k : Nat) (r : Run σ) :
    (a.onFunction k r).2.listing = r.listing := by
  cases hplace : r.listing.function? k with
  | some fn => exact (a.onFunction_idle (by simp [hplace])).2.2
  | none => cases a <;> simp [onFunction, hplace]

theorem onFunction_fault (a : Analysis) (k : Nat) (r : Run σ) (f : Failure)
    (h : (a.onFunction k r).1.failure = some f) : f = .fault := by
  cases hplace : r.listing.function? k with
  | some fn =>
    obtain ⟨-, hnone, -⟩ := @onFunction_idle _ a k r (by simp [hplace])
    simp [hnone] at h
  | none => cases a <;> simp_all [onFunction]

/-- An analysis leaves every listing as it is, and a failure of it is a fault. -/
theorem onModule_fault (a : Analysis) (r : Run σ) :
    (∀ f, (a.onModule r).1.failure = some f → f = .fault) ∧
      (a.onModule r).2.listing = r.listing := by
  have heach (r' : Run σ) : (∀ f, (r'.allFunctions a.onFunction).1.failure = some f → f = .fault) ∧
      (r'.allFunctions a.onFunction).2.listing = r'.listing :=
    ⟨fun f => Run.eachFunction_fault a.onFunction_fault,
      Run.eachFunction_preserves (P := fun s => s.listing = r'.listing)
        (fun k s hs => (a.onFunction_listing k s).trans hs) _ _ r' rfl⟩
  cases a with
  | calls =>
    unfold onModule
    dsimp only
    split
    · next g r' hcalls =>
      obtain ⟨cache, rfl, -⟩ := Run.callGraph?_cache hcalls
      exact ⟨nofun, rfl⟩
    · exact ⟨fun f hf => (Option.some.inj hf).symm, rfl⟩
  | _ => exact heach { r with cache := r.cache.invalidate _ }

end Analysis

/-! ### What is refused -/

theorem Listing.eq_ofModule {l : Listing} {m : Module} (h : l.module? = some m) :
    l = .ofModule m := by
  have hplaces (ps : List (Option Function)) (hsome : ∀ p ∈ ps, p.isSome = true) :
      ((ps.takeWhile Option.isSome).filterMap id).map some = ps := by
    induction ps with
    | nil => rfl
    | cons p ps ih =>
      obtain ⟨fn, rfl⟩ := Option.isSome_iff_exists.1 (hsome p List.mem_cons_self)
      simpa using ih fun p hp => hsome p (List.mem_cons_of_mem _ hp)
  unfold module? at h
  split at h
  · next hcomplete =>
    obtain rfl := Option.some.inj h
    rw [ofModule, front, hplaces l.places (List.all_eq_true.1 hcomplete)]
  · cases h

/-- What the standard checker finds in a module is of no kind. -/
theorem isKind_listingFailure? {l : Listing} {cause : Err} (k : Kind)
    (h : listingFailure? (some l) = some (.error cause)) : cause.isKind k = false := by
  rw [listingFailure?] at h
  cases hmodule : l.module? with
  | none => simp [hmodule] at h
  | some m =>
    rw [hmodule] at h
    obtain ⟨e, he, heq⟩ := Option.map_eq_some_iff.1 h
    obtain rfl := Failure.error.inj heq
    exact Err.isKind_moduleErr? k he

namespace Transform

variable {t : Transform} {name : String} {l : Listing}

/-- What a transformation does not refuse is a verified module. -/
theorem verified_of_refusal? (h : t.refusal? ⟨some .standard, name⟩ l = none) :
    ∃ m, l = .ofModule m ∧ moduleErr? (some m) = none := by
  unfold refusal? at h
  split at h
  · cases h
  · have hverify : listingFailure? (some l) = none := by
      split at h
      · cases h
      · exact h
    rw [listingFailure?] at hverify
    cases hmodule : l.module? with
    | none => simp [hmodule] at hverify
    | some m => exact ⟨m, Listing.eq_ofModule hmodule, by simpa [hmodule] using hverify⟩

theorem refusal?_avoids {f : Failure} (h : t.refusal? ⟨some .standard, name⟩ l = some f) :
    f.Avoids .unreportedModification := by
  unfold refusal? at h
  split at h
  · next e he =>
    obtain rfl := Option.some.inj h
    obtain ⟨message, rfl⟩ := registrationErr?_plain he
    exact .error rfl
  · split at h
    · next cause hverify =>
      obtain rfl := Option.some.inj h
      exact .failedBy (by simp) (isKind_listingFailure? _ hverify)
    · next hother =>
      cases f with
      | fault => exact .fault
      | error e => exact absurd h (hother e)

end Transform

/-- **The built-in passes** keep the contract on all that they do not refuse. -/
theorem Pass.candid_of_isBuiltin {q : Pass σ} (hq : q.IsBuiltin) {env : PassEnv}
    (henv : env.checker = some .standard) {r : Run σ} (h : q.refusal? env r.listing = none) :
    q.Candid env r := by
  rcases hq with ⟨a, rfl⟩ | ⟨t, rfl⟩
  · obtain ⟨hfault, hlisting⟩ := a.onModule_fault r
    refine ⟨fun f hf => ?_, fun _ _ => hlisting⟩
    obtain rfl := hfault f hf
    exact .fault
  · obtain ⟨checker, name⟩ := env
    obtain rfl : checker = some .standard := henv
    obtain ⟨m, hr, -⟩ := Transform.verified_of_refusal? h
    refine ⟨fun f hf => ?_, t.onModule_unmodified⟩
    obtain ⟨e, rfl, hkinds⟩ := Transform.onModule_failure rfl hr hf
    exact .error (Failure.IsUnsafe.isKind_eq_false ⟨e, rfl, hkinds⟩ rfl)

/-! ## The manager -/

namespace Manager

open DeadCode

variable {mgr : Manager σ} {w w' : Work σ} {q : Pass σ}

/-- The checks after a pass that reports its changes. -/
theorem afterPass_avoids {modified : Bool} (hchecker : w'.manager.checker = .standard)
    (hverify : w'.manager.verifyModified = w.manager.verifyModified)
    (hsame : modified = false → w'.listing = w.listing) {f : Failure}
    (h : (afterPass q (if w.manager.verifyModified then w.listing.fingerprint else 0) modified
      w').1 = some f) : f.Avoids .unreportedModification := by
  cases modified with
  | true =>
    rw [afterPass, if_pos rfl, hchecker] at h
    cases hfailure : Checker.standard.verifyModule (some w'.listing) with
    | none => simp [hfailure] at h
    | some f' =>
      cases f' with
      | fault =>
        obtain rfl : .fault = f := by simpa [hfailure] using h
        exact .fault
      | error cause =>
        simp only [hfailure, Option.some.injEq] at h
        obtain rfl := h
        exact .failedBy (by simp) (isKind_listingFailure? _ hfailure)
  | false =>
    rw [afterPass, if_neg (by simp), hverify, hsame rfl, if_neg] at h
    · cases h
    · cases w.manager.verifyModified <;> simp

/-- What a built-in pass refuses. -/
theorem refusal_avoids (hq : q.IsBuiltin) (hchecker : w.manager.checker = .standard) {f : Failure}
    (h : q.refusal? (w.manager.envFor q.name) w.listing = some f) :
    f.Avoids .unreportedModification := by
  rcases hq with ⟨a, rfl⟩ | ⟨t, rfl⟩
  · cases h
  · rw [envFor, hchecker] at h
    exact Transform.refusal?_avoids h

theorem candid_of_refusal (hq : q.IsBuiltin) (hchecker : w.manager.checker = .standard)
    (h : q.refusal? (w.manager.envFor q.name) w.listing = none) :
    q.Candid (w.manager.envFor q.name) w.toRun :=
  Pass.candid_of_isBuiltin hq (congrArg some hchecker) h

/-- **A built-in pass** that has what it requires. -/
theorem attempt_avoids (hq : q.IsBuiltin) (hchecker : w.manager.checker = .standard) {f : Failure}
    (h : (attempt q w).1 = some f) : f.Avoids .unreportedModification := by
  unfold attempt at h
  cases hrefusal : q.refusal? (w.manager.envFor q.name) w.listing with
  | some f' =>
    rw [hrefusal] at h
    obtain rfl := Option.some.inj h
    exact (refusal_avoids hq hchecker hrefusal).annotate q.name
  | none =>
    obtain ⟨havoids, hunmodified⟩ := candid_of_refusal hq hchecker hrefusal
    have hsetup := w.runPass_setup q id
    rw [hrefusal] at h
    rw [← w.runPass_fst q id] at havoids hunmodified
    rw [← w.runPass_toRun q id] at hunmodified
    generalize w.runPass q id = result at h hsetup havoids hunmodified
    rcases result with ⟨⟨modified, _ | f'⟩, w'⟩
    · refine afterPass_avoids (w := w) ?_ ?_ ?_ h
      · split <;> exact hsetup.checker_eq.trans hchecker
      · split <;> exact hsetup.verifyModified_eq
      · split <;> exact hunmodified rfl
    · obtain rfl := Option.some.inj h
      exact (havoids f' rfl).annotate q.name

/-- Steps in turn that leave the setup of a manager as it is fail as one of them does. -/
theorem inTurn_fails {α : Type} {step : Work σ → α → Option Failure × Work σ} {Q : Failure → Prop}
    {xs : List α} (hsetup : ∀ x w, SameSetup w.manager (step w x).2.manager)
    (hstep : ∀ x ∈ xs, ∀ w, SameSetup mgr w.manager → ∀ f, (step w x).1 = some f → Q f)
    (hw : SameSetup mgr w.manager) (f : Failure) (h : (inTurn step xs w).1 = some f) : Q f := by
  have hends : Ends (fun w => SameSetup mgr w.manager) (fun f _ => Q f) (inTurn step xs w) := by
    refine ends_inTurn (fun x hx w hw => ?_) hw
    have hkept := hw.trans (hsetup x w)
    have hfails := hstep x hx w hw
    generalize step w x = result at hkept hfails ⊢
    rcases result with ⟨_ | f, w'⟩
    · exact hkept
    · exact hfails f rfl
  generalize inTurn step xs w = result at hends h
  rcases result with ⟨_ | f', w'⟩
  · cases h
  · exact Option.some.inj h ▸ hends

/-- **Computing analyses.** -/
theorem ensure_avoids (hbuiltin : ∀ q ∈ mgr.passes, q.IsBuiltin)
    (hchecker : mgr.checker = .standard) (fuel : Nat) :
    ∀ (name : String) (w : Work σ), SameSetup mgr w.manager → ∀ f, (ensure fuel w name).1 = some f →
      f.Avoids .unreportedModification := by
  induction fuel with
  | zero => exact fun name w _ f hf => nomatch hf
  | succ fuel ih =>
    intro name w hw f hf
    rw [ensure] at hf
    cases hfind : w.manager.find? name with
    | none =>
      simp only [hfind, Option.some.injEq] at hf
      obtain rfl := hf
      exact .error rfl
    | some p =>
      have hp : p.IsBuiltin := hbuiltin p (hw.passes_eq ▸ List.mem_of_find?_eq_some hfind)
      rw [hfind] at hf
      dsimp only at hf
      split at hf
      · cases hf
      next hstale =>
        obtain ⟨a, rfl⟩ : ∃ a : Analysis, p = a.pass := by
          rcases hp with ha | ⟨t, rfl⟩
          · exact ha
          · exact absurd rfl hstale
        have hsetup := hw.trans
          (inTurn_setup (ensure_setup fuel) ((a.pass : Pass σ).requires w.manager.world) w)
        have hrequired : ∀ f, (inTurn (ensure fuel) ((a.pass : Pass σ).requires w.manager.world)
            w).1 = some f → f.Avoids .unreportedModification :=
          inTurn_fails (ensure_setup fuel) (fun n _ => ih n) hw
        generalize inTurn (ensure fuel) ((a.pass : Pass σ).requires w.manager.world) w = result
          at hrequired hsetup hf
        rcases result with ⟨_ | f', w₁⟩
        · have hcandid : (a.pass : Pass σ).Candid (w₁.manager.envFor _) w₁.toRun :=
            candid_of_refusal hp (hsetup.checker_eq.trans hchecker) rfl
          have hfst := w₁.runPass_fst a.pass fun _ => false
          dsimp only at hf
          generalize w₁.runPass a.pass (fun _ => false) = result at hf hfst
          rcases result with ⟨⟨modified, _ | f'⟩, w₂⟩
          · cases hf
          · obtain rfl := Option.some.inj hf
            exact (hcandid.avoids f' (congrArg Outcome.failure hfst.symm)).annotate name
        · exact hrequired f hf

/-- **A built-in pass**, after what it requires. -/
theorem runPass_avoids (hq : q.IsBuiltin) (hchecker : w.manager.checker = .standard)
    (hrequired : ∀ f, (inTurn (ensure (w.manager.passes.length + 1)) (q.requires w.manager.world)
      w).1 = some f → f.Avoids .unreportedModification) {f : Failure}
    (h : (runPass w q).1 = some f) : f.Avoids .unreportedModification := by
  rw [runPass_eq] at h
  split at h
  · cases h
  · have hsetup := inTurn_setup (ensure_setup (w.manager.passes.length + 1))
      (q.requires w.manager.world) w
    generalize inTurn (ensure (w.manager.passes.length + 1)) (q.requires w.manager.world) w = result
      at h hrequired hsetup
    rcases result with ⟨_ | f', w₁⟩
    · exact attempt_avoids hq (hsetup.checker_eq.trans hchecker) h
    · exact hrequired f h

theorem runCounted_avoids (hbuiltin : ∀ q ∈ mgr.passes, q.IsBuiltin)
    (hchecker : mgr.checker = .standard) (hq : q ∈ mgr.passes) (hw : SameSetup mgr w.manager)
    {f : Failure} (h : (runCounted w q).1 = some f) : f.Avoids .unreportedModification := by
  have hpass : (runPass w q).1 = some f := by
    unfold runCounted at h
    generalize runPass w q = result at h ⊢
    rcases result with ⟨_ | e | _, w'⟩ <;> exact h
  refine runPass_avoids (hbuiltin q hq) (hw.checker_eq.trans hchecker) ?_ hpass
  exact inTurn_fails (ensure_setup _) (fun n _ => ensure_avoids hbuiltin hchecker _ n) hw

/-- **A run of built-in passes.** -/
theorem run_avoids (hbuiltin : ∀ q ∈ mgr.passes, q.IsBuiltin) (hchecker : mgr.checker = .standard)
    {l : Listing} {f : Failure} (h : (mgr.run l).1 = some f) :
    f.Avoids .unreportedModification := by
  have hsort := yields_sortPasses mgr
  unfold run at h
  cases horder : mgr.sortPasses with
  | error e =>
    rw [horder] at h hsort
    obtain rfl := Option.some.inj h
    rcases hsort with ⟨n, rfl, -⟩ | ⟨n, r, rfl, -⟩ <;> exact .error rfl
  | ok order =>
    rw [horder] at h hsort
    have hregistered : ∀ q ∈ order, q ∈ mgr.passes := fun q hq =>
      (name_of_find? (hsort.1.found q hq)).1
    have hstart : SameSetup mgr { mgr with runCount := mgr.runCount + 1, cache := {} } :=
      ⟨rfl, rfl, rfl⟩
    exact inTurn_fails runCounted_setup
      (fun q hq w hw f => runCounted_avoids hbuiltin hchecker (hregistered q hq) hw) hstart f h

/-- **Reports of changes.** A transformation that does not fail reports a change if and only if it
has changed the module, the counters for fresh numbers aside. So a manager that looks for changes
that are not reported never finds one that a built-in pass has made: not in the turn of such a pass
once what it requires has been computed, and not in a run if all passes are built in. -/
theorem reports_are_exact :
    (∀ (t : Transform) (env : PassEnv) (r : Run σ) (m : Module), r.listing = .ofModule m →
      (t.pass.onModule env r).1.failure = none →
        ∃ m', (t.pass.onModule env r).2.listing = .ofModule m' ∧
          ((t.pass.onModule env r).1.modified = true ↔ m'.forgetCounters ≠ m.forgetCounters) ∧
          ((t.pass.onModule env r).1.modified = false ↔ m' = m)) ∧
    (∀ (w : Work σ) (q : Pass σ) (e : Err), q.IsBuiltin → w.manager.checker = .standard →
      (inTurn (ensure (w.manager.passes.length + 1)) (q.requires w.manager.world) w).1 = none →
        (runPass w q).1 = some (.error e) → e.isKind .unreportedModification = false) ∧
    ∀ (mgr : Manager σ) (l : Listing) (e : Err), (∀ q ∈ mgr.passes, q.IsBuiltin) →
      mgr.checker = .standard → (mgr.run l).1 = some (.error e) →
        e.isKind .unreportedModification = false := by
  refine ⟨fun t env r m hr hnone => ?_, fun w q e hq hchecker hrequired h => ?_,
    fun mgr l e hbuiltin hchecker h => run_avoids hbuiltin hchecker h e rfl⟩
  · obtain ⟨m', hlisting, hflag, hcounters⟩ := t.onModule_flag env hr hnone
    refine ⟨m', hlisting, hflag.trans (not_congr hcounters.symm), ?_⟩
    rw [← Bool.not_eq_true, hflag, not_not]
  · exact runPass_avoids hq hchecker (by simp [hrequired]) h e rfl

/-- A pass that renames the module and does not say so. -/
def secretive : Pass Unit where
  name := "rename"
  onModule _ r := ({}, { r with listing := { r.listing with name := "renamed" } })
  onFunction _ _ r := ({}, r)

/-- A manager with one transformation that looks for changes that are not reported. -/
def watchful (t : Transform) : Manager Unit := { single t with verifyModified := true }

/-- Whether a run ended in an error of the kind. -/
def failsWith (k : Kind) : Option Failure → Bool
  | some (.error e) => e.isKind k
  | _ => false

theorem exists_of_failsWith {k : Kind} {f : Option Failure} (h : failsWith k f = true) :
    ∃ e, f = some (.error e) ∧ e.isKind k = true := by
  rcases f with _ | e | _
  · cases h
  · exact ⟨e, rfl, h⟩
  · cases h

/-- Dead code elimination reports that it changes the first function, and that it leaves the second
as it is. It breaks the third, and a manager says so but does not miss a report. The same manager
misses the report of a pass that changes the module in secret. -/
theorem watchful_reports :
    let start (m : Module) : Run Unit := { listing := .ofModule m, world := () }
    let env : PassEnv := ⟨some .standard, "dce"⟩
    let dce := Transform.deadCode 0
    (∃ m', (dce.pass.onModule env (start ⟨"m", [tangle]⟩)).1.failure = none ∧
      (dce.pass.onModule env (start ⟨"m", [tangle]⟩)).1.modified = true ∧
      (dce.pass.onModule env (start ⟨"m", [tangle]⟩)).2.listing = .ofModule m' ∧
      m'.forgetCounters ≠ Module.forgetCounters ⟨"m", [tangle]⟩) ∧
    ((dce.pass.onModule env (start ⟨"m", [untangled]⟩)).1.failure = none ∧
      (dce.pass.onModule env (start ⟨"m", [untangled]⟩)).1.modified = false ∧
      (dce.pass.onModule env (start ⟨"m", [untangled]⟩)).2.listing =
        .ofModule ⟨"m", [untangled]⟩) ∧
    (∃ e, (runPass ⟨watchful dce, .ofModule strandedReturn⟩ dce.pass).1 = some (.error e) ∧
      e.isKind .verificationFailed = true ∧ e.isKind .unreportedModification = false) ∧
    (∃ e, ((watchful dce).run (.ofModule strandedReturn)).1 = some (.error e) ∧
      e.isKind .verificationFailed = true ∧ e.isKind .unreportedModification = false) ∧
    ∃ e, (runPass ⟨watchful dce, .ofModule strandedReturn⟩ secretive).1 = some (.error e) ∧
      e.isKind .unreportedModification = true := by
  intro start env dce
  obtain ⟨hflag, hturn, hrun⟩ := @reports_are_exact Unit
  have hnone₁ : (dce.pass.onModule env (start ⟨"m", [tangle]⟩)).1.failure = none := by
    decide +kernel
  have hnone₂ : (dce.pass.onModule env (start ⟨"m", [untangled]⟩)).1.failure = none := by
    decide +kernel
  have hchanged : (dce.pass.onModule env (start ⟨"m", [tangle]⟩)).1.modified = true := by
    decide +kernel
  have hquiet : (dce.pass.onModule env (start ⟨"m", [untangled]⟩)).1.modified = false := by
    decide +kernel
  obtain ⟨m₁, hm₁, hiff, -⟩ := hflag dce env (start ⟨"m", [tangle]⟩) _ rfl hnone₁
  obtain ⟨m₂, hm₂, -, hiff'⟩ := hflag dce env (start ⟨"m", [untangled]⟩) _ rfl hnone₂
  obtain rfl := hiff'.1 hquiet
  obtain ⟨e, he, hkind⟩ := @exists_of_failsWith .verificationFailed
    (runPass ⟨watchful dce, .ofModule strandedReturn⟩ dce.pass).1 (by decide +kernel)
  obtain ⟨e', he', hkind'⟩ := @exists_of_failsWith .verificationFailed
    ((watchful dce).run (.ofModule strandedReturn)).1 (by decide +kernel)
  exact ⟨⟨m₁, hnone₁, hchanged, hm₁, hiff.1 hchanged⟩, ⟨hnone₂, hquiet, hm₂⟩,
    ⟨e, he, hkind, hturn _ _ e (Or.inr ⟨dce, rfl⟩) rfl rfl he⟩,
    ⟨e', he', hkind', hrun (watchful dce) _ e' isBuiltin_of_mem_single rfl he'⟩,
    exists_of_failsWith (by decide +kernel)⟩

end Manager

end SsaOpt
