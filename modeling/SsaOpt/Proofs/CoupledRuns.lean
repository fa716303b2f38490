import SsaOpt.Proofs.PassRuns
import SsaOpt.Proofs.RunOrder

/-!
# Two runs side by side

Two managers with the same setup run over two states that are alike. A coupling (`Coupling`) says
what alike means, for states and for errors, and that every pass keeps it: called on states that are
alike, it reports the same, fails with errors that are alike or not at all, and leaves states that
are alike. Then so do the two runs as a whole: `Coupling.endAlike_run`. For a pass that goes through
the functions it is enough to look at one function (`eachFunction_alike`), and a run beside
itself shows what a run keeps (`run_preserves`).
-/

namespace SsaOpt

variable {σ : Type}

/-- Two failures by errors that are alike, or two faults. -/
inductive Failure.Alike (E : Err → Err → Prop) : Failure → Failure → Prop
  | error {e e' : Err} (h : E e e') : Alike E (.error e) (.error e')
  | fault : Alike E .fault .fault

namespace Manager

theorem rel_refl {E : Err → Err → Prop} (hE : ∀ e, E e e) (f : Option Failure) :
    Option.Rel (Failure.Alike E) f f := by
  rcases f with _ | e | _
  · exact .none
  · exact .some (.error (hE e))
  · exact .some .fault

theorem eq_of_rel {f f' : Option Failure} (h : Option.Rel (Failure.Alike Eq) f f') : f' = f := by
  cases h with
  | none => rfl
  | some h =>
    cases h with
    | error he => rw [he]
    | fault => rfl

/-- Two outcomes are alike: the same report, and two failures that are alike or none. -/
structure OutcomeAlike (E : Err → Err → Prop) (out out' : Outcome) : Prop where
  modified_eq : out'.modified = out.modified
  failure : Option.Rel (Failure.Alike E) out.failure out'.failure

theorem OutcomeAlike.eq {out out' : Outcome} (h : OutcomeAlike Eq out out') : out' = out := by
  obtain ⟨modified, f⟩ := out
  obtain ⟨modified', f'⟩ := out'
  obtain ⟨hmodified, hfailure⟩ := h
  obtain rfl : modified' = modified := hmodified
  obtain rfl : f' = f := eq_of_rel hfailure
  rfl

/-- What it takes that two runs stay alike: `R` says when two states are alike, and `E` when two
errors are. -/
structure Coupling (passes : List (Pass σ)) (checker : Checker) (R : Run σ → Run σ → Prop)
    (E : Err → Err → Prop) : Prop where
  refl : ∀ e, E e e
  annotate : ∀ {e e'} name, E e e' → E (e.annotate name) (e'.annotate name)
  failedBy : ∀ {e e'} f, E e e' → E (.failedBy f e) (.failedBy f e')
  world_eq : ∀ {r r'}, R r r' → r'.world = r.world
  validNames_eq : ∀ {r r'}, R r r' → r'.cache.validNames = r.cache.validNames
  fingerprint_eq : ∀ {r r'}, R r r' → r'.listing.fingerprint = r.listing.fingerprint
  markValid : ∀ {r r'} name, R r r' →
    R { r with cache := r.cache.markValid name } { r' with cache := r'.cache.markValid name }
  invalidate : ∀ {r r'} name, R r r' →
    R { r with cache := r.cache.invalidate name } { r' with cache := r'.cache.invalidate name }
  verify : ∀ {r r'}, R r r' → Option.Rel (Failure.Alike E)
    (checker.verifyModule (some r.listing)) (checker.verifyModule (some r'.listing))
  refuse : ∀ p ∈ passes, ∀ {r r'}, R r r' → Option.Rel (Failure.Alike E)
    (p.refusal? ⟨some checker, p.name⟩ r.listing) (p.refusal? ⟨some checker, p.name⟩ r'.listing)
  /-- A transformation is called only on what it does not refuse. -/
  call : ∀ p ∈ passes, ∀ {r r'}, R r r' →
    (p.isAnalysis = false → p.refusal? ⟨some checker, p.name⟩ r.listing = none) →
    OutcomeAlike E (p.onModule ⟨some checker, p.name⟩ r).1
        (p.onModule ⟨some checker, p.name⟩ r').1 ∧
      R (p.onModule ⟨some checker, p.name⟩ r).2 (p.onModule ⟨some checker, p.name⟩ r').2

/-- Two managers at work with the same setup, on states that are alike. -/
structure Beside (passes : List (Pass σ)) (checker : Checker) (R : Run σ → Run σ → Prop)
    (w w' : Work σ) : Prop where
  passes_eq : w.manager.passes = passes
  checker_eq : w.manager.checker = checker
  setup : SameSetup w.manager w'.manager
  related : R w.toRun w'.toRun

/-- Two steps end alike. -/
structure EndAlike (passes : List (Pass σ)) (checker : Checker) (R : Run σ → Run σ → Prop)
    (E : Err → Err → Prop) (x y : Option Failure × Work σ) : Prop where
  failure : Option.Rel (Failure.Alike E) x.1 y.1
  beside : Beside passes checker R x.2 y.2

variable {passes : List (Pass σ)} {checker : Checker} {R : Run σ → Run σ → Prop}
  {E : Err → Err → Prop} {w w' : Work σ}

/-! ## Functions in turn -/

/-- Listings with functions of the same names in the same places, with a body or without one. -/
structure SamePlaces (l l' : Listing) : Prop where
  length_eq : l'.places.length = l.places.length
  place : ∀ k, Option.Rel (fun fn fn' : Function => fn'.name = fn.name ∧
    fn'.isExternal = fn.isExternal) (l.function? k) (l'.function? k)

theorem SamePlaces.refl (l : Listing) : SamePlaces l l where
  length_eq := rfl
  place k := by
    cases l.function? k with
    | none => exact .none
    | some fn => exact .some ⟨rfl, rfl⟩

/-- **Steps on functions in turn** end alike, if each step does. -/
theorem eachFunction_alike {step : Nat → Run σ → Outcome × Run σ}
    (hplaces : ∀ {r r'}, R r r' → SamePlaces r.listing r'.listing)
    (hname : ∀ {e e'} name, E e e' → E (e.inFunction name) (e'.inFunction name))
    (hstep : ∀ k {r r' fn}, R r r' → r.listing.function? k = some fn → fn.isExternal = false →
      OutcomeAlike E (step k r).1 (step k r').1 ∧ R (step k r).2 (step k r').2)
    (ks : List Nat) (modified : Bool) {r r' : Run σ} (h : R r r') :
    OutcomeAlike E (Run.eachFunction step ks modified r).1
        (Run.eachFunction step ks modified r').1 ∧
      R (Run.eachFunction step ks modified r).2 (Run.eachFunction step ks modified r').2 := by
  induction ks generalizing modified r r' with
  | nil => exact ⟨⟨rfl, .none⟩, h⟩
  | cons k ks ih =>
    have hplace := (hplaces h).place k
    cases hfn : r.listing.function? k with
    | none =>
      rw [hfn] at hplace
      generalize hfn' : r'.listing.function? k = place' at hplace
      cases hplace with
      | none =>
        simp only [Run.eachFunction, hfn, hfn']
        exact ⟨⟨rfl, .some .fault⟩, h⟩
    | some fn =>
      rw [hfn] at hplace
      generalize hfn' : r'.listing.function? k = place' at hplace
      cases hplace with
      | @some _ fn' hsame =>
        obtain ⟨hnames, hexts⟩ := hsame
        cases hext : fn.isExternal with
        | true =>
          rw [Run.eachFunction_skip hfn hext, Run.eachFunction_skip hfn' (hexts.trans hext)]
          exact ih modified h
        | false =>
          obtain ⟨⟨hmodified, hfailure⟩, hafter⟩ := hstep k h hfn hext
          cases hf : (step k r).1.failure with
          | none =>
            rw [hf] at hfailure
            generalize hf' : (step k r').1.failure = f' at hfailure
            cases hfailure with
            | none =>
              rw [Run.eachFunction_next hfn hext hf,
                Run.eachFunction_next hfn' (hexts.trans hext) hf', hmodified]
              exact ih _ hafter
          | some f =>
            rw [hf] at hfailure
            generalize hf' : (step k r').1.failure = f' at hfailure
            cases hfailure with
            | some hf₀ =>
              rw [Run.eachFunction_stop hfn hext hf,
                Run.eachFunction_stop hfn' (hexts.trans hext) hf', hnames]
              refine ⟨⟨rfl, .some ?_⟩, hafter⟩
              cases hf₀ with
              | error he => exact .error (hname fn.name he)
              | fault => exact .fault

/-! ## Steps in turn -/

theorem endAlike_inTurn {α : Type} {step : Work σ → α → Option Failure × Work σ} {xs : List α}
    (hstep : ∀ x ∈ xs, ∀ w w', Beside passes checker R w w' →
      EndAlike passes checker R E (step w x) (step w' x))
    (h : Beside passes checker R w w') :
    EndAlike passes checker R E (inTurn step xs w) (inTurn step xs w') := by
  induction xs generalizing w w' with
  | nil => exact ⟨.none, h⟩
  | cons x xs ih =>
    have hx := hstep x (by simp) w w' h
    rw [inTurn, inTurn]
    generalize step w x = result at hx ⊢
    generalize step w' x = result' at hx ⊢
    obtain ⟨f, w₁⟩ := result
    obtain ⟨f', w₁'⟩ := result'
    obtain ⟨hfailure, hbeside⟩ := hx
    cases hfailure with
    | none => exact ih (fun y hy => hstep y (by simp [hy])) hbeside
    | some hf => exact ⟨.some hf, hbeside⟩

namespace Beside

theorem find?_eq (h : Beside passes checker R w w') (name : String) :
    w'.manager.find? name = w.manager.find? name := by
  rw [find?, find?, h.setup.passes_eq]

theorem mem_of_find? (h : Beside passes checker R w w') {name : String} {p : Pass σ}
    (hp : w.manager.find? name = some p) : p ∈ passes :=
  h.passes_eq ▸ List.mem_of_find?_eq_some hp

theorem envFor_eq (h : Beside passes checker R w w') (name : String) :
    w.manager.envFor name = ⟨some checker, name⟩ ∧
      w'.manager.envFor name = ⟨some checker, name⟩ := by
  rw [envFor, envFor, h.setup.checker_eq, h.checker_eq]
  exact ⟨rfl, rfl⟩

end Beside

/-! ## The schedule -/

theorem schedule_congr {mgr mgr' : Manager σ} (hpasses : mgr'.passes = mgr.passes)
    (hworld : mgr'.world = mgr.world) (fuel : Nat) : mgr'.schedule fuel = mgr.schedule fuel := by
  induction fuel with
  | zero => rfl
  | succ fuel ih =>
    funext path requiredBy order name
    rw [schedule, schedule, ih, hworld, find?, find?, hpasses]

theorem sortPasses_congr {mgr mgr' : Manager σ} (hpasses : mgr'.passes = mgr.passes)
    (hworld : mgr'.world = mgr.world) : mgr'.sortPasses = mgr.sortPasses := by
  rw [sortPasses, sortPasses, schedule_congr hpasses hworld, hpasses]

namespace Coupling

variable (hc : Coupling passes checker R E)

include hc

theorem isValid_eq (h : Beside passes checker R w w') (name : String) :
    w'.manager.cache.isValid name = w.manager.cache.isValid name :=
  congrArg (·.contains name) (hc.validNames_eq h.related)

theorem beside_markValid (h : Beside passes checker R w w') (name : String) :
    Beside passes checker R (w.markValid name) (w'.markValid name) :=
  ⟨h.passes_eq, h.checker_eq, ⟨h.setup.passes_eq, h.setup.checker_eq, h.setup.verifyModified_eq⟩,
    hc.markValid name h.related⟩

theorem annotate_alike {f f' : Failure} (h : Failure.Alike E f f') (name : String) :
    Failure.Alike E (Manager.annotate name f) (Manager.annotate name f') := by
  cases h with
  | error h => exact .error (hc.annotate name h)
  | fault => exact .fault

/-! ## Calls -/

theorem beside_runPass {p : Pass σ} (hp : p ∈ passes) (h : Beside passes checker R w w')
    (hrefuse : p.isAnalysis = false →
      p.refusal? ⟨some checker, p.name⟩ w.listing = none) (counted : Bool → Bool) :
    OutcomeAlike E (w.runPass p counted).1 (w'.runPass p counted).1 ∧
      Beside passes checker R (w.runPass p counted).2 (w'.runPass p counted).2 := by
  obtain ⟨henv, henv'⟩ := h.envFor_eq p.name
  obtain ⟨hout, hrelated⟩ := hc.call p hp h.related hrefuse
  have hsetup := w.runPass_setup p counted
  refine ⟨?_, hsetup.passes_eq.trans h.passes_eq, hsetup.checker_eq.trans h.checker_eq, ?_, ?_⟩
  · rw [w.runPass_fst, w'.runPass_fst, henv, henv']
    exact hout
  · have hsetup' := w'.runPass_setup p counted
    exact ⟨hsetup'.passes_eq.trans (h.setup.passes_eq.trans hsetup.passes_eq.symm),
      hsetup'.checker_eq.trans (h.setup.checker_eq.trans hsetup.checker_eq.symm),
      hsetup'.verifyModified_eq.trans
        (h.setup.verifyModified_eq.trans hsetup.verifyModified_eq.symm)⟩
  · rw [w.runPass_toRun, w'.runPass_toRun, henv, henv']
    exact hrelated

theorem endAlike_ensure (fuel : Nat) (name : String) (h : Beside passes checker R w w') :
    EndAlike passes checker R E (ensure fuel w name) (ensure fuel w' name) := by
  induction fuel generalizing name w w' with
  | zero => exact ⟨.none, h⟩
  | succ fuel ih =>
    rw [ensure, ensure, h.find?_eq]
    cases hfind : w.manager.find? name with
    | none => exact ⟨.some (.error (hc.refl _)), h⟩
    | some p =>
      have hp := h.mem_of_find? hfind
      have hworld : w'.manager.world = w.manager.world := hc.world_eq h.related
      dsimp only
      rw [hc.isValid_eq h, hworld]
      split
      · exact ⟨.none, h⟩
      next hstale =>
      have hanalysis : p.isAnalysis = true := by
        cases hp : p.isAnalysis with
        | true => rfl
        | false => simp [hp] at hstale
      have hrequired := endAlike_inTurn
        (fun x (_ : x ∈ p.requires w.manager.world) w w' hw => ih x hw) h
      generalize inTurn (ensure fuel) (p.requires w.manager.world) w = x at hrequired ⊢
      generalize inTurn (ensure fuel) (p.requires w.manager.world) w' = y at hrequired ⊢
      obtain ⟨f, w₁⟩ := x
      obtain ⟨f', w₁'⟩ := y
      obtain ⟨hfailure, hbeside⟩ := hrequired
      cases hfailure with
      | some hf => exact ⟨.some hf, hbeside⟩
      | none =>
        obtain ⟨hout, hafter⟩ := hc.beside_runPass hp hbeside (fun h => by simp [hanalysis] at h)
          fun _ => false
        dsimp only at hout hafter ⊢
        generalize w₁.runPass p (fun _ => false) = x at hout hafter ⊢
        generalize w₁'.runPass p (fun _ => false) = y at hout hafter ⊢
        obtain ⟨⟨_, f⟩, w₂⟩ := x
        obtain ⟨⟨_, f'⟩, w₂'⟩ := y
        obtain ⟨-, hfailure⟩ := hout
        cases hfailure with
        | none => exact ⟨.none, hc.beside_markValid hafter name⟩
        | some hf => exact ⟨.some (hc.annotate_alike hf name), hafter⟩

/-! ## Turns -/

theorem beside_invalidate (h : Beside passes checker R w w') (names : List String) :
    Beside passes checker R
      { w with manager := { w.manager with cache := names.foldl Cache.invalidate w.manager.cache } }
      { w' with manager :=
          { w'.manager with cache := names.foldl Cache.invalidate w'.manager.cache } } := by
  induction names generalizing w w' with
  | nil => exact h
  | cons name names ih =>
    have hnext : Beside passes checker R
        { w with manager := { w.manager with cache := w.manager.cache.invalidate name } }
        { w' with manager := { w'.manager with cache := w'.manager.cache.invalidate name } } :=
      ⟨h.passes_eq, h.checker_eq,
        ⟨h.setup.passes_eq, h.setup.checker_eq, h.setup.verifyModified_eq⟩,
        hc.invalidate name h.related⟩
    exact ih hnext

theorem endAlike_afterPass (p : Pass σ) (before : UInt64) (modified : Bool)
    (h : Beside passes checker R w w') :
    EndAlike passes checker R E (afterPass p before modified w)
      (afterPass p before modified w') := by
  have hfingerprint := hc.fingerprint_eq h.related
  change w'.listing.fingerprint = w.listing.fingerprint at hfingerprint
  have hverify := hc.verify h.related
  unfold afterPass
  rw [h.setup.checker_eq, h.checker_eq, h.setup.verifyModified_eq, hfingerprint]
  split
  · change Option.Rel _ (checker.verifyModule (some w.listing))
      (checker.verifyModule (some w'.listing)) at hverify
    generalize checker.verifyModule (some w.listing) = x at hverify
    generalize checker.verifyModule (some w'.listing) = y at hverify
    cases hverify with
    | none => exact ⟨.none, hc.beside_invalidate h p.invalidates⟩
    | some hf =>
      cases hf with
      | error he => exact ⟨.some (.error (hc.failedBy _ he)), h⟩
      | fault => exact ⟨.some .fault, h⟩
  · split
    · exact ⟨.some (.error (hc.refl _)), h⟩
    · exact ⟨.none, h⟩

theorem endAlike_attempt {p : Pass σ} (hp : p ∈ passes) (h : Beside passes checker R w w') :
    EndAlike passes checker R E (attempt p w) (attempt p w') := by
  have hfingerprint := hc.fingerprint_eq h.related
  change w'.listing.fingerprint = w.listing.fingerprint at hfingerprint
  obtain ⟨henv, henv'⟩ := h.envFor_eq p.name
  have hrefuse := hc.refuse p hp h.related
  change Option.Rel _ (p.refusal? ⟨some checker, p.name⟩ w.listing)
    (p.refusal? ⟨some checker, p.name⟩ w'.listing) at hrefuse
  unfold attempt
  rw [henv, henv', hfingerprint, h.setup.verifyModified_eq]
  cases hx : p.refusal? ⟨some checker, p.name⟩ w.listing with
  | some f =>
    rw [hx] at hrefuse
    generalize p.refusal? ⟨some checker, p.name⟩ w'.listing = y at hrefuse
    cases hrefuse with
    | some hf => exact ⟨.some (hc.annotate_alike hf p.name), h⟩
  | none =>
    rw [hx] at hrefuse
    obtain ⟨hout, hafter⟩ := hc.beside_runPass hp h (fun _ => hx) id
    generalize p.refusal? ⟨some checker, p.name⟩ w'.listing = y at hrefuse
    cases hrefuse with
    | none =>
      dsimp only
      generalize w.runPass p id = x at hout hafter
      generalize w'.runPass p id = y at hout hafter
      obtain ⟨⟨modified, f⟩, w₁⟩ := x
      obtain ⟨⟨modified', f'⟩, w₁'⟩ := y
      obtain ⟨hmodified, hfailure⟩ := hout
      obtain rfl : modified' = modified := hmodified
      cases hfailure with
      | some hf => exact ⟨.some (hc.annotate_alike hf p.name), hafter⟩
      | none =>
        refine hc.endAlike_afterPass p _ modified' ?_
        split
        · exact hc.beside_markValid hafter p.name
        · exact hafter

theorem endAlike_runCounted {p : Pass σ} (hp : p ∈ passes) (h : Beside passes checker R w w') :
    EndAlike passes checker R E (runCounted w p) (runCounted w' p) := by
  have hpass : EndAlike passes checker R E (runPass w p) (runPass w' p) := by
    have hworld : w'.manager.world = w.manager.world := hc.world_eq h.related
    rw [runPass_eq, runPass_eq, hc.isValid_eq h, hworld, h.setup.passes_eq]
    split
    · exact ⟨.none, h⟩
    have hrequired := endAlike_inTurn
      (fun x (_ : x ∈ p.requires w.manager.world) w₁ w₁' hw =>
        hc.endAlike_ensure (w.manager.passes.length + 1) x hw) h
    generalize inTurn (ensure (w.manager.passes.length + 1)) (p.requires w.manager.world) w = x
      at hrequired ⊢
    generalize inTurn (ensure (w.manager.passes.length + 1)) (p.requires w.manager.world) w' = y
      at hrequired ⊢
    obtain ⟨f, w₁⟩ := x
    obtain ⟨f', w₁'⟩ := y
    obtain ⟨hfailure, hbeside⟩ := hrequired
    cases hfailure with
    | some hf => exact ⟨.some hf, hbeside⟩
    | none => exact hc.endAlike_attempt hp hbeside
  unfold runCounted
  generalize runPass w p = x at hpass
  generalize runPass w' p = y at hpass
  obtain ⟨f, w₁⟩ := x
  obtain ⟨f', w₁'⟩ := y
  obtain ⟨hfailure, hbeside⟩ := hpass
  cases hfailure with
  | none => exact ⟨.none, hbeside⟩
  | some hf =>
    cases hf with
    | fault => exact ⟨.some .fault, hbeside⟩
    | error he =>
      exact ⟨.some (.error he), hbeside.passes_eq, hbeside.checker_eq,
        ⟨hbeside.setup.passes_eq, hbeside.setup.checker_eq, hbeside.setup.verifyModified_eq⟩,
        hbeside.related⟩

/-! ## Runs -/

/-- **Two runs side by side** end alike, if the managers have the same setup and their states are
alike at the start. -/
theorem endAlike_run {mgr mgr' : Manager σ} {l l' : Listing} {order : List (Pass σ)}
    (hpasses : mgr.passes = passes) (hchecker : mgr.checker = checker)
    (hsetup : SameSetup mgr mgr') (hsort : mgr.sortPasses = .ok order)
    (hstart : R (mgr.initial l) (mgr'.initial l')) :
    EndAlike passes checker R E (mgr.run l) (mgr'.run l') := by
  have hsort' : mgr'.sortPasses = .ok order :=
    (sortPasses_congr hsetup.passes_eq (hc.world_eq hstart)).trans hsort
  have hregistered : ∀ q ∈ order, q ∈ passes := by
    have hyields := yields_sortPasses mgr
    rw [hsort] at hyields
    exact fun q hq => hpasses ▸ (name_of_find? (hyields.1.found q hq)).1
  rw [run, run, hsort, hsort']
  exact endAlike_inTurn (fun q hq w w' h => hc.endAlike_runCounted (hregistered q hq) h)
    ⟨hpasses, hchecker, ⟨hsetup.passes_eq, hsetup.checker_eq, hsetup.verifyModified_eq⟩, hstart⟩

end Coupling

/-! ## One run -/

/-- **What every pass keeps**, a run keeps, however it ends, if it does not depend on the cache. -/
theorem run_preserves {P : Run σ → Prop} {mgr : Manager σ} {order : List (Pass σ)} {l : Listing}
    (hsort : mgr.sortPasses = .ok order) (hcache : ∀ r cache, P r → P { r with cache })
    (hcall : ∀ p ∈ mgr.passes, ∀ r, P r → P (p.onModule ⟨some mgr.checker, p.name⟩ r).2)
    (hstart : P (mgr.initial l)) : P (mgr.run l).2.toRun := by
  -- a run beside itself
  have hcoupling : Coupling mgr.passes mgr.checker (fun r r' => r' = r ∧ P r) Eq :=
    { refl := fun _ => rfl
      annotate := fun _ h => h ▸ rfl
      failedBy := fun _ h => h ▸ rfl
      world_eq := fun h => h.1 ▸ rfl
      validNames_eq := fun h => h.1 ▸ rfl
      fingerprint_eq := fun h => h.1 ▸ rfl
      markValid := fun _ h => ⟨h.1 ▸ rfl, hcache _ _ h.2⟩
      invalidate := fun _ h => ⟨h.1 ▸ rfl, hcache _ _ h.2⟩
      verify := fun h => h.1 ▸ rel_refl (fun _ => rfl) _
      refuse := fun _ _ _ _ h => h.1 ▸ rel_refl (fun _ => rfl) _
      call := fun p hp r r' h _ => by
        obtain ⟨rfl, hr⟩ := h
        exact ⟨⟨rfl, rel_refl (fun _ => rfl) _⟩, rfl, hcall p hp r' hr⟩ }
  exact (hcoupling.endAlike_run rfl rfl (.refl mgr) hsort ⟨rfl, hstart⟩).beside.related.2

end Manager

end SsaOpt
