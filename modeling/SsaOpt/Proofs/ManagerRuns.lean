import Mathlib.Logic.Relation
import SsaOpt.Proofs.ManagerSteps
import SsaOpt.Proofs.PassEffects
import SsaOpt.Proofs.Schedule

/-!
# What a run of the manager can break

A manager runs its passes over a verified module and checks it again after every change. So before
each pass the module is a verified one that some of the transformations have made (`Holds`,
`Manager.ends_runPass`). A run ends with a verified module, or with an error; and where that error
says that a module did not verify, a transformation has broken it in one of the ways of
`Transform.Breaks`. No pass ever finds the module that it gets malformed.
-/

namespace SsaOpt

open Relation

variable {σ : Type}

/-- The transformation makes `m'` of `m` in a run of its own that does not fail. -/
def Transform.Turns (σ : Type) (t : Transform) (m m' : Module) : Prop :=
  ∃ r : Run σ, r.listing = .ofModule m ∧
    (t.pass.onModule ⟨some .standard, t.name⟩ r).1.failure = none ∧
    (t.pass.onModule ⟨some .standard, t.name⟩ r).2.listing = .ofModule m'

/-- What stands against the registration of a transformation is a message without a kind. -/
theorem Transform.registrationErr?_plain {t : Transform} {env : PassEnv} {e : Err}
    (h : t.registrationErr? env = some e) : ∃ message, e = .plain message := by
  unfold registrationErr? at h
  split at h
  · exact ⟨_, (Option.some.inj h).symm⟩
  · unfold parameterErr? at h
    split at h
    · cases h
    · split at h
      · exact ⟨_, (Option.some.inj h).symm⟩
      · cases h
    · split at h
      · exact ⟨_, (Option.some.inj h).symm⟩
      · cases h

/-- An analysis or a transformation. -/
def Pass.IsBuiltin (q : Pass σ) : Prop := (∃ a : Analysis, q = a.pass) ∨ ∃ t : Transform, q = t.pass

namespace Manager

/-- One of the transformations among the passes makes `m'` of `m`. -/
def Step (passes : List (Pass σ)) (m m' : Module) : Prop :=
  ∃ t : Transform, t.pass ∈ passes ∧ t.Turns σ m m'

/-! ## The schedule -/

/-- What goes wrong with the schedule is a matter of requirements. -/
theorem Faulty.isRefusal {mgr : Manager σ} {e : Err} (h : mgr.Faulty e) :
    (Failure.error e).IsRefusal := by
  rcases h with ⟨n, rfl, -⟩ | ⟨n, r, rfl, -⟩
  · exact .failed (by simp) (by simp)
  · exact .failed (by simp) (by simp)

/-! ## Analyses on demand -/

/-- The manager has its checker and its passes, and is at work on the module `m`. -/
structure Holds (passes : List (Pass σ)) (m : Module) (w : Work σ) : Prop where
  checker_eq : w.manager.checker = .standard
  passes_eq : w.manager.passes = passes
  listing_eq : w.listing = .ofModule m

variable {passes : List (Pass σ)} {m : Module} {w : Work σ}

theorem Holds.markValid (h : Holds passes m w) (name : String) :
    Holds passes m (w.markValid name) :=
  ⟨h.checker_eq, h.passes_eq, h.listing_eq⟩

theorem Holds.envFor_eq (h : Holds passes m w) (name : String) :
    w.manager.envFor name = ⟨some .standard, name⟩ := by
  rw [envFor, h.checker_eq]

/-- What a pass reports. -/
theorem Holds.runPass_fst (h : Holds passes m w) (q : Pass σ) (counted : Bool → Bool) :
    (w.runPass q counted).1 = (q.onModule ⟨some .standard, q.name⟩ w.toRun).1 := by
  rw [w.runPass_fst, h.envFor_eq]

/-- What a pass leaves. -/
theorem Holds.runPass_snd (h : Holds passes m w) (q : Pass σ) (counted : Bool → Bool) {m' : Module}
    (hm' : (q.onModule ⟨some .standard, q.name⟩ w.toRun).2.listing = .ofModule m') :
    Holds passes m' (w.runPass q counted).2 := by
  have hsetup := w.runPass_setup q counted
  refine ⟨hsetup.checker_eq.trans h.checker_eq, hsetup.passes_eq.trans h.passes_eq, ?_⟩
  rw [← h.envFor_eq q.name, ← w.runPass_toRun q counted] at hm'
  exact hm'

/-- An analysis reports nothing and leaves the module as it is. -/
theorem Holds.runPass_analysis (h : Holds passes m w) (a : Analysis) (counted : Bool → Bool) :
    ∃ w', w.runPass a.pass counted = (⟨false, none⟩, w') ∧ Holds passes m w' := by
  obtain ⟨hmodified, hnone, hlisting⟩ := a.onModule_idle (r := w.toRun) h.listing_eq
  have hout : (w.runPass a.pass counted).1 = ⟨false, none⟩ := by
    rw [h.runPass_fst a.pass counted, ← hmodified, ← hnone]
    rfl
  exact ⟨_, Prod.ext hout rfl, h.runPass_snd a.pass counted hlisting⟩

/-- **Computing analyses** does not change the module. -/
theorem ends_ensure (hbuiltin : ∀ q ∈ passes, q.IsBuiltin) (fuel : Nat) :
    ∀ name (w : Work σ), Holds passes m w →
      Ends (Holds passes m) (fun f _ => f.IsRefusal) (ensure fuel w name) := by
  induction fuel with
  | zero => exact fun name w h => h
  | succ fuel ih =>
    intro name w h
    rw [ensure]
    cases hfind : w.manager.find? name with
    | none => exact .failed (by simp) (by simp)
    | some q =>
      dsimp only
      split
      · exact h
      next hstale =>
        have hq : q ∈ passes := h.passes_eq ▸ List.mem_of_find?_eq_some hfind
        obtain ⟨a, rfl⟩ : ∃ a : Analysis, q = a.pass := by
          rcases hbuiltin q hq with ha | ⟨t, rfl⟩
          · exact ha
          · exact absurd rfl hstale
        have hrequired : Ends (Holds passes m) (fun f _ => f.IsRefusal)
            (inTurn (ensure fuel) ((a.pass : Pass σ).requires w.manager.world) w) :=
          ends_inTurn (fun name' _ w h => ih name' w h) h
        generalize inTurn (ensure fuel) ((a.pass : Pass σ).requires w.manager.world) w = result
          at hrequired ⊢
        rcases result with ⟨_ | f, w'⟩
        · obtain ⟨w'', hrun, hholds⟩ := hrequired.runPass_analysis a fun _ => false
          dsimp only
          rw [hrun]
          exact hholds.markValid name
        · exact hrequired

theorem ends_required (hbuiltin : ∀ q ∈ passes, q.IsBuiltin) (q : Pass σ) (h : Holds passes m w) :
    Ends (Holds passes m) (fun f _ => f.IsRefusal)
      (inTurn (ensure (w.manager.passes.length + 1)) (q.requires w.manager.world) w) :=
  ends_inTurn (fun name _ w h => ends_ensure hbuiltin _ name w h) h

/-! ## A pass with all that belongs to it -/

/-- A transformation among the passes has made a module that does not verify of one that does, which
itself comes from `m₀`. -/
structure Broken (passes : List (Pass σ)) (m₀ : Module) (f : Failure) (w : Work σ) : Prop where
  made : ∃ (t : Transform) (m m' : Module) (cause : Err), ReflTransGen (Step passes) m₀ m ∧
    moduleErr? (some m) = none ∧ t.pass ∈ passes ∧ t.Turns σ m m' ∧ w.listing = .ofModule m' ∧
    moduleErr? (some m') = some cause ∧ t.Breaks m m' ∧
    f = .error (.failedBy { kind := .verificationFailed, pass := t.name } cause)

/-- The state between two passes: the module is verified, and transformations have made it of `m₀`.
-/
def Between (passes : List (Pass σ)) (m₀ : Module) (w : Work σ) : Prop :=
  ∃ m, Holds passes m w ∧ moduleErr? (some m) = none ∧ ReflTransGen (Step passes) m₀ m

/-- How a step from such a state fails. -/
def Fails (passes : List (Pass σ)) (m₀ : Module) (f : Failure) (w : Work σ) : Prop :=
  f.IsRefusal ∨ Broken passes m₀ f w

variable {m₀ : Module}

theorem annotate_isRefusal {f : Failure} (h : f.IsRefusal) (pass : String) :
    (annotate pass f).IsRefusal := by
  obtain ⟨e, rfl, h₁, h₂⟩ := h
  exact ⟨_, rfl, by simpa using h₁, by simpa using h₂⟩

/-- A transformation does not refuse a verified module for its defects. -/
theorem refusal_isRefusal {t : Transform} {f : Failure} (hm : moduleErr? (some m) = none)
    (h : t.refusal? ⟨some .standard, t.name⟩ (.ofModule m) = some f) : f.IsRefusal := by
  have hverify : Checker.standard.verifyModule (some (.ofModule m)) = none := by
    simp [Checker.standard, listingFailure?, hm]
  unfold Transform.refusal? at h
  split at h
  · next e he =>
    obtain rfl := Option.some.inj h
    obtain ⟨message, rfl⟩ := Transform.registrationErr?_plain he
    exact ⟨_, rfl, rfl, rfl⟩
  · simp [hverify] at h

/-- What is checked after a pass that reports no change and has made none. -/
theorem ends_afterPass_false (q : Pass σ) (before : UInt64) (h : Holds passes m w)
    (hm : moduleErr? (some m) = none) (hpath : ReflTransGen (Step passes) m₀ m) :
    Ends (Between passes m₀) (Fails passes m₀) (afterPass q before false w) := by
  unfold afterPass
  simp only [Bool.false_eq_true, if_false]
  split
  · exact Or.inl (.failed (by simp) (by simp))
  · exact ⟨m, h, hm, hpath⟩

/-- What is checked after a transformation that reports a change. -/
theorem ends_afterPass_true {t : Transform} {m' : Module} (before : UInt64) (h : Holds passes m' w)
    (hm : moduleErr? (some m) = none) (hpath : ReflTransGen (Step passes) m₀ m)
    (ht : t.pass ∈ passes) (hturns : t.Turns σ m m')
    (hbreaks : moduleErr? (some m') ≠ none → t.Breaks m m') :
    Ends (Between passes m₀) (Fails passes m₀) (afterPass t.pass before true w) := by
  have hverify : w.manager.checker.verifyModule (some w.listing) =
      (moduleErr? (some m')).map .error := by
    simp [h.checker_eq, h.listing_eq, Checker.standard, listingFailure?]
  unfold afterPass
  rw [if_pos rfl, hverify]
  cases hm' : moduleErr? (some m') with
  | some cause =>
    exact Or.inr ⟨t, m, m', cause, hpath, hm, ht, hturns, h.listing_eq, hm',
      hbreaks (by simp [hm']), rfl⟩
  | none =>
    exact ⟨m', ⟨h.checker_eq, h.passes_eq, h.listing_eq⟩, hm', hpath.tail ⟨t, ht, hturns⟩⟩

/-- **An analysis** leaves the module as it is. -/
theorem ends_attempt_analysis (a : Analysis) (h : Holds passes m w)
    (hm : moduleErr? (some m) = none) (hpath : ReflTransGen (Step passes) m₀ m) :
    Ends (Between passes m₀) (Fails passes m₀) (attempt a.pass w) := by
  obtain ⟨w', hrun, hholds⟩ := h.runPass_analysis a id
  unfold attempt
  rw [hrun]
  exact ends_afterPass_false _ _ (hholds.markValid a.name) hm hpath

/-- What a transformation does to a verified module: it refuses a step of its own, or it leaves
another module, which is the same one if no change is reported. -/
theorem Holds.runPass_transform (h : Holds passes m w) (hm : moduleErr? (some m) = none)
    (t : Transform) :
    (∃ modified f w', w.runPass t.pass id = (⟨modified, some f⟩, w') ∧ f.IsRefusal) ∨
      ∃ modified m' w', w.runPass t.pass id = (⟨modified, none⟩, w') ∧ Holds passes m' w' ∧
        t.Turns σ m m' ∧ (moduleErr? (some m') ≠ none → t.Breaks m m') ∧
        (modified = false → Listing.ofModule m' = .ofModule m) := by
  let out := (t.pass.onModule ⟨some .standard, t.name⟩ w.toRun).1
  have hout : (w.runPass t.pass id).1 = ⟨out.modified, out.failure⟩ := h.runPass_fst t.pass id
  have hlisting := h.listing_eq
  cases hfailure : out.failure with
  | some f =>
    rw [hfailure] at hout
    have hrefuses := Transform.onModule_failure (by rfl) hlisting hfailure
    exact Or.inl ⟨out.modified, f, _, Prod.ext hout rfl, hrefuses.isRefusal⟩
  | none =>
    rw [hfailure] at hout
    obtain ⟨m', hm', hbreaks⟩ := t.onModule_breaks (by rfl) hlisting hm hfailure
    refine Or.inr ⟨out.modified, m', _, Prod.ext hout rfl, h.runPass_snd t.pass id hm',
      ⟨w.toRun, hlisting, hfailure, hm'⟩, hbreaks, fun hmodified => ?_⟩
    exact hm'.symm.trans ((t.onModule_unmodified hfailure hmodified).trans hlisting)

/-- **A transformation** leaves a verified module, refuses, or breaks the module. -/
theorem ends_attempt_transform {t : Transform} (ht : t.pass ∈ passes) (h : Holds passes m w)
    (hm : moduleErr? (some m) = none) (hpath : ReflTransGen (Step passes) m₀ m) :
    Ends (Between passes m₀) (Fails passes m₀) (attempt t.pass w) := by
  unfold attempt
  rw [show (t.pass : Pass σ).refusal? = t.refusal? from rfl,
    show (t.pass : Pass σ).name = t.name from rfl, h.envFor_eq, h.listing_eq]
  cases hrefusal : t.refusal? ⟨some .standard, t.name⟩ (.ofModule m) with
  | some f => exact Or.inl (annotate_isRefusal (refusal_isRefusal hm hrefusal) _)
  | none =>
    dsimp only
    rcases h.runPass_transform hm t with ⟨modified, f, w', hrun, hf⟩ |
      ⟨modified, m', w', hrun, hholds, hturns, hbreaks, hsame⟩
    · rw [hrun]
      exact Or.inl (annotate_isRefusal hf _)
    · rw [hrun]
      cases modified with
      | true => exact ends_afterPass_true _ hholds hm hpath ht hturns hbreaks
      | false =>
        have hholds' : Holds passes m w' :=
          ⟨hholds.checker_eq, hholds.passes_eq, hholds.listing_eq.trans (hsame rfl)⟩
        exact ends_afterPass_false _ _ hholds' hm hpath

/-- **A pass**, after what it requires. -/
theorem ends_runPass (hbuiltin : ∀ q ∈ passes, q.IsBuiltin) {q : Pass σ} (hq : q ∈ passes)
    (h : Between passes m₀ w) : Ends (Between passes m₀) (Fails passes m₀) (runPass w q) := by
  obtain ⟨m, hw, hm, hpath⟩ := h
  rw [runPass_eq]
  split
  · exact ⟨m, hw, hm, hpath⟩
  have hrequired := ends_required hbuiltin q hw
  match hturn : inTurn (ensure (w.manager.passes.length + 1)) (q.requires w.manager.world) w with
  | (some f, w') =>
    rw [hturn] at hrequired
    exact Or.inl hrequired
  | (none, w') =>
    rw [hturn] at hrequired
    rcases hbuiltin q hq with ⟨a, rfl⟩ | ⟨t, rfl⟩
    · exact ends_attempt_analysis a hrequired hm hpath
    · exact ends_attempt_transform hq hrequired hm hpath

/-! ## Runs -/

/-- **A pass and the count of its failures.** -/
theorem ends_runCounted (hbuiltin : ∀ q ∈ passes, q.IsBuiltin) {q : Pass σ} (hq : q ∈ passes)
    (h : Between passes m₀ w) : Ends (Between passes m₀) (Fails passes m₀) (runCounted w q) := by
  have hpass := ends_runPass hbuiltin hq h
  unfold runCounted
  generalize runPass w q = result at hpass ⊢
  match result with
  | (none, w') => exact hpass
  | (some .fault, w') => exact hpass
  | (some (.error e), w') => exact Or.imp id (fun hbroken => ⟨hbroken.made⟩) hpass

/-- **What a run preserves**, and how it fails. -/
theorem ends_run {mgr : Manager σ} (hbuiltin : ∀ q ∈ mgr.passes, q.IsBuiltin)
    (hchecker : mgr.checker = .standard) (hm : moduleErr? (some m) = none) :
    Ends (Between mgr.passes m) (Fails mgr.passes m) (mgr.run (.ofModule m)) := by
  have hsort := yields_sortPasses mgr
  unfold run
  cases h : mgr.sortPasses with
  | error e =>
    rw [h] at hsort
    exact Or.inl hsort.isRefusal
  | ok order =>
    rw [h] at hsort
    have hregistered : ∀ q ∈ order, q ∈ mgr.passes := fun q hq =>
      (name_of_find? (hsort.1.found q hq)).1
    exact ends_inTurn (fun q hq w hw => ends_runCounted hbuiltin (hregistered q hq) hw)
      ⟨m, ⟨hchecker, rfl, rfl⟩, hm, .refl⟩

/-- **A run of built-in passes over a verified module** ends with a verified module that they have
made of it, or with an error. That error is never about a malformed module. It is about a module
that did not verify exactly if one of the transformations has broken a verified module: by taking
away the definition of a value that is still read, by giving a block a name that is in use, or by
putting an argument that is no pointer in the place of an address, unless the numbers of a function
ran out. -/
theorem run_verificationFailed_iff {mgr : Manager σ} {m : Module}
    (hpasses : ∀ q ∈ mgr.passes, q.IsBuiltin) (hchecker : mgr.checker = .standard)
    (hm : moduleErr? (some m) = none) :
    ((mgr.run (.ofModule m)).1 = none →
        ∃ m', ReflTransGen (Step mgr.passes) m m' ∧ moduleErr? (some m') = none ∧
          (mgr.run (.ofModule m)).2.listing = .ofModule m') ∧
      ∀ f, (mgr.run (.ofModule m)).1 = some f → ∃ e, f = .error e ∧
        e.isKind .malformedIR = false ∧
        (e.isKind .verificationFailed = true ↔
          Broken mgr.passes m (.error e) (mgr.run (.ofModule m)).2) := by
  have hends := ends_run hpasses hchecker hm
  generalize mgr.run (.ofModule m) = result at hends ⊢
  obtain ⟨failure, w⟩ := result
  refine ⟨fun hnone => ?_, fun f hf => ?_⟩
  · obtain rfl : failure = none := hnone
    obtain ⟨m', hw, hm', hpath⟩ := hends
    exact ⟨m', hpath, hm', hw.listing_eq⟩
  · obtain rfl : failure = some f := hf
    rcases hends with ⟨e, rfl, hmalformed, hverification⟩ | hbroken
    · refine ⟨e, rfl, hmalformed, iff_of_false (by simp [hverification]) fun hbroken => ?_⟩
      obtain ⟨t, _, _, cause, _, _, _, _, _, _, _, heq⟩ := hbroken.made
      obtain rfl := Failure.error.inj heq
      simp [Err.isKind] at hverification
    · obtain ⟨t, _, m', cause, _, _, _, _, _, hcause, _, rfl⟩ := hbroken.made
      refine ⟨_, rfl, ?_, iff_of_true (by simp [Err.isKind]) hbroken⟩
      simp [Err.isKind, Err.isKind_moduleErr? _ hcause]

/-- A function that returns a value that only a block without predecessors defines. -/
def strandedReturn : Module where
  name := "m"
  functions :=
    [{ name := "f"
       ret := some (.int ⟨true, .w32⟩)
       blocks :=
         [{ id := 1, term := some (.ret 1 true) },
          { id := 2
            instrs := [.const ⟨1, some (.int ⟨true, .w32⟩), "1"⟩]
            term := some (.ret 1 true) }] }]

/-- A function that loads through its parameter is called with an integer. -/
def misdirectedLoad : Module where
  name := "m"
  functions :=
    [{ name := "g"
       params := [⟨1, "p", some .ptr⟩]
       ret := some .bool
       blocks := [{ id := 1, instrs := [.load { result := 2, addr := 1, ty := some .bool }]
                    term := some (.ret 2 true) }] },
     { name := "f"
       params := [⟨1, "n", some (.int ⟨true, .w32⟩)⟩]
       blocks :=
         [{ id := 1
            instrs :=
              [.call { result := 0, target := "g", args := [1], ty := none, effect := .pure }]
            term := some (.ret 0 false) }] }]

/-- The block of a call has the name that is made for the exit block. -/
def reusedName : Module where
  name := "m"
  functions :=
    [{ name := "g", blocks := [{ id := 1, term := some (.ret 0 false) }] },
     { name := "f"
       blocks :=
         [{ id := 1
            name := "g.exit.2"
            instrs :=
              [.call { result := 0, target := "g", args := [], ty := none, effect := .pure }]
            term := some (.ret 0 false) }] }]

/-- A manager with the analyses and one transformation. -/
def single (t : Transform) : Manager Unit where
  passes := Analysis.all.map Analysis.pass ++ [t.pass]
  world := ()

/-- Whether a run ended because a module did not verify. -/
def brokeModule : Option Failure → Bool
  | some (.error e) => e.isKind .verificationFailed
  | _ => false

theorem isBuiltin_of_mem_single {t : Transform} : ∀ q ∈ (single t).passes, q.IsBuiltin := by
  intro q hq
  rcases List.mem_append.1 hq with hq | hq
  · obtain ⟨a, -, rfl⟩ := List.mem_map.1 hq
    exact Or.inl ⟨a, rfl⟩
  · exact Or.inr ⟨_, List.mem_singleton.1 hq⟩

/-- A run with the transformation breaks the verified module. -/
def BreaksAlone (t : Transform) (m : Module) : Prop :=
  moduleErr? (some m) = none ∧ ∃ e, ((single t).run (.ofModule m)).1 = some (.error e) ∧
    e.isKind .malformedIR = false ∧ e.isKind .verificationFailed = true ∧
    Broken (single t).passes m (.error e) ((single t).run (.ofModule m)).2

theorem run_breaks_modules :
    BreaksAlone (.deadCode 0) strandedReturn ∧ BreaksAlone (.inline ⟨10, false⟩) misdirectedLoad ∧
      BreaksAlone (.inline ⟨10, false⟩) reusedName := by
  have hbreaks (t : Transform) (m : Module) (hm : moduleErr? (some m) = none)
      (hbroke : brokeModule ((single t).run (.ofModule m)).1 = true) : BreaksAlone t m := by
    obtain ⟨-, hfailure⟩ := run_verificationFailed_iff (isBuiltin_of_mem_single (t := t)) rfl hm
    refine ⟨hm, ?_⟩
    cases hf : ((single t).run (.ofModule m)).1 with
    | none => simp [hf, brokeModule] at hbroke
    | some f =>
      obtain ⟨e, rfl, hmalformed, hiff⟩ := hfailure f hf
      have hkind : e.isKind .verificationFailed = true := by simpa [hf, brokeModule] using hbroke
      exact ⟨e, rfl, hmalformed, hkind, hiff.1 hkind⟩
  exact ⟨hbreaks _ _ (by decide) (by decide +kernel), hbreaks _ _ (by decide) (by decide +kernel),
    hbreaks _ _ (by decide) (by decide +kernel)⟩

end Manager

end SsaOpt
