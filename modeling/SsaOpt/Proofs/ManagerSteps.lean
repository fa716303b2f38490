import SsaOpt.Pass.Manager

/-!
# The steps of a manager

What the steps of a run have in common, whatever the passes are. A step ends well or with a failure
(`Ends`), and steps in turn keep what each of them keeps (`ends_inTurn`). A call of a pass does to
the state what the pass does, and leaves the setup of the manager alone (`Work.runPass_fst`,
`Work.runPass_toRun`, `Work.runPass_setup`).
-/

namespace SsaOpt.Manager

variable {σ : Type}

/-! ## Steps in turn -/

/-- A step ends with a state as `P` says, or with a failure and a state as `Q` says. -/
def Ends (P : Work σ → Prop) (Q : Failure → Work σ → Prop) : Option Failure × Work σ → Prop
  | (none, w) => P w
  | (some f, w) => Q f w

theorem Ends.imp {P P' : Work σ → Prop} {Q Q' : Failure → Work σ → Prop}
    {result : Option Failure × Work σ} (h : Ends P Q result) (hP : ∀ w, P w → P' w)
    (hQ : ∀ f w, Q f w → Q' f w) : Ends P' Q' result :=
  match result with
  | (none, w) => hP w h
  | (some f, w) => hQ f w h

/-- Steps in turn keep `P`, and in the end `R` holds of all of them, if each step brings about `R`
of itself and keeps it of all others. -/
theorem ends_inTurn_all {α : Type} {step : Work σ → α → Option Failure × Work σ} {P : Work σ → Prop}
    {Q : Failure → Work σ → Prop} {R : α → Work σ → Prop} {xs : List α}
    (hstep : ∀ x ∈ xs, ∀ w, P w →
      Ends (fun w' => P w' ∧ R x w' ∧ ∀ y, R y w → R y w') Q (step w x)) {w : Work σ} (hw : P w) :
    Ends (fun w' => P w' ∧ (∀ x ∈ xs, R x w') ∧ ∀ y, R y w → R y w') Q (inTurn step xs w) := by
  induction xs generalizing w with
  | nil => exact ⟨hw, by simp, fun _ h => h⟩
  | cons x xs ih =>
    have hx := hstep x (by simp) w hw
    rw [inTurn]
    match h : step w x with
    | (some f, w') =>
      rw [h] at hx
      exact hx
    | (none, w') =>
      rw [h] at hx
      obtain ⟨hP, hR, hkept⟩ := hx
      refine (ih (fun y hy => hstep y (by simp [hy])) hP).imp (fun w'' hrest => ?_) fun _ _ h => h
      obtain ⟨hP', hall, hkept'⟩ := hrest
      refine ⟨hP', fun y hy => ?_, fun y hy => hkept' y (hkept y hy)⟩
      rcases List.mem_cons.1 hy with rfl | hy
      · exact hkept' y hR
      · exact hall y hy

theorem ends_inTurn {α : Type} {step : Work σ → α → Option Failure × Work σ} {P : Work σ → Prop}
    {Q : Failure → Work σ → Prop} {xs : List α} (hstep : ∀ x ∈ xs, ∀ w, P w → Ends P Q (step w x))
    {w : Work σ} (hw : P w) : Ends P Q (inTurn step xs w) :=
  (ends_inTurn_all (R := fun _ _ => True)
    (fun x hx w hw => (hstep x hx w hw).imp (fun _ h => ⟨h, trivial, fun _ h => h⟩) fun _ _ h => h)
    hw).imp (fun _ h => h.1) fun _ _ h => h

/-! ## A call -/

/-- What a run never changes of a manager: its passes, its checker, and whether changes have to be
reported. -/
structure SameSetup (mgr mgr' : Manager σ) : Prop where
  passes_eq : mgr'.passes = mgr.passes
  checker_eq : mgr'.checker = mgr.checker
  verifyModified_eq : mgr'.verifyModified = mgr.verifyModified

theorem SameSetup.refl (mgr : Manager σ) : SameSetup mgr mgr := ⟨rfl, rfl, rfl⟩

theorem SameSetup.trans {mgr mgr' mgr'' : Manager σ} (h : SameSetup mgr mgr')
    (h' : SameSetup mgr' mgr'') : SameSetup mgr mgr'' :=
  ⟨h'.passes_eq.trans h.passes_eq, h'.checker_eq.trans h.checker_eq,
    h'.verifyModified_eq.trans h.verifyModified_eq⟩

theorem record_setup (name : String) (modified : Bool) (mgr : Manager σ) :
    SameSetup mgr (mgr.record name modified) := by
  unfold record
  dsimp only
  split
  · exact ⟨rfl, rfl, rfl⟩
  · exact ⟨rfl, rfl, rfl⟩

/-- What a call of a pass counts for is all that there is beside what the pass does. -/
theorem Work.runPass_eq_update (w : Work σ) (p : Pass σ) (counted : Bool → Bool) :
    (w.runPass p counted).1 = (p.onModule (w.manager.envFor p.name) w.toRun).1 ∧
      ((w.runPass p counted).2 = w.update (p.onModule (w.manager.envFor p.name) w.toRun).2 ∨
        ∃ modified, (w.runPass p counted).2 =
          { w.update (p.onModule (w.manager.envFor p.name) w.toRun).2 with
            manager := record p.name modified
              (w.update (p.onModule (w.manager.envFor p.name) w.toRun).2).manager }) := by
  unfold Work.runPass
  generalize p.onModule (w.manager.envFor p.name) w.toRun = result
  obtain ⟨⟨modified, failure⟩, r⟩ := result
  rcases failure with _ | e | _
  · exact ⟨rfl, Or.inr ⟨_, rfl⟩⟩
  · exact ⟨rfl, Or.inr ⟨_, rfl⟩⟩
  · exact ⟨rfl, Or.inl rfl⟩

/-- What a pass reports. -/
theorem Work.runPass_fst (w : Work σ) (p : Pass σ) (counted : Bool → Bool) :
    (w.runPass p counted).1 = (p.onModule (w.manager.envFor p.name) w.toRun).1 :=
  (w.runPass_eq_update p counted).1

/-- What a pass leaves. -/
theorem Work.runPass_toRun (w : Work σ) (p : Pass σ) (counted : Bool → Bool) :
    (w.runPass p counted).2.toRun = (p.onModule (w.manager.envFor p.name) w.toRun).2 := by
  rcases (w.runPass_eq_update p counted).2 with heq | ⟨modified, heq⟩
  · rw [heq]
    rfl
  · rw [heq]
    unfold record
    dsimp only
    split <;> rfl

theorem Work.runPass_setup (w : Work σ) (p : Pass σ) (counted : Bool → Bool) :
    SameSetup w.manager (w.runPass p counted).2.manager := by
  rcases (w.runPass_eq_update p counted).2 with heq | ⟨modified, heq⟩
  · rw [heq]
    exact ⟨rfl, rfl, rfl⟩
  · rw [heq]
    obtain ⟨hpasses, hchecker, hverify⟩ := record_setup p.name modified
      (w.update (p.onModule (w.manager.envFor p.name) w.toRun).2).manager
    exact ⟨hpasses, hchecker, hverify⟩

/-! ## A turn -/

/-- What is left of a pass once all that it requires has been computed. -/
def attempt (q : Pass σ) (w : Work σ) : Option Failure × Work σ :=
  match q.refusal? (w.manager.envFor q.name) w.listing with
  | some failure => (some (annotate q.name failure), w)
  | none =>
    let before := if w.manager.verifyModified then w.listing.fingerprint else 0
    match w.runPass q id with
    | (⟨_, some failure⟩, w) => (some (annotate q.name failure), w)
    | (⟨modified, none⟩, w) =>
      afterPass q before modified (if q.isAnalysis then w.markValid q.name else w)

theorem runPass_eq (w : Work σ) (q : Pass σ) :
    runPass w q =
      if q.isAnalysis && w.manager.cache.isValid q.name then (none, w)
      else
        match inTurn (ensure (w.manager.passes.length + 1)) (q.requires w.manager.world) w with
        | (some failure, w) => (some failure, w)
        | (none, w) => attempt q w := rfl

/-! ## The setup -/

theorem inTurn_setup {α : Type} {step : Work σ → α → Option Failure × Work σ}
    (hstep : ∀ x w, SameSetup w.manager (step w x).2.manager) (xs : List α) (w : Work σ) :
    SameSetup w.manager (inTurn step xs w).2.manager := by
  induction xs generalizing w with
  | nil => exact .refl _
  | cons x xs ih =>
    have hx := hstep x w
    rw [inTurn]
    generalize step w x = result at hx ⊢
    match result with
    | (some f, w') => exact hx
    | (none, w') => exact hx.trans (ih w')

theorem ensure_setup (fuel : Nat) (name : String) (w : Work σ) :
    SameSetup w.manager (ensure fuel w name).2.manager := by
  induction fuel generalizing name w with
  | zero => exact .refl _
  | succ fuel ih =>
    rw [ensure]
    cases w.manager.find? name with
    | none => exact .refl _
    | some p =>
      dsimp only
      split
      · exact .refl _
      have hrequired := inTurn_setup ih (p.requires w.manager.world) w
      generalize inTurn (ensure fuel) (p.requires w.manager.world) w = result at hrequired ⊢
      match result with
      | (some f, w₁) => exact hrequired
      | (none, w₁) =>
        have hcall := hrequired.trans (w₁.runPass_setup p fun _ => false)
        dsimp only
        generalize w₁.runPass p (fun _ => false) = result at hcall ⊢
        match result with
        | (⟨_, some f⟩, w₂) => exact hcall
        | (⟨_, none⟩, w₂) => exact hcall.trans ⟨rfl, rfl, rfl⟩

theorem afterPass_setup (p : Pass σ) (before : UInt64) (modified : Bool) (w : Work σ) :
    SameSetup w.manager (afterPass p before modified w).2.manager := by
  unfold afterPass
  split
  · rcases w.manager.checker.verifyModule (some w.listing) with _ | e | _ <;> exact ⟨rfl, rfl, rfl⟩
  · split <;> exact .refl _

theorem attempt_setup (p : Pass σ) (w : Work σ) :
    SameSetup w.manager (attempt p w).2.manager := by
  unfold attempt
  split
  · exact .refl _
  have hcall := w.runPass_setup p id
  dsimp only
  generalize w.runPass p id = result at hcall ⊢
  match result with
  | (⟨_, some f⟩, w₁) => exact hcall
  | (⟨modified, none⟩, w₁) =>
    refine hcall.trans (SameSetup.trans ?_ (afterPass_setup p _ modified _))
    split <;> exact ⟨rfl, rfl, rfl⟩

theorem runCounted_setup (p : Pass σ) (w : Work σ) :
    SameSetup w.manager (runCounted w p).2.manager := by
  have hpass : SameSetup w.manager (runPass w p).2.manager := by
    rw [runPass_eq]
    split
    · exact .refl _
    have hrequired := inTurn_setup (ensure_setup (w.manager.passes.length + 1))
      (p.requires w.manager.world) w
    generalize inTurn (ensure (w.manager.passes.length + 1)) (p.requires w.manager.world) w = result
      at hrequired ⊢
    match result with
    | (some f, w₁) => exact hrequired
    | (none, w₁) => exact hrequired.trans (attempt_setup p w₁)
  unfold runCounted
  generalize runPass w p = result at hpass ⊢
  match result with
  | (none, w') => exact hpass
  | (some .fault, w') => exact hpass
  | (some (.error e), w') => exact hpass.trans ⟨rfl, rfl, rfl⟩

/-- **A run** never changes the setup of the manager, however it ends. -/
theorem run_setup (mgr : Manager σ) (l : Listing) : SameSetup mgr (mgr.run l).2.manager := by
  unfold run
  cases mgr.sortPasses with
  | error e => exact .refl _
  | ok order =>
    refine SameSetup.trans ?_ (inTurn_setup runCounted_setup order _)
    exact ⟨rfl, rfl, rfl⟩

/-- The manager after some runs. -/
def afterRuns (mgr : Manager σ) (history : List Listing) : Manager σ :=
  history.foldl (fun mgr l => (mgr.run l).2.manager) mgr

theorem afterRuns_setup (mgr : Manager σ) (history : List Listing) :
    SameSetup mgr (mgr.afterRuns history) := by
  induction history generalizing mgr with
  | nil => exact .refl mgr
  | cons l history ih => exact (run_setup mgr l).trans (ih _)

end SsaOpt.Manager
