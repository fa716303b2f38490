import Mathlib.Data.List.Forall2
import SsaOpt.Pass.Builtin
import SsaOpt.Proofs.WellFormed

/-!
# Passes over all functions

A transformation goes through the functions of a module in order. `Run.allFunctions_of_none` is the
induction over such a run that does not fail: what each step does to the module is all that has to
be known of it. Where a step changes nothing but the function at its position, that is
`Run.allFunctions_changed`. `Run.allFunctions_firstFailure` is about a run that may fail: it stops
at the first function whose step fails.
-/

namespace SsaOpt

/-- A failure with the function named in it. -/
def Failure.inFunction (name : String) : Failure → Failure
  | .error e => .error (e.inFunction name)
  | .fault => .fault

/-- The function that is named already is not named again. -/
theorem Failure.inFunction_failed (f : PassFailure) :
    (Failure.error (.failed f)).inFunction f.function = .error (.failed f) := by
  simp [Failure.inFunction, Err.inFunction]

namespace Listing

@[simp] theorem function?_ofModule (m : Module) (i : Nat) :
    (ofModule m).function? i = m.functions[i]? := by
  cases h : m.functions[i]? <;> simp [function?, ofModule, h]

@[simp] theorem setFunction_ofModule (m : Module) (i : Nat) (fn : Function) :
    (ofModule m).setFunction i fn = ofModule { m with functions := m.functions.set i fn } := by
  simp [setFunction, ofModule]

@[simp] theorem canJudge_ofModule (m : Module) (i : Instr) : (ofModule m).canJudge i = true := by
  cases i <;> simp [canJudge, canSearch]

end Listing

namespace Run

variable {σ : Type} {step : Nat → Run σ → Outcome × Run σ} {motive : Nat → Run σ → Module → Prop}

/-! ## What one step does -/

section Step

variable {k : Nat} {ks : List Nat} {modified : Bool} {r : Run σ} {fn : Function}

theorem eachFunction_skip (h : r.listing.function? k = some fn) (hext : fn.isExternal = true) :
    eachFunction step (k :: ks) modified r = eachFunction step ks modified r := by
  rw [eachFunction, h]
  exact if_pos hext

theorem eachFunction_next (h : r.listing.function? k = some fn) (hext : fn.isExternal = false)
    (hnone : (step k r).1.failure = none) :
    eachFunction step (k :: ks) modified r =
      eachFunction step ks (modified || (step k r).1.modified) (step k r).2 := by
  simp only [eachFunction, h, hext, hnone, Bool.false_eq_true, if_false]

theorem eachFunction_stop (h : r.listing.function? k = some fn) (hext : fn.isExternal = false)
    {f : Failure} (hf : (step k r).1.failure = some f) :
    eachFunction step (k :: ks) modified r =
      ({ modified, failure := some (f.inFunction fn.name) }, (step k r).2) := by
  simp only [eachFunction, h, hext, hf, Bool.false_eq_true, if_false]
  cases f <;> rfl

end Step

/-! ## What all steps do -/

/-- **A step for each function**, from a position on, none of which fails. -/
theorem eachFunction_of_none
    (hskip : ∀ k r m fn, r.listing = .ofModule m → m.functions[k]? = some fn →
      fn.isExternal = true → motive k r m → motive (k + 1) r m)
    (hstep : ∀ k r m fn, r.listing = .ofModule m → m.functions[k]? = some fn →
      fn.isExternal = false → motive k r m → (step k r).1.failure = none →
      ∃ m', (step k r).2.listing = .ofModule m' ∧
        m'.functions.length = m.functions.length ∧ motive (k + 1) (step k r).2 m')
    (n : Nat) :
    ∀ k r m modified, r.listing = .ofModule m → k + n = m.functions.length → motive k r m →
      (eachFunction step (List.range' k n) modified r).1.failure = none →
      ∃ m', (eachFunction step (List.range' k n) modified r).2.listing = .ofModule m' ∧
        m'.functions.length = m.functions.length ∧
        motive (k + n) (eachFunction step (List.range' k n) modified r).2 m' := by
  induction n with
  | zero =>
    intro k r m modified hr _ hm _
    exact ⟨m, hr, rfl, hm⟩
  | succ n ih =>
    intro k r m modified hr hn hm hnone
    have hk : k < m.functions.length := by omega
    obtain ⟨fn, hfn⟩ : ∃ fn, m.functions[k]? = some fn := ⟨_, List.getElem?_eq_getElem hk⟩
    have hplace : r.listing.function? k = some fn := by rw [hr, Listing.function?_ofModule, hfn]
    rw [List.range'_succ] at hnone ⊢
    have hindex : k + (n + 1) = k + 1 + n := by omega
    rw [hindex]
    cases hext : fn.isExternal with
    | true =>
      rw [eachFunction_skip hplace hext] at hnone ⊢
      exact ih (k + 1) r m modified hr (by omega) (hskip k r m fn hr hfn hext hm) hnone
    | false =>
      cases hf : (step k r).1.failure with
      | some f => simp [eachFunction_stop hplace hext hf] at hnone
      | none =>
        rw [eachFunction_next hplace hext hf] at hnone ⊢
        obtain ⟨m', hr', hlen, hm'⟩ := hstep k r m fn hr hfn hext hm hf
        obtain ⟨m'', hr'', hlen', hm''⟩ := ih (k + 1) (step k r).2 m' _ hr' (by omega) hm' hnone
        exact ⟨m'', hr'', hlen'.trans hlen, hm''⟩

/-- **A step for all functions**, none of which fails. -/
theorem allFunctions_of_none {m : Module} {r : Run σ} (hr : r.listing = .ofModule m)
    (hskip : ∀ k r m fn, r.listing = .ofModule m → m.functions[k]? = some fn →
      fn.isExternal = true → motive k r m → motive (k + 1) r m)
    (hstep : ∀ k r m fn, r.listing = .ofModule m → m.functions[k]? = some fn →
      fn.isExternal = false → motive k r m → (step k r).1.failure = none →
      ∃ m', (step k r).2.listing = .ofModule m' ∧
        m'.functions.length = m.functions.length ∧ motive (k + 1) (step k r).2 m')
    (hm : motive 0 r m) (hnone : (r.allFunctions step).1.failure = none) :
    ∃ m', (r.allFunctions step).2.listing = .ofModule m' ∧
      m'.functions.length = m.functions.length ∧
      motive m.functions.length (r.allFunctions step).2 m' := by
  have hlen : r.listing.places.length = m.functions.length := by simp [hr, Listing.ofModule]
  rw [allFunctions, hlen, List.range_eq_range'] at hnone ⊢
  simpa using eachFunction_of_none hskip hstep m.functions.length 0 r m false hr (by omega) hm hnone

/-- **A run that fails** fails in one of its steps. -/
theorem eachFunction_failure
    (hstep : ∀ k r m fn, r.listing = .ofModule m → m.functions[k]? = some fn →
      ∃ m', (step k r).2.listing = .ofModule m' ∧ m'.functions.length = m.functions.length)
    (ks : List Nat) {f : Failure} :
    ∀ r m modified, r.listing = .ofModule m → (∀ k ∈ ks, k < m.functions.length) →
      (eachFunction step ks modified r).1.failure = some f →
      ∃ k r' m' fn f', r'.listing = .ofModule m' ∧ m'.functions[k]? = some fn ∧
        (step k r').1.failure = some f' ∧ f = f'.inFunction fn.name := by
  induction ks with
  | nil => simp [eachFunction]
  | cons k rest ih =>
    intro r m modified hr hks hf
    have hk := hks k (by simp)
    have hrest : ∀ j ∈ rest, j < m.functions.length := fun j hj => hks j (by simp [hj])
    obtain ⟨fn, hfn⟩ : ∃ fn, m.functions[k]? = some fn := ⟨_, List.getElem?_eq_getElem hk⟩
    have hplace : r.listing.function? k = some fn := by rw [hr, Listing.function?_ofModule, hfn]
    cases hext : fn.isExternal with
    | true =>
      rw [eachFunction_skip hplace hext] at hf
      exact ih r m modified hr hrest hf
    | false =>
      cases hfail : (step k r).1.failure with
      | some f' =>
        rw [eachFunction_stop hplace hext hfail] at hf
        exact ⟨k, r, m, fn, f', hr, hfn, hfail, (Option.some.inj hf).symm⟩
      | none =>
        rw [eachFunction_next hplace hext hfail] at hf
        obtain ⟨m', hr', hlen⟩ := hstep k r m fn hr hfn
        exact ih _ m' _ hr' (fun j hj => hlen ▸ hrest j hj) hf

theorem allFunctions_failure {m : Module} {r : Run σ} (hr : r.listing = .ofModule m)
    (hstep : ∀ k r m fn, r.listing = .ofModule m → m.functions[k]? = some fn →
      ∃ m', (step k r).2.listing = .ofModule m' ∧ m'.functions.length = m.functions.length)
    {f : Failure} (hf : (r.allFunctions step).1.failure = some f) :
    ∃ k r' m' fn f', r'.listing = .ofModule m' ∧ m'.functions[k]? = some fn ∧
      (step k r').1.failure = some f' ∧ f = f'.inFunction fn.name :=
  eachFunction_failure hstep _ r m false hr (by simp [hr, Listing.ofModule]) hf

/-- What every step keeps, a run keeps, whether or not it fails. -/
theorem eachFunction_preserves {P : Run σ → Prop} (hstep : ∀ k r, P r → P (step k r).2)
    (ks : List Nat) (modified : Bool) (r : Run σ) (hr : P r) :
    P (eachFunction step ks modified r).2 := by
  fun_induction eachFunction step ks modified r with
  | case1 => exact hr
  | case2 => exact hr
  | case3 _ _ _ _ _ _ _ ih => exact ih hr
  | case4 k _ _ r _ _ _ out r' hout _ ih => exact ih (by simpa [hout] using hstep k r hr)
  | case5 k _ _ r _ _ _ out r' hout => simpa [hout] using hstep k r hr
  | case6 k _ _ r _ _ _ out r' hout => simpa [hout] using hstep k r hr

/-- A run reports no change if none of its steps ever does. -/
theorem eachFunction_quiet (hstep : ∀ k r, (step k r).1.modified = false) (ks : List Nat)
    (modified : Bool) (r : Run σ) : (eachFunction step ks modified r).1.modified = modified := by
  fun_induction eachFunction step ks modified r with
  | case1 => rfl
  | case2 => rfl
  | case3 _ _ _ _ _ _ _ ih => exact ih
  | case4 k _ modified r _ _ _ out r' hout _ ih =>
    have hquiet : out.modified = false := by simpa [hout] using hstep k r
    rw [ih, hquiet, Bool.or_false]
  | case5 => rfl
  | case6 => rfl

/-- What the steps that report no change keep, a run that reports none keeps. -/
theorem eachFunction_unmodified {P : Run σ → Prop}
    (hstep : ∀ k r, P r → (step k r).1.failure = none → (step k r).1.modified = false →
      P (step k r).2) (ks : List Nat) (modified : Bool) (r : Run σ)
    (hnone : (eachFunction step ks modified r).1.failure = none)
    (hmodified : (eachFunction step ks modified r).1.modified = false) :
    modified = false ∧ (P r → P (eachFunction step ks modified r).2) := by
  fun_induction eachFunction step ks modified r with
  | case1 => exact ⟨hmodified, id⟩
  | case2 => cases hnone
  | case3 _ _ _ _ _ _ _ ih => exact ih hnone hmodified
  | case4 k _ _ r _ _ _ out r' hout hfail ih =>
    obtain ⟨hor, hrest⟩ := ih hnone hmodified
    rw [Bool.or_eq_false_iff] at hor
    have hk := hstep k r
    rw [hout] at hk
    exact ⟨hor.1, fun hr => hrest (hk hr hfail hor.2)⟩
  | case5 => cases hnone
  | case6 => cases hnone

theorem allFunctions_unmodified {r : Run σ}
    (hstep : ∀ k r, (step k r).1.failure = none → (step k r).1.modified = false →
      (step k r).2.listing = r.listing)
    (hnone : (r.allFunctions step).1.failure = none)
    (hmodified : (r.allFunctions step).1.modified = false) :
    (r.allFunctions step).2.listing = r.listing :=
  (eachFunction_unmodified (P := fun r' => r'.listing = r.listing)
    (fun k r' hr' hnone hmodified => (hstep k r' hnone hmodified).trans hr') _ false r hnone
    hmodified).2 rfl

end Run

/-! ## Function by function -/

/-- The first `k` functions have been changed, each in a way that `R` allows. -/
structure Module.ChangedUpTo (R : Function → Function → Prop) (m : Module) (k : Nat) (m' : Module) :
    Prop where
  name_eq : m'.name = m.name
  length_eq : m'.functions.length = m.functions.length
  changed : ∀ j fn fn', j < k → m.functions[j]? = some fn → m'.functions[j]? = some fn' → R fn fn'
  same : ∀ j, k ≤ j → m'.functions[j]? = m.functions[j]?

namespace Module.ChangedUpTo

variable {R : Function → Function → Prop} {m m' : Module} {k : Nat} {fn fn' : Function}

theorem init (R : Function → Function → Prop) (m : Module) : ChangedUpTo R m 0 m :=
  ⟨rfl, rfl, by simp, fun _ _ => rfl⟩

/-- What is the same of a function before and after is the same for all functions. -/
theorem map_eq {α : Type} (h : ChangedUpTo R m k m') {f : Function → α}
    (hf : ∀ fn fn', R fn fn' → f fn' = f fn) : m'.functions.map f = m.functions.map f := by
  refine List.ext_getElem (by simp [h.length_eq]) fun j h₁ h₂ => ?_
  rw [List.length_map] at h₁ h₂
  rw [List.getElem_map, List.getElem_map]
  by_cases hj : j < k
  · exact hf _ _ (h.changed j _ _ hj (List.getElem?_eq_getElem h₂) (List.getElem?_eq_getElem h₁))
  · have hsame := h.same j (by omega)
    rw [List.getElem?_eq_getElem h₁, List.getElem?_eq_getElem h₂] at hsame
    exact congrArg f (Option.some.inj hsame)

theorem forall₂ (h : ChangedUpTo R m m.functions.length m') :
    List.Forall₂ R m.functions m'.functions := by
  refine List.forall₂_iff_get.2 ⟨h.length_eq.symm, fun j h₁ h₂ => ?_⟩
  exact h.changed j _ _ h₁ (List.getElem?_eq_getElem h₁) (List.getElem?_eq_getElem h₂)

theorem skip (h : ChangedUpTo R m k m') (hfn : m.functions[k]? = some fn) (hR : R fn fn) :
    ChangedUpTo R m (k + 1) m' where
  name_eq := h.name_eq
  length_eq := h.length_eq
  changed j f f' hj hf hf' := by
    rcases Nat.lt_succ_iff_lt_or_eq.1 hj with hlt | rfl
    · exact h.changed j f f' hlt hf hf'
    · rw [h.same j (Nat.le_refl j), hfn] at hf'
      rw [hfn] at hf
      obtain rfl := Option.some.inj hf
      obtain rfl := Option.some.inj hf'
      exact hR
  same j hj := h.same j (by omega)

theorem step (h : ChangedUpTo R m k m') (hfn : m.functions[k]? = some fn) (hR : R fn fn') :
    ChangedUpTo R m (k + 1) { m' with functions := m'.functions.set k fn' } where
  name_eq := h.name_eq
  length_eq := by rw [List.length_set, h.length_eq]
  changed j f f' hj hf hf' := by
    rcases Nat.lt_succ_iff_lt_or_eq.1 hj with hlt | rfl
    · rw [List.getElem?_set_ne (by omega)] at hf'
      exact h.changed j f f' hlt hf hf'
    · have hlt : j < m'.functions.length := h.length_eq ▸ (List.getElem?_eq_some_iff.1 hfn).1
      rw [List.getElem?_set_self hlt] at hf'
      rw [hfn] at hf
      obtain rfl := Option.some.inj hf
      obtain rfl := Option.some.inj hf'
      exact hR
  same j hj := by
    rw [List.getElem?_set_ne (by omega)]
    exact h.same j (by omega)

/-- What has not been reached is unchanged. -/
theorem mono (h : ChangedUpTo R m k m') (hR : ∀ fn, R fn fn) {l : Nat} (hkl : k ≤ l) :
    ChangedUpTo R m l m' where
  name_eq := h.name_eq
  length_eq := h.length_eq
  changed j f f' _ hf hf' := by
    by_cases hj : j < k
    · exact h.changed j f f' hj hf hf'
    · rw [h.same j (by omega), hf] at hf'
      obtain rfl := Option.some.inj hf'
      exact hR f
  same j hj := h.same j (by omega)

end Module.ChangedUpTo

/-- **A run that changes function by function**, and does not fail. -/
theorem Run.allFunctions_changed {σ : Type} {step : Nat → Run σ → Outcome × Run σ}
    {R : Function → Function → Prop} {m : Module} {r : Run σ} (hr : r.listing = .ofModule m)
    (hexternal : ∀ fn, fn.isExternal = true → R fn fn)
    (hstep : ∀ k r' m' fn, r'.listing = .ofModule m' → m.ChangedUpTo R k m' →
      m'.functions[k]? = some fn → fn ∈ m.functions → fn.isExternal = false →
      (step k r').1.failure = none →
      ∃ fn', (step k r').2.listing = .ofModule { m' with functions := m'.functions.set k fn' } ∧
        R fn fn')
    (hnone : (r.allFunctions step).1.failure = none) :
    ∃ fns, (r.allFunctions step).2.listing = .ofModule { m with functions := fns } ∧
      List.Forall₂ R m.functions fns := by
  obtain ⟨m', hlisting, -, hchanged⟩ := allFunctions_of_none
    (motive := fun k _ m' => m.ChangedUpTo R k m') hr
    (fun k _ m' fn _ hfn hext h =>
      h.skip (h.same k (Nat.le_refl k) ▸ hfn) (hexternal fn hext))
    (fun k r' m' fn hr' hfn hext h hnone => by
      have hfn' : m.functions[k]? = some fn := h.same k (Nat.le_refl k) ▸ hfn
      obtain ⟨fn', hlisting, hR⟩ :=
        hstep k r' m' fn hr' h hfn (List.mem_of_getElem? hfn') hext hnone
      exact ⟨_, hlisting, by simp, h.step hfn' hR⟩)
    (.init R m) hnone
  refine ⟨m'.functions, ?_, hchanged.forall₂⟩
  rw [← hchanged.name_eq]
  exact hlisting

/-- **A run that changes function by function**, from a position on, whether or not it fails. -/
theorem Run.eachFunction_refined {σ : Type} {step : Nat → Run σ → Outcome × Run σ}
    {R : Function → Function → Prop} {m : Module} (hrefl : ∀ fn, R fn fn)
    (hstep : ∀ k r' m' fn, r'.listing = .ofModule m' → m'.functions[k]? = some fn →
      fn ∈ m.functions → fn.isExternal = false →
      ∃ fn', (step k r').2.listing = .ofModule { m' with functions := m'.functions.set k fn' } ∧
        R fn fn') (n : Nat) :
    ∀ k r' m' modified, r'.listing = .ofModule m' → k + n = m.functions.length →
      m.ChangedUpTo R k m' →
      ∃ m'', (eachFunction step (List.range' k n) modified r').2.listing = .ofModule m'' ∧
        m.ChangedUpTo R m.functions.length m'' := by
  induction n with
  | zero =>
    intro k r' m' modified hr' hn h
    exact ⟨m', hr', hn ▸ h⟩
  | succ n ih =>
    intro k r' m' modified hr' hn h
    obtain ⟨fn, hfn⟩ : ∃ fn, m.functions[k]? = some fn :=
      ⟨_, List.getElem?_eq_getElem (by omega)⟩
    have hfn' : m'.functions[k]? = some fn := (h.same k (Nat.le_refl k)).trans hfn
    have hplace : r'.listing.function? k = some fn := by
      rw [hr', Listing.function?_ofModule, hfn']
    rw [List.range'_succ]
    cases hext : fn.isExternal with
    | true =>
      rw [eachFunction_skip hplace hext]
      exact ih (k + 1) r' m' modified hr' (by omega) (h.skip hfn (hrefl fn))
    | false =>
      obtain ⟨fn', hlisting, hR⟩ := hstep k r' m' fn hr' hfn' (List.mem_of_getElem? hfn) hext
      cases hf : (step k r').1.failure with
      | some f =>
        rw [eachFunction_stop hplace hext hf]
        exact ⟨_, hlisting, (h.step hfn hR).mono hrefl (by omega)⟩
      | none =>
        rw [eachFunction_next hplace hext hf]
        exact ih (k + 1) _ _ _ hlisting (by omega) (h.step hfn hR)

theorem Run.allFunctions_refined {σ : Type} {step : Nat → Run σ → Outcome × Run σ}
    {R : Function → Function → Prop} {m : Module} {r : Run σ} (hr : r.listing = .ofModule m)
    (hrefl : ∀ fn, R fn fn)
    (hstep : ∀ k r' m' fn, r'.listing = .ofModule m' → m'.functions[k]? = some fn →
      fn ∈ m.functions → fn.isExternal = false →
      ∃ fn', (step k r').2.listing = .ofModule { m' with functions := m'.functions.set k fn' } ∧
        R fn fn') :
    ∃ fns, (r.allFunctions step).2.listing = .ofModule { m with functions := fns } ∧
      List.Forall₂ R m.functions fns := by
  have hlen : r.listing.places.length = m.functions.length := by simp [hr, Listing.ofModule]
  obtain ⟨m', hlisting, hchanged⟩ := eachFunction_refined hrefl hstep m.functions.length 0 r m false
    hr (by omega) (.init R m)
  rw [allFunctions, hlen, List.range_eq_range']
  refine ⟨m'.functions, ?_, hchanged.forall₂⟩
  rw [← hchanged.name_eq]
  exact hlisting

/-! ## Up to the first failure -/

/-- What a run over the functions of `m` shows if each function becomes what `change` makes of it
and `fails` says how its step fails: none of the functions fails, or one does that is the first, and
the functions after it are as they were. -/
def Module.FirstFailure (m : Module) (change : Function → Function)
    (fails : Function → Option Failure) (failure : Option Failure) (l : Listing) : Prop :=
  (failure = none ∧ ∀ fn ∈ m.functions, fails fn = none) ∨
    ∃ k fn f m', m.functions[k]? = some fn ∧ fails fn = some f ∧
      (∀ j g, j < k → m.functions[j]? = some g → fails g = none) ∧
      failure = some (f.inFunction fn.name) ∧ l = .ofModule m' ∧
      m.ChangedUpTo (fun fn fn' => fn' = change fn) (k + 1) m'

section FirstFailure

variable {σ : Type} {step : Nat → Run σ → Outcome × Run σ} {m : Module}
  {change : Function → Function} {fails : Function → Option Failure}
  (hexternal : ∀ fn, fn.isExternal = true → change fn = fn ∧ fails fn = none)
  (hstep : ∀ k r' m' fn, r'.listing = .ofModule m' →
    m.ChangedUpTo (fun fn fn' => fn' = change fn) k m' → m'.functions[k]? = some fn →
    fn.isExternal = false → (step k r').1.failure = fails fn ∧
      (step k r').2.listing = .ofModule { m' with functions := m'.functions.set k (change fn) })

include hexternal hstep

/-- **A run up to its first failure**, from a position on. -/
theorem Run.eachFunction_firstFailure (n : Nat) :
    ∀ k r' m' modified, r'.listing = .ofModule m' → k + n = m.functions.length →
      m.ChangedUpTo (fun fn fn' => fn' = change fn) k m' →
      (∀ j g, j < k → m.functions[j]? = some g → fails g = none) →
      m.FirstFailure change fails (eachFunction step (List.range' k n) modified r').1.failure
        (eachFunction step (List.range' k n) modified r').2.listing := by
  induction n with
  | zero =>
    intro k r' m' modified hr' hn h hbefore
    refine Or.inl ⟨rfl, fun fn hfn => ?_⟩
    obtain ⟨j, hj⟩ := List.getElem?_of_mem hfn
    have hlt := (List.getElem?_eq_some_iff.1 hj).1
    exact hbefore j fn (by omega) hj
  | succ n ih =>
    intro k r' m' modified hr' hn h hbefore
    obtain ⟨fn, hfn⟩ : ∃ fn, m.functions[k]? = some fn :=
      ⟨_, List.getElem?_eq_getElem (by omega)⟩
    have hfn' : m'.functions[k]? = some fn := (h.same k (Nat.le_refl k)).trans hfn
    have hplace : r'.listing.function? k = some fn := by
      rw [hr', Listing.function?_ofModule, hfn']
    -- the function at `k` does not fail either
    have hnext : fails fn = none →
        ∀ j g, j < k + 1 → m.functions[j]? = some g → fails g = none := by
      intro hnone j g hj hg
      rcases Nat.lt_succ_iff_lt_or_eq.1 hj with hlt | rfl
      · exact hbefore j g hlt hg
      · rwa [← Option.some.inj (hfn.symm.trans hg)]
    rw [List.range'_succ]
    cases hext : fn.isExternal with
    | true =>
      obtain ⟨hself, hnone⟩ := hexternal fn hext
      rw [eachFunction_skip hplace hext]
      exact ih (k + 1) r' m' modified hr' (by omega) (h.skip hfn hself.symm) (hnext hnone)
    | false =>
      obtain ⟨hfailure, hlisting⟩ := hstep k r' m' fn hr' h hfn' hext
      cases hf : fails fn with
      | some f =>
        rw [eachFunction_stop hplace hext (hfailure.trans hf)]
        exact Or.inr ⟨k, fn, f, _, hfn, hf, hbefore, rfl, hlisting, h.step hfn rfl⟩
      | none =>
        rw [eachFunction_next hplace hext (hfailure.trans hf)]
        exact ih (k + 1) _ _ _ hlisting (by omega) (h.step hfn rfl) (hnext hf)

theorem Run.allFunctions_firstFailure {r : Run σ} (hr : r.listing = .ofModule m) :
    m.FirstFailure change fails (r.allFunctions step).1.failure
      (r.allFunctions step).2.listing := by
  have hlen : r.listing.places.length = m.functions.length := by simp [hr, Listing.ofModule]
  rw [allFunctions, hlen, List.range_eq_range']
  exact eachFunction_firstFailure hexternal hstep m.functions.length 0 r m false hr (by omega)
    (.init _ m) fun j _ hj => absurd hj (Nat.not_lt_zero j)

end FirstFailure

namespace Module.FirstFailure

variable {m : Module} {change : Function → Function} {fails : Function → Option Failure}
  {failure : Option Failure} {l : Listing}

theorem ne_none_iff (h : m.FirstFailure change fails failure l) :
    failure ≠ none ↔ ∃ fn ∈ m.functions, fails fn ≠ none := by
  rcases h with ⟨hfailure, hall⟩ | ⟨k, fn, f, -, hfn, hf, -, hfailure, -⟩
  · exact iff_of_false (fun hne => hne hfailure) fun ⟨fn, hfn, hne⟩ => hne (hall fn hfn)
  · exact iff_of_true (by simp [hfailure]) ⟨fn, List.mem_of_getElem? hfn, by simp [hf]⟩

/-- What is known if the first function that fails is. -/
theorem of_first (h : m.FirstFailure change fails failure l) {k : Nat} {fn : Function} {f : Failure}
    (hfn : m.functions[k]? = some fn) (hf : fails fn = some f)
    (hfirst : ∀ j g, j < k → m.functions[j]? = some g → fails g = none) :
    failure = some (f.inFunction fn.name) ∧
      ∃ m', l = .ofModule m' ∧ m.ChangedUpTo (fun fn fn' => fn' = change fn) (k + 1) m' := by
  rcases h with ⟨-, hall⟩ | ⟨j, g, f', m', hg, hf', hfirst', hfailure, hl, hchanged⟩
  · simp [hall fn (List.mem_of_getElem? hfn)] at hf
  · obtain hlt | rfl | hlt := Nat.lt_trichotomy j k
    · simp [hfirst j g hlt hg] at hf'
    · obtain rfl := Option.some.inj (hfn.symm.trans hg)
      obtain rfl := Option.some.inj (hf.symm.trans hf')
      exact ⟨hfailure, m', hl, hchanged⟩
    · simp [hfirst' k fn hlt hfn] at hf

end Module.FirstFailure

end SsaOpt
