import SsaOpt.Proofs.ManagerRuns
import SsaOpt.Proofs.RunOrder

/-!
# Runs of the built-in passes

The built-in passes are tame, so what is known about the calls of a run applies to them. A call of
one of them that the manager has accepted leads from a verified module to a verified module
(`Invocation.Accepted`). What such calls preserve holds at every call of a run and at its end:
`Manager.builtin_induct`.
-/

namespace SsaOpt

variable {σ : Type}

/-! ## Marks -/

namespace Run

variable {r : Run σ} {fn : Function}

theorem flowGraph_validNames : (r.flowGraph fn).2.cache.validNames = r.cache.validNames := by
  unfold flowGraph
  split <;> rfl

theorem domTree_validNames : (r.domTree fn).2.cache.validNames = r.cache.validNames := by
  unfold domTree
  split
  · rfl
  · exact flowGraph_validNames

theorem loopInfo_validNames : (r.loopInfo fn).2.cache.validNames = r.cache.validNames := by
  unfold loopInfo
  split
  · rfl
  · exact domTree_validNames.trans flowGraph_validNames

theorem callGraph?_validNames {g : CallGraph} {r' : Run σ} (h : r.callGraph? = some (g, r')) :
    r'.cache.validNames = r.cache.validNames := by
  unfold callGraph? at h
  split at h
  · obtain ⟨-, rfl⟩ := Prod.mk.inj (Option.some.inj h)
    rfl
  · obtain ⟨m, -, heq⟩ := Option.map_eq_some_iff.1 h
    obtain ⟨-, rfl⟩ := Prod.mk.inj heq
    rfl

end Run

namespace Analysis

theorem onFunction_quiet (a : Analysis) (k : Nat) (r : Run σ) :
    (a.onFunction k r).1.modified = false := by
  unfold onFunction
  split <;> rfl

/-- An analysis reports no change. -/
theorem onModule_quiet (a : Analysis) (r : Run σ) : (a.onModule r).1.modified = false := by
  cases a with
  | calls =>
    unfold onModule
    dsimp only
    split <;> rfl
  | _ => exact Run.eachFunction_quiet (onFunction_quiet _) _ _ _

theorem onFunction_validNames (a : Analysis) (k : Nat) (r : Run σ) :
    (a.onFunction k r).2.cache.validNames = r.cache.validNames := by
  unfold onFunction
  split
  · rfl
  · rfl
  · exact Run.flowGraph_validNames
  · exact Run.domTree_validNames
  · exact Run.loopInfo_validNames

/-- An analysis takes its own mark away and leaves the others. -/
theorem onModule_validNames (a : Analysis) (r : Run σ) :
    (a.onModule r).2.cache.validNames = (r.cache.invalidate a.name).validNames := by
  have heach : ∀ r' : Run σ, (r'.allFunctions a.onFunction).2.cache.validNames =
      r'.cache.validNames := fun r' =>
    Run.eachFunction_preserves (P := fun s => s.cache.validNames = r'.cache.validNames)
      (fun k s hs => (a.onFunction_validNames k s).trans hs) _ _ r' rfl
  cases a with
  | calls =>
    unfold onModule
    dsimp only
    split
    · next g r' hcalls => exact Run.callGraph?_validNames hcalls
    · rfl
  | _ => exact heach _

end Analysis

namespace Transform

variable {env : PassEnv}

theorem warnings_cache (f : Inline.Warning → String) (ws : List Inline.Warning) (name : String)
    (r : Run σ) : (ws.foldl (fun r w => r.warn env "W0003" name (f w)) r).cache = r.cache := by
  induction ws generalizing r with
  | nil => rfl
  | cons w ws ih => exact ih _

/-- What a transformation does to the cache while it is at work on a function: it fills in what it
looks up. -/
theorem onFunction_cache (t : Transform) (env : PassEnv) (k : Nat) (r : Run σ) :
    (t.onFunction env k r).2.cache = r.cache ∨
      ∃ fn, r.listing.function? k = some fn ∧ ∃ g r', r.callGraph? = some (g, r') ∧
        (t.onFunction env k r).2.cache = (r'.domTree fn).2.cache := by
  unfold onFunction
  cases hplace : r.listing.function? k with
  | none => exact Or.inl rfl
  | some fn =>
    cases t with
    | constFold => exact Or.inl rfl
    | deadCode n =>
      left
      dsimp only
      unfold cleanFunction
      split
      · rfl
      · dsimp only
        split <;> rfl
    | inline p =>
      dsimp only
      unfold inlineFunction
      cases hcalls : r.callGraph? with
      | none => exact Or.inl rfl
      | some e =>
        obtain ⟨g, r'⟩ := e
        exact Or.inr ⟨fn, rfl, g, r', rfl, warnings_cache ..⟩

/-- A transformation leaves all marks. -/
theorem onModule_validNames (t : Transform) (r : Run σ) :
    (t.pass.onModule env r).2.cache.validNames = r.cache.validNames := by
  refine Run.eachFunction_preserves (P := fun s => s.cache.validNames = r.cache.validNames)
    (fun k s hs => ?_) _ _ r rfl
  rcases t.onFunction_cache env k s with heq | ⟨fn, -, g, s', hcalls, heq⟩
  · exact (congrArg Cache.validNames heq).trans hs
  · rw [heq, Run.domTree_validNames, Run.callGraph?_validNames hcalls, hs]

end Transform

namespace Manager

variable {mgr : Manager σ}

/-- **The built-in passes are tame.** -/
theorem tame_of_isBuiltin (hbuiltin : ∀ q ∈ mgr.passes, q.IsBuiltin) : mgr.Tame where
  requires_eq q hq world := by
    rcases hbuiltin q hq with ⟨a, rfl⟩ | ⟨t, rfl⟩ <;> rfl
  quiet q hq hanalysis env r := by
    rcases hbuiltin q hq with ⟨a, rfl⟩ | ⟨t, rfl⟩
    · exact a.onModule_quiet r
    · cases hanalysis
  spares q hq env r n hn := by
    rcases hbuiltin q hq with ⟨a, rfl⟩ | ⟨t, rfl⟩
    · have hname : n ≠ a.name := hn rfl
      simp only [Analysis.pass, Cache.isValid, a.onModule_validNames]
      rw [Bool.eq_iff_iff]
      exact Cache.isValid_invalidate_iff.trans (and_iff_right hname)
    · rw [Cache.isValid, t.onModule_validNames]
      rfl

end Manager

/-! ## Accepted calls -/

theorem Listing.ofModule_injective {m m' : Module}
    (h : Listing.ofModule m = .ofModule m') : m = m' := by
  have hfront := congrArg Listing.front h
  rwa [front_ofModule, front_ofModule] at hfront

/-- A call of a transformation that leads from a verified module to a verified module. -/
structure Invocation.Accepted (c : Invocation σ) (t : Transform) (m m' : Module) : Prop where
  pass_eq : c.pass = t.pass
  env_eq : c.env = ⟨some .standard, t.name⟩
  before_eq : c.before.listing = .ofModule m
  verified : moduleErr? (some m) = none
  failure_eq : c.outcome.failure = none
  after_eq : c.after.listing = .ofModule m'
  verified' : moduleErr? (some m') = none
  unmodified : c.outcome.modified = false → m' = m

namespace Manager

variable {mgr : Manager σ} {m : Module}

/-- A call that does not fail leads to a verified module. -/
theorem accepted_of_not_fails (hchecker : mgr.checker = .standard) {c : Invocation σ}
    {t : Transform} (hpass : c.pass = t.pass) (henv : c.env = mgr.envFor c.pass.name)
    (hfine : ¬ c.Fails mgr) (hbefore : c.before.listing = .ofModule m)
    (hm : moduleErr? (some m) = none) : ∃ m', c.Accepted t m m' := by
  obtain ⟨pass, env, before⟩ := c
  obtain rfl : pass = t.pass := hpass
  obtain rfl : env = ⟨some .standard, t.name⟩ := by
    rw [show env = _ from henv, envFor, hchecker]
    rfl
  have hfailure : (t.pass.onModule ⟨some .standard, t.name⟩ before).1.failure = none :=
    not_not.1 fun h => hfine (Or.inl h)
  obtain ⟨m', hafter, -⟩ := t.onModule_breaks (by rfl) hbefore hm hfailure
  have hsame : (t.pass.onModule ⟨some .standard, t.name⟩ before).1.modified = false → m' = m :=
    fun hmodified => Listing.ofModule_injective
      (hafter.symm.trans ((t.onModule_unmodified hfailure hmodified).trans hbefore))
  refine ⟨m', rfl, rfl, hbefore, hm, hfailure, hafter, ?_, hsame⟩
  cases hmodified : (t.pass.onModule ⟨some .standard, t.name⟩ before).1.modified with
  | false => exact hsame hmodified ▸ hm
  | true =>
    have hverify : mgr.checker.verifyModule (some (.ofModule m')) = none := by
      rw [← hafter]
      exact not_not.1 fun h => hfine (Or.inr ⟨rfl, Or.inl ⟨hmodified, h⟩⟩)
    simpa [hchecker, Checker.standard, listingFailure?] using hverify

/-- The state is over a verified module, and as `P` says. -/
def Verified (P : Module → Run σ → Prop) (r : Run σ) : Prop :=
  ∃ m, r.listing = .ofModule m ∧ moduleErr? (some m) = none ∧ P m r

/-- **Runs of built-in passes.** What analyses and accepted calls of transformations preserve holds
at every call of a run and at its end. -/
theorem builtin_induct {P : Module → Run σ → Prop} (hbuiltin : ∀ q ∈ mgr.passes, q.IsBuiltin)
    (hchecker : mgr.checker = .standard) (hm : moduleErr? (some m) = none)
    (hstart : P m (mgr.initial (.ofModule m)))
    (hanalysis : ∀ (c : Invocation σ) (a : Analysis) m', c.pass = a.pass →
      c.before.listing = .ofModule m' → moduleErr? (some m') = none → P m' c.before →
      P m' c.settled)
    (htransform : ∀ (c : Invocation σ) (t : Transform) m' m'', t.pass ∈ mgr.passes →
      c.Accepted t m' m'' → P m' c.before → P m'' c.settled) :
    (∀ c ∈ mgr.invocations (.ofModule m), Verified P c.before) ∧
      ((mgr.run (.ofModule m)).1 = none → Verified P (mgr.run (.ofModule m)).2.toRun) := by
  have htame := tame_of_isBuiltin hbuiltin
  have hinit : Verified P (mgr.initial (.ofModule m)) := ⟨m, rfl, hm, hstart⟩
  have hstep : ∀ l₁ c l₂, mgr.invocations (.ofModule m) = l₁ ++ c :: l₂ → ¬ c.Fails mgr →
      Verified P c.before → Verified P c.settled := by
    rintro l₁ c l₂ heq hfine ⟨m', hbefore, hm', hP⟩
    have hsound := invocations_sound htame heq
    have hregistered := (name_of_find? hsound.found).1
    rcases hbuiltin c.pass hregistered with ⟨a, hpass⟩ | ⟨t, hpass⟩
    · refine ⟨m', ?_, hm', hanalysis c a m' hpass hbefore hm' hP⟩
      have hidle := (a.onModule_idle hbefore).2.2
      rw [← hidle]
      change (c.pass.onModule c.env c.before).2.listing = _
      rw [hpass]
      rfl
    · obtain ⟨m'', haccepted⟩ :=
        accepted_of_not_fails hchecker hpass hsound.env_eq hfine hbefore hm'
      exact ⟨m'', haccepted.after_eq, haccepted.verified',
        htransform c t m' m'' (hpass ▸ hregistered) haccepted hP⟩
  refine ⟨fun c hc => ?_, fun hrun => ?_⟩
  · obtain ⟨l₁, l₂, heq⟩ := List.append_of_mem hc
    have hsound := invocations_sound htame heq
    refine hsound.linked.induct hinit fun d hd => ?_
    obtain ⟨l₃, l₄, rfl⟩ := List.append_of_mem hd
    exact hstep l₃ d (l₄ ++ c :: l₂) (by simp [heq]) (hsound.fine d hd)
  · cases hsort : mgr.sortPasses with
    | error e =>
      rw [run, hsort] at hrun
      cases hrun
    | ok order =>
      have hcourse := run_onCourse htame hsort hrun
      refine hcourse.linked.induct hinit fun d hd => ?_
      obtain ⟨l₃, l₄, heq⟩ := List.append_of_mem hd
      exact hstep l₃ d l₄ heq (hcourse.fine d hd)

end Manager

end SsaOpt
