import SsaOpt.Proofs.CanonicalInlining
import SsaOpt.Proofs.History
import SsaOpt.Proofs.PassEffects

/-!
# Runs on canonical forms

A run over the canonical form of a module goes as the run over the module: it ends with a failure of
the same kind, or both end well, and it leaves the canonical form of what the other leaves
(`Pipeline.run_canonical`). Each pass does so on each function (`Transform.onFunction_canonical`),
as long as every function with a body has a block to start with, which no pass changes.
-/

namespace SsaOpt

variable {σ : Type}

/-! ## Listings -/

/-- Every function with a body has a block to start with. -/
def Listing.Entered (l : Listing) : Prop :=
  ∀ k fn, l.function? k = some fn → fn.isExternal = false → fn.HasEntry

namespace Listing

theorem Entered.setFunction {l : Listing} (h : l.Entered) {fn : Function} (hfn : fn.HasEntry)
    (k : Nat) : (l.setFunction k fn).Entered := by
  intro j g hg hbody
  rw [function?, Listing.setFunction, List.getElem?_set] at hg
  split at hg
  · split at hg
    · exact Option.some.inj hg ▸ hfn
    · cases hg
  · exact h j g hg hbody

theorem entered_ofModule {m : Module} (h : moduleErr? (some m) = none) :
    (ofModule m).Entered := by
  intro k fn hfn hbody
  rw [function?_ofModule] at hfn
  have hsound := (Module.verified_iff.1 h).2 fn (List.mem_of_getElem? hfn) hbody
  exact Function.hasEntry_iff.2 ⟨hbody, hsound.shape.entry_mem⟩

theorem samePlaces_canonical (l : Listing) : Manager.SamePlaces l l.canonical where
  length_eq := by simp [canonical]
  place k := by
    rw [function?_canonical]
    cases l.function? k with
    | none => exact .none
    | some fn => exact .some ⟨rfl, fn.isExternal_canonical⟩

end Listing

theorem ConstFold.run_hasEntry (checker : Option Checker) {fn : Function} (h : fn.HasEntry) :
    (run checker fn).function.HasEntry := by
  obtain ⟨hbody, hmem⟩ := Function.hasEntry_iff.1 h
  have hfolded := run_folded checker fn
  refine Function.hasEntry_iff.2 ⟨hfolded.isExternal_eq.trans hbody, ?_⟩
  rw [hfolded.blockIds_eq]
  obtain ⟨bs, heq, -⟩ := hfolded
  rw [heq]
  exact hmem

theorem CallGraph.build_canonical (m : Module) : build m.canonical = build m := by
  have hcallees : ∀ names, m.canonical.functions.map (calleesOf names) =
      m.functions.map (calleesOf names) := by
    intro names
    rw [Module.canonical, List.map_map]
    exact List.map_congr_left fun fn _ => by
      simp [calleesOf, Inline.callTargets_canonical]
  unfold build
  dsimp only
  rw [Module.names_canonical, hcallees]

/-! ## Steps -/

namespace Run

/-- The same state with the canonical form of the listing. -/
def canonical (r : Run σ) : Run σ := { r with listing := r.listing.canonical }

/-- A state, and the same one with the canonical form of its listing. -/
def IsCanonical (r r' : Run σ) : Prop := r' = r.canonical ∧ r.listing.Entered

variable (r : Run σ) (fn : Function)

theorem flowGraph_canonical : r.canonical.flowGraph fn.canonical =
    ((r.flowGraph fn).1, (r.flowGraph fn).2.canonical) := by
  unfold flowGraph
  rw [FlowGraph.build_canonical]
  dsimp only [canonical, Function.canonical]
  split <;> rfl

theorem domTree_canonical : r.canonical.domTree fn.canonical =
    ((r.domTree fn).1, (r.domTree fn).2.canonical) := by
  unfold domTree
  rw [flowGraph_canonical]
  dsimp only [canonical, Function.canonical]
  split <;> rfl

theorem loopInfo_canonical : r.canonical.loopInfo fn.canonical =
    ((r.loopInfo fn).1, (r.loopInfo fn).2.canonical) := by
  unfold loopInfo
  rw [flowGraph_canonical]
  dsimp only
  rw [domTree_canonical]
  dsimp only [canonical, Function.canonical]
  split <;> rfl

theorem callGraph?_canonical : r.canonical.callGraph? =
    r.callGraph?.map fun x => (x.1, x.2.canonical) := by
  unfold callGraph?
  dsimp only [canonical]
  split
  · rfl
  · rw [Option.map_map, Listing.module?_canonical, Option.map_map]
    refine congrArg (r.listing.module?.map ·) (funext fun m => ?_)
    simp only [Function.comp_apply, CallGraph.build_canonical]

end Run

/-! ## Passes -/

open Manager

/-- Two steps that end alike, the second one in the canonical form. -/
def Run.CanonicalStep (x y : Outcome × Run σ) : Prop :=
  OutcomeAlike Err.SameKind x.1 y.1 ∧ x.2.IsCanonical y.2

theorem Run.canonicalStep_of_eq {x y : Outcome × Run σ} (h : y = (x.1, x.2.canonical))
    (hentered : x.2.listing.Entered) : CanonicalStep x y := by
  subst h
  exact ⟨⟨rfl, SameFailure.refl _⟩, rfl, hentered⟩

/-- Steps on functions in turn. -/
theorem Run.allFunctions_canonical {step : Nat → Run σ → Outcome × Run σ}
    (hstep : ∀ k r fn, r.listing.Entered → r.listing.function? k = some fn →
      fn.isExternal = false → CanonicalStep (step k r) (step k r.canonical)) {r : Run σ}
    (hentered : r.listing.Entered) :
    CanonicalStep (r.allFunctions step) (r.canonical.allFunctions step) := by
  have hplaces : ∀ {r r' : Run σ}, r.IsCanonical r' → SamePlaces r.listing r'.listing := by
    rintro r _ ⟨rfl, -⟩
    exact r.listing.samePlaces_canonical
  have hname : ∀ {e e' : Err} (name : String), e.SameKind e' →
      (e.inFunction name).SameKind (e'.inFunction name) := by
    intro e e' name h
    rwa [Err.SameKind, Err.kind?_inFunction, Err.kind?_inFunction]
  have halike : ∀ k {r r' : Run σ} {fn}, r.IsCanonical r' → r.listing.function? k = some fn →
      fn.isExternal = false → OutcomeAlike Err.SameKind (step k r).1 (step k r').1 ∧
        (step k r).2.IsCanonical (step k r').2 := by
    rintro k r _ fn ⟨rfl, hr⟩ hfn hbody
    exact hstep k r fn hr hfn hbody
  have hlength := (hplaces (r := r) ⟨rfl, hentered⟩).length_eq
  unfold allFunctions
  rw [hlength]
  exact eachFunction_alike hplaces hname halike _ _ ⟨rfl, hentered⟩

namespace Analysis

variable (a : Analysis) {r : Run σ}

theorem onFunction_canonical {k : Nat} {fn : Function} (hentered : r.listing.Entered)
    (hfn : r.listing.function? k = some fn) :
    Run.CanonicalStep (a.onFunction k r) (a.onFunction k r.canonical) := by
  have hfn' : r.canonical.listing.function? k = some fn.canonical := by
    rw [Run.canonical, Listing.function?_canonical, hfn]
    rfl
  have hlisting := (a.onFunction_idle (Option.isSome_iff_exists.2 ⟨fn, hfn⟩)).2.2
  refine Run.canonicalStep_of_eq ?_ (by rwa [hlisting])
  unfold onFunction
  rw [hfn, hfn']
  cases a with
  | flow =>
    have hflow := congrArg Prod.snd (r.flowGraph_canonical fn)
    exact Prod.ext rfl hflow
  | dominators =>
    have htree := congrArg Prod.snd (r.domTree_canonical fn)
    exact Prod.ext rfl htree
  | loops =>
    have hloops := congrArg Prod.snd (r.loopInfo_canonical fn)
    exact Prod.ext rfl hloops
  | calls => rfl

theorem onModule_canonical (hentered : r.listing.Entered) :
    Run.CanonicalStep (a.onModule r) (a.onModule r.canonical) := by
  have heach : ∀ (a : Analysis) (r : Run σ), r.listing.Entered → Run.CanonicalStep
      (r.allFunctions a.onFunction) (r.canonical.allFunctions a.onFunction) := by
    intro a r hr
    refine Run.allFunctions_canonical (fun k r fn hr hfn _ => ?_) hr
    exact a.onFunction_canonical hr hfn
  cases a with
  | calls =>
    have hcalls := Run.callGraph?_canonical { r with cache := r.cache.invalidate calls.name }
    unfold onModule
    dsimp only [Run.canonical] at hcalls ⊢
    rw [hcalls]
    cases hx : Run.callGraph? { r with cache := r.cache.invalidate calls.name } with
    | none => exact Run.canonicalStep_of_eq rfl hentered
    | some x =>
      obtain ⟨g, r₁⟩ := x
      have hlisting : r₁.listing = r.listing := (Run.callGraph?_listing hx).trans rfl
      exact Run.canonicalStep_of_eq rfl (hlisting ▸ hentered)
  | _ => exact heach _ { r with cache := r.cache.invalidate _ } hentered

end Analysis

namespace Transform

variable {env : PassEnv} {k : Nat} {fn : Function} {r : Run σ}

theorem foldFunction_canonical (hentered : r.listing.Entered) (hentry : fn.HasEntry) :
    Run.CanonicalStep (foldFunction env k fn r) (foldFunction env k fn.canonical r.canonical) := by
  refine Run.canonicalStep_of_eq ?_
    (hentered.setFunction (ConstFold.run_hasEntry env.checker hentry) k)
  unfold foldFunction
  dsimp only
  rw [ConstFold.run_canonical]
  simp only [Run.setFunction, Run.canonical, Listing.setFunction_canonical]

theorem cleanFunction_canonical (hchecker : env.checker = some .standard)
    (hentered : r.listing.Entered) (hentry : fn.HasEntry) (n : Int) :
    Run.CanonicalStep (cleanFunction n env k fn r)
      (cleanFunction n env k fn.canonical r.canonical) := by
  have hjudge : (fn.canonical.blocks.all fun b => b.instrs.all r.canonical.listing.canJudge) =
      fn.blocks.all fun b => b.instrs.all r.listing.canJudge := by
    simp [Function.canonical, Run.canonical, Block.canonical, List.all_map, Function.comp_def,
      Listing.canJudge_canonical]
  obtain ⟨hrun, hentry₁⟩ := DeadCode.run_canonical r.listing.front n hentry
  have hfront : r.canonical.listing.front = r.listing.front.canonical := r.listing.front_canonical
  unfold cleanFunction
  rw [hjudge, hchecker]
  split
  · exact Run.canonicalStep_of_eq rfl hentered
  · dsimp only
    rw [hfront, hrun]
    generalize DeadCode.run (some .standard) r.listing.front n fn = done at hentry₁
    have hset := hentered.setFunction hentry₁ k
    dsimp only
    split
    · exact Run.canonicalStep_of_eq (by
        simp only [Run.setFunction, Run.canonical, Run.warn, Listing.setFunction_canonical]
        rfl) hset
    · exact Run.canonicalStep_of_eq (by
        simp only [Run.setFunction, Run.canonical, Listing.setFunction_canonical]) hset

theorem warnings_canonical (f : Inline.Warning → String) (ws : List Inline.Warning) (name : String)
    (r : Run σ) :
    ws.foldl (fun r w => r.warn env "W0003" name (f w)) r.canonical =
      (ws.foldl (fun r w => r.warn env "W0003" name (f w)) r).canonical := by
  induction ws generalizing r with
  | nil => rfl
  | cons w ws ih => exact ih (r.warn env "W0003" name (f w))

theorem inlineFunction_canonical (hchecker : env.checker = some .standard)
    (hentered : r.listing.Entered) (hentry : fn.HasEntry) (p : Inline.Policy) :
    Run.CanonicalStep (inlineFunction p env k fn r)
      (inlineFunction p env k fn.canonical r.canonical) := by
  unfold inlineFunction
  rw [Run.callGraph?_canonical, hchecker]
  cases hcalls : r.callGraph? with
  | none => exact Run.canonicalStep_of_eq rfl hentered
  | some x =>
    obtain ⟨g, r₁⟩ := x
    have hlisting : (r₁.domTree fn).2.listing = r.listing :=
      (Run.domTree_listing fn).trans (Run.callGraph?_listing hcalls)
    dsimp only [Option.map_some]
    rw [Run.domTree_canonical]
    generalize r₁.domTree fn = y at hlisting
    obtain ⟨t, r₂⟩ := y
    dsimp only at hlisting ⊢
    have hfront : r₂.canonical.listing.front = r₂.listing.front.canonical :=
      r₂.listing.front_canonical
    rw [hfront]
    obtain ⟨hfunction, hinlined, hwarnings, hfailure, hentry₁⟩ :=
      Inline.run_canonical p r₂.listing.front g t k hentry
    generalize Inline.run p (some .standard) r₂.listing.front g t k fn = done
      at hfunction hinlined hwarnings hfailure hentry₁
    generalize Inline.run p (some .standard) r₂.listing.front.canonical g t k fn.canonical = done'
      at hfunction hinlined hwarnings hfailure
    refine ⟨⟨?_, hfailure⟩, ?_, ?_⟩
    · rw [hinlined]
    · dsimp only
      rw [hfunction, hinlined, hwarnings, ← warnings_canonical]
      simp only [Run.setFunction, Run.canonical, Listing.setFunction_canonical]
      rfl
    · rw [warnings_listing]
      exact (hlisting ▸ hentered).setFunction hentry₁ k

theorem onFunction_canonical (t : Transform) (hchecker : env.checker = some .standard)
    (hentered : r.listing.Entered) (hfn : r.listing.function? k = some fn)
    (hbody : fn.isExternal = false) :
    Run.CanonicalStep (t.onFunction env k r) (t.onFunction env k r.canonical) := by
  have hfn' : r.canonical.listing.function? k = some fn.canonical := by
    rw [Run.canonical, Listing.function?_canonical, hfn]
    rfl
  have hentry := hentered k fn hfn hbody
  unfold onFunction
  rw [hfn, hfn']
  cases t with
  | constFold => exact foldFunction_canonical hentered hentry
  | deadCode n => exact cleanFunction_canonical hchecker hentered hentry n
  | inline p => exact inlineFunction_canonical hchecker hentered hentry p

end Transform

/-! ## Managers -/

/-- A module and its canonical form both verify, or both fail to. -/
theorem listingFailure?_canonical (l : Listing) :
    SameFailure (listingFailure? (some l)) (listingFailure? (some l.canonical)) := by
  unfold listingFailure?
  dsimp only
  rw [Listing.module?_canonical]
  cases l.module? with
  | none => exact .some .fault
  | some m =>
    have hverified := Module.verified_canonical_iff (m := m)
    simp only [Option.map_some]
    cases h : moduleErr? (some m) with
    | none =>
      rw [hverified.2 h]
      exact .none
    | some e =>
      cases h' : moduleErr? (some m.canonical) with
      | none => simp [hverified.1 h'] at h
      | some e' =>
        refine .some (.error ?_)
        rw [Err.SameKind, Err.kind?_eq_none fun k => Err.isKind_moduleErr? k h,
          Err.kind?_eq_none fun k => Err.isKind_moduleErr? k h']

theorem Transform.refusal?_canonical (t : Transform) (pass : String) (l : Listing) :
    SameFailure (t.refusal? ⟨some .standard, pass⟩ l)
      (t.refusal? ⟨some .standard, pass⟩ l.canonical) := by
  have hverify := listingFailure?_canonical l
  unfold refusal?
  cases t.registrationErr? ⟨some .standard, pass⟩ with
  | some e => exact SameFailure.refl _
  | none =>
    simp only [Option.bind_some, Checker.standard]
    generalize listingFailure? (some l) = x at hverify
    generalize listingFailure? (some l.canonical) = y at hverify
    cases hverify with
    | none => exact .none
    | some hf =>
      cases hf with
      | error he => exact .some (.error rfl)
      | fault => exact .some .fault

/-- **The built-in passes** do the same on canonical forms. -/
theorem Manager.coupling_canonical {passes : List (Pass σ)}
    (hbuiltin : ∀ q ∈ passes, q.IsBuiltin) :
    Coupling passes .standard Run.IsCanonical Err.SameKind where
  refl _ := rfl
  annotate name h := by rwa [Err.SameKind, Err.kind?_annotate, Err.kind?_annotate]
  failedBy _ _ := rfl
  world_eq := by
    rintro r _ ⟨rfl, -⟩
    rfl
  validNames_eq := by
    rintro r _ ⟨rfl, -⟩
    rfl
  fingerprint_eq := by
    rintro r _ ⟨rfl, -⟩
    rw [Run.canonical, Listing.fingerprint, Listing.render_canonical, Listing.fingerprint]
  markValid := by
    rintro r _ name ⟨rfl, hentered⟩
    exact ⟨rfl, hentered⟩
  invalidate := by
    rintro r _ name ⟨rfl, hentered⟩
    exact ⟨rfl, hentered⟩
  verify := by
    rintro r _ ⟨rfl, -⟩
    exact listingFailure?_canonical r.listing
  refuse := by
    rintro p hp r _ ⟨rfl, -⟩
    rcases hbuiltin p hp with ⟨a, rfl⟩ | ⟨t, rfl⟩
    · exact .none
    · exact t.refusal?_canonical t.name r.listing
  call := by
    rintro p hp r _ ⟨rfl, hentered⟩ -
    rcases hbuiltin p hp with ⟨a, rfl⟩ | ⟨t, rfl⟩
    · exact a.onModule_canonical hentered
    · refine Run.allFunctions_canonical (fun k r fn hr hfn hbody => ?_) hentered
      exact t.onFunction_canonical rfl hr hfn hbody

/-! ## Pipelines -/

namespace Pipeline

variable {p p' : Pipeline} {order : List (Pass Unit)}

theorem optimize_canonical (hbuiltin : ∀ pass ∈ p.manager.passes, pass.IsBuiltin)
    (hchecker : p.manager.checker = .standard) (hsort : p.manager.sortPasses = .ok order)
    (hmanager : p'.manager = p.manager) {l : Listing} (hentered : l.Entered) :
    SameFailure (p.optimize l).failure (p'.optimize l.canonical).failure ∧
      (p'.optimize l.canonical).module = (p.optimize l).module.map Listing.canonical := by
  have hstart : (p.manager.initial l).IsCanonical (p.manager.initial l.canonical) :=
    ⟨rfl, hentered⟩
  obtain ⟨hfailure, hbeside⟩ := (Manager.coupling_canonical hbuiltin).endAlike_run rfl hchecker
    (.refl p.manager) hsort hstart
  unfold optimize
  rw [hmanager]
  generalize p.manager.run l = x at hfailure hbeside ⊢
  generalize p.manager.run l.canonical = y at hfailure hbeside ⊢
  obtain ⟨f, w⟩ := x
  obtain ⟨f', w'⟩ := y
  have hlisting : w'.listing = w.listing.canonical := congrArg Run.listing hbeside.related.1
  cases hfailure with
  | none => exact ⟨.none, congrArg some hlisting⟩
  | some hf => exact ⟨.some hf, congrArg some hlisting⟩

/-- **A run over the canonical form** of a module ends as the run over the module, and leaves the
canonical form of what that leaves. -/
theorem run_canonical (hbuiltin : ∀ pass ∈ p.manager.passes, pass.IsBuiltin)
    (hchecker : p.manager.checker = .standard) (hsort : p.manager.sortPasses = .ok order)
    (m : Module) :
    SameFailure (p.run (some (.ofModule m))).failure
        (p.run (some (.ofModule m.canonical))).failure ∧
      (p.run (some (.ofModule m.canonical))).module =
        (p.run (some (.ofModule m))).module.map Listing.canonical := by
  have hverify : ∀ l : Listing, (p.load (some l)).manager.checker.verifyModule (some l) =
      listingFailure? (some l) := by
    intro l
    change p.manager.checker.verifyModule (some l) = _
    rw [hchecker]
    rfl
  have hsame := listingFailure?_canonical (.ofModule m)
  have hentered : listingFailure? (some (.ofModule m)) = none → (Listing.ofModule m).Entered := by
    intro h
    rw [listingFailure?, Listing.module?_ofModule] at h
    exact Listing.entered_ofModule (Option.map_eq_none_iff.1 h)
  rw [← Listing.canonical_ofModule]
  unfold run
  dsimp only
  rw [hverify, hverify]
  generalize Listing.ofModule m = l at hsame hentered ⊢
  generalize listingFailure? (some l) = x at hsame hentered
  generalize listingFailure? (some l.canonical) = y at hsame
  cases hsame with
  | some hf =>
    cases hf with
    | error he => exact ⟨.some (.error rfl), rfl⟩
    | fault => exact ⟨.some .fault, rfl⟩
  | none =>
    have hloaded : (p.load (some l)).manager.sortPasses = .ok order :=
      (Manager.sortPasses_congr (by rfl) (by rfl)).trans hsort
    exact optimize_canonical (p := { p.load (some l) with phase := .verified }) hbuiltin hchecker
      hloaded rfl (hentered rfl)

end Pipeline

end SsaOpt
