import SsaOpt.Proofs.InlineDefects
import SsaOpt.Proofs.LostReads
import SsaOpt.Proofs.Refusals

/-!
# What a transformation does to a verified module

A transformation that reports no change has made none. One that does not fail leaves a verified
module or breaks it in one of the ways that `Transform.Breaks` lists: constant folding never does,
dead code elimination leaves reads of stranded values, and inlining uses a name twice or misdirects
a load or a store, unless numbers run out. An analysis changes nothing.
-/

namespace SsaOpt

variable {σ : Type}

/-! ## No change -/

theorem Listing.setFunction_self {l : Listing} {i : Nat} {fn : Function}
    (h : l.function? i = some fn) : l.setFunction i fn = l := by
  obtain ⟨name, places⟩ := l
  have hplace : places[i]? = some (some fn) := by
    simpa [function?, Option.join_eq_some_iff] using h
  obtain ⟨hlt, hget⟩ := List.getElem?_eq_some_iff.1 hplace
  rw [setFunction, ← hget, List.set_getElem_self]

theorem Inline.replaceCalls_of_zero {judge : Call → Verdict} {fuel : Nat} {live : List BlockId}
    {position : Nat} {fn : Function} (h : (replaceCalls judge fuel live position fn).inlined = 0) :
    (replaceCalls judge fuel live position fn).function = fn := by
  cases fuel with
  | zero => rfl
  | succ fuel =>
    rw [replaceCalls] at h ⊢
    dsimp only at h ⊢
    split at h
    · rfl
    · rfl
    · cases h

namespace Transform

variable {env : PassEnv} {r : Run σ} {m : Module}

section Unmodified

variable {k : Nat} {fn : Function} (hplace : r.listing.function? k = some fn)

include hplace

theorem foldFunction_unmodified (hmodified : (foldFunction env k fn r).1.modified = false) :
    (foldFunction env k fn r).2.listing = r.listing := by
  have hzero : (ConstFold.run env.checker fn).folded = 0 := by
    simpa [foldFunction] using hmodified
  have hself : (ConstFold.run env.checker fn).function = fn :=
    ConstFold.foldBlocks_of_zero hzero
  simp only [foldFunction, hself]
  exact Listing.setFunction_self hplace

theorem cleanFunction_unmodified {n : Int} (hnone : (cleanFunction n env k fn r).1.failure = none)
    (hmodified : (cleanFunction n env k fn r).1.modified = false) :
    (cleanFunction n env k fn r).2.listing = r.listing := by
  unfold cleanFunction at hnone hmodified ⊢
  split at hnone
  · cases hnone
  · next hjudge =>
    rw [if_neg hjudge] at hmodified ⊢
    have hself : (DeadCode.run env.checker r.listing.front n fn).function = fn :=
      DeadCode.rounds_of_unmodified hnone hmodified
    have hset := Listing.setFunction_self hplace
    dsimp only
    rw [hself]
    split
    · exact hset
    · exact hset

theorem inlineFunction_unmodified {p : Inline.Policy}
    (hnone : (inlineFunction p env k fn r).1.failure = none)
    (hmodified : (inlineFunction p env k fn r).1.modified = false) :
    (inlineFunction p env k fn r).2.listing = r.listing := by
  unfold inlineFunction at hnone hmodified ⊢
  cases hcalls : r.callGraph? with
  | none => simp [hcalls] at hnone
  | some e =>
    obtain ⟨g, r'⟩ := e
    simp only [hcalls, decide_eq_false_iff_not, Nat.not_lt, Nat.le_zero] at hmodified ⊢
    have hlisting : (r'.domTree fn).2.listing = r.listing :=
      (Run.domTree_listing fn).trans (Run.callGraph?_listing hcalls)
    rw [hlisting] at hmodified
    have hself :
        (Inline.run p env.checker r.listing.front g (r'.domTree fn).1 k fn).function = fn :=
      Inline.replaceCalls_of_zero hmodified
    rw [warnings_listing]
    simp only [Run.setFunction, hlisting, hself]
    exact Listing.setFunction_self hplace

end Unmodified

theorem onFunction_unmodified (t : Transform) (k : Nat) (r : Run σ)
    (hnone : (t.onFunction env k r).1.failure = none)
    (hmodified : (t.onFunction env k r).1.modified = false) :
    (t.onFunction env k r).2.listing = r.listing := by
  unfold onFunction at hnone hmodified ⊢
  cases hplace : r.listing.function? k with
  | none => simp [hplace] at hnone
  | some fn =>
    simp only [hplace] at hnone hmodified ⊢
    cases t with
    | constFold => exact foldFunction_unmodified hplace hmodified
    | deadCode n => exact cleanFunction_unmodified hplace hnone hmodified
    | inline p => exact inlineFunction_unmodified hplace hnone hmodified

/-- **A transformation that reports no change** has made none. -/
theorem onModule_unmodified (t : Transform) (hnone : (t.pass.onModule env r).1.failure = none)
    (hmodified : (t.pass.onModule env r).1.modified = false) :
    (t.pass.onModule env r).2.listing = r.listing :=
  Run.allFunctions_unmodified t.onFunction_unmodified hnone hmodified

/-! ## Changes -/

/-- How a transformation can make a module that does not verify of one that does. -/
def Breaks (t : Transform) (m m' : Module) : Prop :=
  match t with
  | constFold => False
  | deadCode _ =>
    (∀ d ∈ m'.defects, ∃ fn ∈ m.functions, fn.StrandedRead d) ∧ m'.memoryDefects = []
  | inline p =>
    ∃ rs, Inline.Inlined p (some .standard) m rs m' ∧
      ((∃ r ∈ rs, ¬ r.Numbered) ∨
        ((∀ d ∈ m'.defects, ∃ r ∈ rs, ∃ n, r.Makes n ∧ d.flaw = .duplicateBlockName n) ∧
          ∀ d ∈ m'.memoryDefects, ∃ r ∈ rs, ∃ i ty, r.Misdirects i ∧ d.flaw = .notPointer i ty))

/-- Constant folding puts constants in the place of instructions, wherever it stops. -/
theorem constFold_folded (hr : r.listing = .ofModule m) :
    ∃ fns, (constFold.pass.onModule env r).2.listing = .ofModule { m with functions := fns } ∧
      List.Forall₂ ConstFold.Folded m.functions fns :=
  Run.allFunctions_refined (R := ConstFold.Folded) hr .refl
    fun _ _ _ fn hr' hfn _ _ =>
      ⟨_, (constFold_onFunction hr' hfn).2, ConstFold.run_folded env.checker fn⟩

/-- **Constant folding** leaves a verified module verified. -/
theorem constFold_verified (hr : r.listing = .ofModule m) (hm : moduleErr? (some m) = none) :
    ∃ m', (constFold.pass.onModule env r).2.listing = .ofModule m' ∧
      moduleErr? (some m') = none := by
  obtain ⟨fns, hlisting, hfolded⟩ := constFold_folded hr
  obtain ⟨hnames, hsound⟩ := Module.verified_iff.1 hm
  refine ⟨_, hlisting, Module.verified_iff.2 ⟨hnames.congr ?_, fun fn' hfn' hbody => ?_⟩⟩
  · exact forall₂_map_eq hfolded fun _ _ h => h.name_eq
  · obtain ⟨fn, hfn, h⟩ := forall₂_exists_left hfolded hfn'
    exact h.sound (hsound fn hfn (h.isExternal_eq ▸ hbody))

/-- Dead code elimination, with any limit, trims each function. -/
theorem deadCode_trimmed {n : Int} (hr : r.listing = .ofModule m)
    (hm : moduleErr? (some m) = none)
    (hnone : ((deadCode n).pass.onModule env r).1.failure = none) :
    ∃ fns, ((deadCode n).pass.onModule env r).2.listing = .ofModule { m with functions := fns } ∧
      List.Forall₂ DeadCode.Trimmed m.functions fns :=
  Run.allFunctions_changed (R := DeadCode.Trimmed) hr (fun _ => DeadCode.trimmed_of_isExternal)
    (fun k r' m' fn hr' _ hfn hmem hext hnone => by
      obtain ⟨hfailure, hlisting⟩ := deadCode_onFunction n hr' hfn
      have hids := ((Module.verified_iff.1 hm).2 fn hmem hext).shape.ids_nodup
      exact ⟨_, hlisting, DeadCode.run_trimmed hids (hfailure ▸ hnone)⟩)
    hnone

/-- **Dead code elimination**, with any limit, leaves no defects but reads of stranded values. -/
theorem deadCode_strandedRead {n : Int} (hr : r.listing = .ofModule m)
    (hm : moduleErr? (some m) = none)
    (hnone : ((deadCode n).pass.onModule env r).1.failure = none) :
    ∃ m', ((deadCode n).pass.onModule env r).2.listing = .ofModule m' ∧
      (∀ d ∈ m'.defects, ∃ fn ∈ m.functions, fn.StrandedRead d) ∧ m'.memoryDefects = [] := by
  obtain ⟨fns, hlisting, htrimmed⟩ := deadCode_trimmed hr hm hnone
  obtain ⟨hdefects, hmemory⟩ := DeadCode.defects_of_trimmed hm htrimmed
  refine ⟨_, hlisting, fun d hd => ?_, hmemory⟩
  obtain ⟨fn, hfn, hread, -⟩ := hdefects d hd
  exact ⟨fn, hfn, hread⟩

/-- **A transformation that does not fail** leaves a verified module or breaks it in a known way. -/
theorem onModule_breaks (t : Transform) (henv : env.checker = some .standard)
    (hr : r.listing = .ofModule m) (hm : moduleErr? (some m) = none)
    (hnone : (t.pass.onModule env r).1.failure = none) :
    ∃ m', (t.pass.onModule env r).2.listing = .ofModule m' ∧
      (moduleErr? (some m') ≠ none → t.Breaks m m') := by
  cases t with
  | constFold =>
    obtain ⟨m', hlisting, hm'⟩ := constFold_verified hr hm
    exact ⟨m', hlisting, fun hne => hne hm'⟩
  | deadCode n =>
    obtain ⟨m', hlisting, hbreaks⟩ := deadCode_strandedRead hr hm hnone
    exact ⟨m', hlisting, fun _ => hbreaks⟩
  | inline p =>
    obtain ⟨m', hlisting, hinlined⟩ := inline_inlined hr hnone
    rw [henv] at hinlined
    refine ⟨m', hlisting, fun _ => ⟨_, hinlined, ?_⟩⟩
    by_cases hnumbered : ∀ e ∈ replacements p env r, e.Numbered
    · exact Or.inr (hinlined.defects hnumbered hm)
    · push Not at hnumbered
      exact Or.inl hnumbered

end Transform

/-! ## Analyses -/

/-- Steps that report nothing and change nothing. -/
theorem Run.eachFunction_idle {step : Nat → Run σ → Outcome × Run σ} {l : Listing}
    (hstep : ∀ k r, r.listing = l → (l.function? k).isSome →
      (step k r).1.modified = false ∧ (step k r).1.failure = none ∧ (step k r).2.listing = l)
    (ks : List Nat) :
    ∀ r modified, r.listing = l → (∀ k ∈ ks, (l.function? k).isSome) →
      (eachFunction step ks modified r).1.modified = modified ∧
        (eachFunction step ks modified r).1.failure = none ∧
        (eachFunction step ks modified r).2.listing = l := by
  induction ks with
  | nil => exact fun r modified hr _ => ⟨rfl, rfl, hr⟩
  | cons k rest ih =>
    intro r modified hr hks
    have hrest : ∀ j ∈ rest, (l.function? j).isSome := fun j hj => hks j (by simp [hj])
    obtain ⟨fn, hfn⟩ := Option.isSome_iff_exists.1 (hks k (by simp))
    have hplace : r.listing.function? k = some fn := by rw [hr, hfn]
    cases hext : fn.isExternal with
    | true =>
      rw [eachFunction_skip hplace hext]
      exact ih r modified hr hrest
    | false =>
      obtain ⟨hmodified, hnone, hlisting⟩ := hstep k r hr (hks k (by simp))
      rw [eachFunction_next hplace hext hnone, hmodified, Bool.or_false]
      exact ih _ modified hlisting hrest

namespace Analysis

theorem onFunction_idle (a : Analysis) {k : Nat} {r : Run σ} (h : (r.listing.function? k).isSome) :
    (a.onFunction k r).1.modified = false ∧ (a.onFunction k r).1.failure = none ∧
      (a.onFunction k r).2.listing = r.listing := by
  obtain ⟨fn, hfn⟩ := Option.isSome_iff_exists.1 h
  cases a with
  | flow =>
    simp only [onFunction, hfn, true_and]
    exact Run.flowGraph_listing fn
  | dominators =>
    simp only [onFunction, hfn, true_and]
    exact Run.domTree_listing fn
  | loops =>
    simp only [onFunction, hfn, true_and]
    unfold Run.loopInfo
    split
    · rfl
    · exact (Run.domTree_listing fn).trans (Run.flowGraph_listing fn)
  | calls => simp [onFunction]

/-- **An analysis** does not fail and changes nothing. -/
theorem onModule_idle (a : Analysis) {r : Run σ} {m : Module} (hr : r.listing = .ofModule m) :
    (a.onModule r).1.modified = false ∧ (a.onModule r).1.failure = none ∧
      (a.onModule r).2.listing = .ofModule m := by
  have heach : ∀ r' : Run σ, r'.listing = .ofModule m →
      (r'.allFunctions a.onFunction).1.modified = false ∧
        (r'.allFunctions a.onFunction).1.failure = none ∧
        (r'.allFunctions a.onFunction).2.listing = .ofModule m := by
    intro r' hr'
    refine Run.eachFunction_idle (fun k r hr hsome => ?_) _ r' false hr' fun k hk => ?_
    · rw [← hr] at hsome ⊢
      exact a.onFunction_idle hsome
    · rw [List.mem_range, hr'] at hk
      rw [Listing.function?_ofModule,
        List.getElem?_eq_getElem (by simpa [Listing.ofModule] using hk)]
      rfl
  cases a with
  | calls =>
    obtain ⟨g, r', hcalls, hr'⟩ := Run.callGraph?_ofModule
      (r := { r with cache := r.cache.invalidate calls.name }) hr
    simp only [onModule, hcalls, true_and]
    exact hr'
  | _ => exact heach { r with cache := r.cache.invalidate _ } hr

end Analysis

end SsaOpt
