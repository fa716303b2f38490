import SsaOpt.Proofs.BuiltinRuns

/-!
# The analysis cache is coherent

Every result in the cache is the one that the analysis would find for the module as it is now
(`Cache.Fresh`), and an analysis that is marked valid has a result for everything that it is about
(`Cache.Covers`). The passes fill the cache on demand (`Cache.Filled`): what they look up there is
right, and what they add is right as long as the module does not change under their hands. A
transformation that does change it drops all results, except for constant folding, which leaves
every edge and every call where it is.
-/

namespace SsaOpt

variable {σ : Type}

/-! ## Results -/

namespace Analysis

/-- The result of an analysis for a function of a module, computed afresh. The call graph is a
result for the empty name. -/
def afresh? (m : Module) : Analysis → String → Option Fact
  | flow, name => (m.function? name).map fun fn => .flow (FlowGraph.build fn)
  | dominators, name =>
    (m.function? name).map fun fn => .dominators (DomTree.build (FlowGraph.build fn))
  | loops, name =>
    (m.function? name).map fun fn =>
      let g := FlowGraph.build fn
      .loops (LoopInfo.find g (DomTree.build g))
  | calls, name => if name = "" then some (.calls (CallGraph.build m)) else none

theorem name_injective {a b : Analysis} (h : a.name = b.name) : a = b := by
  revert h
  cases a <;> cases b <;> decide

theorem name_mem_invalidates (a : Analysis) {t : Transform} (ht : t ≠ .constFold) :
    a.name ∈ t.invalidates := by
  cases t with
  | constFold => exact absurd rfl ht
  | _ => cases a <;> simp [name, Transform.invalidates]

end Analysis

theorem Module.function?_of_mem {m : Module} (hnames : m.DistinctNames) {fn : Function}
    (hfn : fn ∈ m.functions) : m.function? fn.name = some fn := by
  obtain ⟨g, hg⟩ : ∃ g, m.function? fn.name = some g :=
    Option.isSome_iff_exists.1 (List.find?_isSome.2 ⟨fn, hfn, by simp⟩)
  have hname : g.name = fn.name := by simpa using List.find?_some hg
  rw [hg, List.inj_on_of_nodup_map hnames.2 (List.mem_of_find?_eq_some hg) hfn hname]

namespace Cache

variable {m : Module} {c c' c'' : Cache Fact} {a : Analysis} {name : String}

/-- Every result is the one that the analysis would find now. -/
def Fresh (m : Module) (c : Cache Fact) : Prop :=
  ∀ e ∈ c.entries, ∃ a : Analysis, e.1.1 = a.name ∧ a.afresh? m e.1.2 = some e.2

/-- An analysis has results for all functions with a body, and the call graph for the module. -/
def Covers (m : Module) (a : Analysis) (c : Cache Fact) : Prop :=
  match a with
  | .calls => (c.get? "callgraph" "").isSome
  | a => ∀ fn ∈ m.functions, fn.isExternal = false → (c.get? a.name fn.name).isSome

/-- Every result is fresh, and a valid analysis has all its results. -/
structure Coherent (m : Module) (c : Cache Fact) : Prop where
  fresh : c.Fresh m
  complete : ∀ a : Analysis, c.isValid a.name = true → c.Covers m a

/-! ### Entries -/

theorem mem_of_get? {function : String} {f : Fact} (h : c.get? name function = some f) :
    ((name, function), f) ∈ c.entries :=
  mem_of_lookup_eq_some h

theorem get?_put_self (c : Cache Fact) (name function : String) (f : Fact) :
    (c.put name function f).get? name function = some f :=
  List.lookup_cons_self

theorem get?_put_of_ne {name' function function' : String} {f : Fact}
    (h : (name, function) ≠ (name', function')) :
    (c.put name' function' f).get? name function = c.get? name function := by
  have hne : ((name, function) == (name', function')) = false := by simpa using h
  rw [get?, put, List.lookup_cons, hne]
  exact lookup_filter (q := fun key => decide (key ≠ (name', function'))) (decide_eq_true h)

theorem isSome_get?_put {name' function function' : String} {f : Fact}
    (h : (c.get? name function).isSome) :
    ((c.put name' function' f).get? name function).isSome := by
  by_cases heq : (name, function) = (name', function')
  · obtain ⟨rfl, rfl⟩ := Prod.mk.inj heq
    rw [get?_put_self]
    rfl
  · rwa [get?_put_of_ne heq]

theorem get?_invalidate_of_ne {name' function : String} (h : name ≠ name') :
    (c.invalidate name').get? name function = c.get? name function :=
  lookup_filter (q := fun key : String × String => decide (key.1 ≠ name')) (decide_eq_true h)

theorem Fresh.get? (h : c.Fresh m) {f : Fact} (hf : c.get? a.name name = some f) :
    a.afresh? m name = some f := by
  obtain ⟨b, hname, hfresh⟩ := h _ (mem_of_get? hf)
  rwa [Analysis.name_injective hname]

theorem Fresh.invalidate (h : c.Fresh m) (name : String) : (c.invalidate name).Fresh m :=
  fun e he => h e (List.mem_filter.1 he).1

/-! ### Filling in -/

/-- Results have been added to the cache, and all that it holds is fresh. -/
structure Filled (m : Module) (c c' : Cache Fact) : Prop where
  fresh : c'.Fresh m
  kept : ∀ name function, (c.get? name function).isSome → (c'.get? name function).isSome

theorem Filled.refl (h : c.Fresh m) : Filled m c c :=
  ⟨h, fun _ _ h => h⟩

theorem Filled.trans (h : Filled m c c') (h' : Filled m c' c'') : Filled m c c'' :=
  ⟨h'.fresh, fun name function hsome => h'.kept name function (h.kept name function hsome)⟩

theorem Filled.put (h : Filled m c c') {f : Fact} (hf : a.afresh? m name = some f) :
    Filled m c (c'.put a.name name f) where
  fresh e he := by
    rcases List.mem_cons.1 he with rfl | he
    · exact ⟨a, rfl, hf⟩
    · exact h.fresh e (List.mem_filter.1 he).1
  kept name' function hsome := isSome_get?_put (h.kept name' function hsome)

theorem Covers.mono (h : c.Covers m a)
    (hc : ∀ function, (c.get? a.name function).isSome → (c'.get? a.name function).isSome) :
    c'.Covers m a := by
  cases a with
  | calls => exact hc _ h
  | _ => exact fun fn hfn hbody => hc _ (h fn hfn hbody)

end Cache

/-! ## Analyses -/

namespace Run

variable {m : Module} {r : Run σ} {fn : Function}

section Fill

variable (hnames : m.DistinctNames) (hfn : fn ∈ m.functions) (h : r.cache.Fresh m)

include hnames hfn h

/-- The flow graph that is looked up is that of the function. -/
theorem flowGraph_filled :
    (r.flowGraph fn).1 = FlowGraph.build fn ∧
      Cache.Filled m r.cache (r.flowGraph fn).2.cache ∧
      ((r.flowGraph fn).2.cache.get? "cfg" fn.name).isSome := by
  have hafresh : Analysis.flow.afresh? m fn.name = some (.flow (FlowGraph.build fn)) := by
    simp [Analysis.afresh?, Module.function?_of_mem hnames hfn]
  unfold flowGraph
  split
  · next g hg =>
    have hfresh := h.get? (a := .flow) hg
    rw [hafresh] at hfresh
    exact ⟨(Fact.flow.inj (Option.some.inj hfresh)).symm, .refl h, by simp [hg]⟩
  · exact ⟨rfl, (Cache.Filled.refl h).put hafresh, by simp [Cache.get?_put_self]⟩

theorem domTree_filled :
    (r.domTree fn).1 = DomTree.build (FlowGraph.build fn) ∧
      Cache.Filled m r.cache (r.domTree fn).2.cache ∧
      ((r.domTree fn).2.cache.get? "domtree" fn.name).isSome := by
  have hafresh : Analysis.dominators.afresh? m fn.name =
      some (.dominators (DomTree.build (FlowGraph.build fn))) := by
    simp [Analysis.afresh?, Module.function?_of_mem hnames hfn]
  unfold domTree
  split
  · next t ht =>
    have hfresh := h.get? (a := .dominators) ht
    rw [hafresh] at hfresh
    exact ⟨(Fact.dominators.inj (Option.some.inj hfresh)).symm, .refl h, by simp [ht]⟩
  · obtain ⟨hgraph, hfilled, -⟩ := flowGraph_filled hnames hfn h
    dsimp only
    rw [hgraph]
    exact ⟨rfl, hfilled.put hafresh, by simp [Cache.get?_put_self]⟩

theorem loopInfo_filled :
    Cache.Filled m r.cache (r.loopInfo fn).2.cache ∧
      ((r.loopInfo fn).2.cache.get? "loops" fn.name).isSome := by
  have hafresh : Analysis.loops.afresh? m fn.name = some (.loops
      (LoopInfo.find (FlowGraph.build fn) (DomTree.build (FlowGraph.build fn)))) := by
    simp [Analysis.afresh?, Module.function?_of_mem hnames hfn]
  unfold loopInfo
  split
  · next l hl => exact ⟨.refl h, by simp [hl]⟩
  · obtain ⟨hgraph, hfilled, -⟩ := flowGraph_filled hnames hfn h
    obtain ⟨htree, hfilled', -⟩ := domTree_filled hnames hfn hfilled.fresh
    dsimp only
    rw [hgraph, htree]
    exact ⟨(hfilled.trans hfilled').put hafresh, by simp [Cache.get?_put_self]⟩

end Fill

theorem callGraph?_filled (hr : r.listing = .ofModule m) (h : r.cache.Fresh m) {g : CallGraph}
    {r' : Run σ} (hcalls : r.callGraph? = some (g, r')) :
    Cache.Filled m r.cache r'.cache ∧ (r'.cache.get? "callgraph" "").isSome := by
  unfold callGraph? at hcalls
  split at hcalls
  · next g' hg =>
    obtain ⟨-, rfl⟩ := Prod.mk.inj (Option.some.inj hcalls)
    exact ⟨.refl h, by simp [hg]⟩
  · rw [hr, Listing.module?_ofModule, Option.map_some] at hcalls
    obtain ⟨-, rfl⟩ := Prod.mk.inj (Option.some.inj hcalls)
    exact ⟨(Cache.Filled.refl h).put (a := .calls) rfl, by simp [Cache.get?_put_self]⟩

end Run

namespace Analysis

variable {m : Module} {r : Run σ} {a : Analysis}

/-- An analysis of one function. -/
theorem onFunction_filled (hnames : m.DistinctNames) (hr : r.listing = .ofModule m) {k : Nat}
    {fn : Function} (hfn : m.functions[k]? = some fn) (h : r.cache.Fresh m) (ha : a ≠ .calls) :
    Cache.Filled m r.cache (a.onFunction k r).2.cache ∧
      ((a.onFunction k r).2.cache.get? a.name fn.name).isSome := by
  have hmem := List.mem_of_getElem? hfn
  have hplace : r.listing.function? k = some fn := by rw [hr, Listing.function?_ofModule, hfn]
  cases a with
  | flow =>
    simp only [onFunction, hplace]
    exact (Run.flowGraph_filled hnames hmem h).2
  | dominators =>
    simp only [onFunction, hplace]
    exact (Run.domTree_filled hnames hmem h).2
  | loops =>
    simp only [onFunction, hplace]
    exact Run.loopInfo_filled hnames hmem h
  | calls => exact absurd rfl ha

/-- **An analysis of all functions** has results for all of them in the end. -/
theorem allFunctions_filled (hnames : m.DistinctNames) (hr : r.listing = .ofModule m)
    (h : r.cache.Fresh m) (ha : a ≠ .calls)
    (hnone : (r.allFunctions a.onFunction).1.failure = none) :
    Cache.Filled m r.cache (r.allFunctions a.onFunction).2.cache ∧
      ∀ fn ∈ m.functions, fn.isExternal = false →
        ((r.allFunctions a.onFunction).2.cache.get? a.name fn.name).isSome := by
  obtain ⟨m', -, -, rfl, hfilled, hall⟩ := Run.allFunctions_of_none
    (motive := fun k r' m' => m' = m ∧ Cache.Filled m r.cache r'.cache ∧
      ∀ j fn, j < k → m.functions[j]? = some fn → fn.isExternal = false →
        (r'.cache.get? a.name fn.name).isSome) hr
    (fun k r' m' fn _ hfn hext ⟨hm', hfilled, hall⟩ => by
      subst hm'
      refine ⟨rfl, hfilled, fun j g hj hg hbody => ?_⟩
      rcases Nat.lt_succ_iff_lt_or_eq.1 hj with hlt | rfl
      · exact hall j g hlt hg hbody
      · obtain rfl := Option.some.inj (hfn.symm.trans hg)
        simp [hext] at hbody)
    (fun k r' m' fn hr' hfn hext ⟨hm', hfilled, hall⟩ _ => by
      subst hm'
      have hsome : (r'.listing.function? k).isSome := by
        rw [hr', Listing.function?_ofModule, hfn]
        rfl
      obtain ⟨hstep, hget⟩ := a.onFunction_filled hnames hr' hfn hfilled.fresh ha
      refine ⟨m', (a.onFunction_idle hsome).2.2.trans hr', rfl, rfl, hfilled.trans hstep,
        fun j g hj hg hbody => ?_⟩
      rcases Nat.lt_succ_iff_lt_or_eq.1 hj with hlt | rfl
      · exact hstep.kept _ _ (hall j g hlt hg hbody)
      · obtain rfl := Option.some.inj (hfn.symm.trans hg)
        exact hget)
    ⟨rfl, .refl h, fun j _ hj => absurd hj (Nat.not_lt_zero j)⟩ hnone
  refine ⟨hfilled, fun fn hfn hbody => ?_⟩
  obtain ⟨j, hj, hget⟩ := List.getElem_of_mem hfn
  exact hall j fn hj (by rw [List.getElem?_eq_getElem hj, hget]) hbody

/-- What an analysis does to a fresh cache. -/
theorem onModule_filled (hnames : m.DistinctNames) (hr : r.listing = .ofModule m)
    (h : r.cache.Fresh m) :
    Cache.Filled m (r.cache.invalidate a.name) (a.onModule r).2.cache ∧
      (a.onModule r).2.cache.Covers m a := by
  have hnone := (a.onModule_idle hr).2.1
  have hr' : ({ r with cache := r.cache.invalidate a.name } : Run σ).listing = .ofModule m := hr
  have hfresh : ({ r with cache := r.cache.invalidate a.name } : Run σ).cache.Fresh m :=
    h.invalidate a.name
  cases a with
  | calls =>
    unfold onModule at hnone ⊢
    dsimp only at hnone ⊢
    split
    · next g r' hcalls => exact Run.callGraph?_filled hr' hfresh hcalls
    · next hcalls => simp [hcalls] at hnone
  | _ => exact allFunctions_filled hnames hr' hfresh (by decide) hnone

/-- **An analysis** keeps the cache coherent. -/
theorem onModule_coherent (hnames : m.DistinctNames) (hr : r.listing = .ofModule m)
    (h : r.cache.Coherent m) : ((a.onModule r).2.cache.markValid a.name).Coherent m := by
  obtain ⟨hfilled, hcovers⟩ := a.onModule_filled hnames hr h.fresh
  refine ⟨hfilled.fresh, fun b hb => ?_⟩
  by_cases hba : b = a
  · exact hba ▸ hcovers
  · have hne : b.name ≠ a.name := fun heq => hba (name_injective heq)
    have hvalid : (r.cache.invalidate a.name).isValid b.name = true := by
      rw [Cache.isValid, ← a.onModule_validNames]
      exact (Cache.isValid_markValid_iff.1 hb).resolve_left hne
    have hbefore := h.complete b (Cache.isValid_invalidate_iff.1 hvalid).2
    refine hbefore.mono fun function hsome => hfilled.kept _ _ ?_
    rwa [Cache.get?_invalidate_of_ne hne]

end Analysis

/-! ## Transformations -/

/-! ### Constant folding -/

namespace ConstFold.Folded

variable {fn fn' : Function}

/-- Folding leaves the calls as they are. -/
theorem callTargets_eq (h : Folded fn fn') :
    CallGraph.callTargets fn' = CallGraph.callTargets fn := by
  refine forall₂_filterMap_eq h.instrs fun i j hij => ?_
  cases hij with
  | same => rfl
  | const _ _ _ _ hcall =>
    cases i with
    | call c => cases hcall
    | _ => rfl

end ConstFold.Folded

section Folded

variable {m m' : Module} (h : List.Forall₂ ConstFold.Folded m.functions m'.functions)

include h

theorem CallGraph.build_of_folded : CallGraph.build m' = CallGraph.build m := by
  have hnames : m'.functions.map Function.name = m.functions.map Function.name :=
    forall₂_map_eq h fun _ _ hfn => hfn.name_eq
  have hcallees : m'.functions.map (calleesOf (m.functions.map Function.name)) =
      m.functions.map (calleesOf (m.functions.map Function.name)) :=
    forall₂_map_eq h fun _ _ hfn => by rw [calleesOf, calleesOf, hfn.callTargets_eq]
  unfold build
  simp only [hnames, hcallees]

theorem Module.function?_of_folded {α : Type} {f : Function → α}
    (hf : ∀ fn fn', ConstFold.Folded fn fn' → f fn' = f fn) (name : String) :
    (m'.function? name).map f = (m.function? name).map f := by
  unfold function?
  generalize m.functions = fns at h ⊢
  generalize m'.functions = fns' at h ⊢
  induction h with
  | nil => rfl
  | @cons fn fn' fns fns' hfn _ ih =>
    rw [List.find?_cons, List.find?_cons, hfn.name_eq]
    split
    · exact congrArg some (hf fn fn' hfn)
    · exact ih

/-- No result changes when constants are folded. -/
theorem Analysis.afresh?_of_folded (a : Analysis) (name : String) :
    a.afresh? m' name = a.afresh? m name := by
  cases a with
  | calls => rw [afresh?, afresh?, CallGraph.build_of_folded h]
  | _ => exact Module.function?_of_folded h (fun _ _ hfn => by rw [hfn.flowGraph_eq]) name

theorem Cache.Coherent.of_folded {c : Cache Fact} (hc : c.Coherent m) : c.Coherent m' where
  fresh e he := by
    obtain ⟨a, hname, hfresh⟩ := hc.fresh e he
    exact ⟨a, hname, (Analysis.afresh?_of_folded h a _).trans hfresh⟩
  complete a ha := by
    have hcovers := hc.complete a ha
    cases a with
    | calls => exact hcovers
    | _ =>
      intro fn' hfn' hbody
      obtain ⟨fn, hfn, hfolded⟩ := forall₂_exists_left h hfn'
      rw [hfolded.name_eq]
      exact hcovers fn hfn (hfolded.isExternal_eq ▸ hbody)

end Folded

/-! ### Dropped results -/

namespace Cache

variable {m : Module} {c : Cache Fact}

/-- All results are those of analyses. -/
def Named (c : Cache Fact) : Prop := ∀ e ∈ c.entries, ∃ a : Analysis, e.1.1 = a.name

theorem Named.put (h : c.Named) (a : Analysis) (function : String) (f : Fact) :
    (c.put a.name function f).Named := by
  intro e he
  rcases List.mem_cons.1 he with rfl | he
  · exact ⟨a, rfl⟩
  · exact h e (List.mem_filter.1 he).1

theorem mem_foldl_invalidate {names : List String} {e : (String × String) × Fact}
    (he : e ∈ (names.foldl invalidate c).entries) : e ∈ c.entries ∧ e.1.1 ∉ names := by
  induction names generalizing c with
  | nil => exact ⟨he, List.not_mem_nil⟩
  | cons n names ih =>
    obtain ⟨hmem, hnot⟩ := ih he
    obtain ⟨hmem, hne⟩ := List.mem_filter.1 hmem
    refine ⟨hmem, fun h => ?_⟩
    rcases List.mem_cons.1 h with h | h
    · simp [h] at hne
    · exact hnot h

/-- Where the results of all analyses have been dropped, none is left. -/
theorem Named.coherent_of_dropped (h : c.Named) {names : List String}
    (hnames : ∀ a : Analysis, a.name ∈ names) : (names.foldl invalidate c).Coherent m where
  fresh e he := by
    obtain ⟨hmem, hnot⟩ := mem_foldl_invalidate he
    obtain ⟨a, hname⟩ := h e hmem
    exact absurd (hname ▸ hnames a) hnot
  complete a ha := absurd (hnames a) (isValid_foldl_invalidate_iff.1 ha).1

end Cache

namespace Run

variable {r : Run σ} {fn : Function}

theorem flowGraph_named (h : r.cache.Named) : (r.flowGraph fn).2.cache.Named := by
  unfold flowGraph
  split
  · exact h
  · exact h.put .flow _ _

theorem domTree_named (h : r.cache.Named) : (r.domTree fn).2.cache.Named := by
  unfold domTree
  split
  · exact h
  · exact (flowGraph_named h).put .dominators _ _

theorem callGraph?_named (h : r.cache.Named) {g : CallGraph} {r' : Run σ}
    (hcalls : r.callGraph? = some (g, r')) : r'.cache.Named := by
  unfold callGraph? at hcalls
  split at hcalls
  · obtain ⟨-, rfl⟩ := Prod.mk.inj (Option.some.inj hcalls)
    exact h
  · obtain ⟨m, -, heq⟩ := Option.map_eq_some_iff.1 hcalls
    obtain ⟨-, rfl⟩ := Prod.mk.inj heq
    exact h.put .calls _ _

end Run

namespace Transform

variable {env : PassEnv} {m : Module} {r : Run σ}

theorem onModule_named (t : Transform) (h : r.cache.Named) :
    (t.pass.onModule env r).2.cache.Named := by
  refine Run.eachFunction_preserves (P := fun s => s.cache.Named) (fun k s hs => ?_) _ _ r h
  rcases t.onFunction_cache env k s with heq | ⟨fn, -, g, s', hcalls, heq⟩
  · exact heq ▸ hs
  · exact heq ▸ Run.domTree_named (Run.callGraph?_named hs hcalls)

theorem constFold_cache : (constFold.pass.onModule env r).2.cache = r.cache := by
  refine Run.eachFunction_preserves (P := fun s => s.cache = r.cache) (fun k s hs => ?_) _ _ r rfl
  unfold onFunction
  split <;> exact hs

/-- **A transformation that reports no change** keeps the cache coherent. -/
theorem coherent_of_unmodified (t : Transform) (hnames : m.DistinctNames)
    (hr : r.listing = .ofModule m) (h : r.cache.Coherent m)
    (hnone : (t.pass.onModule env r).1.failure = none)
    (hmodified : (t.pass.onModule env r).1.modified = false) :
    (t.pass.onModule env r).2.cache.Coherent m := by
  have hstep : ∀ k (s : Run σ), s.listing = .ofModule m ∧ Cache.Filled m r.cache s.cache →
      (t.onFunction env k s).1.failure = none → (t.onFunction env k s).1.modified = false →
      (t.onFunction env k s).2.listing = .ofModule m ∧
        Cache.Filled m r.cache (t.onFunction env k s).2.cache := by
    rintro k s ⟨hs, hfilled⟩ hnone hmodified
    refine ⟨(t.onFunction_unmodified k s hnone hmodified).trans hs, ?_⟩
    rcases t.onFunction_cache env k s with heq | ⟨fn, hplace, g, s', hcalls, heq⟩
    · exact heq ▸ hfilled
    · rw [hs, Listing.function?_ofModule] at hplace
      have hcached := (Run.callGraph?_filled hs hfilled.fresh hcalls).1
      have htree := (Run.domTree_filled hnames (List.mem_of_getElem? hplace) hcached.fresh).2.1
      exact heq ▸ (hfilled.trans hcached).trans htree
  obtain ⟨-, hfilled⟩ := (Run.eachFunction_unmodified hstep _ false r hnone hmodified).2
    ⟨hr, .refl h.fresh⟩
  refine ⟨hfilled.fresh, fun a ha => ?_⟩
  rw [Cache.isValid, t.onModule_validNames] at ha
  exact (h.complete a ha).mono fun function => hfilled.kept _ function

end Transform

/-! ## Runs -/

namespace Invocation

variable {c : Invocation σ} {m m' : Module}

theorem coherent_analysis {a : Analysis} (hpass : c.pass = a.pass) (hnames : m.DistinctNames)
    (hr : c.before.listing = .ofModule m) (h : c.before.cache.Coherent m) :
    c.settled.cache.Coherent m := by
  have hcoherent := a.onModule_coherent hnames hr h
  rw [settled, after, hpass]
  exact hcoherent

theorem Accepted.coherent {t : Transform} (hc : c.Accepted t m m')
    (h : c.before.cache.Coherent m) : c.settled.cache.Coherent m' := by
  obtain ⟨pass, env, before⟩ := c
  obtain ⟨hpass, henv, hbefore, hm, hnone, hafter, hm', hsame⟩ := hc
  obtain rfl : pass = t.pass := hpass
  have hnames := (Module.verified_iff.1 hm).1
  rw [settled, if_neg (by simp [Transform.pass])]
  cases hmodified : outcome ⟨t.pass, env, before⟩ |>.modified with
  | false =>
    obtain rfl := hsame hmodified
    exact t.coherent_of_unmodified hnames hbefore h hnone hmodified
  | true =>
    by_cases ht : t = .constFold
    · subst ht
      obtain ⟨fns, hlisting, hfolded⟩ := Transform.constFold_folded hbefore
      obtain rfl := Listing.ofModule_injective (hafter.symm.trans hlisting)
      have hcache : (after ⟨Transform.constFold.pass, env, before⟩).cache = before.cache :=
        Transform.constFold_cache
      rw [if_pos rfl, hcache]
      exact h.of_folded hfolded
    · have hnamed : before.cache.Named := fun e he => (h.fresh e he).imp fun a ha => ha.1
      exact (t.onModule_named hnamed).coherent_of_dropped fun a => a.name_mem_invalidates ht

end Invocation

/-- **Coherence.** In every run of built-in passes over a verified module, after any earlier runs,
the cache is coherent at every call of a pass on the module, and at the end if the run succeeds. -/
theorem Manager.run_cache_coherent {mgr : Manager σ} (hbuiltin : ∀ q ∈ mgr.passes, q.IsBuiltin)
    (hchecker : mgr.checker = .standard) (history : List Listing) {m : Module}
    (hm : moduleErr? (some m) = none) :
    (∀ c ∈ (mgr.afterRuns history).invocations (.ofModule m), ∃ m',
        c.before.listing = .ofModule m' ∧ moduleErr? (some m') = none ∧
          c.before.cache.Coherent m') ∧
      (((mgr.afterRuns history).run (.ofModule m)).1 = none → ∃ m',
        ((mgr.afterRuns history).run (.ofModule m)).2.listing = .ofModule m' ∧
          moduleErr? (some m') = none ∧
          ((mgr.afterRuns history).run (.ofModule m)).2.manager.cache.Coherent m') := by
  have hsetup := mgr.afterRuns_setup history
  have hbuiltin' : ∀ q ∈ (mgr.afterRuns history).passes, q.IsBuiltin := fun q hq =>
    hbuiltin q (hsetup.passes_eq ▸ hq)
  have hempty : Cache.Coherent m {} := ⟨nofun, nofun⟩
  exact builtin_induct (P := fun m r => r.cache.Coherent m) hbuiltin'
    (hsetup.checker_eq.trans hchecker) hm hempty
    (fun c a m' hpass hbefore hm' h =>
      Invocation.coherent_analysis hpass (Module.verified_iff.1 hm').1 hbefore h)
    fun c t m' m'' _ hc h => hc.coherent h

/-- All analyses, and after them the transformations. -/
def Manager.cleanThenFold : Manager Unit where
  passes := Analysis.all.map Analysis.pass ++
    [Transform.deadCode 0, .inline ⟨10, true⟩, .constFold].map Transform.pass
  world := ()

/-- A function with a value that is never used and a sum of constants. -/
def Module.deadAndFoldable : Module where
  name := "m"
  functions :=
    [{ name := "f"
       ret := some (.int ⟨true, .w32⟩)
       blocks :=
         [{ id := 1
            instrs := [.const ⟨1, some (.int ⟨true, .w32⟩), "2"⟩,
              .const ⟨2, some (.int ⟨true, .w32⟩), "3"⟩,
              .binary ⟨3, .add, 1, 2, some (.int ⟨true, .w32⟩)⟩, .const ⟨4, some .bool, "true"⟩]
            term := some (.ret 3 true) }] }]

/-- After a run that failed: removing the dead value makes all analyses stale, inlining has three of
them computed again, and they stay valid while the sum is folded. -/
theorem Manager.cleanThenFold_coherent :
    moduleErr? (some Module.deadAndFoldable) = none ∧
      (cleanThenFold.run ⟨"h", [none]⟩).1.isSome = true ∧
      ((cleanThenFold.afterRuns [⟨"h", [none]⟩]).run (.ofModule .deadAndFoldable)).1 = none ∧
      ((cleanThenFold.afterRuns [⟨"h", [none]⟩]).invocations (.ofModule .deadAndFoldable)).map
          (fun c => (c.pass.name, c.outcome.modified)) =
        [("cfg", false), ("domtree", false), ("loops", false), ("callgraph", false), ("dce", true),
          ("cfg", false), ("domtree", false), ("callgraph", false), ("inline", false),
          ("constfold", true)] ∧
      ∃ m', ((cleanThenFold.afterRuns [⟨"h", [none]⟩]).run (.ofModule .deadAndFoldable)).2.listing =
          .ofModule m' ∧
        ((cleanThenFold.afterRuns [⟨"h", [none]⟩]).run
          (.ofModule .deadAndFoldable)).2.manager.cache.validNames =
            ["callgraph", "domtree", "cfg"] ∧
        ((cleanThenFold.afterRuns [⟨"h", [none]⟩]).run
          (.ofModule .deadAndFoldable)).2.manager.cache.Coherent m' := by
  have hbuiltin : ∀ q ∈ cleanThenFold.passes, q.IsBuiltin := by
    intro q hq
    rcases List.mem_append.1 hq with hq | hq
    · obtain ⟨a, -, rfl⟩ := List.mem_map.1 hq
      exact Or.inl ⟨a, rfl⟩
    · obtain ⟨t, -, rfl⟩ := List.mem_map.1 hq
      exact Or.inr ⟨t, rfl⟩
  have hm : moduleErr? (some Module.deadAndFoldable) = none := by decide +kernel
  have hrun : ((cleanThenFold.afterRuns [⟨"h", [none]⟩]).run
      (.ofModule .deadAndFoldable)).1 = none := by decide +kernel
  obtain ⟨m', hlisting, -, hcoherent⟩ :=
    (run_cache_coherent hbuiltin rfl [⟨"h", [none]⟩] hm).2 hrun
  exact ⟨hm, by decide +kernel, hrun, by decide +kernel, m', hlisting, by decide +kernel, hcoherent⟩

end SsaOpt
