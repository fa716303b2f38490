import Mathlib.Data.List.Range
import SsaOpt.Flow.CallGraph
import SsaOpt.Proofs.Components

/-!
# What a call graph knows

The call graph of a module with distinct function names is about positions. A position stands for
the name there, and by that the edges of the graph are the calls of the module (`mem_next_iff`) and
paths are sequences of calls (`leads_iff`). So the components of the graph are those of the module,
and a function is recursive exactly if it can call itself
(`build_finds_components_and_recursion`).
-/

namespace SsaOpt

open Relation SsaOpt.Flow

/-- A function of the module calls a function of the module directly. -/
def Module.Calls (m : Module) (f g : String) : Prop :=
  (∃ fn ∈ m.functions, fn.name = f ∧ ∃ c, .call c ∈ fn.instrs ∧ c.target = g) ∧
    ∃ fn ∈ m.functions, fn.name = g

namespace CallGraph

variable {names : List String} {m : Module} {i j : Nat} {f g : String}

/-! ## Names and positions -/

theorem getElem?_of_lastIndex? (h : lastIndex? names f = some i) : names[i]? = some f := by
  obtain ⟨k, hk, rfl⟩ := Option.map_eq_some_iff.1 h
  obtain ⟨hlt, hget, -⟩ := List.idxOf?_eq_some_iff.1 hk
  rw [List.length_reverse] at hlt
  rw [← List.getElem?_reverse hlt, List.getElem?_eq_some_iff]
  exact ⟨_, hget⟩

theorem eq_of_getElem? (hnodup : names.Nodup) (hi : names[i]? = some f)
    (hj : names[j]? = some f) : i = j := by
  obtain ⟨hlt, -⟩ := List.getElem?_eq_some_iff.1 hi
  exact (List.getElem?_inj hlt hnodup).1 (hi.trans hj.symm)

theorem lastIndex?_eq_some_iff (hnodup : names.Nodup) :
    lastIndex? names f = some i ↔ names[i]? = some f := by
  refine ⟨getElem?_of_lastIndex?, fun h => ?_⟩
  cases hlast : lastIndex? names f with
  | none =>
    have hnone := List.idxOf?_eq_none_iff.1 (Option.map_eq_none_iff.1 hlast)
    exact absurd (List.mem_reverse.2 (List.mem_of_getElem? h)) hnone
  | some k => rw [eq_of_getElem? hnodup (getElem?_of_lastIndex? hlast) h]

theorem mem_calleesOf (hnodup : names.Nodup) {fn : Function} :
    j ∈ calleesOf names fn ↔ ∃ c, .call c ∈ fn.instrs ∧ names[j]? = some c.target := by
  simp only [calleesOf, List.mem_eraseDups, List.mem_filterMap, callTargets,
    lastIndex?_eq_some_iff hnodup]
  constructor
  · rintro ⟨t, ⟨instr, hinstr, ht⟩, hj⟩
    cases instr with
    | call c =>
      obtain rfl := Option.some.inj ht
      exact ⟨c, hinstr, hj⟩
    | _ => cases ht
  · rintro ⟨c, hc, hj⟩
    exact ⟨c.target, ⟨.call c, hc, rfl⟩, hj⟩

/-- The names of the functions of a module. -/
abbrev namesOf (m : Module) : List String := m.functions.map Function.name

theorem getElem?_namesOf :
    (namesOf m)[i]? = some f ↔ ∃ fn, m.functions[i]? = some fn ∧ fn.name = f := by
  simp

/-- **The edges of the graph are the calls of the module.** -/
theorem mem_next_iff (hnodup : (namesOf m).Nodup) : j ∈ next (build m).callees i ↔
    ∃ f g, (namesOf m)[i]? = some f ∧ (namesOf m)[j]? = some g ∧ m.Calls f g := by
  have hnext : next (build m).callees i =
      ((m.functions[i]?.map (calleesOf (namesOf m))).getD []) := by
    simp [next, build, List.getD_eq_getElem?_getD]
  rw [hnext]
  constructor
  · intro hj
    cases hi : m.functions[i]? with
    | none => simp [hi] at hj
    | some fn =>
      rw [hi] at hj
      obtain ⟨c, hc, hj⟩ := (mem_calleesOf hnodup).1 hj
      obtain ⟨callee, hcallee, hname⟩ := getElem?_namesOf.1 hj
      exact ⟨fn.name, c.target, getElem?_namesOf.2 ⟨fn, hi, rfl⟩, hj,
        ⟨fn, List.mem_of_getElem? hi, rfl, c, hc, rfl⟩, callee, List.mem_of_getElem? hcallee, hname⟩
  · rintro ⟨f, g, hi, hj, ⟨fn, hfn, rfl, c, hc, rfl⟩, -⟩
    obtain ⟨fn', hfn', hname⟩ := getElem?_namesOf.1 hi
    obtain rfl := List.inj_on_of_nodup_map hnodup (List.mem_of_getElem? hfn') hfn hname
    rw [hfn']
    exact (mem_calleesOf hnodup).2 ⟨c, hc, hj⟩

/-- **Paths are sequences of calls.** -/
theorem leads_iff (hnodup : (namesOf m).Nodup) (hi : (namesOf m)[i]? = some f)
    (hj : (namesOf m)[j]? = some g) :
    Leads (next (build m).callees) i j ↔ ReflTransGen m.Calls f g := by
  constructor
  · intro h
    induction h generalizing g with
    | refl =>
      obtain rfl := Option.some.inj (hi.symm.trans hj)
      exact .refl
    | tail _ hedge ih =>
      obtain ⟨f', g', hk, hj', hcalls⟩ := (mem_next_iff hnodup).1 hedge
      obtain rfl := Option.some.inj (hj.symm.trans hj')
      exact (ih hk).tail hcalls
  · intro h
    induction h generalizing j with
    | refl =>
      obtain rfl := eq_of_getElem? hnodup hi hj
      exact .refl
    | @tail f' g _ hcalls ih =>
      obtain ⟨fn, hfn, hname, -⟩ := hcalls.1
      obtain ⟨k, hk⟩ := List.getElem?_of_mem (List.mem_map.2 ⟨fn, hfn, hname⟩)
      exact (ih hk).tail ((mem_next_iff hnodup).2 ⟨_, _, hk, hj, hcalls⟩)

/-- A path back is a sequence of calls back. -/
theorem transGen_iff (hnodup : (namesOf m).Nodup) (hi : (namesOf m)[i]? = some f) :
    TransGen (fun a b => b ∈ next (build m).callees a) i i ↔ TransGen m.Calls f f := by
  rw [TransGen.head'_iff, TransGen.head'_iff]
  constructor
  · rintro ⟨j, hij, hji⟩
    obtain ⟨f', g, hi', hj, hcalls⟩ := (mem_next_iff hnodup).1 hij
    obtain rfl := Option.some.inj (hi.symm.trans hi')
    exact ⟨g, hcalls, (leads_iff hnodup hj hi).1 hji⟩
  · rintro ⟨g, hcalls, hback⟩
    obtain ⟨fn, hfn, hname⟩ := hcalls.2
    obtain ⟨j, hj⟩ := List.getElem?_of_mem (List.mem_map.2 ⟨fn, hfn, hname⟩)
    exact ⟨j, (mem_next_iff hnodup).2 ⟨f, g, hi, hj, hcalls⟩, (leads_iff hnodup hj hi).2 hback⟩

/-! ## Components -/

theorem components_areComponents (hnodup : (namesOf m).Nodup) :
    (∃ s, ComponentSearch.Runs (next (build m).callees)
        { roots := List.range m.functions.length } s ∧ (build m).components = s.found.reverse) ∧
      AreComponents (next (build m).callees) (List.range m.functions.length)
        (build m).components := by
  have hlength : (build m).callees.length = m.functions.length := by simp [build]
  have hwithin : ∀ x ∈ List.range m.functions.length, ∀ y ∈ next (build m).callees x,
      y ∈ List.range m.functions.length := by
    intro x _ y hy
    obtain ⟨-, g, -, hg, -⟩ := (mem_next_iff hnodup).1 hy
    obtain ⟨hlt, -⟩ := List.getElem?_eq_some_iff.1 hg
    simpa using hlt
  have hcomponents : (build m).components =
      Flow.components (next (build m).callees) (List.range m.functions.length) := by
    rw [← hlength]
    rfl
  rw [hcomponents]
  exact components_spec List.nodup_range hwithin

theorem eq_of_mem_flatten {α : Type} {cs : List (List α)} (h : cs.flatten.Nodup) {c d : List α}
    (hc : c ∈ cs) (hd : d ∈ cs) {x : α} (hxc : x ∈ c) (hxd : x ∈ d) : c = d := by
  induction cs with
  | nil => simp at hc
  | cons e cs ih =>
    rw [List.flatten_cons] at h
    obtain ⟨-, hrest, hdisjoint⟩ := List.nodup_append.1 h
    rcases List.mem_cons.1 hc with rfl | hc <;> rcases List.mem_cons.1 hd with rfl | hd
    · rfl
    · exact absurd rfl (hdisjoint x hxc x (List.mem_flatten.2 ⟨d, hd, hxd⟩))
    · exact absurd rfl (hdisjoint x hxd x (List.mem_flatten.2 ⟨c, ‹_›, hxc⟩))
    · exact ih hrest ‹_› hd

theorem one_lt_length_iff {α : Type} {l : List α} (hnodup : l.Nodup) {x : α} (hx : x ∈ l) :
    1 < l.length ↔ ∃ y ∈ l, y ≠ x := by
  constructor
  · intro hlength
    by_contra hnone
    have hsub : l ⊆ [x] := by
      intro y hy
      rw [List.mem_singleton]
      by_contra hne
      exact hnone ⟨y, hy, hne⟩
    have hle : l.length ≤ 1 := hnodup.length_le_of_subset hsub
    omega
  · rintro ⟨y, hy, hne⟩
    have hpair : [y, x].Nodup := by simpa using hne
    exact hpair.length_le_of_subset (by simp [hx, hy])

section

variable (hnodup : (namesOf m).Nodup)
include hnodup

/-- The component of a function is the one that it is a member of. -/
theorem componentOf_spec (hi : i < m.functions.length) :
    (build m).componentOf i ∈ (build m).components ∧ i ∈ (build m).componentOf i := by
  obtain ⟨-, hspec⟩ := components_areComponents hnodup
  obtain ⟨c, hc, hic⟩ := List.mem_flatten.1 (hspec.perm.mem_iff.2 (List.mem_range.2 hi))
  rw [componentOf]
  cases hfind : (build m).components.find? fun c => c.contains i with
  | none => exact absurd (List.contains_iff_mem.2 hic) (List.find?_eq_none.1 hfind c hc)
  | some d =>
    have hcontains := List.find?_some hfind
    exact ⟨List.mem_of_find?_eq_some hfind, by simpa using hcontains⟩

theorem mem_componentOf_iff (hi : i < m.functions.length) : j ∈ (build m).componentOf i ↔
    Leads (next (build m).callees) i j ∧ Leads (next (build m).callees) j i := by
  obtain ⟨-, hspec⟩ := components_areComponents hnodup
  obtain ⟨hmem, hself⟩ := componentOf_spec hnodup hi
  rw [← hspec.mem_iff i (List.mem_range.2 hi)]
  constructor
  · exact fun hj => ⟨_, hmem, hself, hj⟩
  · rintro ⟨c, hc, hic, hjc⟩
    have hflat := hspec.perm.nodup_iff.2 List.nodup_range
    rwa [eq_of_mem_flatten hflat hmem hc hself hic]

/-- **A function is recursive** exactly if there is a path from it to itself. -/
theorem recursiveAt_iff (hi : i < m.functions.length) : (build m).recursiveAt i = true ↔
    TransGen (fun a b => b ∈ next (build m).callees a) i i := by
  obtain ⟨-, hspec⟩ := components_areComponents hnodup
  obtain ⟨hmem, hself⟩ := componentOf_spec hnodup hi
  have hdistinct : ((build m).componentOf i).Nodup :=
    (List.nodup_flatten.1 (hspec.perm.nodup_iff.2 List.nodup_range)).1 _ hmem
  rw [recursiveAt, Bool.or_eq_true, decide_eq_true_eq, List.contains_iff_mem,
    one_lt_length_iff hdistinct hself]
  constructor
  · rintro (⟨j, hj, hne⟩ | hedge)
    · obtain ⟨hij, hji⟩ := (mem_componentOf_iff hnodup hi).1 hj
      rcases reflTransGen_iff_eq_or_transGen.1 hij with rfl | hij
      · exact absurd rfl hne
      · exact hij.trans_left hji
    · exact .single hedge
  · intro h
    obtain ⟨j, hij, hji⟩ := TransGen.head'_iff.1 h
    by_cases hne : j = i
    · exact Or.inr (hne ▸ hij)
    · exact Or.inl ⟨j, (mem_componentOf_iff hnodup hi).2 ⟨.single hij, hji⟩, hne⟩

/-! ## By name -/

theorem index?_eq_some_iff : (build m).index? f = some i ↔ (namesOf m)[i]? = some f :=
  lastIndex?_eq_some_iff hnodup

theorem sameComponent_iff (hi : (namesOf m)[i]? = some f) (hj : (namesOf m)[j]? = some g) :
    (build m).sameComponent f g = true ↔ j ∈ (build m).componentOf i := by
  rw [sameComponent, (index?_eq_some_iff hnodup).2 hi, (index?_eq_some_iff hnodup).2 hj]
  exact List.contains_iff_mem

end

theorem nameAt_eq (hi : (namesOf m)[i]? = some f) : (build m).nameAt i = f := by
  show (namesOf m).getD i "" = f
  rw [List.getD_eq_getElem?_getD, hi, Option.getD_some]

/-- A member of a component has a name. -/
theorem getElem?_nameAt (hnodup : (namesOf m).Nodup) {c : List Nat} (hc : c ∈ (build m).components)
    (hi : i ∈ c) : (namesOf m)[i]? = some ((build m).nameAt i) := by
  obtain ⟨-, hspec⟩ := components_areComponents hnodup
  have hlt := List.mem_range.1 (hspec.perm.mem_iff.1 (List.mem_flatten.2 ⟨c, hc, hi⟩))
  have hlt' : i < (namesOf m).length := by simpa using hlt
  have hname := List.getElem?_eq_getElem hlt'
  rw [hname, nameAt_eq hname]

theorem mem_map_nameAt_iff (hnodup : (namesOf m).Nodup) {c : List Nat}
    (hc : c ∈ (build m).components) (hi : (namesOf m)[i]? = some f) :
    f ∈ c.map (build m).nameAt ↔ i ∈ c := by
  rw [List.mem_map]
  constructor
  · rintro ⟨k, hk, rfl⟩
    rwa [eq_of_getElem? hnodup hi (getElem?_nameAt hnodup hc hk)]
  · exact fun h => ⟨i, h, nameAt_eq hi⟩

/-- Every function is in one of the components, once. -/
theorem componentNames_perm (hnodup : (namesOf m).Nodup) :
    (build m).componentNames.flatten.Perm (namesOf m) := by
  obtain ⟨-, hspec⟩ := components_areComponents hnodup
  have hflat : (build m).componentNames.flatten =
      (build m).components.flatten.map (build m).nameAt := by
    rw [componentNames, List.map_flatten]
  have hrange : (List.range m.functions.length).map (build m).nameAt = namesOf m := by
    refine List.ext_getElem (by simp) fun k h₁ h₂ => ?_
    rw [List.getElem_map, List.getElem_range]
    exact nameAt_eq (List.getElem?_eq_getElem h₂)
  rw [hflat, ← hrange]
  exact hspec.perm.map _

theorem sameComponent_iff_exists_mem (hnodup : (namesOf m).Nodup) (hf : f ∈ namesOf m)
    (hg : g ∈ namesOf m) :
    (build m).sameComponent f g = true ↔ ∃ c ∈ (build m).componentNames, f ∈ c ∧ g ∈ c := by
  obtain ⟨-, hspec⟩ := components_areComponents hnodup
  obtain ⟨i, hi⟩ := List.getElem?_of_mem hf
  obtain ⟨j, hj⟩ := List.getElem?_of_mem hg
  have hlt : i < m.functions.length := by simpa using (List.getElem?_eq_some_iff.1 hi).1
  rw [sameComponent_iff hnodup hi hj, mem_componentOf_iff hnodup hlt,
    ← hspec.mem_iff i (List.mem_range.2 hlt), componentNames]
  simp only [List.mem_map]
  constructor
  · rintro ⟨c, hc, hic, hjc⟩
    exact ⟨_, ⟨c, hc, rfl⟩, (mem_map_nameAt_iff hnodup hc hi).2 hic,
      (mem_map_nameAt_iff hnodup hc hj).2 hjc⟩
  · rintro ⟨_, ⟨c, hc, rfl⟩, hfc, hgc⟩
    exact ⟨c, hc, (mem_map_nameAt_iff hnodup hc hi).1 hfc, (mem_map_nameAt_iff hnodup hc hj).1 hgc⟩

theorem sameComponent_iff_calls (hnodup : (namesOf m).Nodup) (hf : f ∈ namesOf m)
    (hg : g ∈ namesOf m) : (build m).sameComponent f g = true ↔
      ReflTransGen m.Calls f g ∧ ReflTransGen m.Calls g f := by
  obtain ⟨i, hi⟩ := List.getElem?_of_mem hf
  obtain ⟨j, hj⟩ := List.getElem?_of_mem hg
  have hlt : i < m.functions.length := by simpa using (List.getElem?_eq_some_iff.1 hi).1
  rw [sameComponent_iff hnodup hi hj, mem_componentOf_iff hnodup hlt, leads_iff hnodup hi hj,
    leads_iff hnodup hj hi]

/-- No component calls into one that comes later. -/
theorem componentNames_ordered (hnodup : (namesOf m).Nodup) :
    (build m).componentNames.Pairwise fun c d => ∀ a ∈ c, ∀ b ∈ d, ¬ m.Calls a b := by
  obtain ⟨-, hspec⟩ := components_areComponents hnodup
  apply List.pairwise_map.2
  refine hspec.ordered.imp_of_mem fun {c d} hc hd hleads a ha b hb hcalls => ?_
  obtain ⟨i, hi, rfl⟩ := List.mem_map.1 ha
  obtain ⟨j, hj, rfl⟩ := List.mem_map.1 hb
  refine hleads i hi j hj (.single ((mem_next_iff hnodup).2 ⟨_, _, ?_, ?_, hcalls⟩))
  · exact getElem?_nameAt hnodup hc hi
  · exact getElem?_nameAt hnodup hd hj

theorem isRecursive_iff (hnodup : (namesOf m).Nodup) (f : String) :
    (build m).isRecursive f = true ↔ TransGen m.Calls f f := by
  rw [isRecursive]
  cases hf : (build m).index? f with
  | none =>
    refine iff_of_false (by simp) fun h => ?_
    obtain ⟨g, hcalls, -⟩ := TransGen.head'_iff.1 h
    obtain ⟨fn, hfn, hname, -⟩ := hcalls.1
    obtain ⟨k, hk⟩ := List.getElem?_of_mem (List.mem_map.2 ⟨fn, hfn, hname⟩)
    rw [(index?_eq_some_iff hnodup).2 hk] at hf
    cases hf
  | some i =>
    have hi := (index?_eq_some_iff hnodup).1 hf
    have hlt : i < m.functions.length := by simpa using (List.getElem?_eq_some_iff.1 hi).1
    rw [← transGen_iff hnodup hi]
    exact recursiveAt_iff hnodup hlt

/-- **What the call graph of a module says.** The search for components ends. Every function is in
one component, once. Two functions are in one component exactly if each can call the other, directly
or not, and no component calls into one that comes later. A function is recursive exactly if it can
call itself, directly or not. -/
theorem build_finds_components_and_recursion {m : Module}
    (hnodup : (m.functions.map Function.name).Nodup) :
    let g := build m
    (∃ s, ComponentSearch.Runs (next g.callees) { roots := List.range m.functions.length } s ∧
        g.components = s.found.reverse) ∧
      g.componentNames.flatten.Perm (m.functions.map Function.name) ∧
      (∀ c ∈ g.componentNames, c ≠ []) ∧
      (∀ a ∈ m.functions.map Function.name, ∀ b ∈ m.functions.map Function.name,
        (g.sameComponent a b = true ↔ ∃ c ∈ g.componentNames, a ∈ c ∧ b ∈ c) ∧
        (g.sameComponent a b = true ↔ ReflTransGen m.Calls a b ∧ ReflTransGen m.Calls b a)) ∧
      g.componentNames.Pairwise (fun c d => ∀ a ∈ c, ∀ b ∈ d, ¬ m.Calls a b) ∧
      ∀ f, g.isRecursive f = true ↔ TransGen m.Calls f f := by
  obtain ⟨hruns, hspec⟩ := components_areComponents hnodup
  refine ⟨hruns, componentNames_perm hnodup, fun c hc => ?_, fun a ha b hb => ⟨?_, ?_⟩,
    componentNames_ordered hnodup, isRecursive_iff hnodup⟩
  · obtain ⟨d, hd, rfl⟩ := List.mem_map.1 hc
    simpa using hspec.ne_nil d hd
  · exact sameComponent_iff_exists_mem hnodup ha hb
  · exact sameComponent_iff_calls hnodup ha hb

/-- A function that makes some calls. -/
def calling (name : String) (targets : List String) : Function where
  name
  blocks :=
    [{ id := 1
       instrs := targets.map fun t => .call ⟨0, t, [], none, .pure, false⟩
       term := some (.ret 0 false) }]

/-- Two cycles of calls through one function, with a function that calls into them, one that calls
itself, and a call out of the module. -/
def crossedCycles : Module where
  name := "m"
  functions :=
    [calling "top" ["left", "leaf"], calling "left" ["middle"], calling "middle" ["right", "leaf"],
      calling "right" ["left", "middle"], calling "leaf" ["leaf", "outside"]]

theorem build_crossedCycles :
    (crossedCycles.functions.map Function.name).Nodup ∧
      (build crossedCycles).componentNames = [["leaf"], ["right", "middle", "left"], ["top"]] ∧
      ReflTransGen crossedCycles.Calls "left" "right" ∧ ¬ TransGen crossedCycles.Calls "top" "top" ∧
      TransGen crossedCycles.Calls "leaf" "leaf" := by
  have hnodup : (crossedCycles.functions.map Function.name).Nodup := by decide
  obtain ⟨-, -, -, hsame, -, hrecursive⟩ := build_finds_components_and_recursion hnodup
  have hpair := (hsame "left" (by decide) "right" (by decide)).2
  have hleaf := (hrecursive "leaf").1 (by decide)
  refine ⟨hnodup, by decide, (hpair.1 (by decide)).1, fun h => ?_, hleaf⟩
  exact absurd ((hrecursive "top").2 h) (by decide)

end CallGraph

end SsaOpt
