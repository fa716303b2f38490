import SsaOpt.Proofs.CallSite
import SsaOpt.Proofs.PassRuns

/-!
# What a run of the inliner does

A run replaces one call after the other. `Transform.replacements` lists them, each with the function
as it is at that moment, and `Inlined` is what such a list does to a module. A run that does not
fail leaves what its replacements make of the module (`Transform.inline_inlined`); all that is
proved about the pass goes by induction on `Inlined`.
-/

namespace SsaOpt

namespace Inline

/-- A call that is replaced: the function at that moment, the place of the call in it, and the
function that is called. -/
structure Replacement where
  caller : Function
  position : Nat
  place : Nat
  call : Call
  callee : Function

/-- What the caller becomes. -/
def Replacement.result (r : Replacement) : Function :=
  (r.caller.splice r.position r.place r.call r.callee).1

/-- The numbers that the copy takes. -/
def Replacement.numbers (r : Replacement) : Renaming :=
  Splice.numbers r.caller r.position r.place r.call r.callee

/-- The numbers that the copy takes are not in use. -/
def Replacement.Fresh (r : Replacement) : Prop := Splice.Fresh r.caller r.callee r.numbers

/-- The numbers that the new blocks take are not in use. -/
def Replacement.FreshBlocks (r : Replacement) : Prop :=
  Splice.FreshBlocks r.caller r.callee r.numbers

/-- The calls that `replaceCalls` replaces, in order. -/
def replacements (judge : Call → Verdict) : Nat → List BlockId → Nat → Function → List Replacement
  | 0, _, _, _ => []
  | fuel + 1, live, position, fn =>
    match (scanBlocks judge live position (fn.blocks.drop position)).stop with
    | some (.site block place call callee) =>
      let (fn', exit) := fn.splice block place call callee
      let next := (fn'.blockIndex? exit).getD fn'.blocks.length
      ⟨fn, block, place, call, callee⟩ :: replacements judge fuel (exit :: live) next fn'
    | _ => []

/-! ## Scans -/

theorem scanInstrs_site {judge : Call → Verdict} {position : Nat} {is : List Instr}
    {position' place' : Nat} {call : Call} {callee : Function} (k : Nat)
    (h : (scanInstrs judge position k is).stop = some (.site position' place' call callee)) :
    position' = position ∧ k ≤ place' ∧ is[place' - k]? = some (.call call) ∧
      judge call = .splice callee := by
  induction is generalizing k with
  | nil => simp [scanInstrs] at h
  | cons i is ih =>
    have hlater : (scanInstrs judge position (k + 1) is).stop =
        some (.site position' place' call callee) →
        position' = position ∧ k ≤ place' ∧ (i :: is)[place' - k]? = some (.call call) ∧
          judge call = .splice callee := by
      intro h
      obtain ⟨hpos, hle, hcall, hjudge⟩ := ih (k + 1) h
      have hindex : place' - k = place' - (k + 1) + 1 := by omega
      exact ⟨hpos, by omega, by rw [hindex, List.getElem?_cons_succ]; exact hcall, hjudge⟩
    cases i with
    | call c =>
      rw [scanInstrs] at h
      cases hj : judge c with
      | pass => exact hlater (by simpa only [hj] using h)
      | warn callee reason => exact hlater (by simpa only [hj] using h)
      | fail failure => simp [hj] at h
      | splice callee' =>
        simp only [hj, Option.some.injEq, Stop.site.injEq] at h
        obtain ⟨rfl, rfl, rfl, rfl⟩ := h
        exact ⟨rfl, Nat.le_refl _, by simp, hj⟩
    | _ => exact hlater h

theorem scanBlocks_site {judge : Call → Verdict} {live : List BlockId} {blocks : List Block}
    {position' place' : Nat} {call : Call} {callee : Function} (k : Nat)
    (h : (scanBlocks judge live k blocks).stop = some (.site position' place' call callee)) :
    k ≤ position' ∧ ∃ b, blocks[position' - k]? = some b ∧
      b.instrs[place']? = some (.call call) ∧ judge call = .splice callee := by
  induction blocks generalizing k with
  | nil => simp [scanBlocks] at h
  | cons b blocks ih =>
    have hlater : (scanBlocks judge live (k + 1) blocks).stop =
        some (.site position' place' call callee) →
        k ≤ position' ∧ ∃ c, (b :: blocks)[position' - k]? = some c ∧
          c.instrs[place']? = some (.call call) ∧ judge call = .splice callee := by
      intro h
      obtain ⟨hle, c, hc, hcall⟩ := ih (k + 1) h
      have hindex : position' - k = position' - (k + 1) + 1 := by omega
      exact ⟨by omega, c, by rw [hindex, List.getElem?_cons_succ]; exact hc, hcall⟩
    rw [scanBlocks] at h
    split at h
    · cases hstop : (scanInstrs judge k 0 b.instrs).stop with
      | none => exact hlater (by simpa only [hstop] using h)
      | some stop =>
        simp only [hstop] at h
        obtain ⟨rfl, -, hcall, hjudge⟩ := scanInstrs_site 0 (hstop.trans h)
        exact ⟨Nat.le_refl _, b, by simp, by simpa using hcall, hjudge⟩
    · exact hlater h

/-! ## One replacement -/

namespace Replacement

variable {r : Replacement} {b : Block} (hblock : r.caller.blocks[r.position]? = some b)
  (hcall : b.instrs[r.place]? = some (.call r.call))
  (hcompatible : compatible r.call r.callee = true)
include hblock hcall hcompatible

/-- **A replacement is at a call site**, if its numbers are not in use. -/
theorem site (hbody : r.callee.isExternal = false) (hcaller : r.caller.Shape)
    (hcallee : r.callee.Shape) (hfresh : r.Fresh) :
    ∃ s : CallSite r.caller r.callee, s.call = r.call ∧ s.result = r.result := by
  have hnumbers := CallPlace.numbers_ofIndex r.callee hcaller.ids_nodup hblock hcall
  exact ⟨⟨.ofIndex r.callee hcaller.ids_nodup hblock hcall, hcompatible, hbody, hcaller, hcallee,
    hnumbers ▸ hfresh⟩, rfl, CallPlace.result_ofIndex r.callee hcaller.ids_nodup hblock hcall⟩

theorem fresh_of_counted (hcaller : r.caller.Shape) (hcallee : r.callee.Shape)
    (hcounted : r.caller.Counted) (hfits : r.caller.Fits r.callee) : r.Fresh := by
  rw [Fresh, numbers, ← CallPlace.numbers_ofIndex r.callee hcaller.ids_nodup hblock hcall]
  exact CallPlace.fresh_of_counted _ hcounted hfits hcallee (compatible_args hcompatible)

end Replacement

/-! ## One function -/

/-- Replacements one after the other, from one function to another, each of a call that `judge`
wants replaced. -/
inductive Spliced (judge : Call → Verdict) : Function → List Replacement → Function → Prop
  | nil (fn : Function) : Spliced judge fn [] fn
  | cons {r : Replacement} {rs : List Replacement} {fn : Function} {b : Block}
    (hblock : r.caller.blocks[r.position]? = some b)
    (hcall : b.instrs[r.place]? = some (.call r.call)) (hjudge : judge r.call = .splice r.callee)
    (h : Spliced judge r.result rs fn) : Spliced judge r.caller (r :: rs) fn

theorem replaceCalls_spliced (judge : Call → Verdict) (fuel : Nat) (live : List BlockId)
    (position : Nat) (fn : Function) :
    Spliced judge fn (replacements judge fuel live position fn)
      (replaceCalls judge fuel live position fn).function := by
  induction fuel generalizing live position fn with
  | zero => exact .nil fn
  | succ fuel ih =>
    rw [replacements, replaceCalls]
    dsimp only
    cases hstop : (scanBlocks judge live position (fn.blocks.drop position)).stop with
    | none => exact .nil fn
    | some stop =>
      cases stop with
      | failed failure => exact .nil fn
      | site block place call callee =>
        obtain ⟨hle, b, hb, hcall, hjudge⟩ := scanBlocks_site position hstop
        rw [List.getElem?_drop] at hb
        have hindex : position + (block - position) = block := by omega
        rw [hindex] at hb
        exact .cons (r := ⟨fn, block, place, call, callee⟩) hb hcall hjudge (ih _ _ _)

/-- **Counters that have been set together** give numbers that are not in use, to all replacements
of a function. -/
theorem Spliced.fresh {judge : Call → Verdict} {fn fn' : Function} {rs : List Replacement}
    (h : Spliced judge fn rs fn')
    (hjudge : ∀ c callee, judge c = .splice callee →
      compatible c callee = true ∧ callee.isExternal = false ∧ callee.Shape)
    (hshape : fn.isExternal = false → fn.Shape) (hcounted : fn.Counted)
    (hfits : ∀ r ∈ rs, r.caller.Fits r.callee) : ∀ r ∈ rs, r.Fresh := by
  induction h with
  | nil => exact fun r hr => absurd hr (List.not_mem_nil)
  | @cons r rs fn b hblock hcall hverdict _ ih =>
    obtain ⟨hcompatible, hbody, hcallee⟩ := hjudge _ _ hverdict
    have hfit := hfits r List.mem_cons_self
    have hshape := hshape (Function.isExternal_of_mem (List.mem_of_getElem? hblock))
    have hfresh := r.fresh_of_counted hblock hcall hcompatible hshape hcallee hcounted hfit
    obtain ⟨s, -, hresult⟩ := r.site hblock hcall hcompatible hbody hshape hcallee hfresh
    refine List.forall_mem_cons.2 ⟨hfresh, ?_⟩
    rw [← hresult] at ih
    exact ih (fun _ => s.shape) (s.counted_result hcounted hfit) fun r hr =>
      hfits r (List.mem_cons_of_mem _ hr)

/-! ## A module -/

/-- What is known of a call that is replaced in the function at position `i`. -/
structure Replacement.Allowed (p : Policy) (checker : Option Checker) (m : Module) (i : Nat)
    (r : Replacement) : Prop where
  caller_eq : m.functions[i]? = some r.caller
  call_at : ∃ b, r.caller.blocks[r.position]? = some b ∧ b.instrs[r.place]? = some (.call r.call)
  callee_eq : ∃ j, j ≠ i ∧ m.lookup? r.call.target = some (j, r.callee)
  compatible : compatible r.call r.callee = true
  body : r.callee.isExternal = false
  safe : refusal p checker r.caller.name r.callee = none

/-- Replacements one after the other, from one module to another. -/
inductive Inlined (p : Policy) (checker : Option Checker) :
    Module → List Replacement → Module → Prop
  | nil (m : Module) : Inlined p checker m [] m
  | cons {m m' : Module} {r : Replacement} {rs : List Replacement} (self : Nat)
    (hr : r.Allowed p checker m self)
    (h : Inlined p checker { m with functions := m.functions.set self r.result } rs m') :
    Inlined p checker m (r :: rs) m'

variable {p : Policy} {checker : Option Checker}

theorem Inlined.append {m m' m'' : Module} {rs rs' : List Replacement}
    (h : Inlined p checker m rs m') (h' : Inlined p checker m' rs' m'') :
    Inlined p checker m (rs ++ rs') m'' := by
  induction h with
  | nil m => exact h'
  | cons self hr _ ih => exact .cons self hr (ih h')

theorem not_performsUnchecked {g : CallGraph} {callee : Function}
    (h : p.ineligible? g callee = none) : performsUnchecked callee = false := by
  unfold Policy.ineligible? at h
  cases hunchecked : performsUnchecked callee with
  | false => rfl
  | true =>
    rw [if_pos hunchecked] at h
    split at h
    · cases h
    · split at h
      · cases h
      · split at h <;> cases h

theorem judge_splice {m : Module} {g : CallGraph} {self : Nat} {function : String} {call : Call}
    {callee : Function} (h : judge p checker m g self function call = .splice callee) :
    (∃ j, j ≠ self ∧ m.lookup? call.target = some (j, callee)) ∧ compatible call callee = true ∧
      callee.isExternal = false ∧ refusal p checker function callee = none ∧
      performsUnchecked callee = false := by
  unfold judge at h
  split at h
  · cases h
  · next j callee' hlookup =>
    split at h
    · cases h
    · next hskip =>
      simp only [Bool.or_eq_true, decide_eq_true_eq, Bool.not_eq_true', not_or,
        Bool.not_eq_false, Bool.not_eq_true] at hskip
      split at h
      · cases h
      · next hfit =>
        split at h
        · cases h
        · next hsafe =>
          obtain rfl := Verdict.splice.inj h
          exact ⟨⟨j, hskip.1.1, hlookup⟩, hskip.1.2, hskip.2, hsafe, not_performsUnchecked hfit⟩

end Inline

/-! ### Names -/

namespace Module

/-- A function with another one of its name in its place. -/
theorem names_set {m : Module} {self : Nat} {fn fn' : Function}
    (hfn : m.functions[self]? = some fn) (hname : fn'.name = fn.name) :
    (m.functions.set self fn').map Function.name = m.functions.map Function.name := by
  rw [List.map_set, hname]
  refine List.ext_getElem? fun j => ?_
  by_cases hj : self = j
  · subst hj
    have hlt : self < m.functions.length := (List.getElem?_eq_some_iff.1 hfn).1
    rw [List.getElem?_set_self (by simpa using hlt), List.getElem?_map, hfn]
    rfl
  · rw [List.getElem?_set_ne hj]

theorem lookup?_set {m : Module} {self : Nat} {fn fn' : Function}
    (hfn : m.functions[self]? = some fn) (hname : fn'.name = fn.name) {t : String} {j : Nat}
    {g : Function} (h : m.lookup? t = some (j, g)) (hj : j ≠ self) :
    lookup? { m with functions := m.functions.set self fn' } t = some (j, g) := by
  have hindex : ∀ fns : List Function, (fns.findIdx? fun fn => fn.name = t) =
      (fns.map Function.name).findIdx? fun n => n = t := by
    intro fns
    rw [List.findIdx?_map]
    rfl
  obtain ⟨i, hi, h⟩ := Option.bind_eq_some_iff.1 h
  obtain ⟨g', hg, heq⟩ := Option.map_eq_some_iff.1 h
  obtain ⟨rfl, rfl⟩ := Prod.mk.inj heq
  rw [hindex] at hi
  refine Option.bind_eq_some_iff.2 ⟨i, ?_, ?_⟩
  · rw [hindex, names_set hfn hname, hi]
  · rw [List.getElem?_set_ne (Ne.symm hj), hg]
    rfl

theorem function?_of_lookup? {m : Module} {t : String} {j : Nat} {g : Function}
    (h : m.lookup? t = some (j, g)) : m.function? t = some g ∧ m.functions[j]? = some g := by
  obtain ⟨i, hi, h⟩ := Option.bind_eq_some_iff.1 h
  obtain ⟨g', hg, heq⟩ := Option.map_eq_some_iff.1 h
  obtain ⟨rfl, rfl⟩ := Prod.mk.inj heq
  refine ⟨?_, hg⟩
  obtain ⟨hlt, hmatch, hbefore⟩ := List.findIdx?_eq_some_iff_getElem.1 hi
  obtain ⟨_, hget⟩ := List.getElem?_eq_some_iff.1 hg
  rw [function?, List.find?_eq_some_iff_getElem]
  exact ⟨hget ▸ hmatch, i, hlt, hget, fun k hk => by simpa using hbefore k hk⟩

end Module

namespace Inline

variable {p : Policy} {checker : Option Checker}

namespace Replacement.Allowed

variable {m : Module} {i : Nat} {r : Replacement}

theorem caller_mem (hr : r.Allowed p checker m i) :
    r.caller ∈ m.functions ∧ r.caller.isExternal = false := by
  obtain ⟨b, hb, -⟩ := hr.call_at
  exact ⟨List.mem_of_getElem? hr.caller_eq, Function.isExternal_of_mem (List.mem_of_getElem? hb)⟩

theorem callee_mem (hr : r.Allowed p checker m i) : r.callee ∈ m.functions := by
  obtain ⟨j, -, hj⟩ := hr.callee_eq
  exact List.mem_of_getElem? (Module.function?_of_lookup? hj).2

theorem site (hr : r.Allowed p checker m i) (hcaller : r.caller.Shape) (hcallee : r.callee.Shape)
    (hfresh : r.Fresh) :
    ∃ s : CallSite r.caller r.callee, s.call = r.call ∧ s.result = r.result := by
  obtain ⟨b, hb, hcall⟩ := hr.call_at
  exact Replacement.site hb hcall hr.compatible hr.body hcaller hcallee hfresh

theorem fresh (hr : r.Allowed p checker m i) (hcaller : r.caller.Shape) (hcallee : r.callee.Shape)
    (hcounted : r.caller.Counted) (hfits : r.caller.Fits r.callee) : r.Fresh := by
  obtain ⟨b, hb, hcall⟩ := hr.call_at
  exact Replacement.fresh_of_counted hb hcall hr.compatible hcaller hcallee hcounted hfits

end Replacement.Allowed

/-- The replacements in one function as replacements in the module. The verdicts are those on the
module at the start, in which the other functions are the same. -/
theorem Spliced.inlined {m₀ : Module} {g : CallGraph} {self : Nat} {name : String}
    {fn fn' : Function}
    {rs : List Replacement} (h : Spliced (judge p checker m₀ g self name) fn rs fn')
    {m : Module} (hfn : m.functions[self]? = some fn) (hname : fn.name = name)
    (hm : ∀ t j g, m₀.lookup? t = some (j, g) → j ≠ self → m.lookup? t = some (j, g)) :
    Inlined p checker m rs { m with functions := m.functions.set self fn' } := by
  induction h generalizing m with
  | nil fn =>
    obtain ⟨hlt, hget⟩ := List.getElem?_eq_some_iff.1 hfn
    rw [← hget, List.set_getElem_self]
    exact .nil m
  | @cons r rs fn b hblock hcall hjudge _ ih =>
    obtain ⟨⟨j, hj, hlookup⟩, hcompatible, hbody, hsafe, -⟩ := judge_splice hjudge
    have hresult : r.result.name = r.caller.name := r.caller.splice_name _ _ _ _
    have hlt : self < m.functions.length := (List.getElem?_eq_some_iff.1 hfn).1
    refine .cons self ⟨hfn, ⟨b, hblock, hcall⟩, ⟨j, hj, hm _ _ _ hlookup hj⟩, hcompatible, hbody,
      hname.symm ▸ hsafe⟩ ?_
    have hrest := ih (m := { m with functions := m.functions.set self r.result })
      (List.getElem?_set_self hlt) (hresult.trans hname)
      fun t j g hg hne => Module.lookup?_set hfn hresult (hm t j g hg hne) hne
    rwa [List.set_set] at hrest

end Inline

/-! ## A run -/

namespace Run

variable {σ : Type} {r : Run σ}

theorem callGraph?_listing {g : CallGraph} {r' : Run σ} (h : r.callGraph? = some (g, r')) :
    r'.listing = r.listing := by
  unfold callGraph? at h
  split at h
  · obtain ⟨-, rfl⟩ := Prod.mk.inj (Option.some.inj h)
    rfl
  · obtain ⟨m, -, heq⟩ := Option.map_eq_some_iff.1 h
    obtain ⟨-, rfl⟩ := Prod.mk.inj heq
    rfl

theorem callGraph?_ofModule {m : Module} (hr : r.listing = .ofModule m) :
    ∃ g r', r.callGraph? = some (g, r') ∧ r'.listing = .ofModule m := by
  obtain ⟨⟨g, r'⟩, h⟩ : ∃ e, r.callGraph? = some e := by
    unfold callGraph?
    split
    · exact ⟨_, rfl⟩
    · rw [hr, Listing.module?_ofModule]
      exact ⟨_, rfl⟩
  exact ⟨g, r', h, (callGraph?_listing h).trans hr⟩

theorem flowGraph_listing (fn : Function) : (r.flowGraph fn).2.listing = r.listing := by
  unfold flowGraph
  split <;> rfl

theorem domTree_listing (fn : Function) : (r.domTree fn).2.listing = r.listing := by
  unfold domTree
  split
  · rfl
  · exact flowGraph_listing fn

end Run

namespace Transform

variable {σ : Type} (p : Inline.Policy) (env : PassEnv)

open Inline

/-- The calls that are replaced in the function at position `i` when its turn comes. -/
def replacementsIn (i : Nat) (fn : Function) (r : Run σ) : List Replacement :=
  match r.callGraph? with
  | none => []
  | some (g, r) =>
    Inline.replacements (judge p env.checker r.listing.front g i fn.name) (callCount fn + 1)
      (liveBlocks (r.domTree fn).1 fn) 0 fn

/-- The calls that a run replaces in the functions at some positions, in order. -/
def replacementsAt : List Nat → Run σ → List Replacement
  | [], _ => []
  | i :: rest, r =>
    match r.listing.function? i with
    | none => []
    | some fn =>
      if fn.isExternal then replacementsAt rest r
      else replacementsIn p env i fn r ++ replacementsAt rest ((inline p).onFunction env i r).2

/-- The calls that a run replaces, in order. -/
def replacements (r : Run σ) : List Replacement :=
  replacementsAt p env (List.range r.listing.places.length) r

variable {p env}

theorem warnings_listing (f : Warning → String) (ws : List Warning) (name : String) (r : Run σ) :
    (ws.foldl (fun r w => r.warn env "W0003" name (f w)) r).listing = r.listing := by
  induction ws generalizing r with
  | nil => rfl
  | cons w ws ih => exact ih _

variable (p env) in
/-- What inlining does to the function at a position. -/
theorem inline_onFunction_spliced {r : Run σ} {m : Module} {k : Nat} {fn : Function}
    (hr : r.listing = .ofModule m) (hfn : m.functions[k]? = some fn) :
    ∃ g fn', ((inline p).onFunction env k r).2.listing =
        .ofModule { m with functions := m.functions.set k fn' } ∧
      Spliced (judge p env.checker m g k fn.name) fn (replacementsIn p env k fn r) fn' := by
  have hplace : r.listing.function? k = some fn := by rw [hr, Listing.function?_ofModule, hfn]
  simp only [onFunction, hplace, inlineFunction, replacementsIn]
  obtain ⟨g, r', hcalls, hr'⟩ := Run.callGraph?_ofModule hr
  have htree : (r'.domTree fn).2.listing = .ofModule m := (Run.domTree_listing fn).trans hr'
  refine ⟨g, (Inline.run p env.checker m g (r'.domTree fn).1 k fn).function, ?_, ?_⟩
  · simp only [hcalls]
    rw [warnings_listing]
    simp [Run.setFunction, htree]
  · simp only [hcalls]
    rw [hr', Listing.front_ofModule]
    exact replaceCalls_spliced _ _ _ _ fn

/-- The same as replacements in the module. -/
theorem inline_onFunction {r : Run σ} {m : Module} {k : Nat} {fn : Function}
    (hr : r.listing = .ofModule m) (hfn : m.functions[k]? = some fn) :
    ∃ m', ((inline p).onFunction env k r).2.listing = .ofModule m' ∧
      m'.functions.length = m.functions.length ∧
      Inlined p env.checker m (replacementsIn p env k fn r) m' := by
  obtain ⟨g, fn', hlisting, hspliced⟩ := inline_onFunction_spliced p env hr hfn
  exact ⟨_, hlisting, by simp, hspliced.inlined hfn rfl fun t j g hg _ => hg⟩

/-- **A run that does not fail** leaves what its replacements make of the module. -/
theorem inline_inlined {r : Run σ} {m : Module} (hr : r.listing = .ofModule m)
    (hnone : ((inline p).pass.onModule env r).1.failure = none) :
    ∃ m', ((inline p).pass.onModule env r).2.listing = .ofModule m' ∧
      Inlined p env.checker m (replacements p env r) m' := by
  have hlen : r.listing.places.length = m.functions.length := by simp [hr, Listing.ofModule]
  -- what has been replaced and what is still to come are all replacements
  let motive : Nat → Run σ → Module → Prop := fun k r' m' =>
    m'.functions.length = m.functions.length ∧ ∃ done, Inlined p env.checker m done m' ∧
      replacements p env r = done ++
        replacementsAt p env (List.range' k (m.functions.length - k)) r'
  have hnext : ∀ k r' m' fn, motive k r' m' → r'.listing = .ofModule m' →
      m'.functions[k]? = some fn → ∃ done, Inlined p env.checker m done m' ∧
        replacements p env r = done ++ if fn.isExternal then
            replacementsAt p env (List.range' (k + 1) (m.functions.length - (k + 1))) r'
          else replacementsIn p env k fn r' ++ replacementsAt p env
            (List.range' (k + 1) (m.functions.length - (k + 1)))
            ((inline p).onFunction env k r').2 := by
    rintro k r' m' fn ⟨hlen', done, hdone, hall⟩ hr' hfn
    have hk : k < m.functions.length := hlen' ▸ (List.getElem?_eq_some_iff.1 hfn).1
    have hrange : m.functions.length - k = m.functions.length - (k + 1) + 1 := by omega
    rw [hrange, List.range'_succ, replacementsAt, hr', Listing.function?_ofModule, hfn] at hall
    exact ⟨done, hdone, hall⟩
  have hinit : motive 0 r m := by
    refine ⟨rfl, [], .nil m, ?_⟩
    rw [replacements, hlen, List.range_eq_range']
    rfl
  obtain ⟨m', hlisting, -, -, done, hdone, hall⟩ := Run.allFunctions_of_none (motive := motive) hr
    (fun k r' m' fn hr' hfn hext h => by
      obtain ⟨done, hdone, hall⟩ := hnext k r' m' fn h hr' hfn
      exact ⟨h.1, done, hdone, by rwa [if_pos hext] at hall⟩)
    (fun k r' m' fn hr' hfn hext h _ => by
      obtain ⟨done, hdone, hall⟩ := hnext k r' m' fn h hr' hfn
      obtain ⟨m'', hlisting, hlen'', hinlined⟩ := inline_onFunction hr' hfn
      refine ⟨m'', hlisting, hlen'', hlen''.trans h.1, _, hdone.append hinlined, ?_⟩
      rw [hall, if_neg (by simp [hext]), List.append_assoc])
    hinit hnone
  refine ⟨m', hlisting, ?_⟩
  rw [hall]
  simpa [replacementsAt] using hdone

end Transform

end SsaOpt
