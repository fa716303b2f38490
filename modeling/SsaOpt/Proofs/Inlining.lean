import SsaOpt.Proofs.InlineRuns
import SsaOpt.Proofs.Simulation

/-!
# Inlining keeps the meaning of a module

Every replacement of a run whose copy gets numbers that are not in use is a call site whose
functions are in good shape (`site`), and replacing it keeps the module in good shape
(`ready_replace`). So runs of the module before and after the pass go in step, and what a call
returns is the same (`Transform.inline_keeps_outcome`). Counters that are above the numbers in use
and have been set together give such numbers as long as they last (`Inlined.fresh`).
-/

namespace SsaOpt

/-! ## Functions of a module -/

/-- All functions with a body are in good shape and read only values that they define. -/
def Module.Ready (m : Module) : Prop :=
  ∀ fn ∈ m.functions, fn.isExternal = false → fn.Shape ∧ fn.Closed

theorem find?_set {α : Type} {p : α → Bool} {x y : α} (hp : p y = p x) {l : List α} {i : Nat}
    (hi : l[i]? = some x) :
    (l.set i y).find? p = l.find? p ∨ (l.find? p = some x ∧ (l.set i y).find? p = some y) := by
  induction l generalizing i with
  | nil => simp at hi
  | cons a l ih =>
    cases i with
    | zero =>
      obtain rfl : a = x := by simpa using hi
      cases ha : p a <;> simp [hp, ha]
    | succ i =>
      cases ha : p a
      · simpa [ha] using ih (by simpa using hi)
      · simp [ha]

namespace Module

variable {m : Module}

theorem mem_of_body? {t : String} {g : Function} (h : m.body? t = some g) :
    g ∈ m.functions ∧ g.isExternal = false := by
  obtain ⟨hfind, hbody⟩ := Option.filter_eq_some_iff.1 h
  exact ⟨List.mem_of_find?_eq_some hfind, by simpa using hbody⟩

end Module

/-! ## Replacements -/

namespace Inline

variable {p : Policy} {checker : Option Checker} {m : Module} {i : Nat} {r : Replacement}

theorem Replacement.Allowed.body?_target (hr : r.Allowed p checker m i) :
    m.body? r.call.target = some r.callee := by
  obtain ⟨j, -, hj⟩ := hr.callee_eq
  rw [Module.body?, (Module.function?_of_lookup? hj).1]
  simp [hr.body]

section Step

variable (hr : r.Allowed p checker m i) (hm : m.Ready)
include hr hm

theorem shapes : r.caller.Shape ∧ r.callee.Shape :=
  ⟨(hm _ hr.caller_mem.1 hr.caller_mem.2).1, (hm _ hr.callee_mem hr.body).1⟩

theorem site (hfresh : r.Fresh) :
    ∃ s : CallSite r.caller r.callee, s.call = r.call ∧ s.result = r.result :=
  hr.site (shapes hr hm).1 (shapes hr hm).2 hfresh

/-- **A replacement keeps the module in good shape.** -/
theorem ready_replace (hfresh : r.Fresh) :
    Module.Ready { m with functions := m.functions.set i r.result } := by
  obtain ⟨s, -, hresult⟩ := site hr hm hfresh
  intro fn hfn hbody
  rcases List.mem_or_eq_of_mem_set hfn with hfn | rfl
  · exact hm fn hfn hbody
  · obtain ⟨hmem, hcaller⟩ := hr.caller_mem
    rw [← hresult]
    exact ⟨s.shape, s.closed (hm _ hmem hcaller).2 (hm _ hr.callee_mem hr.body).2⟩

/-- A replacement keeps the counters above the numbers in use. -/
theorem counted_replace (hcounted : ∀ fn ∈ m.functions, fn.Counted)
    (hfits : r.caller.Fits r.callee) :
    r.Fresh ∧ ∀ fn ∈ m.functions.set i r.result, fn.Counted := by
  have hcaller := hcounted _ hr.caller_mem.1
  have hfresh := hr.fresh (shapes hr hm).1 (shapes hr hm).2 hcaller hfits
  refine ⟨hfresh, fun fn hfn => ?_⟩
  obtain ⟨s, -, hresult⟩ := site hr hm hfresh
  rcases List.mem_or_eq_of_mem_set hfn with hfn | rfl
  · exact hcounted fn hfn
  · exact hresult ▸ s.counted_result hcaller hfits

end Step

/-- **Counters that have been set together** give numbers that are not in use, to all replacements
of a run. -/
theorem Inlined.fresh {m' : Module} {rs : List Replacement} (h : Inlined p checker m rs m')
    (hm : m.Ready) (hcounted : ∀ fn ∈ m.functions, fn.Counted)
    (hfits : ∀ r ∈ rs, r.caller.Fits r.callee) : ∀ r ∈ rs, r.Fresh := by
  induction h with
  | nil => exact fun r hr => absurd hr List.not_mem_nil
  | @cons m m' r rs i hr _ ih =>
    obtain ⟨hfresh, hcounted⟩ := counted_replace hr hm hcounted (hfits r List.mem_cons_self)
    exact List.forall_mem_cons.2 ⟨hfresh, ih (ready_replace hr hm hfresh) hcounted fun r hr =>
      hfits r (List.mem_cons_of_mem _ hr)⟩

/-- The functions that are called before and after a replacement. -/
theorem replaces (hr : r.Allowed p checker m i) (hm : m.Ready)
    {s : CallSite r.caller r.callee} (hcall : s.call = r.call) (hresult : s.result = r.result) :
    s.Replaces m.body? (Module.body? { m with functions := m.functions.set i r.result }) := by
  obtain ⟨hmem, hcaller⟩ := hr.caller_mem
  have hbody : s.result.isExternal = false := by
    have hne : s.result.blocks ≠ [] := List.ne_nil_of_mem (s.mem_result.2 .head)
    simpa [Function.isExternal] using hne
  have hname : ∀ t, decide (r.result.name = t) = decide (r.caller.name = t) := by
    intro t
    rw [show r.result.name = r.caller.name from r.caller.splice_name _ _ _ _]
  have hset := fun t => find?_set (p := fun fn => decide (fn.name = t)) (hname t) hr.caller_eq
  refine ⟨fun t ht => ?_, fun t g hg => ?_, fun t g hg => ?_, ?_, (hm _ hmem hcaller).2⟩
  · unfold Module.body? Module.function? at ht ⊢
    rcases hset t with heq | ⟨heq, -⟩
    · exact heq ▸ ht
    · simp [heq, hcaller] at ht
  · unfold Module.body? Module.function? at hg ⊢
    rcases hset t with heq | ⟨heq, heq'⟩
    · exact ⟨g, heq ▸ hg, Or.inl rfl⟩
    · obtain ⟨rfl, -⟩ : r.caller = g ∧ g.isExternal = false := by simpa [heq] using hg
      refine ⟨s.result, ?_, Or.inr ⟨rfl, rfl⟩⟩
      rw [heq', ← hresult]
      simp [hbody]
  · obtain ⟨hg, hgbody⟩ := Module.mem_of_body? hg
    exact (hm g hg hgbody).1
  · rw [hcall]
    exact hr.body?_target

/-- **A replacement keeps the outcome** of every call. -/
theorem outcome_replace {V W : Type} (hr : r.Allowed p checker m i) (hm : m.Ready)
    (hfresh : r.Fresh) (I : Interp V W) (f : String) (args : List V) (w : W) (n : Nat)
    (hstuck : m.outcome I f args w n ≠ .stuck) :
    Module.outcome { m with functions := m.functions.set i r.result } I f args w n =
      m.outcome I f args w n := by
  obtain ⟨s, hcall, hresult⟩ := site hr hm hfresh
  have hfind := replaces hr hm hcall hresult
  unfold Module.outcome at hstuck ⊢
  cases hstart : (m.body? f).bind fun fn => Frame.start fn (args.map some) with
  | none => simp [hstart] at hstuck
  | some top =>
    rw [hstart] at hstuck
    obtain ⟨g, hg, htop⟩ := Option.bind_eq_some_iff.1 hstart
    obtain ⟨g', hg', hstands⟩ := hfind.find_some f g hg
    have hargs : List.Forall₂ Env.Below (args.map some) (args.map some) :=
      List.forall₂_same.2 fun x _ a ha => ha
    obtain ⟨top', htop', hmirrors⟩ := CallSite.start_stands hstands (hfind.shape f g hg) hargs htop
    rw [hg', Option.bind_some, htop']
    have hfollows := CallSite.steps_follow (I := I) hfind n (.plain hmirrors .nil (w := w))
    dsimp only at hstuck ⊢
    cases hsteps : I.steps m.body? n { top, world := w } with
    | running t =>
      rw [hsteps] at hfollows
      obtain ⟨t', ht', -⟩ := hfollows
      rw [ht']
      rfl
    | returned x w' =>
      rw [hsteps] at hfollows
      rw [hfollows]
    | stuck => simp [hsteps, Progress.observe] at hstuck

/-- The same for replacements one after the other. -/
theorem Inlined.outcome {V W : Type} {m' : Module} {rs : List Replacement}
    (h : Inlined p checker m rs m') (hm : m.Ready) (hfresh : ∀ r ∈ rs, r.Fresh)
    (I : Interp V W) (f : String) (args : List V) (w : W) (n : Nat)
    (hstuck : m.outcome I f args w n ≠ .stuck) :
    m'.outcome I f args w n = m.outcome I f args w n := by
  induction h with
  | nil m => rfl
  | @cons m m' r rs i hr _ ih =>
    have hfresh' := hfresh r (by simp)
    have hstep := outcome_replace hr hm hfresh' I f args w n hstuck
    rw [ih (ready_replace hr hm hfresh') (fun r hr => hfresh r (by simp [hr])) (hstep ▸ hstuck),
      hstep]

end Inline

/-! ## The pass -/

theorem Module.ready_of_verified {m : Module} (hm : moduleErr? (some m) = none) : m.Ready := by
  intro fn hfn hbody
  obtain ⟨hshape, -, hclosed⟩ := wellFormed_of_verified hm hfn hbody
  exact ⟨hshape, hclosed⟩

/-- **Inlining keeps the meaning, if copies get numbers that are not in use.** They get such numbers
if the counters of all functions are above their numbers and have been set together
(`Function.Counted`), as long as numbers last; a module that has just been read has no counters set,
but the counters of one that has been through passes may be below numbers in use. Whatever
instructions mean, a call of a function of a verified module that does not get stuck is then at
every moment, and in the end, where the call of the same function of the module is that a run of the
inliner leaves: it is still running, or it has returned the same value and left the same world. -/
theorem Transform.inline_keeps_outcome {σ V W : Type} (I : Interp V W) {p : Inline.Policy}
    {env : PassEnv} {r : Run σ} {m : Module} (hr : r.listing = .ofModule m)
    (hm : moduleErr? (some m) = none)
    (hnone : ((inline p).pass.onModule env r).1.failure = none) :
    ∃ m', ((inline p).pass.onModule env r).2.listing = .ofModule m' ∧
      ((∀ fn ∈ m.functions, fn.Counted) →
        (∀ e ∈ replacements p env r, e.caller.Fits e.callee) →
          ∀ e ∈ replacements p env r, e.Fresh) ∧
      ((∀ e ∈ replacements p env r, e.Fresh) →
        ∀ f args w n, m.outcome I f args w n ≠ .stuck →
          m'.outcome I f args w n = m.outcome I f args w n) := by
  have hready := Module.ready_of_verified hm
  obtain ⟨m', hlisting, hinlined⟩ := inline_inlined hr hnone
  exact ⟨m', hlisting, hinlined.fresh hready, fun hfresh f args w n hstuck =>
    hinlined.outcome hready hfresh I f args w n hstuck⟩

namespace Inline

/-- A function with two returns, and a loop through a call of it: the phis of the loop are entered
from the block of the call. -/
def loopOverCall : Module where
  name := "m"
  functions :=
    [{ name := "pick"
       params := [⟨1, "a", some .bool⟩, ⟨2, "b", some .bool⟩]
       ret := some .bool
       blocks :=
         [{ id := 1, term := some (.brIf 1 2 3) },
          { id := 2, instrs := [.binary ⟨3, .xor, 1, 2, some .bool⟩], term := some (.ret 3 true) },
          { id := 3, term := some (.ret 2 true) }] },
     { name := "main"
       params := [⟨1, "a", some .bool⟩]
       ret := some .bool
       blocks :=
         [{ id := 1, term := some (.br 2) },
          { id := 2
            instrs := [.phi ⟨2, some .bool, [⟨1, 1⟩, ⟨2, 3⟩]⟩,
              .call ⟨3, "pick", [2, 1], some .bool, .pure, false⟩,
              .call ⟨4, "pick", [3, 2], some .bool, .pure, false⟩]
            term := some (.brIf 3 3 2) },
          { id := 3, term := some (.ret 4 true) }] }]

/-- A function that calls another one twice, with only one of its counters set. -/
def halfCountedCalls : Module where
  name := "m"
  functions := [Function.returnsBit, Function.halfCounted]

/-- Bits; the world counts what is executed. -/
def bits : Interp Bool Nat where
  exec
    | .const _, _, w => some (some true, w + 1)
    | .binary _, [x, y], w => some (some (x != y), w + 1)
    | _, _, w => some (none, w + 1)
  truth x := x

end Inline

open Inline in
/-- A loop over calls that returns what it did, and a module in which the second copy gets the
number of a value that is read behind it. -/
theorem Transform.inline_loopOverCall :
    let p : Policy := ⟨32, true⟩
    let env : PassEnv := ⟨some .standard, "inline"⟩
    let r : Run Unit := { listing := .ofModule loopOverCall, world := () }
    let r' : Run Unit := { listing := .ofModule halfCountedCalls, world := () }
    moduleErr? (some loopOverCall) = none ∧ (∀ fn ∈ loopOverCall.functions, fn.Counted) ∧
      (∃ m', ((inline p).pass.onModule env r).2.listing = .ofModule m' ∧
        loopOverCall.outcome bits "main" [true] 0 40 = .returned (some true) 2 ∧
        m'.outcome bits "main" [true] 0 40 = .returned (some true) 2 ∧
        m'.functions.map Function.size = [1, 5]) ∧
      moduleErr? (some halfCountedCalls) = none ∧
      (∀ fn ∈ halfCountedCalls.functions, fn.CountersAbove) ∧
      (∃ m', ((inline p).pass.onModule env r').2.listing = .ofModule m' ∧
        halfCountedCalls.outcome bits "f" [true] 0 40 = .returned (some true) 4 ∧
        m'.outcome bits "f" [true] 0 40 = .returned (some false) 4) ∧
      ¬ ∀ e ∈ replacements p env r', e.Fresh := by
  intro p env r r'
  have hm : moduleErr? (some loopOverCall) = none := by decide
  have hm' : moduleErr? (some halfCountedCalls) = none := by decide
  have hcounted : ∀ fn ∈ loopOverCall.functions, fn.Counted := by
    intro fn hfn
    have hzero : ∀ fn ∈ loopOverCall.functions, fn.nextValue = 0 ∧ fn.nextBlock = 0 := by decide
    exact .of_zero (hzero fn hfn).1 (hzero fn hfn).2
  have hfits : ∀ e ∈ replacements p env r, e.caller.Fits e.callee := by decide +kernel
  have hnone : ((inline p).pass.onModule env r).1.failure = none := by decide +kernel
  have hnone' : ((inline p).pass.onModule env r').1.failure = none := by decide +kernel
  obtain ⟨m₁, hlisting, hfresh, houtcome⟩ := inline_keeps_outcome bits rfl hm hnone
  obtain ⟨m₂, hlisting', -, houtcome'⟩ := inline_keeps_outcome bits rfl hm' hnone'
  have hreturned : loopOverCall.outcome bits "main" [true] 0 40 = .returned (some true) 2 := by
    decide +kernel
  have hbefore : halfCountedCalls.outcome bits "f" [true] 0 40 = .returned (some true) 4 := by
    decide +kernel
  have hafter : m₂.outcome bits "f" [true] 0 40 = .returned (some false) 4 := by
    rw [← Listing.front_ofModule m₂, ← hlisting']
    decide +kernel
  refine ⟨hm, hcounted, ⟨m₁, hlisting, hreturned, ?_, ?_⟩, hm', ?_,
    ⟨m₂, hlisting', hbefore, hafter⟩, fun hfresh' => ?_⟩
  · rw [houtcome (hfresh hcounted hfits) "main" [true] 0 40 (by rw [hreturned]; simp), hreturned]
  · rw [← Listing.front_ofModule m₁, ← hlisting]
    decide +kernel
  · intro fn hfn
    rcases List.mem_cons.1 hfn with rfl | hfn
    · exact (Function.Counted.of_zero rfl rfl).toCountersAbove
    · obtain rfl := List.mem_singleton.1 hfn
      exact Function.countersAbove_halfCounted
  · have hsame := houtcome' hfresh' "f" [true] 0 40 (by rw [hbefore]; simp)
    rw [hafter, hbefore] at hsame
    cases hsame

end SsaOpt
