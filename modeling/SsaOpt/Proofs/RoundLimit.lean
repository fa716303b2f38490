import SsaOpt.Proofs.DeadCodeFailures
import Mathlib.Logic.Function.Iterate

/-!
# The limit on the rounds of dead code elimination

If no round is refused, there is a number of rounds that change the function, one after the other,
and from then on it stays as it is (`DeadCode.SettlesIn`). A limit cuts this sequence short. The
loop looks at the limit before it makes a round, so it learns that the function has settled only if
there is a round left to make: it warns as soon as the limit is not above the number of rounds that
change the function, also where it equals that number and nothing is left to do.
-/

namespace SsaOpt

namespace DeadCode

variable {rules : Rules} {fn fn' : Function} {n k : Nat}

/-! ## Rounds in sequence -/

/-- What a number of rounds leave of a function. -/
def afterRounds (rules : Rules) (n : Nat) (fn : Function) : Function :=
  Nat.iterate (fun fn => (round rules fn).function) n fn

theorem afterRounds_succ : afterRounds rules (n + 1) fn =
    afterRounds rules n (round rules fn).function := rfl

theorem afterRounds_of_eq_self (h : (round rules fn).function = fn) (n : Nat) :
    afterRounds rules n fn = fn :=
  Function.iterate_fixed h n

/-- A round that is not refused changes the function exactly if it counts something. -/
theorem round_function_ne_iff (h : (round rules fn).failure = none) :
    (round rules fn).function ≠ fn ↔
      ¬ ((round rules fn).instrs = 0 ∧ (round rules fn).blocks = 0) := by
  constructor
  · intro hne hzero
    exact hne (round_eq_self h hzero.1 hzero.2).2.2
  · intro hne heq
    have hlt := round_lt h hne
    rw [heq] at hlt
    exact Nat.lt_irrefl _ hlt

/-- No round is refused, and exactly the first `k` of them change the function. -/
structure SettlesIn (rules : Rules) (k : Nat) (fn : Function) : Prop where
  unrefused : ∀ j, (round rules (afterRounds rules j fn)).failure = none
  changes_iff : ∀ j, afterRounds rules (j + 1) fn ≠ afterRounds rules j fn ↔ j < k

namespace SettlesIn

theorem zero (h : (round rules fn).failure = none) (hself : (round rules fn).function = fn) :
    SettlesIn rules 0 fn := by
  refine ⟨fun j => ?_, fun j => ?_⟩
  · rw [afterRounds_of_eq_self hself, h]
  · rw [afterRounds_of_eq_self hself, afterRounds_of_eq_self hself]
    simp

theorem succ (h : (round rules fn).failure = none) (hne : (round rules fn).function ≠ fn)
    (hrest : SettlesIn rules k (round rules fn).function) : SettlesIn rules (k + 1) fn := by
  refine ⟨fun j => ?_, fun j => ?_⟩
  · cases j with
    | zero => exact h
    | succ j => exact hrest.unrefused j
  · cases j with
    | zero => exact iff_of_true hne (Nat.succ_pos k)
    | succ j => exact (hrest.changes_iff j).trans Nat.succ_lt_succ_iff.symm

theorem tail (h : SettlesIn rules (k + 1) fn) : SettlesIn rules k (round rules fn).function :=
  ⟨fun j => h.unrefused (j + 1), fun j => (h.changes_iff (j + 1)).trans Nat.succ_lt_succ_iff⟩

theorem eq_self_iff (h : SettlesIn rules k fn) : (round rules fn).function = fn ↔ k = 0 := by
  have hfirst : (round rules fn).function ≠ fn ↔ 0 < k := h.changes_iff 0
  rw [← not_iff_not]
  exact hfirst.trans Nat.pos_iff_ne_zero

/-- Whether a function would change in one more round after `n` of them, or fewer. -/
theorem changes_after_iff (h : SettlesIn rules k fn) (n : Nat) :
    afterRounds rules (min n k + 1) fn ≠ afterRounds rules (min n k) fn ↔ n < k := by
  rw [h.changes_iff]
  omega

end SettlesIn

/-! ## The loop -/

/-- **The loop without a limit** makes all the rounds that change the function. -/
theorem Unrolls.settlesIn (h : Unrolls rules fn fn' none) :
    ∃ k, SettlesIn rules k fn ∧ fn' = afterRounds rules k fn := by
  generalize hf : (none : Option Failure) = f at h
  induction h with
  | refused => cases hf
  | @done fn hnone hinstrs hblocks =>
    have hself := (round_eq_self hnone hinstrs hblocks).2.2
    exact ⟨0, .zero hnone hself, hself⟩
  | @again fn fn' f hnone hne _ ih =>
    obtain ⟨k, hk, rfl⟩ := ih hf
    exact ⟨k + 1, .succ hnone ((round_function_ne_iff hnone).2 hne) hk, rfl⟩

/-- **The loop with a limit** makes the same rounds up to the limit, and reports the limit unless
there is a round left in which nothing changes. -/
theorem rounds_of_settlesIn (fuel : Nat) : ∀ (left : Option Nat) (k : Nat) (fn : Function),
    SettlesIn rules k fn → fn.size + fn.blocks.length < fuel →
      (rounds rules fuel left fn).failure = none ∧
        (rounds rules fuel left fn).function = afterRounds rules (min (left.getD k) k) fn ∧
        (rounds rules fuel left fn).limited = left.any (· ≤ k) := by
  induction fuel with
  | zero => exact fun _ _ _ _ h => absurd h (Nat.not_lt_zero _)
  | succ fuel ih =>
    intro left k fn hk hfuel
    have hnone : (round rules fn).failure = none := hk.unrefused 0
    rw [rounds]
    split
    · next hleft =>
      subst hleft
      simp [afterRounds]
    · next hleft =>
      dsimp only
      rw [hnone]
      dsimp only
      split
      · next hzero =>
        have hself := (round_eq_self hnone hzero.1 hzero.2).2.2
        obtain rfl := hk.eq_self_iff.1 hself
        refine ⟨rfl, by rw [Nat.min_zero]; exact hself, ?_⟩
        rcases left with _ | n
        · rfl
        · have hn : n ≠ 0 := fun h0 => hleft (h0 ▸ rfl)
          simp [hn]
      · next hne =>
        have hlt := round_lt hnone hne
        have hk0 := mt hk.eq_self_iff.2 ((round_function_ne_iff hnone).2 hne)
        obtain ⟨k, rfl⟩ := Nat.exists_eq_succ_of_ne_zero hk0
        obtain ⟨hfailure, hfunction, hlimited⟩ :=
          ih (left.map fun n => n - 1) k _ hk.tail (by omega)
        refine ⟨hfailure, hfunction.trans ?_, hlimited.trans ?_⟩
        · rcases left with _ | n
          · simp [afterRounds]
          · have hn : n ≠ 0 := fun h0 => hleft (h0 ▸ rfl)
            have hmin : min n (k + 1) = min (n - 1) k + 1 := by omega
            simp [hmin, afterRounds_succ]
        · rcases left with _ | n
          · rfl
          · have hn : n - 1 ≤ k ↔ n ≤ k + 1 := by omega
            simp [hn]

/-- The warning that the limit was reached in a function. -/
def limitWarning (env : PassEnv) (function : String) (maxIterations : Int) : Diagnostic :=
  Diagnostic.withPrimary ⟨function, ""⟩ ""
    { Diagnostic.warning s!"no fixed point after {maxIterations} iteration(s)" with
      code := "W0002", pass := env.pass }

end DeadCode

namespace Transform

open DeadCode

variable {σ : Type} {env : PassEnv} {r : Run σ} {m m₀ : Module} {fn : Function} {k : Nat}

/-- All that a step of dead code elimination does. -/
theorem deadCode_onFunction_eq {n : Int} {done : Result} (hr : r.listing = .ofModule m)
    (hfn : m.functions[k]? = some fn) (hdone : DeadCode.run env.checker m n fn = done) :
    (deadCode n).onFunction env k r =
      ({ modified := done.modified, failure := done.failure },
        { r with
          listing := .ofModule { m with functions := m.functions.set k done.function }
          tally := { r.tally with
            removedInstrs := r.tally.removedInstrs + done.instrs
            removedBlocks := r.tally.removedBlocks + done.blocks }
          bag := r.bag ++ if done.limited then [limitWarning env fn.name n] else [] }) := by
  have hjudge : (fn.blocks.all fun b => b.instrs.all r.listing.canJudge) = true := by simp [hr]
  have hplace : r.listing.function? k = some fn := by rw [hr, Listing.function?_ofModule, hfn]
  have hfront : r.listing.front = m := by rw [hr, Listing.front_ofModule]
  simp only [onFunction, hplace, cleanFunction, hjudge, hfront, hdone, Bool.not_true,
    Bool.false_eq_true, if_false]
  rw [← Listing.setFunction_ofModule, ← hr]
  split
  · rfl
  · rw [List.append_nil]
    rfl

/-- **The limit on the rounds.** Let dead code elimination with a limit of `n` rounds not fail on a
verified function. Without a limit it makes some number `last` of rounds that change the function.
With the limit it makes the first `n` of them, or all if there are fewer. The warning that there is
no fixed point is raised if and only if `n ≤ last`, while one more round would change the function
if and only if `n < last`: the warning is wrong exactly if the fixed point is reached in the last
round that the limit allows. The module may have changed since the function was verified. -/
theorem deadCode_stops_at_limit {n : Nat} (hn : 0 < n) (henv : env.checker = some .standard)
    (hr : r.listing = .ofModule m) (hfn : m.functions[k]? = some fn)
    (hm : moduleErr? (some m₀) = none) (hverified : fn ∈ m₀.functions)
    (hnone : ((deadCode n).onFunction env k r).1.failure = none) :
    let rules := rulesFor env.checker m fn.name
    ∃ last, SettlesIn rules last fn ∧
      ((deadCode 0).onFunction env k r).1.failure = none ∧
      ((deadCode 0).onFunction env k r).2.listing =
        .ofModule { m with functions := m.functions.set k (afterRounds rules last fn) } ∧
      ((deadCode 0).onFunction env k r).2.bag = r.bag ∧
      ((deadCode n).onFunction env k r).2.listing =
        .ofModule { m with functions := m.functions.set k (afterRounds rules (min n last) fn) } ∧
      ((deadCode n).onFunction env k r).2.bag =
        r.bag ++ (if n ≤ last then [limitWarning env fn.name n] else []) ∧
      (afterRounds rules (min n last + 1) fn ≠ afterRounds rules (min n last) fn ↔ n < last) := by
  intro rules
  -- whether the function is refused does not depend on the limit
  have hunlimited : (DeadCode.run env.checker m 0 fn).failure = none := by
    have hids := Module.blockIds_nodup hm hverified
    rw [deadCode_onFunction_eq hr hfn rfl, henv] at hnone
    rw [henv]
    exact not_not.1 fun hne => (run_failure_ne_none_iff hids n).2
      ((run_failure_ne_none_iff hids 0).1 hne) hnone
  obtain ⟨last, hlast, -⟩ := Unrolls.settlesIn (hunlimited ▸ run_unrolls env.checker m fn)
  have hfuel : fn.size + fn.blocks.length < enoughRounds fn := Nat.lt_succ_self _
  obtain ⟨-, hfunction, hlimited⟩ := rounds_of_settlesIn _ (some n) last fn hlast hfuel
  obtain ⟨hfailure₀, hfunction₀, hlimited₀⟩ := rounds_of_settlesIn _ none last fn hlast hfuel
  have hlimit : roundLimit n = some n := by simp [roundLimit, hn]
  have hrun : DeadCode.run env.checker m n fn = rounds rules (enoughRounds fn) (some n) fn := by
    rw [DeadCode.run, hlimit]
  have hrun₀ : DeadCode.run env.checker m 0 fn = rounds rules (enoughRounds fn) none fn := rfl
  rw [deadCode_onFunction_eq hr hfn hrun, deadCode_onFunction_eq hr hfn hrun₀]
  refine ⟨last, hlast, hfailure₀, ?_, ?_, ?_, ?_, hlast.changes_after_iff n⟩
  · dsimp only
    rw [hfunction₀, Option.getD_none, Nat.min_self]
  · dsimp only
    rw [hlimited₀]
    exact List.append_nil _
  · dsimp only
    rw [hfunction, Option.getD_some]
  · dsimp only
    rw [hlimited]
    simp

/-- Three rounds change the function: a limit of two is reported rightly, a limit of three although
nothing is left to do, and a limit of four not at all. -/
theorem tangle_stops_at_limit :
    let env : PassEnv := ⟨some .standard, "dce"⟩
    let m : Module := ⟨"m", [tangle]⟩
    let r : Run Unit := { listing := .ofModule m, world := () }
    let rules := rulesFor env.checker m "tangle"
    moduleErr? (some m) = none ∧ SettlesIn rules 3 tangle ∧
      ((deadCode 2).onFunction env 0 r).2.bag = [limitWarning env "tangle" 2] ∧
      ((deadCode 3).onFunction env 0 r).2.bag = [limitWarning env "tangle" 3] ∧
      ((deadCode 3).onFunction env 0 r).2.listing =
        .ofModule ⟨"m", [afterRounds rules 3 tangle]⟩ ∧
      afterRounds rules 4 tangle = afterRounds rules 3 tangle ∧
      ((deadCode 4).onFunction env 0 r).2.bag = [] := by
  intro env m r rules
  have hm : moduleErr? (some m) = none := by decide
  have hnone : ((deadCode (3 : Nat)).onFunction env 0 r).1.failure = none := by decide +kernel
  have hchanges : afterRounds rules 3 tangle ≠ afterRounds rules 2 tangle := by decide +kernel
  have hsettled : afterRounds rules 4 tangle = afterRounds rules 3 tangle := by decide +kernel
  obtain ⟨last, hlast, -, -, -, hlisting, hbag, -⟩ :=
    @deadCode_stops_at_limit _ env r m m tangle 0 3 (by decide) rfl rfl rfl hm
      (List.mem_singleton.2 rfl) hnone
  have hthree : last = 3 := by
    have hlt := (hlast.changes_iff 2).1 hchanges
    have hle := mt (hlast.changes_iff 3).2 (not_not.2 hsettled)
    omega
  subst hthree
  exact ⟨hm, hlast, by decide +kernel, hbag, hlisting, hsettled, by decide +kernel⟩

end Transform

end SsaOpt
