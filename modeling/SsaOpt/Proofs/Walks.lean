import Mathlib.Data.List.Flatten
import SsaOpt.Proofs.Search

/-!
# Searches that go step by step

`Finishes` is a search without a bound on its steps. It comes to an end if every step makes it
smaller (`runSteps_finishes`).

A walk is smaller after a step, since it has used up an edge or left a node (`Walk.size_lt`). Its
stack stands for visits that have been broken off, and `Resumes` says where they lead. A step does
not change that (`Walk.Stepped.resumes`), so a walk that starts at a node ends as a visit of it does
(`Walk.visits_of_finishes`).

A worklist is smaller after a step, since it has looked at a node (`Worklist.size_lt`). What it has
seen can be reached, and what it has looked at leads to what it has seen (`Worklist.Covers`), so in
the end it has seen all that can be reached (`Worklist.mem_seen_iff`). If nodes are only seen when
they are taken from the list, it ends as visits of these nodes do (`Worklist.visits_of_finishes`).
-/

namespace SsaOpt.Flow

open Relation

variable {α β S : Type}

/-! ## The end of a search -/

/-- A search goes on until there is no next step. -/
inductive Finishes (step : S → Option S) : S → S → Prop
  | done {s : S} (h : step s = none) : Finishes step s s
  | step {s s₁ s' : S} (h : step s = some s₁) (hrest : Finishes step s₁ s') : Finishes step s s'

/-- What every step keeps holds at the end, where there is no next step. -/
theorem Finishes.end {step : S → Option S} {P : S → Prop}
    (hP : ∀ s s', step s = some s' → P s → P s')
    {s s' : S} (h : Finishes step s s') (hs : P s) : P s' ∧ step s' = none := by
  induction h with
  | done h => exact ⟨hs, h⟩
  | step h _ ih => exact ih (hP _ _ h hs)

/-- **A search comes to an end** if every step keeps `P`, and makes it smaller where that holds. -/
theorem runSteps_finishes {step : S → Option S} {P : S → Prop}
    (hP : ∀ s s', step s = some s' → P s → P s') (size : S → Nat)
    (hsize : ∀ s s', P s → step s = some s' → size s' < size s) (fuel : Nat) :
    ∀ s, P s → size s ≤ fuel → Finishes step s (runSteps step fuel s) := by
  induction fuel with
  | zero =>
    intro s hs hle
    cases hstep : step s with
    | none => exact .done hstep
    | some s' =>
      have := hsize s s' hs hstep
      omega
  | succ fuel ih =>
    intro s hs hle
    rw [runSteps]
    cases hstep : step s with
    | none => exact .done hstep
    | some s' =>
      have := hsize s s' hs hstep
      exact .step hstep (ih s' (hP s s' hstep hs) (by omega))

/-! ## Bills -/

section Bills

variable [DecidableEq α]

/-- What is to be paid for the nodes that have not been met. -/
def bill (costs : List (α × List β)) (met : List α) : List β :=
  (costs.filter fun e => e.1 ∉ met).flatMap Prod.snd

theorem bill_le {costs : List (α × List β)} {met met' : List α} (h : ∀ x ∈ met, x ∈ met') :
    (bill costs met').length ≤ (bill costs met).length := by
  have hsub : (costs.filter fun e => e.1 ∉ met').Sublist (costs.filter fun e => e.1 ∉ met) := by
    refine List.monotone_filter_right costs fun e he => ?_
    simp only [decide_eq_true_eq] at he ⊢
    exact fun hmem => he (h e.1 hmem)
  exact (hsub.flatMap _).length_le

/-- A node that is met is paid for. -/
theorem bill_cons_le {costs : List (α × List β)} {met : List α} {e : α × List β} (he : e ∈ costs)
    (hnew : e.1 ∉ met) :
    (bill costs (e.1 :: met)).length + e.2.length ≤ (bill costs met).length := by
  induction costs with
  | nil => simp at he
  | cons c costs ih =>
    have hle : (bill costs (e.1 :: met)).length ≤ (bill costs met).length :=
      bill_le fun x hx => List.mem_cons_of_mem _ hx
    unfold bill at ih hle ⊢
    rcases List.mem_cons.1 he with rfl | he
    · rw [List.filter_cons_of_neg (by simp), List.filter_cons_of_pos (by simpa using hnew),
        List.flatMap_cons, List.length_append]
      omega
    · have hlt := ih he
      by_cases hc : c.1 = e.1
      · rw [List.filter_cons_of_neg (by simp [hc]),
          List.filter_cons_of_pos (by simpa [hc] using hnew), List.flatMap_cons, List.length_append]
        omega
      · by_cases hmet : c.1 ∈ met
        · simpa [hc, hmet] using hlt
        · rw [List.filter_cons_of_pos (by simp [hc, hmet]),
            List.filter_cons_of_pos (by simpa using hmet), List.flatMap_cons, List.flatMap_cons,
            List.length_append, List.length_append]
          omega

end Bills

/-! ## Walks -/

namespace Walk

variable {next : α → List α} {isNode : α → Bool} {w w' : Walk α}

/-- What a step of a walk can be. -/
inductive Stepped (next : α → List α) (isNode : α → Bool) (w : Walk α) : Walk α → Prop
  /-- It is done with the latest node. -/
  | leave {node : α} {stack : List (Frame α)} (hstack : w.stack = ⟨node, []⟩ :: stack) :
      Stepped next isNode w { w with done := node :: w.done, stack }
  /-- It passes by a successor. -/
  | pass {node s : α} {rest : List α} {stack : List (Frame α)}
      (hstack : w.stack = ⟨node, s :: rest⟩ :: stack) (hs : s ∈ w.met ∨ isNode s = false) :
      Stepped next isNode w { w with stack := ⟨node, rest⟩ :: stack }
  /-- It enters a successor. -/
  | descend {node s : α} {rest : List α} {stack : List (Frame α)}
      (hstack : w.stack = ⟨node, s :: rest⟩ :: stack) (hnew : s ∉ w.met) (hs : isNode s = true) :
      Stepped next isNode w (enter next { w with stack := ⟨node, rest⟩ :: stack } s)

theorem stepped_of_step [DecidableEq α] (h : step next isNode w = some w') :
    Stepped next isNode w w' := by
  unfold step at h
  split at h
  · cases h
  · next node stack hstack =>
    obtain rfl := Option.some.inj h
    exact .leave hstack
  · next node s rest stack hstack =>
    obtain rfl := Option.some.inj h
    dsimp only
    split
    · next hs => exact .descend hstack hs.1 hs.2
    · next hs =>
      refine .pass hstack ?_
      by_cases hmet : s ∈ w.met
      · exact Or.inl hmet
      · exact Or.inr (by simpa [hmet] using hs)

theorem stack_eq_nil_of_step [DecidableEq α] (h : step next isNode w = none) : w.stack = [] := by
  unfold step at h
  split at h
  · assumption
  · cases h
  · cases h

/-! ### Where a walk leads -/

/-- The visits that a stack stands for, in turn: those of the successors that are left, and after
them the end of the node. -/
inductive Resumes (next : α → List α) (isNode : α → Bool) :
    Trace α → List (Frame α) → Trace α → Prop
  | nil (t : Trace α) : Resumes next isNode t [] t
  | cons {t t₁ t' : Trace α} {node : α} {rest : List α} {stack : List (Frame α)}
      (h : Visits (fun x => (next x).filter isNode) t (rest.filter isNode) t₁)
      (hstack : Resumes next isNode { t₁ with done := node :: t₁.done } stack t') :
      Resumes next isNode t (⟨node, rest⟩ :: stack) t'

/-- **A step** does not change where a walk leads. -/
theorem Stepped.resumes (h : Stepped next isNode w w') {t : Trace α}
    (hresumes : Resumes next isNode w'.toTrace w'.stack t) :
    Resumes next isNode w.toTrace w.stack t := by
  cases h with
  | leave hstack =>
    rw [hstack]
    exact .cons (.nil _) hresumes
  | @pass node s rest stack hstack hs =>
    rw [hstack]
    cases hresumes with
    | cons hvisits hrest =>
      refine .cons ?_ hrest
      by_cases hnode : isNode s = true
      · rw [List.filter_cons_of_pos hnode]
        exact .skip (hs.resolve_right (by simp [hnode])) hvisits
      · rwa [List.filter_cons_of_neg hnode]
  | descend hstack hnew hs =>
    rw [hstack]
    cases hresumes with
    | cons hinner hrest =>
      cases hrest with
      | cons hvisits hrest =>
        refine .cons ?_ hrest
        rw [List.filter_cons_of_pos hs]
        exact .enter hnew hinner hvisits

section Finishes

variable [DecidableEq α]

theorem resumes_of_finishes (h : Finishes (step next isNode) w w') :
    Resumes next isNode w.toTrace w.stack w'.toTrace := by
  induction h with
  | @done w h =>
    rw [stack_eq_nil_of_step h]
    exact .nil _
  | step h _ ih => exact (stepped_of_step h).resumes ih

/-- **A walk from a node** ends as a visit of that node does. -/
theorem visits_of_finishes {root : α} (h : Finishes (step next isNode) (enter next {} root) w) :
    Visits (fun x => (next x).filter isNode) {} [root] w.toTrace := by
  have hresumes := resumes_of_finishes h
  generalize w.toTrace = t at hresumes
  cases hresumes with
  | cons hinner hrest =>
    cases hrest with
    | nil => exact .enter (by simp) hinner (.nil _)

/-! ### The end of a walk -/

/-- The number of steps that the nodes on the stack will take. -/
def stackSize : List (Frame α) → Nat
  | [] => 0
  | f :: stack => f.rest.length + 1 + stackSize stack

/-- What nodes cost: a step for every successor, and one for the end. -/
def costs (edges : List (α × List α)) : List (α × List α) := edges.map fun e => (e.1, e.1 :: e.2)

/-- A bound for the number of steps that are left. -/
def size (edges : List (α × List α)) (w : Walk α) : Nat :=
  stackSize w.stack + (bill (costs edges) w.met).length

/-- **A step uses something up**: a successor, or a node of the stack. -/
theorem size_lt {edges : List (α × List α)} (hedges : ∀ s, isNode s = true → (s, next s) ∈ edges)
    (h : Stepped next isNode w w') : w'.size edges < w.size edges := by
  cases h with
  | @leave node stack hstack =>
    show stackSize stack + (bill (costs edges) w.met).length < _
    rw [size, hstack, stackSize, List.length_nil]
    omega
  | @pass node s rest stack hstack hs =>
    show rest.length + 1 + stackSize stack + (bill (costs edges) w.met).length < _
    rw [size, hstack, stackSize, List.length_cons]
    omega
  | @descend node s rest stack hstack hnew hs =>
    have hmem : (s, s :: next s) ∈ costs edges := List.mem_map.2 ⟨_, hedges s hs, rfl⟩
    have hpaid := bill_cons_le hmem hnew
    show (next s).length + 1 + (rest.length + 1 + stackSize stack) +
      (bill (costs edges) (s :: w.met)).length < _
    rw [size, hstack, stackSize, List.length_cons]
    dsimp only [List.length_cons] at hpaid
    omega

theorem length_bill_costs (edges : List (α × List α)) :
    (bill (costs edges) []).length = edges.length + (edges.flatMap Prod.snd).length := by
  induction edges with
  | nil => rfl
  | cons e edges ih =>
    simp only [bill, costs, List.not_mem_nil, not_false_eq_true, decide_true, List.filter_true,
      List.map_cons, List.flatMap_cons, List.length_append, List.length_cons] at ih ⊢
    omega

/-- **A walk from a node comes to an end.** -/
theorem run_finishes {edges : List (α × List α)}
    (hedges : ∀ s, isNode s = true → (s, next s) ∈ edges)
    {root : α} (hroot : isNode root = true) :
    Finishes (step next isNode) (enter next {} root)
      (runSteps (step next isNode) (edges.length + (edges.flatMap Prod.snd).length)
        (enter next {} root)) := by
  refine runSteps_finishes (P := fun _ => True) (fun _ _ _ h => h) (size edges)
    (fun w w' _ h => size_lt hedges (stepped_of_step h)) _ _ trivial ?_
  have hmem : (root, root :: next root) ∈ costs edges := List.mem_map.2 ⟨_, hedges root hroot, rfl⟩
  have hpaid := bill_cons_le hmem (List.not_mem_nil)
  rw [length_bill_costs] at hpaid
  show (next root).length + 1 + 0 + (bill (costs edges) [root]).length ≤ _
  dsimp only [List.length_cons] at hpaid
  omega

end Finishes

end Walk

/-! ## Worklists -/

namespace Worklist

variable [DecidableEq α] {next : α → List α} {root : α} {w w' : Worklist α}

theorem mem_seen_see {node x : α} : x ∈ (w.see node).seen ↔ x = node ∨ x ∈ w.seen := by
  unfold see
  split
  · next h =>
    constructor
    · exact Or.inr
    · rintro (rfl | hx)
      · exact h
      · exact hx
  · simp

theorem mem_work_see {node x : α} :
    x ∈ (w.see node).work ↔ x ∈ w.work ∨ x = node ∧ node ∉ w.seen := by
  unfold see
  split
  · next h => simp [h]
  · next h =>
    simp [h]
    tauto

theorem mem_seen_foldl {nodes : List α} {x : α} :
    x ∈ (nodes.foldl see w).seen ↔ x ∈ nodes ∨ x ∈ w.seen := by
  induction nodes generalizing w with
  | nil => simp
  | cons node nodes ih =>
    rw [List.foldl_cons, ih, mem_seen_see, List.mem_cons]
    tauto

theorem mem_work_foldl {nodes : List α} {x : α} :
    x ∈ (nodes.foldl see w).work ↔ x ∈ w.work ∨ x ∈ nodes ∧ x ∉ w.seen := by
  induction nodes generalizing w with
  | nil => simp
  | cons node nodes ih =>
    rw [List.foldl_cons, ih, mem_work_see, mem_seen_see, List.mem_cons]
    by_cases hx : x = node
    · subst hx
      tauto
    · tauto

/-- What a search has seen can be reached from the root, and what it has looked at leads to what it
has seen. -/
structure Covers (next : α → List α) (root : α) (w : Worklist α) : Prop where
  root_seen : root ∈ w.seen
  reachable : ∀ x ∈ w.seen, ReflTransGen (fun a b => b ∈ next a) root x
  work_seen : ∀ x ∈ w.work, x ∈ w.seen
  closed : ∀ x ∈ w.seen, x ∉ w.work → ∀ y ∈ next x, y ∈ w.seen

theorem Covers.start (next : α → List α) (root : α) : Covers next root (see {} root) where
  root_seen := mem_seen_see.2 (Or.inl rfl)
  reachable x hx := by
    obtain rfl : x = root := by simpa using mem_seen_see.1 hx
    exact .refl
  work_seen x hx := by
    obtain rfl : x = root := by simpa using mem_work_see.1 hx
    exact mem_seen_see.2 (Or.inl rfl)
  closed x hx hwork := by
    obtain rfl : x = root := by simpa using mem_seen_see.1 hx
    exact absurd (mem_work_see.2 (Or.inr ⟨rfl, by simp⟩)) hwork

/-- What a step does. -/
theorem step_eq_some_iff : step next w = some w' ↔
    ∃ node work, w.work = node :: work ∧ w' = (next node).foldl see { w with work } := by
  unfold step
  split
  · next h => simp [h]
  · next node work h =>
    constructor
    · intro hstep
      exact ⟨node, work, h, (Option.some.inj hstep).symm⟩
    · rintro ⟨node', work', h', rfl⟩
      obtain ⟨rfl, rfl⟩ := List.cons_eq_cons.1 (h.symm.trans h')
      rfl

/-- **What a step keeps.** -/
theorem Covers.step (h : Covers next root w) (hstep : step next w = some w') :
    Covers next root w' := by
  obtain ⟨node, work, hwork, rfl⟩ := step_eq_some_iff.1 hstep
  have hnode : node ∈ w.seen := h.work_seen node (by simp [hwork])
  refine ⟨mem_seen_foldl.2 (Or.inr h.root_seen), fun x hx => ?_, fun x hx => ?_,
    fun x hx hnot y hy => ?_⟩
  · rcases mem_seen_foldl.1 hx with hx | hx
    · exact (h.reachable node hnode).tail hx
    · exact h.reachable x hx
  · rcases mem_work_foldl.1 hx with hx | ⟨hx, -⟩
    · exact mem_seen_foldl.2 (Or.inr (h.work_seen x (by rw [hwork]; exact .tail _ hx)))
    · exact mem_seen_foldl.2 (Or.inl hx)
  · -- a node that waits no more is the one looked at, or was looked at before
    obtain ⟨hout, hold⟩ := not_or.1 (mt mem_work_foldl.2 hnot)
    have hx : x ∈ w.seen := by
      rcases mem_seen_foldl.1 hx with hx | hx
      · by_contra hnew
        exact hold ⟨hx, hnew⟩
      · exact hx
    by_cases heq : x = node
    · exact mem_seen_foldl.2 (Or.inl (heq ▸ hy))
    · have hdone : x ∉ w.work := by
        rw [hwork, List.mem_cons]
        rintro (hx | hx)
        · exact heq hx
        · exact hout hx
      exact mem_seen_foldl.2 (Or.inr (h.closed x hx hdone y hy))

/-- A bound for the number of steps that are left: the nodes to be looked at, and the targets of
edges that have not been seen. -/
def size (targets : List α) (w : Worklist α) : Nat :=
  w.work.length + unmet targets { met := w.seen }

theorem size_see_le {targets : List α} {node : α} (hnode : node ∈ targets) :
    (w.see node).size targets ≤ w.size targets := by
  unfold see
  split
  · exact Nat.le_refl _
  · next hnew =>
    have hlt := unmet_cons_lt (t := { met := w.seen }) hnode hnew
    show w.work.length + 1 + unmet targets { met := node :: w.seen } ≤ _
    rw [size]
    dsimp only at hlt
    omega

theorem size_foldl_le {targets nodes : List α} (hnodes : ∀ x ∈ nodes, x ∈ targets) :
    (nodes.foldl see w).size targets ≤ w.size targets := by
  induction nodes generalizing w with
  | nil => exact Nat.le_refl _
  | cons node nodes ih =>
    have hrest := ih (w := w.see node) fun x hx => hnodes x (by simp [hx])
    exact Nat.le_trans hrest (size_see_le (hnodes node (by simp)))

/-- **A step uses something up**: the node that it looks at. -/
theorem size_lt {targets : List α} (htargets : ∀ x, ∀ y ∈ next x, y ∈ targets)
    (hstep : step next w = some w') : w'.size targets < w.size targets := by
  obtain ⟨node, work, hwork, rfl⟩ := step_eq_some_iff.1 hstep
  have hle := size_foldl_le (w := { w with work }) (htargets node)
  have hlt : ({ w with work } : Worklist α).size targets < w.size targets := by
    show work.length + unmet targets { met := w.seen } < _
    rw [size, hwork, List.length_cons]
    omega
  omega

/-- **A search comes to an end.** -/
theorem run_finishes {targets : List α} (htargets : ∀ x, ∀ y ∈ next x, y ∈ targets) (root : α) :
    Finishes (step next) (see {} root)
      (runSteps (step next) (targets.length + 1) (see {} root)) := by
  refine runSteps_finishes (P := fun _ => True) (fun _ _ _ h => h) (size targets)
    (fun w w' _ h => size_lt htargets h) _ _ trivial ?_
  have hunmet : unmet targets { met := [root] } ≤ targets.length := List.countP_le_length
  show 1 + unmet targets { met := [root] } ≤ _
  omega

/-- **What a search has seen in the end** is what can be reached. -/
theorem mem_seen_iff (h : Finishes (step next) (see {} root) w) {x : α} :
    x ∈ w.seen ↔ ReflTransGen (fun a b => b ∈ next a) root x := by
  obtain ⟨hcovers, hstep⟩ := Finishes.end (P := Covers next root) (fun _ _ hs hc => hc.step hs) h
    (Covers.start next root)
  have hwork : w.work = [] := by
    unfold step at hstep
    split at hstep
    · assumption
    · cases hstep
  constructor
  · exact hcovers.reachable x
  · intro hpath
    induction hpath with
    | refl => exact hcovers.root_seen
    | tail _ hedge ih => exact hcovers.closed _ ih (by simp [hwork]) _ hedge

/-! ### Nodes that are seen when they are taken -/

/-- What taking a node can be. -/
inductive Taken (next : α → List α) (w : Worklist α) : Worklist α → Prop
  /-- The node has been seen. -/
  | old {node : α} {work : List α} (hwork : w.work = node :: work) (hnode : node ∈ w.seen) :
      Taken next w { w with work }
  /-- The node is new. -/
  | new {node : α} {work : List α} (hwork : w.work = node :: work) (hnode : node ∉ w.seen) :
      Taken next w { seen := node :: w.seen, work := next node ++ work }

theorem taken_of_take (h : take next w = some w') : Taken next w w' := by
  unfold take at h
  split at h
  · cases h
  · next node work hwork =>
    split at h
    · next hnode =>
      obtain rfl := Option.some.inj h
      exact .old hwork hnode
    · next hnode =>
      obtain rfl := Option.some.inj h
      exact .new hwork hnode

/-- **Such a search** ends as visits of the nodes that it has to look at do. -/
theorem visits_of_finishes (h : Finishes (take next) w w') :
    ∃ t : Trace α, Visits next { met := w.seen } w.work t ∧ t.met = w'.seen := by
  induction h with
  | @done w h =>
    have hwork : w.work = [] := by
      unfold take at h
      split at h
      · assumption
      · split at h <;> cases h
    rw [hwork]
    exact ⟨_, .nil _, rfl⟩
  | @step w w₁ w' h _ ih =>
    obtain ⟨t, hvisits, hmet⟩ := ih
    cases taken_of_take h with
    | old hwork hnode =>
      rw [hwork]
      exact ⟨t, .skip hnode hvisits, hmet⟩
    | @new node work hwork hnode =>
      obtain ⟨t₁, hinner, hrest⟩ := hvisits.split
      obtain ⟨done, hrest⟩ := hrest.of_done (node :: t₁.done)
      rw [hwork]
      exact ⟨_, .enter hnode hinner hrest, hmet⟩

/-- A bound for the number of steps that are left: the nodes to look at, and the successors of those
that have not been seen. -/
def takeSize (edges : List (α × List α)) (w : Worklist α) : Nat :=
  w.work.length + (bill edges w.seen).length

/-- **A step uses something up**: the node that it takes. -/
theorem takeSize_lt {edges : List (α × List α)} (hedges : ∀ x ∈ w.work, (x, next x) ∈ edges)
    (h : take next w = some w') : w'.takeSize edges < w.takeSize edges := by
  cases taken_of_take h with
  | @old node work hwork hnode =>
    show work.length + (bill edges w.seen).length < _
    rw [takeSize, hwork, List.length_cons]
    omega
  | @new node work hwork hnode =>
    have hpaid := bill_cons_le (hedges node (by simp [hwork])) hnode
    show (next node ++ work).length + (bill edges (node :: w.seen)).length < _
    rw [takeSize, hwork, List.length_append, List.length_cons]
    dsimp only at hpaid
    omega

/-- The nodes to look at stay in a set that holds the successors of its members. -/
theorem Taken.work_mem {nodes : List α} (hnodes : ∀ x ∈ nodes, ∀ y ∈ next x, y ∈ nodes)
    (h : Taken next w w') (hw : ∀ x ∈ w.work, x ∈ nodes) : ∀ x ∈ w'.work, x ∈ nodes := by
  cases h with
  | old hwork _ => exact fun x hx => hw x (by rw [hwork]; exact .tail _ hx)
  | @new node work hwork _ =>
    intro x hx
    rcases List.mem_append.1 hx with hx | hx
    · exact hnodes node (hw node (by simp [hwork])) x hx
    · exact hw x (by rw [hwork]; exact .tail _ hx)

/-- **Such a search comes to an end.** Only nodes of a set that holds the successors of its members
matter. -/
theorem take_finishes {nodes : List α} (hnodes : ∀ x ∈ nodes, ∀ y ∈ next x, y ∈ nodes)
    (seen : List α) {root : α} (hroot : root ∈ nodes) :
    Finishes (take next) { seen, work := [root] }
      (runSteps (take next) ((nodes.flatMap next).length + 1) { seen, work := [root] }) := by
  let edges := nodes.map fun x => (x, next x)
  refine runSteps_finishes (fun w w' h => (taken_of_take h).work_mem hnodes) (takeSize edges)
    (fun w w' hw h => takeSize_lt ?_ h) _ _ ?_ ?_
  · exact fun x hx => List.mem_map.2 ⟨x, hw x hx, rfl⟩
  · simpa using hroot
  · have hbill : (bill edges seen).length ≤ (bill edges []).length := bill_le (by simp)
    have hall : bill edges [] = nodes.flatMap next := by
      simp [bill, edges, List.flatMap_map]
    rw [hall] at hbill
    show 1 + (bill edges seen).length ≤ _
    omega

end Worklist

end SsaOpt.Flow
