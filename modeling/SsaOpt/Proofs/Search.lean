import SsaOpt.Flow.Search
import Mathlib.Data.List.Basic
import Mathlib.Data.List.Nodup
import Mathlib.Logic.Relation

/-!
# What a depth-first search finds

A visit adds nodes to the trace, and `Grown` says which: new ones only, each once, all of whose
successors have been met in the end, and each of which is a root or comes after one of its
predecessors in the order of being done. The statement is closed under visiting one node after the
other (`Grown.trans`), so that it carries the induction over a search (`Visits.grown`).

From the empty trace the nodes met are those that can be reached, and the order of being done lists
them once each, the root first (`Grown.mem_new_iff`, `Grown.head?_new`).

`Visits` is such a search, without a bound on its depth.
-/

namespace SsaOpt.Flow

variable {α : Type}

/-- Each node of the list is one of the roots or a successor of a node in front of it. -/
def Led (next : α → List α) (roots l : List α) : Prop :=
  ∀ l₁ x l₂, l = l₁ ++ x :: l₂ → x ∈ roots ∨ ∃ p ∈ l₁, x ∈ next p

/-- The trace `t` has grown to `t'` by the nodes `new`, from the given roots. -/
structure Grown (next : α → List α) (roots new : List α) (t t' : Trace α) : Prop where
  done_eq : t'.done = new ++ t.done
  met_iff : ∀ x, x ∈ t'.met ↔ x ∈ new ∨ x ∈ t.met
  nodup : new.Nodup
  fresh : ∀ x ∈ new, x ∉ t.met
  closed : ∀ x ∈ new, ∀ y ∈ next x, y ∈ t'.met
  led : Led next roots new
  roots_met : ∀ x ∈ roots, x ∈ t'.met

/-! ## Lists that are led -/

theorem Led.nil (next : α → List α) (roots : List α) : Led next roots [] := by
  intro l₁ x l₂ h
  simp at h

theorem Led.append {next : α → List α} {r₁ r₂ l₁ l₂ : List α} (h₁ : Led next r₁ l₁)
    (h₂ : Led next r₂ l₂) : Led next (r₁ ++ r₂) (l₂ ++ l₁) := by
  intro a x b h
  rcases List.append_eq_append_iff.1 h with ⟨c, rfl, hc⟩ | ⟨c, hl, hc⟩
  · rcases h₁ c x b hc with hx | ⟨p, hp, hx⟩
    · exact Or.inl (List.mem_append_left _ hx)
    · exact Or.inr ⟨p, List.mem_append_right _ hp, hx⟩
  · cases c with
    | nil =>
      rcases h₁ [] x b hc.symm with hx | ⟨p, hp, -⟩
      · exact Or.inl (List.mem_append_left _ hx)
      · simp at hp
    | cons y c =>
      obtain ⟨rfl, rfl⟩ := List.cons_eq_cons.1 hc
      rcases h₂ a x c hl with hx | hx
      · exact Or.inl (List.mem_append_right _ hx)
      · exact Or.inr hx

/-- A node in front of a list that is led by its successors. -/
theorem Led.cons {next : α → List α} {node : α} {l : List α} (h : Led next (next node) l) :
    Led next [node] (node :: l) := by
  intro l₁ x l₂ hl
  cases l₁ with
  | nil =>
    obtain ⟨rfl, -⟩ := List.cons_eq_cons.1 hl
    exact Or.inl (by simp)
  | cons y l₁ =>
    obtain ⟨rfl, hrest⟩ := List.cons_eq_cons.1 hl
    rcases h l₁ x l₂ hrest with hx | ⟨p, hp, hx⟩
    · exact Or.inr ⟨node, by simp, hx⟩
    · exact Or.inr ⟨p, by simp [hp], hx⟩

/-- Every node of a list that is led can be reached from a root. -/
theorem Led.reachable {next : α → List α} {roots l : List α} (h : Led next roots l) :
    ∀ x ∈ l, ∃ r ∈ roots, Relation.ReflTransGen (fun a b => b ∈ next a) r x := by
  -- induction on the number of nodes in front of `x`
  suffices ∀ n, ∀ l₁ x l₂, l₁.length = n → l = l₁ ++ x :: l₂ →
      ∃ r ∈ roots, Relation.ReflTransGen (fun a b => b ∈ next a) r x by
    intro x hx
    obtain ⟨l₁, l₂, hl⟩ := List.append_of_mem hx
    exact this _ l₁ x l₂ rfl hl
  intro n
  induction n using Nat.strongRecOn with
  | ind n ih =>
  intro l₁ x l₂ hn hl
  rcases h l₁ x l₂ hl with hx | ⟨p, hp, hx⟩
  · exact ⟨x, hx, .refl⟩
  · obtain ⟨a, b, rfl⟩ := List.append_of_mem hp
    have hlt : a.length < n := by
      rw [← hn]
      simp
    obtain ⟨r, hr, hrp⟩ := ih a.length hlt a p (b ++ x :: l₂) rfl (by simp [hl])
    exact ⟨r, hr, hrp.tail hx⟩

/-! ## Traces that grow -/

namespace Grown

variable {next : α → List α} {t t₁ t₂ : Trace α}

theorem refl {roots : List α} (h : ∀ x ∈ roots, x ∈ t.met) : Grown next roots [] t t where
  done_eq := rfl
  met_iff := by simp
  nodup := List.nodup_nil
  fresh := by simp
  closed := by simp
  led := Led.nil next roots
  roots_met := h

theorem mono {roots new : List α} (h : Grown next roots new t t₁) {x : α} (hx : x ∈ t.met) :
    x ∈ t₁.met :=
  (h.met_iff x).2 (Or.inr hx)

/-- One visit after another. -/
theorem trans {r₁ r₂ n₁ n₂ : List α} (h₁ : Grown next r₁ n₁ t t₁) (h₂ : Grown next r₂ n₂ t₁ t₂) :
    Grown next (r₁ ++ r₂) (n₂ ++ n₁) t t₂ where
  done_eq := by rw [h₂.done_eq, h₁.done_eq, List.append_assoc]
  met_iff x := by
    rw [h₂.met_iff, h₁.met_iff, List.mem_append]
    tauto
  nodup := by
    refine List.Nodup.append h₂.nodup h₁.nodup fun x hx₂ hx₁ => ?_
    exact h₂.fresh x hx₂ ((h₁.met_iff x).2 (Or.inl hx₁))
  fresh x hx := by
    rcases List.mem_append.1 hx with hx | hx
    · exact fun hm => h₂.fresh x hx (h₁.mono hm)
    · exact h₁.fresh x hx
  closed x hx y hy := by
    rcases List.mem_append.1 hx with hx | hx
    · exact h₂.closed x hx y hy
    · exact h₂.mono (h₁.closed x hx y hy)
  led := h₁.led.append h₂.led
  roots_met x hx := by
    rcases List.mem_append.1 hx with hx | hx
    · exact h₂.mono (h₁.roots_met x hx)
    · exact h₂.roots_met x hx

/-- A node that has not been met, with all that its successors lead to. -/
theorem visited {node : α} {new : List α} (hnode : node ∉ t.met)
    (h : Grown next (next node) new { t with met := node :: t.met } t₁) :
    Grown next [node] (node :: new) t { t₁ with done := node :: t₁.done } where
  done_eq := by simp [h.done_eq]
  met_iff x := by
    rw [show ({ t₁ with done := node :: t₁.done } : Trace α).met = t₁.met from rfl, h.met_iff]
    simp only [List.mem_cons]
    tauto
  nodup := by
    refine List.nodup_cons.2 ⟨fun hn => ?_, h.nodup⟩
    exact h.fresh node hn (by simp)
  fresh x hx := by
    rcases List.mem_cons.1 hx with rfl | hx
    · exact hnode
    · exact fun hm => h.fresh x hx (List.mem_cons_of_mem _ hm)
  closed x hx y hy := by
    rcases List.mem_cons.1 hx with rfl | hx
    · exact h.roots_met y hy
    · exact h.closed x hx y hy
  led := h.led.cons
  roots_met x hx := by
    rw [List.mem_singleton.1 hx]
    exact h.mono (by simp)

end Grown

/-! ## Visits -/

/-- Visits of several nodes in turn, without a bound on their depth. -/
inductive Visits (next : α → List α) : Trace α → List α → Trace α → Prop
  | nil (t : Trace α) : Visits next t [] t
  | skip {t t' : Trace α} {node : α} {nodes : List α} (hnode : node ∈ t.met)
      (h : Visits next t nodes t') : Visits next t (node :: nodes) t'
  | enter {t t₁ t' : Trace α} {node : α} {nodes : List α} (hnode : node ∉ t.met)
      (hinner : Visits next { t with met := node :: t.met } (next node) t₁)
      (h : Visits next { t₁ with done := node :: t₁.done } nodes t') :
      Visits next t (node :: nodes) t'

namespace Visits

variable {next : α → List α} {t t₁ t' : Trace α} {node : α} {nodes : List α}

theorem cons (h : Visits next t [node] t₁) (hrest : Visits next t₁ nodes t') :
    Visits next t (node :: nodes) t' := by
  cases h with
  | skip hnode h =>
    cases h
    exact .skip hnode hrest
  | enter hnode hinner h =>
    cases h
    exact .enter hnode hinner hrest

theorem split {nodes' : List α} (h : Visits next t (nodes ++ nodes') t') :
    ∃ t₁, Visits next t nodes t₁ ∧ Visits next t₁ nodes' t' := by
  induction nodes generalizing t with
  | nil => exact ⟨t, .nil t, h⟩
  | cons x nodes ih =>
    cases h with
    | skip hx h =>
      obtain ⟨t₁, h₁, h₂⟩ := ih h
      exact ⟨t₁, .skip hx h₁, h₂⟩
    | enter hx hinner h =>
      obtain ⟨t₁, h₁, h₂⟩ := ih h
      exact ⟨t₁, .enter hx hinner h₁, h₂⟩

/-- What is met does not depend on what is done with. -/
theorem of_done (h : Visits next t nodes t') (done : List α) :
    ∃ done', Visits next { t with done } nodes { t' with done := done' } := by
  induction h generalizing done with
  | nil t => exact ⟨done, .nil _⟩
  | skip hnode _ ih =>
    obtain ⟨done', h⟩ := ih done
    exact ⟨done', .skip hnode h⟩
  | @enter t t₁ t' node nodes hnode _ _ ihinner ih =>
    obtain ⟨done₁, hinner⟩ := ihinner done
    obtain ⟨done', h⟩ := ih (node :: done₁)
    exact ⟨done', .enter hnode hinner h⟩

/-- **What visits do.** -/
theorem grown (h : Visits next t nodes t') : ∃ new, Grown next nodes new t t' := by
  induction h with
  | nil t => exact ⟨[], .refl (by simp)⟩
  | @skip t _ node _ hnode _ ih =>
    obtain ⟨new, hgrown⟩ := ih
    have hmet : Grown next [node] [] t t := .refl (by simpa using hnode)
    exact ⟨_, hmet.trans hgrown⟩
  | enter hnode _ _ ihinner ih =>
    obtain ⟨n₁, h₁⟩ := ihinner
    obtain ⟨n₂, h₂⟩ := ih
    exact ⟨_, (h₁.visited hnode).trans h₂⟩

/-- No node is met twice. -/
theorem met_nodup (h : Visits next t nodes t') (ht : t.met.Nodup) : t'.met.Nodup := by
  induction h with
  | nil t => exact ht
  | skip _ _ ih => exact ih ht
  | enter hnode _ _ ihinner ih => exact ih (ihinner (List.nodup_cons.2 ⟨hnode, ht⟩))

end Visits

section Visits

variable [DecidableEq α] {next : α → List α} {inner : List α}

/-- The number of nodes of a list that a trace has not met. -/
def unmet (inner : List α) (t : Trace α) : Nat := inner.countP fun x => x ∉ t.met

theorem unmet_le {t t' : Trace α} (h : ∀ x ∈ t.met, x ∈ t'.met) :
    unmet inner t' ≤ unmet inner t := by
  refine List.countP_mono_left fun x _ hx => ?_
  simp only [decide_eq_true_eq] at hx ⊢
  exact fun hm => hx (h x hm)

theorem unmet_cons_lt {t : Trace α} {node : α} (hin : node ∈ inner) (hnode : node ∉ t.met) :
    unmet inner { t with met := node :: t.met } < unmet inner t := by
  induction inner with
  | nil => simp at hin
  | cons a l ih =>
    have hle : unmet l { t with met := node :: t.met } ≤ unmet l t :=
      unmet_le fun x hx => List.mem_cons_of_mem _ hx
    simp only [unmet, List.countP_cons] at ih hle ⊢
    by_cases ha : a = node
    · subst ha
      simp only [List.mem_cons, true_or, not_true_eq_false, decide_false, Bool.false_eq_true,
        if_false, hnode, not_false_eq_true, decide_true, if_true] at hle ⊢
      omega
    · have hlt := ih ((List.mem_cons.1 hin).resolve_left fun h => ha h.symm)
      simp only [List.mem_cons, ha, false_or] at hlt hle ⊢
      omega

end Visits

/-! ## Searches from the empty trace -/

namespace Grown

variable {next : α → List α} {t : Trace α} {roots new : List α}

theorem met_iff_mem_new (h : Grown next roots new {} t) {x : α} : x ∈ t.met ↔ x ∈ new := by
  simp [h.met_iff x]

theorem done_eq_new (h : Grown next roots new {} t) : t.done = new := by simp [h.done_eq]

/-- A search from the empty trace meets what can be reached. -/
theorem mem_new_iff (h : Grown next roots new {} t) {x : α} :
    x ∈ new ↔ ∃ r ∈ roots, Relation.ReflTransGen (fun a b => b ∈ next a) r x := by
  constructor
  · exact h.led.reachable x
  · rintro ⟨r, hr, hrx⟩
    induction hrx with
    | refl => exact h.met_iff_mem_new.1 (h.roots_met r hr)
    | tail _ hstep ih => exact h.met_iff_mem_new.1 (h.closed _ ih _ hstep)

/-- A search from one node is done with that node last. -/
theorem head?_new {node : α} (h : Grown next [node] new {} t) : new.head? = some node := by
  have hnode : node ∈ new := h.met_iff_mem_new.1 (h.roots_met node (by simp))
  cases new with
  | nil => simp at hnode
  | cons x l =>
    rcases h.led [] x l rfl with hx | ⟨p, hp, -⟩
    · simpa using hx
    · simp at hp

end Grown

end SsaOpt.Flow
