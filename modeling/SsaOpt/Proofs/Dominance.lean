import SsaOpt.Proofs.FlowGraph

/-!
# Dominance

A node dominates another one if it is on every path from the root to it. Paths are lists of the
nodes they visit, the last one first, so that a path is taken apart at its last edge
(`Path.start`, `Path.step`).

The second half is about a numbering of the nodes. An edge that does not go up in the numbering is a
retreat. `OnShort n d b` says that `d` is on all paths to `b` with fewer than `n` retreats; it is
what an iterative computation knows after `n` sweeps, and for `n` the number of nodes it is
dominance (`OnShort.dominates`).
-/

namespace SsaOpt.Flow

open Relation

variable {α : Type} {r : α → α → Prop} {e : α}

/-- A path from `a`, with the nodes it visits, the last one first. -/
inductive Path (r : α → α → Prop) (a : α) : α → List α → Prop
  | start : Path r a a [a]
  | step {b c : α} {p : List α} (h : Path r a b p) (hbc : r b c) : Path r a c (c :: p)

/-- Every path from the root `e` to `b` visits `a`, and there is one. -/
def Dominates (r : α → α → Prop) (e a b : α) : Prop :=
  ReflTransGen r e b ∧ ∀ p, Path r e b p → a ∈ p

/-- `d` is the strict dominator of `b` that every other strict dominator of `b` dominates. -/
structure IsIdom (r : α → α → Prop) (e d b : α) : Prop where
  dominates : Dominates r e d b
  ne : d ≠ b
  above : ∀ a, Dominates r e a b → a ≠ b → a ≠ d → Dominates r e a d

/-! ## Paths -/

namespace Path

variable {b : α} {p : List α}

theorem reachable (h : Path r e b p) : ReflTransGen r e b := by
  induction h with
  | start => exact .refl
  | step _ hbc ih => exact ih.tail hbc

theorem end_mem (h : Path r e b p) : b ∈ p := by
  cases h <;> simp

/-- A path can be cut off at every node it visits. -/
theorem cut (h : Path r e b p) {x : α} (hx : x ∈ p) : ∃ q, Path r e x q ∧ q <:+ p := by
  induction h with
  | start =>
    rw [List.mem_singleton.1 hx]
    exact ⟨[e], .start, List.suffix_refl _⟩
  | @step b c p hpath hbc ih =>
    rcases List.mem_cons.1 hx with rfl | hx
    · exact ⟨x :: p, .step hpath hbc, List.suffix_refl _⟩
    · obtain ⟨q, hq, hsuffix⟩ := ih hx
      exact ⟨q, hq, hsuffix.trans (List.suffix_cons c p)⟩

/-- A path falls into two parts at every node it visits. -/
theorem split (h : Path r e b p) {x : α} (hx : x ∈ p) :
    ∃ p₁ p₂, p = p₂ ++ x :: p₁ ∧ Path r e x (x :: p₁) ∧ Path r x b (p₂ ++ [x]) := by
  induction h with
  | start =>
    rw [List.mem_singleton.1 hx]
    exact ⟨[], [], rfl, .start, .start⟩
  | @step b c p hpath hbc ih =>
    rcases List.mem_cons.1 hx with rfl | hx
    · exact ⟨p, [], rfl, .step hpath hbc, .start⟩
    · obtain ⟨p₁, p₂, rfl, hleft, hright⟩ := ih hx
      exact ⟨p₁, c :: p₂, rfl, hleft, .step hright hbc⟩

/-- One path after another visits what the two visit. -/
theorem append {c : α} {q : List α} (h : Path r e b p) (h' : Path r b c q) :
    ∃ s, Path r e c s ∧ ∀ x ∈ s, x ∈ p ∨ x ∈ q := by
  induction h' with
  | start => exact ⟨p, h, fun x hx => Or.inl hx⟩
  | @step c d q _ hcd ih =>
    obtain ⟨s, hs, hsub⟩ := ih
    refine ⟨d :: s, .step hs hcd, fun x hx => ?_⟩
    rcases List.mem_cons.1 hx with rfl | hx
    · exact Or.inr (by simp)
    · exact (hsub x hx).imp_right (List.mem_cons_of_mem d)

/-- A path with an edge in front. -/
theorem prepend {a : α} (h : Path r e b p) (hae : r a e) : Path r a b (p ++ [a]) := by
  induction h with
  | start => exact .step .start hae
  | step _ hbc ih => exact .step ih hbc

/-- What a path visits can be visited without coming to a node twice. -/
theorem exists_nodup (h : Path r e b p) : ∃ q, Path r e b q ∧ q.Nodup ∧ ∀ x ∈ q, x ∈ p := by
  induction h with
  | start => exact ⟨[e], .start, by simp, fun x hx => hx⟩
  | @step b c p hpath hbc ih =>
    obtain ⟨q, hq, hnodup, hsub⟩ := ih
    by_cases hc : c ∈ q
    · obtain ⟨q', hq', hsuffix⟩ := hq.cut hc
      exact ⟨q', hq', hnodup.sublist hsuffix.sublist,
        fun x hx => List.mem_cons_of_mem _ (hsub x (hsuffix.subset hx))⟩
    · refine ⟨c :: q, .step hq hbc, List.nodup_cons.2 ⟨hc, hnodup⟩, fun x hx => ?_⟩
      rcases List.mem_cons.1 hx with rfl | hx
      · simp
      · exact List.mem_cons_of_mem _ (hsub x hx)

/-- All nodes on a path can be reached. -/
theorem reachable_of_mem (h : Path r e b p) {x : α} (hx : x ∈ p) : ReflTransGen r e x := by
  obtain ⟨q, hq, -⟩ := h.cut hx
  exact hq.reachable

end Path

theorem exists_path {b : α} (h : ReflTransGen r e b) : ∃ p, Path r e b p := by
  induction h with
  | refl => exact ⟨[e], .start⟩
  | tail _ hbc ih =>
    obtain ⟨p, hp⟩ := ih
    exact ⟨_, .step hp hbc⟩

/-! ## Dominance -/

namespace Dominates

variable {a b c : α}

theorem refl (h : ReflTransGen r e b) : Dominates r e b b := ⟨h, fun _ hp => hp.end_mem⟩

theorem trans (hab : Dominates r e a b) (hbc : Dominates r e b c) : Dominates r e a c := by
  refine ⟨hbc.1, fun p hp => ?_⟩
  obtain ⟨q, hq, hsuffix⟩ := hp.cut (hbc.2 p hp)
  exact hsuffix.subset (hab.2 q hq)

/-- A strict dominator of a node dominates all its predecessors. -/
theorem of_edge (h : Dominates r e a c) (hne : a ≠ c) (hb : ReflTransGen r e b) (hbc : r b c) :
    Dominates r e a b := by
  refine ⟨hb, fun p hp => ?_⟩
  exact (List.mem_cons.1 (h.2 _ (.step hp hbc))).resolve_left hne

/-- Only the root dominates the root. -/
theorem eq_root (h : Dominates r e a e) : a = e := by
  simpa using h.2 [e] .start

theorem reachable_left (h : Dominates r e a b) : ReflTransGen r e a := by
  obtain ⟨p, hp⟩ := exists_path h.1
  exact hp.reachable_of_mem (h.2 p hp)

/-- Below a dominator `b` of a node, a node is reached without the strict dominators of `b`. -/
theorem exists_path_avoiding (hab : Dominates r e a b) (hne : a ≠ b) (hbc : Dominates r e b c) :
    ∃ p, Path r b c p ∧ a ∉ p := by
  obtain ⟨p, hp⟩ := exists_path hbc.1
  obtain ⟨q, hq, hnodup, -⟩ := hp.exists_nodup
  obtain ⟨q₁, q₂, rfl, hleft, hright⟩ := hq.split (hbc.2 q hq)
  have ha : a ∈ q₁ := (List.mem_cons.1 (hab.2 _ hleft)).resolve_left hne
  refine ⟨_, hright, fun hmem => ?_⟩
  rcases List.mem_append.1 hmem with h₂ | h₂
  · exact List.disjoint_of_nodup_append hnodup h₂ (List.mem_cons_of_mem _ ha)
  · exact hne (List.mem_singleton.1 h₂)

theorem antisymm (hab : Dominates r e a b) (hba : Dominates r e b a) : a = b := by
  by_contra hne
  obtain ⟨p, hp, ha⟩ := hab.exists_path_avoiding hne hba
  exact ha hp.end_mem

/-- If each of two nodes is reached without the other, every node is reached without one of them. -/
theorem exists_path_avoiding_either {p q : List α} (hne : a ≠ b) (ha : Path r e a p) (hb : b ∉ p)
    (hb' : Path r e b q) (ha' : a ∉ q) {s : List α} (h : Path r e c s) :
    ∃ s', Path r e c s' ∧ (a ∉ s' ∨ b ∉ s') := by
  induction h with
  | start =>
    refine ⟨[e], .start, ?_⟩
    by_contra hboth
    push Not at hboth
    exact hne ((List.mem_singleton.1 hboth.1).trans (List.mem_singleton.1 hboth.2).symm)
  | @step c d s _ hcd ih =>
    obtain ⟨s', hs', hor⟩ := ih
    by_cases hda : d = a
    · exact ⟨p, hda ▸ ha, Or.inr hb⟩
    by_cases hdb : d = b
    · exact ⟨q, hdb ▸ hb', Or.inl ha'⟩
    refine ⟨d :: s', .step hs' hcd, hor.imp (fun h hmem => ?_) fun h hmem => ?_⟩
    · exact h ((List.mem_cons.1 hmem).resolve_left (Ne.symm hda))
    · exact h ((List.mem_cons.1 hmem).resolve_left (Ne.symm hdb))

/-- **Of two dominators of a node**, one dominates the other. -/
theorem total (hac : Dominates r e a c) (hbc : Dominates r e b c) :
    Dominates r e a b ∨ Dominates r e b a := by
  by_contra hnot
  obtain ⟨hab, hba⟩ := not_or.1 hnot
  have hne : a ≠ b := by
    rintro rfl
    exact hab (.refl hac.reachable_left)
  obtain ⟨q, hq, ha⟩ : ∃ q, Path r e b q ∧ a ∉ q := by
    by_contra hall
    push Not at hall
    exact hab ⟨hbc.reachable_left, hall⟩
  obtain ⟨p, hp, hb⟩ : ∃ p, Path r e a p ∧ b ∉ p := by
    by_contra hall
    push Not at hall
    exact hba ⟨hac.reachable_left, hall⟩
  obtain ⟨s, hs⟩ := exists_path hac.1
  obtain ⟨s', hs', hor⟩ := exists_path_avoiding_either hne hp hb hq ha hs
  rcases hor with h | h
  · exact h (hac.2 s' hs')
  · exact h (hbc.2 s' hs')

end Dominates

/-! ## Retreats -/

section Retreats

variable (index : α → Nat)

/-- The number of edges of a path that do not go up in the numbering. -/
def retreats : List α → Nat
  | c :: b :: p => (if index b < index c then 0 else 1) + retreats (b :: p)
  | _ => 0

/-- `d` is on all paths to `b` with fewer than `n` retreats. -/
def OnShort (r : α → α → Prop) (e : α) (n : Nat) (d b : α) : Prop :=
  ∀ p, Path r e b p → retreats index p < n → d ∈ p

theorem retreats_le_of_suffix {p q : List α} (h : q <:+ p) :
    retreats index q ≤ retreats index p := by
  induction p with
  | nil => exact Nat.le_of_eq (by rw [List.suffix_nil.1 h])
  | cons c p ih =>
    rcases List.suffix_cons_iff.1 h with rfl | h
    · exact Nat.le_refl _
    · refine Nat.le_trans (ih h) ?_
      cases p with
      | nil => simp [retreats]
      | cons b p => simp [retreats]

theorem retreats_lt_length {p : List α} (h : p ≠ []) : retreats index p < p.length := by
  induction p with
  | nil => exact absurd rfl h
  | cons c p ih =>
    cases p with
    | nil => simp [retreats]
    | cons b p =>
      have := ih (by simp)
      simp only [retreats, List.length_cons] at this ⊢
      split <;> omega

/-- The last edge of a path goes up, or counts as a retreat. -/
theorem retreats_step {b c : α} {p : List α} (h : Path r e b p) :
    retreats index (c :: p) = (if index b < index c then 0 else 1) + retreats index p := by
  cases h <;> rfl

namespace OnShort

variable {index} {n m : Nat} {b c d : α}

theorem refl (n : Nat) (b : α) : OnShort index r e n b b := fun _ hp _ => hp.end_mem

theorem trans (hcb : OnShort index r e n c b) (hdc : OnShort index r e m d c) (hnm : n ≤ m) :
    OnShort index r e n d b := by
  intro p hp hlt
  obtain ⟨q, hq, hsuffix⟩ := hp.cut (hcb p hp hlt)
  have hle := retreats_le_of_suffix index hsuffix
  exact hsuffix.subset (hdc q hq (by omega))

/-- A path without repeated nodes has fewer retreats than there are nodes. -/
theorem dominates {nodes : List α} (h : OnShort index r e n d b) (hb : ReflTransGen r e b)
    (hnodes : ∀ x, ReflTransGen r e x → x ∈ nodes) (hn : nodes.length ≤ n) : Dominates r e d b := by
  refine ⟨hb, fun p hp => ?_⟩
  obtain ⟨q, hq, hnodup, hsub⟩ := hp.exists_nodup
  have hne : q ≠ [] := List.ne_nil_of_mem hq.end_mem
  have hlen : q.length ≤ nodes.length :=
    hnodup.length_le_of_subset fun x hx => hnodes x (hq.reachable_of_mem hx)
  have hlt := retreats_lt_length index hne
  exact hsub d (h q hq (by omega))

end OnShort

end Retreats

end SsaOpt.Flow
