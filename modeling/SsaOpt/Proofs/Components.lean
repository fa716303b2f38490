import SsaOpt.Flow.Components
import SsaOpt.Proofs.Walks

/-!
# What a search for components finds

The stack of open nodes is cut into layers, one for each node of the path (`Layers`): the node, and
above it the nodes that have been left since it was met. A layer is strongly connected, and what its
nodes lead to is complete or has a number that is not below the `low` of the layer (`Layer`). So a
layer whose `low` is the number of its own node leads to nothing below it, and is a component.

Every step keeps the layers and the components found so far (`Invariant.step`). In the end there are
no layers left, and the components are those of the graph (`components_spec`).

`Runs` is the search without a bound on its steps; it ends since each step uses up an edge, a node
or a root (`run_runs`).
-/

namespace SsaOpt.Flow

open Relation

variable {α : Type} {next : α → List α}

/-- There is a path from one node to another. -/
abbrev Leads (next : α → List α) : α → α → Prop := ReflTransGen fun a b => b ∈ next a

namespace ComponentSearch

variable {stack stack' : List (α × Nat)} {found found' : List (List α)} {s : ComponentSearch α}

/-! ## Layers -/

/-- The node is in a component that is complete, or open with a number that is at least `low`. -/
def Settled (stack : List (α × Nat)) (found : List (List α)) (low : Nat) (w : α) : Prop :=
  w ∈ found.flatten ∨ ∃ n, (w, n) ∈ stack ∧ low ≤ n

/-- A node of the path with the open nodes above it, up to the next node of the path, and those
below it. -/
structure Layer (next : α → List α) (stack : List (α × Nat)) (found : List (List α)) (v : Visit α)
    (above below : List (α × Nat)) : Prop where
  leads : ∀ e ∈ above, Leads next v.node e.1
  returns : ∀ e ∈ above, Leads next e.1 v.node
  low_le : v.low ≤ v.number
  low_open : ∃ u, (u, v.low) ∈ (v.node, v.number) :: below ∧ Leads next v.node u
  looked : ∃ done, next v.node = done ++ v.rest ∧ ∀ w ∈ done, Settled stack found v.low w
  settled : ∀ e ∈ above, ∀ w ∈ next e.1, Settled stack found v.low w

/-- The open nodes in layers, for the nodes of the path. -/
inductive Layers (next : α → List α) (stack : List (α × Nat)) (found : List (List α)) :
    List (Visit α) → List (α × Nat) → Prop
  | nil : Layers next stack found [] []
  | cons {v : Visit α} {path : List (Visit α)} {above below : List (α × Nat)}
      (h : Layer next stack found v above below)
      (hedge : ∀ p ∈ path.head?, v.node ∈ next p.node)
      (hrest : Layers next stack found path below) :
      Layers next stack found (v :: path) (above ++ (v.node, v.number) :: below)

/-- Numbers grow towards the top. -/
def Sorted (stack : List (α × Nat)) : Prop := stack.Pairwise fun a b => b.2 < a.2

theorem Settled.mono {low low' : Nat} {w : α} (h : Settled stack found low w) (hle : low' ≤ low) :
    Settled stack found low' w := by
  refine h.imp_right ?_
  rintro ⟨n, hn, hlow⟩
  exact ⟨n, hn, Nat.le_trans hle hlow⟩

theorem Settled.push {low : Nat} {w : α} {e : α × Nat} (h : Settled stack found low w) :
    Settled (e :: stack) found low w := by
  refine h.imp_right ?_
  rintro ⟨n, hn, hlow⟩
  exact ⟨n, List.mem_cons_of_mem e hn, hlow⟩

theorem Sorted.lt_of_mem_above {above below : List (α × Nat)} {x e : α × Nat}
    (h : Sorted (above ++ x :: below)) (he : e ∈ above) : x.2 < e.2 :=
  (List.pairwise_append.1 h).2.2 e he x (by simp)

theorem Sorted.lt_of_mem_below {above below : List (α × Nat)} {x e : α × Nat}
    (h : Sorted (above ++ x :: below)) (he : e ∈ below) : e.2 < x.2 :=
  (List.pairwise_cons.1 (List.pairwise_append.1 h).2.1).1 e he

namespace Layer

variable {v p : Visit α} {above below above' below' : List (α × Nat)} {w : α} {rest : List α}

theorem congr (h : Layer next stack found v above below)
    (hset : ∀ low w, Settled stack found low w → Settled stack' found' low w) :
    Layer next stack' found' v above below := by
  obtain ⟨done, hdone, hlooked⟩ := h.looked
  exact ⟨h.leads, h.returns, h.low_le, h.low_open,
    ⟨done, hdone, fun w hw => hset _ w (hlooked w hw)⟩,
    fun e he w hw => hset _ w (h.settled e he w hw)⟩

/-- A node that has just been met. -/
theorem fresh (node : α) (n : Nat) (below : List (α × Nat)) :
    Layer next stack found ⟨node, n, n, next node⟩ [] below where
  leads := by simp
  returns := by simp
  low_le := Nat.le_refl n
  low_open := ⟨node, by simp, .refl⟩
  looked := ⟨[], by simp, by simp⟩
  settled := by simp

/-- The next successor has been looked at. -/
theorem look (h : Layer next stack found v above below) (hrest : v.rest = w :: rest) {low : Nat}
    (hle : low ≤ v.low)
    (hopen : ∃ u, (u, low) ∈ (v.node, v.number) :: below ∧ Leads next v.node u)
    (hw : Settled stack found low w) :
    Layer next stack found { v with rest, low } above below where
  leads := h.leads
  returns := h.returns
  low_le := Nat.le_trans hle h.low_le
  low_open := hopen
  looked := by
    obtain ⟨done, hdone, hlooked⟩ := h.looked
    refine ⟨done ++ [w], by simp [hdone, hrest], fun x hx => ?_⟩
    rcases List.mem_append.1 hx with hx | hx
    · exact (hlooked x hx).mono hle
    · rwa [List.mem_singleton.1 hx]
  settled e he x hx := (h.settled e he x hx).mono hle

/-- All that a layer leads to is settled once its node has been looked at. -/
theorem settled_all (h : Layer next stack found v above below) (hrest : v.rest = []) {x w : α}
    (hx : x ∈ above.map Prod.fst ++ [v.node]) (hw : w ∈ next x) :
    Settled stack found v.low w := by
  rcases List.mem_append.1 hx with hx | hx
  · obtain ⟨e, he, rfl⟩ := List.mem_map.1 hx
    exact h.settled e he w hw
  · obtain ⟨done, hdone, hlooked⟩ := h.looked
    rw [List.mem_singleton.1 hx, hdone, hrest, List.append_nil] at hw
    exact hlooked w hw

/-- The nodes of a layer lead to each other. -/
theorem connected (h : Layer next stack found v above below) {x y : α}
    (hx : x ∈ above.map Prod.fst ++ [v.node]) (hy : y ∈ above.map Prod.fst ++ [v.node]) :
    Leads next x y := by
  have hto : Leads next x v.node := by
    rcases List.mem_append.1 hx with hx | hx
    · obtain ⟨e, he, rfl⟩ := List.mem_map.1 hx
      exact h.returns e he
    · rw [List.mem_singleton.1 hx]
  have hfrom : Leads next v.node y := by
    rcases List.mem_append.1 hy with hy | hy
    · obtain ⟨e, he, rfl⟩ := List.mem_map.1 hy
      exact h.leads e he
    · rw [List.mem_singleton.1 hy]
  exact hto.trans hfrom

/-- **A layer that leads below itself** becomes a part of the next one. -/
theorem absorb (hp : Layer next stack found p above' below')
    (hv : Layer next stack found v above (above' ++ (p.node, p.number) :: below'))
    (hsorted : Sorted (above' ++ (p.node, p.number) :: below')) (hrest : v.rest = [])
    (hedge : v.node ∈ next p.node) (hlt : v.low < v.number)
    (htop : ∀ e ∈ above' ++ (p.node, p.number) :: below', Leads next e.1 p.node) :
    Layer next stack found { p with low := min p.low v.low }
      (above ++ (v.node, v.number) :: above') below' := by
  obtain ⟨u, hu, hvu⟩ := hv.low_open
  -- the node leads to an open node of a lower number, and from there to the node before it
  have hbelow : (u, v.low) ∈ above' ++ (p.node, p.number) :: below' := by
    rcases List.mem_cons.1 hu with heq | hmem
    · obtain ⟨-, hlow⟩ := Prod.mk.inj heq
      omega
    · exact hmem
  have hto : Leads next v.node p.node := hvu.trans (htop _ hbelow)
  have hfrom : Leads next p.node v.node := ReflTransGen.single hedge
  refine ⟨fun e he => ?_, fun e he => ?_, ?_, ?_, ?_, fun e he w hw => ?_⟩
  · rcases List.mem_append.1 he with he | he
    · exact hfrom.trans (hv.leads e he)
    · rcases List.mem_cons.1 he with rfl | he
      · exact hfrom
      · exact hp.leads e he
  · rcases List.mem_append.1 he with he | he
    · exact (hv.returns e he).trans hto
    · rcases List.mem_cons.1 he with rfl | he
      · exact hto
      · exact hp.returns e he
  · exact Nat.le_trans (Nat.min_le_left _ _) hp.low_le
  · rcases Nat.lt_or_ge v.low p.low with hlow | hlow
    · have hmin : min p.low v.low = v.low := by omega
      refine ⟨u, ?_, hfrom.trans hvu⟩
      show (u, min p.low v.low) ∈ _
      rw [hmin]
      rcases List.mem_append.1 hbelow with habove | hbelow
      · have hnumber : p.number < v.low := hsorted.lt_of_mem_above habove
        have := hp.low_le
        omega
      · exact hbelow
    · have hmin : min p.low v.low = p.low := by omega
      show ∃ u, (u, min p.low v.low) ∈ _ ∧ _
      rw [hmin]
      exact hp.low_open
  · obtain ⟨done, hdone, hlooked⟩ := hp.looked
    exact ⟨done, hdone, fun w hw => (hlooked w hw).mono (Nat.min_le_left _ _)⟩
  · rcases List.mem_append.1 he with he | he
    · exact (hv.settled e he w hw).mono (Nat.min_le_right _ _)
    · rcases List.mem_cons.1 he with rfl | he
      · exact (hv.settled_all hrest (by simp) hw).mono (Nat.min_le_right _ _)
      · exact (hp.settled e he w hw).mono (Nat.min_le_left _ _)

end Layer

namespace Layers

variable {path : List (Visit α)} {l : List (α × Nat)}

theorem congr (h : Layers next stack found path l)
    (hset : ∀ low w, Settled stack found low w → Settled stack' found' low w) :
    Layers next stack' found' path l := by
  induction h with
  | nil => exact .nil
  | cons h hedge _ ih => exact .cons (h.congr hset) hedge ih

/-- Every open node leads to the latest node of the path. -/
theorem leads_head (h : Layers next stack found path l) :
    ∀ p ∈ path.head?, ∀ e ∈ l, Leads next e.1 p.node := by
  induction h with
  | nil => simp
  | @cons v path above below h hedge hrest ih =>
    intro p hp e he
    obtain rfl : v = p := by simpa using hp
    rcases List.mem_append.1 he with he | he
    · exact h.returns e he
    rcases List.mem_cons.1 he with rfl | he
    · exact .refl
    cases hrest with
    | nil => simp at he
    | @cons q path above below hq _ _ =>
      exact (ih q (by simp) e he).tail (hedge q (by simp))

end Layers

/-! ## Components that are complete -/

/-- All components found are strongly connected, and lead to those found before them only. -/
def Complete (next : α → List α) : List (List α) → Prop
  | [] => True
  | c :: found =>
    (c ≠ [] ∧ (∀ x ∈ c, ∀ y ∈ c, Leads next x y) ∧
      ∀ x ∈ c, ∀ y ∈ next x, y ∈ c ∨ y ∈ found.flatten) ∧ Complete next found

namespace Complete

/-- The components found lead to nothing else. -/
theorem closed (h : Complete next found) {x y : α} (hx : x ∈ found.flatten)
    (hxy : Leads next x y) : y ∈ found.flatten := by
  induction hxy with
  | refl => exact hx
  | @tail a b _ hb ih =>
    clear hx
    induction found with
    | nil => simp at ih
    | cons c found ihfound =>
      rw [List.flatten_cons, List.mem_append] at ih ⊢
      rcases ih with ha | ha
      · exact h.1.2.2 a ha b hb
      · exact Or.inr (ihfound h.2 ha)

theorem mem (h : Complete next found) {c : List α} (hc : c ∈ found) :
    c ≠ [] ∧ ∀ x ∈ c, ∀ y ∈ c, Leads next x y := by
  induction found with
  | nil => simp at hc
  | cons c' found ih =>
    rcases List.mem_cons.1 hc with rfl | hc
    · exact ⟨h.1.1, h.1.2.1⟩
    · exact ih h.2 hc

/-- Nodes that lead to each other are in one component. -/
theorem exists_mem (h : Complete next found) {x y : α} (hx : x ∈ found.flatten)
    (hxy : Leads next x y) (hyx : Leads next y x) : ∃ c ∈ found, x ∈ c ∧ y ∈ c := by
  induction found with
  | nil => simp at hx
  | cons c found ih =>
    have hy := h.closed hx hxy
    rw [List.flatten_cons, List.mem_append] at hx hy
    by_cases hrest : x ∈ found.flatten
    · obtain ⟨d, hd, hmem⟩ := ih h.2 hrest
      exact ⟨d, List.mem_cons_of_mem c hd, hmem⟩
    · refine ⟨c, by simp, hx.resolve_right hrest, hy.resolve_right fun hy => hrest ?_⟩
      exact h.2.closed hy hyx

/-- No component leads to one that is found later. -/
theorem pairwise (h : Complete next found) (hnodup : found.flatten.Nodup) :
    found.Pairwise fun c d => ∀ x ∈ d, ∀ y ∈ c, ¬ Leads next x y := by
  induction found with
  | nil => exact .nil
  | cons c found ih =>
    rw [List.flatten_cons] at hnodup
    have hrest := ih h.2 (List.nodup_append.1 hnodup).2.1
    refine List.pairwise_cons.2 ⟨fun d hd x hx y hy hxy => ?_, hrest⟩
    have hyfound := h.2.closed (List.mem_flatten.2 ⟨d, hd, hx⟩) hxy
    exact (List.nodup_append.1 hnodup).2.2 y hy y hyfound rfl

end Complete

/-! ## The invariant -/

/-- The nodes met. -/
def met (s : ComponentSearch α) : List α := s.stack.map Prod.fst ++ s.found.flatten

/-- What holds at every moment of a search through some nodes. -/
structure Invariant (next : α → List α) (nodes : List α) (s : ComponentSearch α) : Prop where
  layers : Layers next s.stack s.found s.path s.stack
  sorted : Sorted s.stack
  numbered : ∀ e ∈ s.stack, e.2 < s.count
  nodup : s.met.Nodup
  complete : Complete next s.found
  within : ∀ x ∈ s.met, x ∈ nodes
  roots_within : ∀ x ∈ s.roots, x ∈ nodes
  covered : ∀ x ∈ nodes, x ∈ s.roots ∨ x ∈ s.met

namespace Invariant

variable {nodes : List α} {v : Visit α} {path : List (Visit α)}

theorem init (next : α → List α) (nodes : List α) :
    Invariant next nodes ({ roots := nodes } : ComponentSearch α) where
  layers := .nil
  sorted := List.Pairwise.nil
  numbered := by simp
  nodup := by simp [met]
  complete := trivial
  within := by simp [met]
  roots_within x hx := hx
  covered x hx := Or.inl hx

/-- The path may change as long as the layers are kept. -/
theorem setPath (h : Invariant next nodes s) (hlayers : Layers next s.stack s.found path s.stack) :
    Invariant next nodes { s with path } :=
  ⟨hlayers, h.sorted, h.numbered, h.nodup, h.complete, h.within, h.roots_within, h.covered⟩

/-- Meeting a node, from the latest node of the path or as a root. -/
theorem enter (h : Invariant next nodes s) {w : α} {roots : List α}
    (hlayers : Layers next ((w, s.count) :: s.stack) s.found path s.stack)
    (hedge : ∀ p ∈ path.head?, w ∈ next p.node) (hw : w ∈ nodes) (hnew : w ∉ s.met)
    (hsub : ∀ x ∈ roots, x ∈ s.roots) (hroots : ∀ x ∈ s.roots, x ∈ roots ∨ x = w) :
    Invariant next nodes ({ s with roots, path }.enter next w) where
  layers := by
    have hfresh : Layer next ((w, s.count) :: s.stack) s.found ⟨w, s.count, s.count, next w⟩ []
        s.stack := .fresh w s.count s.stack
    exact Layers.cons hfresh hedge hlayers
  sorted := List.pairwise_cons.2 ⟨h.numbered, h.sorted⟩
  numbered e he := by
    rcases List.mem_cons.1 he with rfl | he
    · exact Nat.lt_succ_self _
    · exact Nat.lt_succ_of_lt (h.numbered e he)
  nodup := List.nodup_cons.2 ⟨hnew, h.nodup⟩
  complete := h.complete
  within x hx := by
    rcases List.mem_cons.1 hx with rfl | hx
    · exact hw
    · exact h.within x hx
  roots_within x hx := h.roots_within x (hsub x hx)
  covered x hx := by
    rcases h.covered x hx with hx | hx
    · rcases hroots x hx with hx | rfl
      · exact Or.inl hx
      · exact Or.inr List.mem_cons_self
    · exact Or.inr (List.mem_cons_of_mem w hx)

/-- The latest layer, and those below. -/
theorem exists_layer (h : Invariant next nodes s) (hpath : s.path = v :: path) :
    ∃ above below, s.stack = above ++ (v.node, v.number) :: below ∧
      Layer next s.stack s.found v above below ∧ (∀ p ∈ path.head?, v.node ∈ next p.node) ∧
        Layers next s.stack s.found path below := by
  have hlayers := h.layers
  rw [hpath] at hlayers
  generalize hl : s.stack = l at hlayers
  cases hlayers with
  | @cons _ _ above below hlayer hedge hrest => exact ⟨above, below, rfl, hlayer, hedge, hrest⟩

theorem node_not_mem (h : Invariant next nodes s) {above below : List (α × Nat)}
    (hstack : s.stack = above ++ (v.node, v.number) :: below) : v.node ∉ above.map Prod.fst := by
  have hnodup := h.nodup
  simp only [met, hstack, List.map_append, List.map_cons, List.append_assoc] at hnodup
  exact fun hmem => (List.nodup_append.1 hnodup).2.2 _ hmem _ (by simp) rfl

/-- A node with a successor that is looked at next is in the graph, and so is the successor. -/
theorem mem_of_rest (h : Invariant next nodes s) (hnodes : ∀ x ∈ nodes, ∀ y ∈ next x, y ∈ nodes)
    (hpath : s.path = v :: path) {w : α} {rest : List α} (hrest : v.rest = w :: rest) :
    w ∈ next v.node ∧ w ∈ nodes := by
  obtain ⟨above, below, hstack, hlayer, -⟩ := h.exists_layer hpath
  obtain ⟨done, hdone, -⟩ := hlayer.looked
  have hw : w ∈ next v.node := by simp [hdone, hrest]
  have hv : v.node ∈ nodes := h.within _ (by simp [met, hstack])
  exact ⟨hw, hnodes _ hv w hw⟩

/-- The next successor of the latest node has been looked at. -/
theorem look (h : Invariant next nodes s) (hpath : s.path = v :: path) {w : α} {rest : List α}
    (hrest : v.rest = w :: rest)
    (hset : ∀ low w, Settled s.stack s.found low w → Settled stack' s.found low w) {low : Nat}
    (hle : low ≤ v.low)
    (hopen : low = v.low ∨ ∃ u, (u, low) ∈ s.stack ∧ Leads next v.node u)
    (hw : Settled stack' s.found low w) :
    Layers next stack' s.found ({ v with rest, low } :: path) s.stack := by
  obtain ⟨above, below, hstack, hlayer, hedge, hlayers⟩ := h.exists_layer hpath
  have hsorted : Sorted (above ++ (v.node, v.number) :: below) := hstack ▸ h.sorted
  have hopen' : ∃ u, (u, low) ∈ (v.node, v.number) :: below ∧ Leads next v.node u := by
    rcases hopen with rfl | ⟨u, hu, hleads⟩
    · exact hlayer.low_open
    · rw [hstack] at hu
      rcases List.mem_append.1 hu with habove | hbelow
      · have hlt : v.number < low := hsorted.lt_of_mem_above habove
        have := hlayer.low_le
        omega
      · exact ⟨u, hbelow, hleads⟩
  rw [hstack]
  exact .cons ((hlayer.congr hset).look hrest hle hopen' hw) hedge (hlayers.congr hset)

end Invariant

/-! ## Steps -/

/-- What the nodes of a path will cost. -/
def pathSize : List (Visit α) → Nat
  | [] => 0
  | v :: path => v.rest.length + 1 + pathSize path

theorem pathSize_lower (low : Nat) (path : List (Visit α)) :
    pathSize (lower low path) = pathSize path := by
  cases path <;> rfl

variable [DecidableEq α]

theorem lookup_eq_none_iff {w : α} : stack.lookup w = none ↔ w ∉ stack.map Prod.fst := by
  rw [List.lookup_eq_none_iff, List.mem_map]
  constructor
  · rintro h ⟨e, he, rfl⟩
    simpa using h e he
  · intro h e he
    exact bne_iff_ne.2 fun heq => h ⟨e, he, heq.symm⟩

theorem isDone_iff {w : α} : s.isDone w = true ↔ w ∈ s.found.flatten := by
  simp [isDone]

theorem isMet_iff {w : α} : s.isMet w = true ↔ w ∈ s.met := by
  rw [isMet, met, Bool.or_eq_true, isDone_iff, List.mem_append]
  refine or_congr_left ?_
  rw [← not_iff_not, ← lookup_eq_none_iff, Bool.not_eq_true, Option.isSome_eq_false_iff,
    Option.isNone_iff_eq_none]

/-- What one step can do. -/
inductive Stepped (next : α → List α) : ComponentSearch α → ComponentSearch α → Prop
  | skip {s : ComponentSearch α} {root : α} {roots : List α} (hpath : s.path = [])
      (hroots : s.roots = root :: roots) (hmet : root ∈ s.met) : Stepped next s { s with roots }
  | start {s : ComponentSearch α} {root : α} {roots : List α} (hpath : s.path = [])
      (hroots : s.roots = root :: roots) (hnew : root ∉ s.met) :
      Stepped next s ({ s with roots }.enter next root)
  | look {s : ComponentSearch α} {v : Visit α} {path : List (Visit α)} {w : α} {rest : List α}
      {n : Nat} (hpath : s.path = v :: path) (hrest : v.rest = w :: rest)
      (hopen : (w, n) ∈ s.stack) :
      Stepped next s { s with path := { v with rest, low := min v.low n } :: path }
  | pass {s : ComponentSearch α} {v : Visit α} {path : List (Visit α)} {w : α} {rest : List α}
      (hpath : s.path = v :: path) (hrest : v.rest = w :: rest) (hdone : w ∈ s.found.flatten) :
      Stepped next s { s with path := { v with rest } :: path }
  | descend {s : ComponentSearch α} {v : Visit α} {path : List (Visit α)} {w : α} {rest : List α}
      (hpath : s.path = v :: path) (hrest : v.rest = w :: rest) (hnew : w ∉ s.met) :
      Stepped next s ({ s with path := { v with rest } :: path }.enter next w)
  | leave {s : ComponentSearch α} {v : Visit α} {path : List (Visit α)}
      (hpath : s.path = v :: path) (hrest : v.rest = []) : Stepped next s (s.leave v path)

theorem stepped_of_step {s' : ComponentSearch α} (h : s.step next = some s') :
    Stepped next s s' := by
  unfold step at h
  split at h
  · next v path hpath =>
    split at h
    · next w rest hrest =>
      split at h
      · next n hlookup =>
        obtain rfl := Option.some.inj h
        obtain ⟨l₁, l₂, hstack, -⟩ := List.lookup_eq_some_iff.1 hlookup
        exact .look hpath hrest (by simp [hstack])
      · next hlookup =>
        obtain rfl := Option.some.inj h
        split
        · next hdone => exact .pass hpath hrest (isDone_iff.1 hdone)
        · next hdone =>
          refine .descend hpath hrest fun hmet => ?_
          rcases List.mem_append.1 hmet with hstack | hfound
          · exact lookup_eq_none_iff.1 hlookup hstack
          · exact hdone (isDone_iff.2 hfound)
    · next hrest =>
      obtain rfl := Option.some.inj h
      exact .leave hpath hrest
  · next hpath =>
    split at h
    · cases h
    · next root roots hroots =>
      obtain rfl := Option.some.inj h
      split
      · next hmet => exact .skip hpath hroots (isMet_iff.1 hmet)
      · next hmet => exact .start hpath hroots fun h => hmet (isMet_iff.2 h)

/-- At the end there is neither a path nor a root. -/
theorem of_step_eq_none (h : s.step next = none) : s.path = [] ∧ s.roots = [] := by
  unfold step at h
  split at h
  · split at h
    · split at h <;> cases h
    · cases h
  · next hpath =>
    split at h
    · next hroots => exact ⟨hpath, hroots⟩
    · cases h

theorem leave_of_ne {v : Visit α} {path : List (Visit α)} (h : v.low ≠ v.number) :
    s.leave v path = { s with path := lower v.low path } := by
  rw [leave]
  exact if_neg h

theorem leave_of_eq {v : Visit α} {path : List (Visit α)} {above below : List (α × Nat)}
    (h : v.low = v.number) (hstack : s.stack = above ++ (v.node, v.number) :: below)
    (hnew : v.node ∉ above.map Prod.fst) :
    s.leave v path = { s with
      path := lower v.low path
      stack := below
      found := (above.map Prod.fst ++ [v.node]) :: s.found } := by
  have htake : s.stack.takeWhile (fun e => e.1 ≠ v.node) = above := by
    have hne : ∀ e ∈ above, decide (e.1 ≠ v.node) = true := by
      intro e he
      refine decide_eq_true fun heq => hnew ?_
      exact heq ▸ List.mem_map_of_mem he
    rw [hstack, List.takeWhile_append_of_pos hne]
    simp
  have hdrop : s.stack.drop (above.length + 1) = below := by
    rw [hstack]
    simp
  rw [leave, if_pos h]
  dsimp only
  rw [htake, hdrop]

/-! ## What steps keep -/

namespace Invariant

variable {nodes : List α} {v : Visit α} {path : List (Visit α)}

/-- Leaving a node that leads to a lower one: its layer becomes a part of the next. -/
theorem leave_open (h : Invariant next nodes s) (hpath : s.path = v :: path) (hrest : v.rest = [])
    (hne : v.low ≠ v.number) : Invariant next nodes (s.leave v path) := by
  obtain ⟨above, below, hstack, hlayer, hedge, hlayers⟩ := h.exists_layer hpath
  have hlt : v.low < v.number := by
    have := hlayer.low_le
    omega
  rw [leave_of_ne hne]
  apply h.setPath
  have hsorted : Sorted below := by
    have hall := h.sorted
    rw [hstack] at hall
    exact (List.pairwise_cons.1 (List.pairwise_append.1 hall).2.1).2
  have htop := hlayers.leads_head
  cases hlayers with
  | nil =>
    -- without a layer below there is no lower number
    obtain ⟨u, hu, -⟩ := hlayer.low_open
    simp at hu
    omega
  | @cons p path above' below' hp hedge' hrest' =>
    have habsorb := hp.absorb hlayer hsorted hrest (hedge p (by simp)) hlt (htop p (by simp))
    have hcons := Layers.cons habsorb hedge' hrest'
    have hassoc : s.stack = (above ++ (v.node, v.number) :: above') ++
        (p.node, p.number) :: below' := by
      rw [hstack]
      simp
    rw [lower]
    nth_rewrite 2 [hassoc]
    exact hcons

/-- Leaving a node meets none. -/
theorem met_leave (h : Invariant next nodes s) (hpath : s.path = v :: path) :
    (s.leave v path).met.Perm s.met := by
  by_cases heq : v.low = v.number
  · obtain ⟨above, below, hstack, -⟩ := h.exists_layer hpath
    rw [leave_of_eq heq hstack (h.node_not_mem hstack)]
    have hmet : s.met =
        (above.map Prod.fst ++ [v.node]) ++ below.map Prod.fst ++ s.found.flatten := by
      simp [met, hstack]
    rw [hmet, met, List.flatten_cons, ← List.append_assoc]
    exact List.perm_append_comm.append_right _
  · rw [leave_of_ne heq]
    exact List.Perm.refl _

/-- Leaving a node that leads to no lower one: its layer is a component. -/
theorem leave_complete (h : Invariant next nodes s) (hpath : s.path = v :: path)
    (hrest : v.rest = []) (heq : v.low = v.number) : Invariant next nodes (s.leave v path) := by
  obtain ⟨above, below, hstack, hlayer, hedge, hlayers⟩ := h.exists_layer hpath
  have hsorted : Sorted (above ++ (v.node, v.number) :: below) := hstack ▸ h.sorted
  have hperm := h.met_leave hpath
  rw [leave_of_eq heq hstack (h.node_not_mem hstack)] at hperm ⊢
  -- what was settled is so still, since what leaves the stack is complete
  have hset : ∀ low w, Settled s.stack s.found low w →
      Settled below ((above.map Prod.fst ++ [v.node]) :: s.found) low w := by
    rintro low w (hw | ⟨n, hn, hle⟩)
    · exact Or.inl (by simp [hw])
    · rw [hstack, List.mem_append, List.mem_cons] at hn
      rcases hn with hn | hn | hn
      · exact Or.inl (List.mem_append_left _ (List.mem_append_left _ (List.mem_map_of_mem hn)))
      · obtain ⟨rfl, -⟩ := Prod.mk.inj hn
        exact Or.inl (by simp)
      · exact Or.inr ⟨n, hn, hle⟩
  have hlower : lower v.low path = path := by
    cases hlayers with
    | nil => rfl
    | @cons p path above' below' hp _ _ =>
      have hlow := hp.low_le
      have hnumber : p.number < v.number :=
        hsorted.lt_of_mem_below (e := (p.node, p.number)) (by simp)
      have hmin : min p.low v.low = p.low := by omega
      rw [lower, hmin]
  constructor
  · rw [hlower]
    exact hlayers.congr hset
  · exact (List.pairwise_cons.1 (List.pairwise_append.1 hsorted).2.1).2
  · intro e he
    exact h.numbered e (by rw [hstack]; simp [show e ∈ below from he])
  · exact hperm.nodup_iff.2 h.nodup
  · refine ⟨⟨by simp, fun x hx y hy => hlayer.connected hx hy, fun x hx y hy => ?_⟩, h.complete⟩
    -- a successor that is open has a number in the layer
    rcases hlayer.settled_all hrest hx hy with hdone | ⟨n, hn, hle⟩
    · exact Or.inr hdone
    · rw [hstack, List.mem_append, List.mem_cons] at hn
      rcases hn with hn | hn | hn
      · exact Or.inl (List.mem_append_left _ (List.mem_map_of_mem hn))
      · obtain ⟨rfl, -⟩ := Prod.mk.inj hn
        exact Or.inl (by simp)
      · have hlt := hsorted.lt_of_mem_below hn
        omega
  · exact fun x hx => h.within x (hperm.mem_iff.1 hx)
  · exact h.roots_within
  · exact fun x hx => (h.covered x hx).imp_right hperm.mem_iff.2

/-- **What a step keeps.** -/
theorem step (h : Invariant next nodes s) (hnodes : ∀ x ∈ nodes, ∀ y ∈ next x, y ∈ nodes)
    {s' : ComponentSearch α} (hstep : Stepped next s s') : Invariant next nodes s' := by
  cases hstep with
  | @skip root roots hpath hroots hmet =>
    refine ⟨h.layers, h.sorted, h.numbered, h.nodup, h.complete, h.within, fun x hx => ?_,
      fun x hx => ?_⟩
    · exact h.roots_within x (by simp [hroots, show x ∈ roots from hx])
    · rcases h.covered x hx with hx | hx
      · rw [hroots] at hx
        rcases List.mem_cons.1 hx with rfl | hx
        · exact Or.inr hmet
        · exact Or.inl hx
      · exact Or.inr hx
  | @start root roots hpath hroots hnew =>
    have hlayers : Layers next ((root, s.count) :: s.stack) s.found [] s.stack :=
      hpath ▸ h.layers.congr fun _ _ hw => hw.push
    have hstart : Invariant next nodes ({ s with roots, path := [] }.enter next root) :=
      h.enter hlayers (by simp) (h.roots_within root (by simp [hroots])) hnew
        (by simp +contextual [hroots]) (by simp +contextual [hroots])
    rwa [← hpath] at hstart
  | @look v path w rest n hpath hrest hopen =>
    have hw := (h.mem_of_rest hnodes hpath hrest).1
    refine h.setPath (h.look hpath hrest (fun _ _ => id) (Nat.min_le_left _ _) ?_ ?_)
    · rcases Nat.le_total v.low n with hle | hle
      · exact Or.inl (Nat.min_eq_left hle)
      · exact Or.inr ⟨w, by rwa [Nat.min_eq_right hle], .single hw⟩
    · exact Or.inr ⟨n, hopen, Nat.min_le_right _ _⟩
  | @pass v path w rest hpath hrest hdone =>
    exact h.setPath
      (h.look hpath hrest (fun _ _ => id) (Nat.le_refl _) (Or.inl rfl) (Or.inl hdone))
  | @descend v path w rest hpath hrest hnew =>
    obtain ⟨hedge, hw⟩ := h.mem_of_rest hnodes hpath hrest
    obtain ⟨above, below, hstack, hlayer, -⟩ := h.exists_layer hpath
    have hlow : v.low ≤ s.count := by
      have hnumber := h.numbered (v.node, v.number) (by simp [hstack])
      have := hlayer.low_le
      dsimp only at hnumber
      omega
    have hlayers := h.look hpath hrest (fun _ _ hx => hx.push) (Nat.le_refl _) (Or.inl rfl)
      (Or.inr ⟨s.count, List.mem_cons_self, hlow⟩ : Settled ((w, s.count) :: s.stack) _ _ w)
    exact h.enter hlayers (by simpa using hedge) hw hnew (fun _ => id) (fun _ => Or.inl)
  | @leave v path hpath hrest =>
    by_cases heq : v.low = v.number
    · exact h.leave_complete hpath hrest heq
    · exact h.leave_open hpath hrest heq

end Invariant

/-! ## The search ends -/

/-- What nodes cost: two steps each, and one for every successor. -/
def costs (next : α → List α) (nodes : List α) : List (α × List α) :=
  nodes.map fun x => (x, x :: x :: next x)

/-- A bound for the number of steps that are left. -/
def size (next : α → List α) (nodes : List α) (s : ComponentSearch α) : Nat :=
  s.roots.length + pathSize s.path + (bill (costs next nodes) s.met).length

theorem bill_costs_lt {nodes met : List α} {w : α} (hw : w ∈ nodes) (hnew : w ∉ met) :
    (bill (costs next nodes) (w :: met)).length + ((next w).length + 1) <
      (bill (costs next nodes) met).length := by
  have hmem : (w, w :: w :: next w) ∈ costs next nodes := List.mem_map.2 ⟨w, hw, rfl⟩
  have hpaid := bill_cons_le hmem hnew
  dsimp only [List.length_cons] at hpaid
  omega

/-- **A step uses something up**: a root, a successor, or a node of the path. -/
theorem size_lt {nodes : List α} {s' : ComponentSearch α} (h : Invariant next nodes s)
    (hnodes : ∀ x ∈ nodes, ∀ y ∈ next x, y ∈ nodes) (hstep : Stepped next s s') :
    s'.size next nodes < s.size next nodes := by
  cases hstep with
  | @skip root roots hpath hroots hmet =>
    show roots.length + pathSize s.path + (bill (costs next nodes) s.met).length < _
    rw [size, hroots, List.length_cons]
    omega
  | @start root roots hpath hroots hnew =>
    have hlt : _ < (bill (costs next nodes) s.met).length :=
      bill_costs_lt (h.roots_within root (by simp [hroots])) hnew
    show roots.length + ((next root).length + 1 + pathSize s.path) +
      (bill (costs next nodes) (root :: s.met)).length < _
    rw [size, hroots, List.length_cons]
    omega
  | @look v path w rest n hpath hrest hopen =>
    show s.roots.length + (rest.length + 1 + pathSize path) +
      (bill (costs next nodes) s.met).length < _
    rw [size, hpath, pathSize, hrest, List.length_cons]
    omega
  | @pass v path w rest hpath hrest hdone =>
    show s.roots.length + (rest.length + 1 + pathSize path) +
      (bill (costs next nodes) s.met).length < _
    rw [size, hpath, pathSize, hrest, List.length_cons]
    omega
  | @descend v path w rest hpath hrest hnew =>
    have hlt : _ < (bill (costs next nodes) s.met).length :=
      bill_costs_lt (h.mem_of_rest hnodes hpath hrest).2 hnew
    show s.roots.length + ((next w).length + 1 + (rest.length + 1 + pathSize path)) +
      (bill (costs next nodes) (w :: s.met)).length < _
    rw [size, hpath, pathSize, hrest, List.length_cons]
    omega
  | @leave v path hpath hrest =>
    have hle : (bill (costs next nodes) (s.leave v path).met).length ≤
        (bill (costs next nodes) s.met).length :=
      bill_le fun x hx => (h.met_leave hpath).mem_iff.2 hx
    have hleave : (s.leave v path).roots = s.roots ∧ (s.leave v path).path = lower v.low path := by
      unfold leave
      dsimp only
      split <;> exact ⟨rfl, rfl⟩
    rw [size, size, hleave.1, hleave.2, pathSize_lower, hpath, pathSize]
    omega

/-- The search without a bound on its steps. -/
inductive Runs (next : α → List α) : ComponentSearch α → ComponentSearch α → Prop
  | done {s : ComponentSearch α} (h : s.step next = none) : Runs next s s
  | step {s s₁ s' : ComponentSearch α} (h : s.step next = some s₁) (hrest : Runs next s₁ s') :
      Runs next s s'

/-- **The search ends**, with as many steps as its size says. -/
theorem run_runs {nodes : List α} (hnodes : ∀ x ∈ nodes, ∀ y ∈ next x, y ∈ nodes) (fuel : Nat) :
    ∀ s : ComponentSearch α, Invariant next nodes s → s.size next nodes ≤ fuel →
      Runs next s (run next fuel s) := by
  induction fuel with
  | zero =>
    intro s h hsize
    cases hstep : s.step next with
    | none => exact .done hstep
    | some s₁ =>
      have := size_lt h hnodes (stepped_of_step hstep)
      omega
  | succ fuel ih =>
    intro s h hsize
    rw [run]
    cases hstep : s.step next with
    | none => exact .done hstep
    | some s₁ =>
      have hstepped := stepped_of_step hstep
      have := size_lt h hnodes hstepped
      exact .step hstep (ih s₁ (h.step hnodes hstepped) (by omega))

/-- What holds at the end of a search. -/
theorem Runs.end {nodes : List α} (hnodes : ∀ x ∈ nodes, ∀ y ∈ next x, y ∈ nodes)
    {s' : ComponentSearch α} (hruns : Runs next s s') (h : Invariant next nodes s) :
    Complete next s'.found ∧ s'.found.flatten.Nodup ∧ ∀ x, x ∈ s'.found.flatten ↔ x ∈ nodes := by
  induction hruns with
  | @done s hstep =>
    obtain ⟨hpath, hroots⟩ := of_step_eq_none hstep
    have hlayers := h.layers
    rw [hpath] at hlayers
    have hstack : s.stack = [] := by
      generalize hl : s.stack = l at hlayers
      cases hlayers with
      | nil => rfl
    have hmet : s.met = s.found.flatten := by simp [met, hstack]
    refine ⟨h.complete, hmet ▸ h.nodup, fun x => ⟨fun hx => h.within x (hmet ▸ hx), fun hx => ?_⟩⟩
    rcases h.covered x hx with hx | hx
    · simp [hroots] at hx
    · exact hmet ▸ hx
  | step hstep _ ih => exact ih (h.step hnodes (stepped_of_step hstep))

end ComponentSearch

/-- The strongly connected components of a graph with some nodes, none of which leads to a later
one. -/
structure AreComponents (next : α → List α) (nodes : List α) (cs : List (List α)) : Prop where
  perm : cs.flatten.Perm nodes
  ne_nil : ∀ c ∈ cs, c ≠ []
  mem_iff : ∀ x ∈ nodes, ∀ y,
    (∃ c ∈ cs, x ∈ c ∧ y ∈ c) ↔ Leads next x y ∧ Leads next y x
  ordered : cs.Pairwise fun c d => ∀ x ∈ c, ∀ y ∈ d, ¬ Leads next x y

open ComponentSearch in
/-- **A search finds the components.** -/
theorem components_spec [DecidableEq α] {nodes : List α} (hnodup : nodes.Nodup)
    (hnodes : ∀ x ∈ nodes, ∀ y ∈ next x, y ∈ nodes) :
    (∃ s, Runs next { roots := nodes } s ∧ components next nodes = s.found.reverse) ∧
      AreComponents next nodes (components next nodes) := by
  have hinit := Invariant.init next nodes
  have hsize : ({ roots := nodes } : ComponentSearch α).size next nodes ≤
      (nodes.flatMap next).length + 3 * nodes.length := by
    have hbill : (bill (costs next nodes) []).length =
        (nodes.flatMap next).length + 2 * nodes.length := by
      clear hnodup hnodes hinit
      induction nodes with
      | nil => rfl
      | cons a l ih =>
        simp only [bill, costs, List.not_mem_nil, not_false_eq_true, decide_true, List.filter_true,
          List.map_cons, List.flatMap_cons, List.length_append, List.length_cons] at ih ⊢
        omega
    show nodes.length + 0 + (bill (costs next nodes) []).length ≤ _
    omega
  have hruns := run_runs hnodes _ _ hinit hsize
  obtain ⟨hcomplete, hfound, hmem⟩ := hruns.end hnodes hinit
  refine ⟨⟨_, hruns, rfl⟩, ?_, ?_, ?_, ?_⟩
  · refine (List.reverse_perm _).flatten.trans ?_
    exact (List.perm_ext_iff_of_nodup hfound hnodup).2 hmem
  · intro c hc
    exact (hcomplete.mem (List.mem_reverse.1 hc)).1
  · intro x hx y
    constructor
    · rintro ⟨c, hc, hxc, hyc⟩
      have hconnected := (hcomplete.mem (List.mem_reverse.1 hc)).2
      exact ⟨hconnected x hxc y hyc, hconnected y hyc x hxc⟩
    · rintro ⟨hxy, hyx⟩
      obtain ⟨c, hc, hmem⟩ := hcomplete.exists_mem ((hmem x).2 hx) hxy hyx
      exact ⟨c, List.mem_reverse.2 hc, hmem⟩
  · exact List.pairwise_reverse.2 (hcomplete.pairwise hfound)

end SsaOpt.Flow
