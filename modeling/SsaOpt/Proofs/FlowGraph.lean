import SsaOpt.Flow.Graph
import SsaOpt.Proofs.Walks

/-!
# Flow graphs and what can be reached

`Function.Flows` is the relation that the flow graph of a function is about: control may go from one
block to another one, by a branch or to the handler. For a function whose blocks have distinct
numbers the reverse post-order lists exactly the blocks that can be reached (`mem_rpo_iff`), each
once (`rpo_nodup`), the entry first (`rpo_head?`), and every other one after one of its
predecessors (`rpo_led`). The search for unreachable blocks finds the same blocks
(`mem_reach_iff`).
-/

namespace SsaOpt

open Relation

/-- In an association list without repeated keys an entry is found by its key. -/
theorem lookup_eq_some_iff_mem {α β : Type} [BEq α] [LawfulBEq α] {l : List (α × β)}
    (h : (l.map Prod.fst).Nodup) {a : α} {b : β} : l.lookup a = some b ↔ (a, b) ∈ l := by
  induction l with
  | nil => simp
  | cons e l ih =>
    obtain ⟨k, v⟩ := e
    rw [List.map_cons, List.nodup_cons] at h
    rw [List.lookup_cons, List.mem_cons, Prod.mk.injEq]
    by_cases hk : a = k
    · subst hk
      simp only [beq_self_eq_true, Option.some.injEq, true_and]
      constructor
      · exact fun hv => Or.inl hv.symm
      · rintro (rfl | hm)
        · rfl
        · exact absurd (List.mem_map_of_mem (f := Prod.fst) hm) h.1
    · simp only [beq_eq_false_iff_ne.2 hk, hk, false_and, false_or]
      exact ih h.2

theorem mem_of_lookup_eq_some {α β : Type} [BEq α] [LawfulBEq α] {l : List (α × β)} {a : α} {b : β}
    (h : l.lookup a = some b) : (a, b) ∈ l := by
  obtain ⟨l₁, l₂, heq, -⟩ := List.lookup_eq_some_iff.1 h
  simp [heq]

/-- Entries under other keys do not matter for a look-up. -/
theorem lookup_filter {κ α : Type} [BEq κ] [LawfulBEq κ] {l : List (κ × α)} {q : κ → Bool} {k : κ}
    (hk : q k = true) : (l.filter fun e => q e.1).lookup k = l.lookup k := by
  induction l with
  | nil => rfl
  | cons e l ih =>
    obtain ⟨k', v⟩ := e
    by_cases heq : k = k'
    · subst heq
      rw [List.filter_cons_of_pos (p := fun e : κ × α => q e.1) hk, List.lookup_cons_self,
        List.lookup_cons_self]
    · have hne : (k == k') = false := by simpa using heq
      rw [List.filter_cons]
      split
      · rw [List.lookup_cons, List.lookup_cons, hne, ih]
      · rw [List.lookup_cons, hne, ih]

theorem Term.mem_targets_brIf {c : ValueId} {yes no id : BlockId} :
    id ∈ (Term.brIf c yes no).targets ↔ id = yes ∨ id = no := by
  by_cases h : no = yes <;> simp [Term.targets, h]

theorem Block.mem_successors {b : Block} {id : BlockId} :
    id ∈ b.successors ↔
      (∃ t, b.term = some t ∧ id ∈ t.targets) ∨ (b.handler ≠ 0 ∧ id = b.handler) := by
  cases ht : b.term <;> by_cases hh : b.handler = 0 <;> simp [successors, ht, hh]

namespace Function

/-- The numbers of the blocks. -/
def blockIds (fn : Function) : List BlockId := fn.blocks.map Block.id

/-- Control may go from block `p` to block `q`, and both exist. -/
def Flows (fn : Function) (p q : BlockId) : Prop :=
  (∃ b ∈ fn.blocks, b.id = p ∧ q ∈ b.successors) ∧ q ∈ fn.blockIds

/-- Control may come to block `id` from the entry. -/
def Reachable (fn : Function) (id : BlockId) : Prop :=
  ∃ e, fn.entryBlock? = some e ∧ ReflTransGen fn.Flows e.id id

theorem length_blockIds (fn : Function) : fn.blockIds.length = fn.blocks.length :=
  List.length_map _

theorem mem_blockIds {fn : Function} {id : BlockId} :
    id ∈ fn.blockIds ↔ ∃ b ∈ fn.blocks, b.id = id := by
  simp [blockIds]

theorem mem_of_block? {fn : Function} {id : BlockId} {b : Block} (h : fn.block? id = some b) :
    b ∈ fn.blocks ∧ b.id = id := by
  refine ⟨List.mem_of_find?_eq_some h, ?_⟩
  simpa using List.find?_some h

/-- Among blocks with distinct numbers a block is known by its number. -/
theorem eq_of_id_eq {fn : Function} (h : fn.blockIds.Nodup) {b c : Block} (hb : b ∈ fn.blocks)
    (hc : c ∈ fn.blocks) (hid : b.id = c.id) : b = c :=
  List.inj_on_of_nodup_map h hb hc hid

theorem block?_of_mem {fn : Function} (h : fn.blockIds.Nodup) {b : Block} (hb : b ∈ fn.blocks) :
    fn.block? b.id = some b := by
  have hsome : (fn.block? b.id).isSome := by
    rw [block?, List.find?_isSome]
    exact ⟨b, hb, by simp⟩
  obtain ⟨c, hc⟩ := Option.isSome_iff_exists.1 hsome
  obtain ⟨hmem, hid⟩ := mem_of_block? hc
  rw [hc, eq_of_id_eq h hmem hb hid]

theorem entryBlock?_mem {fn : Function} {e : Block} (h : fn.entryBlock? = some e) :
    e ∈ fn.blocks := by
  unfold entryBlock? at h
  split at h
  · exact List.mem_of_mem_head? h
  · exact (mem_of_block? h).1

theorem Reachable.mem_blockIds {fn : Function} {id : BlockId} (h : fn.Reachable id) :
    id ∈ fn.blockIds := by
  obtain ⟨e, he, hpath⟩ := h
  cases hpath with
  | refl => exact Function.mem_blockIds.2 ⟨e, entryBlock?_mem he, rfl⟩
  | tail _ hstep => exact hstep.2

theorem Reachable.step {fn : Function} {p q : BlockId} (h : fn.Reachable p) (hpq : fn.Flows p q) :
    fn.Reachable q := by
  obtain ⟨e, he, hpath⟩ := h
  exact ⟨e, he, hpath.tail hpq⟩

end Function

/-! ## Reverse post-order -/

namespace FlowGraph

/-- The edges of the flow graph of a function, block by block. -/
def edgesOf (fn : Function) : List (BlockId × List BlockId) :=
  fn.blocks.map fun b => (b.id, b.successors)

theorem build_edges (fn : Function) : (build fn).edges = edgesOf fn := by
  unfold build
  cases fn.entryBlock? <;> rfl

theorem edgesOf_fst (fn : Function) : (edgesOf fn).map Prod.fst = fn.blockIds := by
  simp [edgesOf, Function.blockIds]

variable {fn : Function}

theorem mem_succsIn_iff (h : fn.blockIds.Nodup) {p q : BlockId} :
    q ∈ succsIn (edgesOf fn) p ↔ ∃ b ∈ fn.blocks, b.id = p ∧ q ∈ b.successors := by
  have hnodup : ((edgesOf fn).reverse.map Prod.fst).Nodup := by
    rw [List.map_reverse, List.nodup_reverse, edgesOf_fst]
    exact h
  unfold succsIn
  constructor
  · intro hq
    cases hl : (edgesOf fn).reverse.lookup p with
    | none => simp [hl] at hq
    | some ss =>
      have hmem := List.mem_reverse.1 ((lookup_eq_some_iff_mem hnodup).1 hl)
      obtain ⟨b, hb, he⟩ := List.mem_map.1 hmem
      obtain ⟨hid, hss⟩ := Prod.mk.inj he
      exact ⟨b, hb, hid, by simpa [hl, hss] using hq⟩
  · rintro ⟨b, hb, rfl, hq⟩
    have hmem : (b.id, b.successors) ∈ (edgesOf fn).reverse :=
      List.mem_reverse.2 (List.mem_map.2 ⟨b, hb, rfl⟩)
    rw [(lookup_eq_some_iff_mem hnodup).2 hmem]
    exact hq

/-- The successors of a block that exist. -/
def existingSuccs (edges : List (BlockId × List BlockId)) (id : BlockId) : List BlockId :=
  (succsIn edges id).filter (hasNode edges)

theorem hasNode_edgesOf {id : BlockId} : hasNode (edgesOf fn) id = true ↔ id ∈ fn.blockIds := by
  rw [hasNode, edgesOf_fst, List.contains_iff_mem]

theorem mem_existingSuccs_iff (h : fn.blockIds.Nodup) {p q : BlockId} :
    q ∈ existingSuccs (edgesOf fn) p ↔ fn.Flows p q := by
  rw [existingSuccs, List.mem_filter, mem_succsIn_iff h, hasNode_edgesOf]
  rfl

theorem mem_preds_iff {p q : BlockId} :
    p ∈ (build fn).preds q ↔ ∃ b ∈ fn.blocks, b.id = p ∧ q ∈ b.successors := by
  rw [preds, build_edges, edgesOf, List.mem_flatMap]
  constructor
  · rintro ⟨e, he, hp⟩
    obtain ⟨b, hb, rfl⟩ := List.mem_map.1 he
    obtain ⟨s, hs, rfl⟩ := List.mem_map.1 hp
    obtain ⟨hs, hq⟩ := List.mem_filter.1 hs
    exact ⟨b, hb, rfl, by simpa using (decide_eq_true_iff.1 hq) ▸ hs⟩
  · rintro ⟨b, hb, rfl, hq⟩
    refine ⟨(b.id, b.successors), List.mem_map.2 ⟨b, hb, rfl⟩, List.mem_map.2 ⟨q, ?_, rfl⟩⟩
    exact List.mem_filter.2 ⟨hq, by simp⟩

section Rpo

variable {e : Block}

/-- A block that exists is listed with its successors. -/
theorem mem_edges_of_hasNode {edges : List (BlockId × List BlockId)} {id : BlockId}
    (h : hasNode edges id = true) : (id, succsIn edges id) ∈ edges := by
  have hsome : (edges.reverse.lookup id).isSome := by
    obtain ⟨e, he, hid⟩ := List.mem_map.1 (List.contains_iff_mem.1 h)
    exact List.lookup_isSome_iff.2 ⟨e, List.mem_reverse.2 he, by simp [hid]⟩
  obtain ⟨ss, hss⟩ := Option.isSome_iff_exists.1 hsome
  rw [succsIn, hss]
  exact List.mem_reverse.1 (mem_of_lookup_eq_some hss)

/-- **The walk behind the reverse post-order** comes to an end. -/
theorem rpo_finishes (he : fn.entryBlock? = some e) :
    ∃ w, Flow.Finishes (Flow.Walk.step (succsIn (build fn).edges) (hasNode (build fn).edges))
      (Flow.Walk.enter (succsIn (build fn).edges) {} e.id) w ∧ w.done = (build fn).rpo := by
  rw [build_edges]
  refine ⟨walkFrom (edgesOf fn) e.id, ?_, by simp [build, he, edgesOf]⟩
  refine Flow.Walk.run_finishes (fun s => mem_edges_of_hasNode) (hasNode_edgesOf.2 ?_)
  exact Function.mem_blockIds.2 ⟨e, Function.entryBlock?_mem he, rfl⟩

/-- The walk ends as a visit of the entry does. -/
theorem rpo_visits (he : fn.entryBlock? = some e) :
    ∃ t, Flow.Visits (existingSuccs (build fn).edges) {} [e.id] t ∧ t.done = (build fn).rpo := by
  obtain ⟨w, hfinishes, hdone⟩ := rpo_finishes he
  exact ⟨w.toTrace, Flow.Walk.visits_of_finishes hfinishes, hdone⟩

theorem rpo_grown (he : fn.entryBlock? = some e) :
    ∃ t, Flow.Grown (existingSuccs (edgesOf fn)) [e.id] (build fn).rpo {} t := by
  obtain ⟨t, hvisits, hdone⟩ := rpo_visits he
  rw [build_edges] at hvisits
  obtain ⟨new, h⟩ := hvisits.grown
  rw [← hdone, h.done_eq_new]
  exact ⟨t, h⟩

theorem rpo_nodup : (build fn).rpo.Nodup := by
  cases he : fn.entryBlock? with
  | none => simp [build, he]
  | some e =>
    obtain ⟨t, h⟩ := rpo_grown he
    exact h.nodup

theorem rpo_head? (he : fn.entryBlock? = some e) : (build fn).rpo.head? = some e.id := by
  obtain ⟨t, h⟩ := rpo_grown he
  exact h.head?_new

/-- The reverse post-order lists what can be reached. -/
theorem mem_rpo_iff (h : fn.blockIds.Nodup) {id : BlockId} :
    id ∈ (build fn).rpo ↔ fn.Reachable id := by
  cases he : fn.entryBlock? with
  | none => simp [build, he, Function.Reachable]
  | some e =>
    obtain ⟨t, hgrown⟩ := rpo_grown he
    have hrel : (fun a b => b ∈ existingSuccs (edgesOf fn) a) = fn.Flows := by
      funext a b
      exact propext (mem_existingSuccs_iff h)
    rw [hgrown.mem_new_iff, hrel]
    simp [Function.Reachable, he]

/-- A block other than the entry comes after one of its predecessors. -/
theorem rpo_led (h : fn.blockIds.Nodup) (he : fn.entryBlock? = some e) {l₁ l₂ : List BlockId}
    {id : BlockId} (hsplit : (build fn).rpo = l₁ ++ id :: l₂) (hid : id ≠ e.id) :
    ∃ p ∈ l₁, fn.Flows p id := by
  obtain ⟨t, hgrown⟩ := rpo_grown he
  rcases hgrown.led l₁ id l₂ hsplit with hx | ⟨p, hp, hx⟩
  · exact absurd (List.mem_singleton.1 hx) hid
  · exact ⟨p, hp, (mem_existingSuccs_iff h).1 hx⟩

end Rpo

end FlowGraph

/-! ## The other search -/

namespace Function

variable {fn : Function}

theorem mem_succsOf_iff (h : fn.blockIds.Nodup) {p q : BlockId} :
    q ∈ fn.succsOf p ↔ ∃ b ∈ fn.blocks, b.id = p ∧ q ∈ b.successors := by
  unfold succsOf
  constructor
  · intro hq
    cases hf : fn.blocks.reverse.find? fun b => b.id = p with
    | none => simp [hf] at hq
    | some b =>
      have hmem := List.mem_reverse.1 (List.mem_of_find?_eq_some hf)
      exact ⟨b, hmem, by simpa using List.find?_some hf, by simpa [hf] using hq⟩
  · rintro ⟨b, hb, rfl, hq⟩
    cases hf : fn.blocks.reverse.find? fun c => c.id = b.id with
    | none => exact absurd (List.find?_eq_none.1 hf b (List.mem_reverse.2 hb)) (by simp)
    | some c =>
      have hmem := List.mem_reverse.1 (List.mem_of_find?_eq_some hf)
      have hid : c.id = b.id := by simpa using List.find?_some hf
      rw [eq_of_id_eq h hmem hb hid]
      exact hq

/-- Going through blocks that do not exist leads nowhere. -/
theorem flows_of_succsOf (h : fn.blockIds.Nodup) {a id : BlockId}
    (hpath : ReflTransGen (fun p q => q ∈ fn.succsOf p) a id) (hid : id ∈ fn.blockIds) :
    ReflTransGen fn.Flows a id := by
  induction hpath with
  | refl => exact .refl
  | @tail p q _ hstep ih =>
    obtain ⟨b, hb, hp, hq⟩ := (mem_succsOf_iff h).1 hstep
    exact (ih (mem_blockIds.2 ⟨b, hb, hp⟩)).tail ⟨⟨b, hb, hp, hq⟩, hid⟩

theorem succsOf_subset {id s : BlockId} (h : s ∈ fn.succsOf id) :
    s ∈ fn.blocks.flatMap Block.successors := by
  unfold succsOf at h
  cases hf : fn.blocks.reverse.find? fun b => b.id = id with
  | none => simp [hf] at h
  | some b =>
    rw [hf] at h
    exact List.mem_flatMap.2 ⟨b, List.mem_reverse.1 (List.mem_of_find?_eq_some hf), h⟩

/-- **The search for unreachable blocks** comes to an end. -/
theorem reach_finishes {e : Block} (he : fn.entryBlock? = some e) :
    ∃ w, Flow.Finishes (Flow.Worklist.step fn.succsOf) (Flow.Worklist.see {} e.id) w ∧
      w.seen = fn.reach := by
  refine ⟨_, Flow.Worklist.run_finishes (fun x y => succsOf_subset) e.id, ?_⟩
  simp [reach, he]

theorem entry_mem_reach {e : Block} (he : fn.entryBlock? = some e) : e.id ∈ fn.reach := by
  obtain ⟨w, hfinishes, hseen⟩ := reach_finishes he
  rw [← hseen, Flow.Worklist.mem_seen_iff hfinishes]

/-- What the search finds among the blocks are those that can be reached. -/
theorem mem_reach_iff (h : fn.blockIds.Nodup) {id : BlockId} (hid : id ∈ fn.blockIds) :
    id ∈ fn.reach ↔ fn.Reachable id := by
  cases he : fn.entryBlock? with
  | none => simp [reach, Reachable, he]
  | some e =>
    obtain ⟨w, hfinishes, hseen⟩ := reach_finishes he
    rw [← hseen, Flow.Worklist.mem_seen_iff hfinishes, Reachable]
    constructor
    · exact fun hpath => ⟨e, he, flows_of_succsOf h hpath hid⟩
    · rintro ⟨e', he', hpath⟩
      obtain rfl := Option.some.inj (he.symm.trans he')
      refine ReflTransGen.mono (fun p q hpq => ?_) _ _ hpath
      exact (mem_succsOf_iff h).2 hpq.1

end Function

end SsaOpt
