import SsaOpt.Flow.Loops
import SsaOpt.Proofs.Dominators

/-!
# Natural loops

An edge from a node back to one of its dominators closes a loop (`BackEdge`). The loop of a header
holds the header and every node that can be reached and reaches the source of such an edge without
going through the header (`InLoop`). The header dominates all of its loop, and dominators of one
node dominate each other one way or the other; so two loops are apart, or one is inside the other
(`InLoop.apart_or_inside`).

The loops of a flow graph are these loops. The searches from the latches backwards come to an end
(`LoopInfo.body_collects`) as visits of the latches do, with the header met from the start
(`LoopInfo.body_visits`), and what they meet is the loop (`LoopInfo.mem_body_iff`). Headers come in
reverse post-order, where a dominator comes first; so of the loops that a block is in each is inside
those in front of it (`Enumerated.chain`), and the last one is the smallest
(`Enumerated.innermost?_eq`).
-/

namespace SsaOpt

open Relation

/-! ## Loops of a relation -/

namespace Flow

variable {α : Type} {r : α → α → Prop} {e h h' t x y : α}

/-- An edge from `t` back to its dominator `h`. -/
structure BackEdge (r : α → α → Prop) (e t h : α) : Prop where
  edge : r t h
  dominates : Dominates r e h t

/-- `x` is the header `h`, or it can be reached and there is a path from it to the source of an edge
back to `h` that does not visit `h`. -/
def InLoop (r : α → α → Prop) (e h x : α) : Prop :=
  x = h ∨ ReflTransGen r e x ∧ ∃ t p, BackEdge r e t h ∧ Path r x t p ∧ h ∉ p

namespace InLoop

/-- All that a path to a latch visits is in the loop. -/
theorem of_mem_path {p : List α} (ht : BackEdge r e t h) (hx : ReflTransGen r e x)
    (hp : Path r x t p) (hh : h ∉ p) (hy : y ∈ p) : InLoop r e h y := by
  obtain ⟨p₁, p₂, rfl, -, hright⟩ := hp.split hy
  refine Or.inr ⟨hx.trans (hp.reachable_of_mem hy), t, _, ht, hright, fun hmem => hh ?_⟩
  rcases List.mem_append.1 hmem with h₂ | h₂
  · exact List.mem_append_left _ h₂
  · rw [List.mem_singleton.1 h₂]
    simp

/-- **A header dominates its loop.** -/
theorem dominates (ht : BackEdge r e t h) (hx : InLoop r e h x) : Dominates r e h x := by
  rcases hx with rfl | ⟨hx, t', p, ht', hp, hh⟩
  · exact .refl ht.dominates.reachable_left
  · refine ⟨hx, fun q hq => ?_⟩
    obtain ⟨s, hs, hsub⟩ := hq.append hp
    exact (hsub h (ht'.dominates.2 s hs)).resolve_right hh

/-- The header that is above another one has it in its loop, if the loops have a node in common. -/
theorem header (ht' : BackEdge r e t h') (hne : h ≠ h') (hdom : Dominates r e h h')
    (hx : InLoop r e h x) (hx' : InLoop r e h' x) :
    ∃ t p, BackEdge r e t h ∧ Path r h' t p ∧ h ∉ p := by
  have hdom' := hx'.dominates ht'
  rcases hx with rfl | ⟨-, t, p, ht, hp, hh⟩
  · exact absurd (hdom.antisymm hdom') hne
  · obtain ⟨q, hq, hhq⟩ := hdom.exists_path_avoiding hne hdom'
    obtain ⟨s, hs, hsub⟩ := hq.append hp
    exact ⟨t, s, ht, hs, fun hmem => (hsub h hmem).elim hhq hh⟩

/-- The loop of a header below is inside, without the header above. -/
theorem inside (ht' : BackEdge r e t h') (hne : h ≠ h') (hdom : Dominates r e h h')
    (hx : InLoop r e h x) (hx' : InLoop r e h' x) :
    (∀ y, InLoop r e h' y → InLoop r e h y) ∧ ¬ InLoop r e h' h := by
  have hout : ¬ InLoop r e h' h := fun hin => hne (hdom.antisymm (hin.dominates ht'))
  refine ⟨fun y hy => ?_, hout⟩
  obtain ⟨t₁, p, ht₁, hp, hh⟩ := hx.header ht' hne hdom hx'
  rcases hy with rfl | ⟨hy, t₂, q, ht₂, hq, hh'⟩
  · exact Or.inr ⟨ht'.dominates.reachable_left, t₁, p, ht₁, hp, hh⟩
  · -- from `y` to the lower header, and on to a latch of the upper one
    have hhq : h ∉ q := fun hmem => hout (of_mem_path ht₂ hy hq hh' hmem)
    obtain ⟨s, hs, hsub⟩ := (Path.step hq ht₂.edge).append hp
    refine Or.inr ⟨hy, t₁, s, ht₁, hs, fun hmem => ?_⟩
    rcases hsub h hmem with hmem | hmem
    · exact (List.mem_cons.1 hmem).elim hne hhq
    · exact hh hmem

/-- **Two loops** are apart, or one is inside the other. -/
theorem apart_or_inside (ht : BackEdge r e t h) {t' : α} (ht' : BackEdge r e t' h') (hne : h ≠ h') :
    (∀ x, InLoop r e h x → ¬ InLoop r e h' x) ∨
      (Dominates r e h h' ∧ (∀ y, InLoop r e h' y → InLoop r e h y) ∧ ¬ InLoop r e h' h) ∨
      (Dominates r e h' h ∧ (∀ y, InLoop r e h y → InLoop r e h' y) ∧ ¬ InLoop r e h h') := by
  by_cases hapart : ∀ x, InLoop r e h x → ¬ InLoop r e h' x
  · exact Or.inl hapart
  · push Not at hapart
    obtain ⟨x, hx, hx'⟩ := hapart
    rcases (hx.dominates ht).total (hx'.dominates ht') with hdom | hdom
    · exact Or.inr (Or.inl ⟨hdom, hx.inside ht' hne hdom hx'⟩)
    · exact Or.inr (Or.inr ⟨hdom, hx'.inside ht (Ne.symm hne) hdom hx⟩)

end InLoop

/-- Every node of a list that is led has a path to a root, over nodes of the list, against the
direction of the search. -/
theorem Led.path {next : α → List α} {roots l : List α} (h : Led next roots l)
    (hnext : ∀ a ∈ l, ∀ b ∈ l, b ∈ next a → r b a) :
    ∀ x ∈ l, ∃ root ∈ roots, ∃ p, Path r x root p ∧ ∀ y ∈ p, y ∈ l := by
  -- induction on the number of nodes in front of `x`
  suffices ∀ n, ∀ l₁ x l₂, l₁.length = n → l = l₁ ++ x :: l₂ →
      ∃ root ∈ roots, ∃ p, Path r x root p ∧ ∀ y ∈ p, y ∈ l by
    intro x hx
    obtain ⟨l₁, l₂, hl⟩ := List.append_of_mem hx
    exact this _ l₁ x l₂ rfl hl
  intro n
  induction n using Nat.strongRecOn with
  | ind n ih =>
  intro l₁ x l₂ hn hl
  have hx : x ∈ l := by simp [hl]
  rcases h l₁ x l₂ hl with hroot | ⟨a, ha, hxa⟩
  · exact ⟨x, hroot, [x], .start, by simpa using hx⟩
  · obtain ⟨l₃, l₄, rfl⟩ := List.append_of_mem ha
    have hlt : l₃.length < n := by
      rw [← hn]
      simp
    obtain ⟨root, hroot, p, hp, hsub⟩ := ih l₃.length hlt l₃ a (l₄ ++ x :: l₂) rfl (by simp [hl])
    have hal : a ∈ l := by simp [hl]
    refine ⟨root, hroot, p ++ [x], hp.prepend (hnext a hal x hx hxa), fun y hy => ?_⟩
    rcases List.mem_append.1 hy with hy | hy
    · exact hsub y hy
    · rwa [List.mem_singleton.1 hy]

end Flow

/-! ## Loops of a flow graph -/

open SsaOpt.Flow

/-- Every block of the loop `l` is a block of `l'`, and `l'` has others. -/
def Loop.Inside (l l' : Loop) : Prop :=
  (∀ id, l.contains id = true → l'.contains id = true) ∧
    ∃ id, l'.contains id = true ∧ l.contains id = false

/-- The loop is a natural one: its latches are the sources of the edges back to its header, its
blocks those of the loop of its header, each once. -/
structure Loop.Natural (r : BlockId → BlockId → Prop) (e : BlockId) (l : Loop) : Prop where
  latch_iff : ∀ t, t ∈ l.latches ↔ BackEdge r e t l.header
  contains_iff : ∀ id, l.contains id = true ↔ InLoop r e l.header id
  nodup : l.blocks.Nodup

namespace LoopInfo

variable {g : FlowGraph} {t : DomTree} {r : BlockId → BlockId → Prop} {e h : BlockId}

theorem mem_back_iff (hg : g.Ordered r e) {p q : BlockId} (hq : q ∈ g.rpo) :
    p ∈ back g q ↔ p ∈ g.rpo ∧ r p q := by
  rw [back, List.mem_reverse, List.mem_filter, FlowGraph.reachable, List.contains_iff_mem,
    hg.mem_preds hq]
  exact and_comm

/-- The searches for the blocks of a loop, one for every latch in turn, without a bound on their
steps. -/
inductive Collects (g : FlowGraph) : List BlockId → List BlockId → List BlockId → Prop
  | nil (blocks : List BlockId) : Collects g blocks [] blocks
  | cons {blocks blocks' latches : List BlockId} {latch : BlockId} {w : Worklist BlockId}
    (h : Finishes (Worklist.take (back g)) { seen := blocks, work := [latch] } w)
    (hrest : Collects g w.seen latches blocks') : Collects g blocks (latch :: latches) blocks'

/-- They end as visits of the latches do. -/
theorem Collects.visits {blocks blocks' latches : List BlockId}
    (h : Collects g blocks latches blocks') (done : List BlockId) :
    ∃ trace, Visits (back g) ⟨blocks, done⟩ latches trace ∧ trace.met = blocks' := by
  induction h generalizing done with
  | nil blocks => exact ⟨_, .nil _, rfl⟩
  | @cons blocks blocks' latches latch w h _ ih =>
    obtain ⟨trace₁, hlatch, hseen⟩ := Worklist.visits_of_finishes h
    obtain ⟨done', hlatch⟩ := hlatch.of_done done
    obtain ⟨trace, hrest, hmet⟩ := ih done'
    rw [← hseen] at hrest
    exact ⟨trace, hlatch.cons hrest, hmet⟩

section Body

variable (hg : g.Ordered r e) {latches : List BlockId}
  (hlatches : ∀ t, t ∈ latches ↔ BackEdge r e t h)

include hg hlatches

theorem mem_rpo_of_latch : ∀ t ∈ latches, t ∈ g.rpo := fun t ht =>
  hg.mem_iff.2 ((hlatches t).1 ht).dominates.1

/-- **The searches for the blocks of a loop** come to an end. -/
theorem body_collects : Collects g [h] latches (body g h latches) := by
  have hnodes : ∀ x ∈ g.rpo, ∀ y ∈ back g x, y ∈ g.rpo := fun x hx y hy =>
    ((mem_back_iff hg hx).1 hy).1
  have hrpo := mem_rpo_of_latch hg hlatches
  clear hlatches
  unfold body
  generalize [h] = blocks
  induction latches generalizing blocks with
  | nil => exact .nil blocks
  | cons latch latches ih =>
    exact .cons (Worklist.take_finishes hnodes blocks (hrpo latch (by simp)))
      (ih (fun t ht => hrpo t (by simp [ht])) _)

theorem body_visits :
    ∃ trace, Visits (back g) { met := [h] } latches trace ∧ trace.met = body g h latches :=
  (body_collects hg hlatches).visits []

omit hlatches in
/-- A block with a path to a block that is met, around the header, is met as well. -/
theorem mem_new_of_path {new : List BlockId} {trace : Trace BlockId}
    (hgrown : Grown (back g) latches new { met := [h] } trace) (hrpo : ∀ y ∈ new, y ∈ g.rpo)
    {x y : BlockId} {p : List BlockId} (hx : ReflTransGen r e x) (hp : Path r x y p) (hh : h ∉ p)
    (hy : y ∈ new) : x ∈ new := by
  induction hp with
  | start => exact hy
  | @step b c p hp hbc ih =>
    obtain ⟨hhc, hhp⟩ := not_or.1 (mt List.mem_cons.2 hh)
    have hb : b ∈ back g c :=
      (mem_back_iff hg (hrpo c hy)).2 ⟨hg.mem_iff.2 (hx.trans hp.reachable), hbc⟩
    refine ih hhp (((hgrown.met_iff b).1 (hgrown.closed c hy b hb)).resolve_right fun hmem => ?_)
    exact hhp (List.mem_singleton.1 hmem ▸ hp.end_mem)

/-- **What the search meets** is the loop of the header. -/
theorem mem_body_iff {x : BlockId} : x ∈ body g h latches ↔ InLoop r e h x := by
  obtain ⟨trace, hvisits, hmet⟩ := body_visits hg hlatches
  obtain ⟨new, hgrown⟩ := hvisits.grown
  have hmem : ∀ y, y ∈ body g h latches ↔ y ∈ new ∨ y = h := fun y => by
    rw [← hmet, hgrown.met_iff y, List.mem_singleton]
  have hfresh : h ∉ new := fun hh => hgrown.fresh h hh (by simp)
  have hrpo : ∀ y ∈ new, y ∈ g.rpo := by
    intro y hy
    obtain ⟨root, hroot, hpath⟩ := hgrown.led.reachable y hy
    clear hy
    induction hpath with
    | refl => exact mem_rpo_of_latch hg hlatches root hroot
    | tail _ hstep ih => exact ((mem_back_iff hg ih).1 hstep).1
  rw [hmem x]
  constructor
  · rintro (hx | rfl)
    · obtain ⟨root, hroot, p, hp, hsub⟩ := hgrown.led.path (r := r)
        (fun a ha b _ hb => ((mem_back_iff hg (hrpo a ha)).1 hb).2) x hx
      exact Or.inr ⟨hg.mem_iff.1 (hrpo x hx), root, p, (hlatches root).1 hroot, hp,
        fun hh => hfresh (hsub h hh)⟩
    · exact Or.inl rfl
  · rintro (rfl | ⟨hx, t, p, ht, hp, hh⟩)
    · exact Or.inr rfl
    · have hmet : t ∈ trace.met := hgrown.roots_met t ((hlatches t).2 ht)
      have hnew : t ∈ new := ((hgrown.met_iff t).1 hmet).resolve_right fun hmem =>
        hh (List.mem_singleton.1 hmem ▸ hp.end_mem)
      exact Or.inl (mem_new_of_path hg hgrown hrpo hx hp hh hnew)

theorem body_nodup : (body g h latches).Nodup := by
  obtain ⟨trace, hvisits, hmet⟩ := body_visits hg hlatches
  rw [← hmet]
  exact hvisits.met_nodup (List.nodup_singleton h)

end Body

/-! ## The list of loops -/

/-- The tree decides dominance, and the successors are those of the relation. -/
structure Decides (g : FlowGraph) (t : DomTree) (r : BlockId → BlockId → Prop) (e : BlockId) :
    Prop extends g.Ordered r e where
  mem_succs : ∀ {p q}, q ∈ g.rpo → (q ∈ g.succs p ↔ r p q)
  dominates_iff : ∀ a b, t.dominates a b = true ↔ Dominates r e a b

namespace Decides

variable (hd : Decides g t r e)

include hd

theorem mem_latchesOf {x : BlockId} : x ∈ latchesOf g t h ↔ BackEdge r e x h := by
  rw [latchesOf, List.mem_flatMap]
  constructor
  · rintro ⟨b, hb, hx⟩
    split at hx
    · next hdom =>
      have hdom := (hd.dominates_iff h b).1 hdom
      obtain ⟨s, hs, rfl⟩ := List.mem_map.1 hx
      obtain ⟨hs, heq⟩ := List.mem_filter.1 hs
      rw [decide_eq_true_iff.1 heq] at hs
      exact ⟨(hd.mem_succs (hd.mem_iff.2 hdom.reachable_left)).1 hs, hdom⟩
    · cases hx
  · rintro ⟨hedge, hdom⟩
    refine ⟨x, hd.mem_iff.2 hdom.1, ?_⟩
    rw [if_pos ((hd.dominates_iff h x).2 hdom)]
    have hs : h ∈ g.succs x := (hd.mem_succs (hd.mem_iff.2 hdom.reachable_left)).2 hedge
    exact List.mem_map.2 ⟨h, List.mem_filter.2 ⟨hs, by simp⟩, rfl⟩

end Decides

theorem loopAt?_eq_some_iff {l : Loop} : loopAt? g t h = some l ↔
    l = ⟨h, latchesOf g t h, body g h (latchesOf g t h)⟩ ∧ latchesOf g t h ≠ [] := by
  unfold loopAt?
  cases hl : latchesOf g t h with
  | nil => simp
  | cons a as => simp [eq_comm]

/-- The headers are the blocks with latches, in reverse post-order. -/
theorem map_header_find (g : FlowGraph) (t : DomTree) :
    (find g t).map Loop.header = g.rpo.filter fun h => latchesOf g t h ≠ [] := by
  rw [find]
  induction g.rpo with
  | nil => rfl
  | cons h rest ih =>
    rw [List.filterMap_cons, List.filter_cons]
    cases hl : loopAt? g t h with
    | none =>
      have hnil : latchesOf g t h = [] := by
        by_contra hne
        rw [loopAt?_eq_some_iff.2 ⟨rfl, hne⟩] at hl
        cases hl
      simpa [hnil] using ih
    | some l =>
      obtain ⟨rfl, hne⟩ := loopAt?_eq_some_iff.1 hl
      simpa [hne] using ih

theorem rpo_pairwise (hg : g.Ordered r e) :
    g.rpo.Pairwise fun a b => g.rpoIndex a < g.rpoIndex b := by
  rw [List.pairwise_iff_getElem]
  intro i j hi hj hij
  rw [FlowGraph.Rooted.rpoIndex_eq (List.getElem_mem hi),
    FlowGraph.Rooted.rpoIndex_eq (List.getElem_mem hj), FlowGraph.place, FlowGraph.place,
    hg.nodup.idxOf_getElem i hi, hg.nodup.idxOf_getElem j hj]
  omega

/-- What is known of a list of loops: each is a natural loop, there is one for every header, and
they come in the reverse post-order of their headers. -/
structure Enumerated (g : FlowGraph) (r : BlockId → BlockId → Prop) (e : BlockId)
    (loops : LoopInfo) : Prop where
  natural : ∀ l ∈ loops, l.Natural r e
  header_iff : ∀ h, h ∈ loops.map Loop.header ↔ ∃ t, BackEdge r e t h
  ordered : (loops.map Loop.header).Pairwise fun h h' => g.rpoIndex h < g.rpoIndex h'

/-- **The loops that are found.** -/
theorem find_enumerated (hd : Decides g t r e) : Enumerated g r e (find g t) where
  natural l hl := by
    obtain ⟨h, -, hl⟩ := List.mem_filterMap.1 hl
    obtain ⟨rfl, -⟩ := loopAt?_eq_some_iff.1 hl
    have hlatches := fun x => hd.mem_latchesOf (h := h) (x := x)
    refine ⟨hlatches, fun id => ?_, body_nodup hd.toOrdered hlatches⟩
    rw [Loop.contains, List.contains_iff_mem, mem_body_iff hd.toOrdered hlatches]
  header_iff h := by
    rw [map_header_find, List.mem_filter, decide_eq_true_iff]
    constructor
    · rintro ⟨-, hne⟩
      obtain ⟨x, hx⟩ := List.exists_mem_of_ne_nil _ hne
      exact ⟨x, hd.mem_latchesOf.1 hx⟩
    · rintro ⟨x, hx⟩
      exact ⟨hd.mem_iff.2 hx.dominates.reachable_left,
        List.ne_nil_of_mem (hd.mem_latchesOf.2 hx)⟩
  ordered := by
    rw [map_header_find]
    exact (rpo_pairwise hd.toOrdered).filter _

/-! ## Nesting -/

namespace Enumerated

variable {loops : LoopInfo} {l l' : Loop}

theorem headers_nodup (he : Enumerated g r e loops) : (loops.map Loop.header).Nodup :=
  he.ordered.imp fun h heq => absurd h (by simp [heq])

theorem exists_latch (he : Enumerated g r e loops) (hl : l ∈ loops) :
    ∃ t, BackEdge r e t l.header :=
  (he.header_iff l.header).1 (List.mem_map_of_mem hl)

theorem inside_of_inLoop (he : Enumerated g r e loops) (hl : l ∈ loops) (hl' : l' ∈ loops)
    (hsub : ∀ id, InLoop r e l'.header id → InLoop r e l.header id)
    (hout : ¬ InLoop r e l'.header l.header) : l'.Inside l := by
  have hin := (he.natural l hl).contains_iff
  have hin' := (he.natural l' hl').contains_iff
  refine ⟨fun id hid => (hin id).2 (hsub id ((hin' id).1 hid)), l.header, ?_, ?_⟩
  · exact (hin l.header).2 (Or.inl rfl)
  · exact Bool.eq_false_iff.2 (mt (hin' l.header).1 hout)

/-- **Two loops of the list** have no block in common, or one is inside the other. -/
theorem apart_or_inside (he : Enumerated g r e loops) (hl : l ∈ loops) (hl' : l' ∈ loops)
    (hne : l.header ≠ l'.header) :
    (∀ id, l.contains id = true → l'.contains id = false) ∨
      (Dominates r e l.header l'.header ∧ l'.Inside l) ∨
      (Dominates r e l'.header l.header ∧ l.Inside l') := by
  obtain ⟨t, ht⟩ := he.exists_latch hl
  obtain ⟨t', ht'⟩ := he.exists_latch hl'
  rcases InLoop.apart_or_inside ht ht' hne with hapart | ⟨hdom, hsub, hout⟩ | ⟨hdom, hsub, hout⟩
  · refine Or.inl fun id hid => Bool.eq_false_iff.2 (mt ((he.natural l' hl').contains_iff id).1 ?_)
    exact hapart id (((he.natural l hl).contains_iff id).1 hid)
  · exact Or.inr (Or.inl ⟨hdom, he.inside_of_inLoop hl hl' hsub hout⟩)
  · exact Or.inr (Or.inr ⟨hdom, he.inside_of_inLoop hl' hl hsub hout⟩)

/-- **The loops that a block is in** are a chain, each inside those in front of it. -/
theorem chain (hg : g.Ordered r e) (he : Enumerated g r e loops) (id : BlockId) :
    (loops.filter fun l => l.contains id).Pairwise fun l l' => l'.Inside l := by
  refine ((List.pairwise_map.1 he.ordered).filter _).imp_of_mem fun {l l'} hl hl' hlt => ?_
  obtain ⟨hl, hid⟩ := List.mem_filter.1 hl
  obtain ⟨hl', hid'⟩ := List.mem_filter.1 hl'
  have hne : l.header ≠ l'.header := fun heq => absurd hlt (by simp [heq])
  rcases he.apart_or_inside hl hl' hne with hapart | ⟨-, hinside⟩ | ⟨hdom, -⟩
  · simp [hapart id hid] at hid'
  · exact hinside
  · -- the lower header would come first
    have hle := hg.place_le_of_dominates hdom
    rw [FlowGraph.Rooted.rpoIndex_eq (hg.mem_iff.2 hdom.1),
      FlowGraph.Rooted.rpoIndex_eq (hg.mem_iff.2 hdom.reachable_left)] at hlt
    omega

/-- A loop inside another one is smaller. -/
theorem length_lt (he : Enumerated g r e loops) (hl : l ∈ loops) (h : l.Inside l') :
    l.blocks.length < l'.blocks.length := by
  obtain ⟨hsub, x, hx, hx'⟩ := h
  simp only [Loop.contains, List.contains_iff_mem, ← Bool.not_eq_true] at hsub hx hx'
  have hnodup : (x :: l.blocks).Nodup := List.nodup_cons.2 ⟨hx', (he.natural l hl).nodup⟩
  refine Nat.lt_of_succ_le (hnodup.length_le_of_subset fun y hy => ?_)
  rcases List.mem_cons.1 hy with rfl | hy
  · exact hx
  · exact hsub y hy

end Enumerated

/-- The smallest of loops that become smaller is the last one. -/
theorem foldl_smaller (ls : List Loop) :
    ∀ best : Loop, (best :: ls).Pairwise (fun l l' => l'.blocks.length < l.blocks.length) →
      ls.foldl smaller (some best) = (best :: ls).getLast? := by
  induction ls with
  | nil => exact fun best _ => rfl
  | cons l ls ih =>
    intro best h
    obtain ⟨hbest, hrest⟩ := List.pairwise_cons.1 h
    have hl : smaller (some best) l = some l := if_pos (hbest l (by simp))
    rw [List.foldl_cons, hl, ih l hrest, List.getLast?_cons_cons]

/-- **The innermost loop** of a block is the last one that it is in. -/
theorem Enumerated.innermost?_eq {loops : LoopInfo} (hg : g.Ordered r e)
    (he : Enumerated g r e loops) (id : BlockId) :
    innermost? loops id = (loops.filter fun l => l.contains id).getLast? := by
  have hlength : (loops.filter fun l => l.contains id).Pairwise
      fun l l' => l'.blocks.length < l.blocks.length :=
    (he.chain hg id).imp_of_mem fun _ hl' h => he.length_lt (List.mem_filter.1 hl').1 h
  rw [innermost?]
  cases hls : loops.filter fun l => l.contains id with
  | nil => rfl
  | cons l ls =>
    rw [hls] at hlength
    exact foldl_smaller ls l hlength

/-- Of a chain the last loop is inside all others. -/
theorem Enumerated.innermost?_subset {loops : LoopInfo} (hg : g.Ordered r e)
    (he : Enumerated g r e loops) {id : BlockId} {l : Loop} (hl : innermost? loops id = some l) :
    l ∈ loops ∧ l.contains id = true ∧
      ∀ l' ∈ loops, l'.contains id = true → l' = l ∨ l.Inside l' := by
  rw [he.innermost?_eq hg id] at hl
  obtain ⟨ls, hls⟩ := List.getLast?_eq_some_iff.1 hl
  have hmem : l ∈ loops.filter fun l => l.contains id := by simp [hls]
  obtain ⟨hl, hid⟩ := List.mem_filter.1 hmem
  refine ⟨hl, hid, fun l' hl' hid' => ?_⟩
  have hmem' : l' ∈ loops.filter fun l => l.contains id := List.mem_filter.2 ⟨hl', hid'⟩
  have hchain := he.chain hg id
  rw [hls] at hmem' hchain
  rcases List.mem_append.1 hmem' with h | h
  · exact Or.inr ((List.pairwise_append.1 hchain).2.2 l' h l (by simp))
  · exact Or.inl (List.mem_singleton.1 h)

end LoopInfo

/-! ## Loops of functions -/

namespace Function

variable {fn : Function} {e : Block}

theorem loops_decided (hne : ∀ b ∈ fn.blocks, b.id ≠ 0) (hnodup : fn.blockIds.Nodup)
    (he : fn.entryBlock? = some e) :
    LoopInfo.Decides (FlowGraph.build fn) (DomTree.build (FlowGraph.build fn)) fn.Flows e.id := by
  have hg := FlowGraph.build_ordered hne hnodup he
  obtain ⟨-, n, hn, s⟩ := DomTree.build_settles hg
  refine ⟨hg, fun {p q} hq => ?_, DomTree.dominates_iff hg s hn⟩
  rw [FlowGraph.succs, FlowGraph.build_edges, FlowGraph.mem_succsIn_iff hnodup]
  exact ⟨fun h => ⟨h, ((FlowGraph.mem_rpo_iff hnodup).1 hq).mem_blockIds⟩, fun h => h.1⟩

/-- **The loops of a function.** All searches come to an end. There is one loop for every block that
dominates the source of an edge to it, in the reverse post-order of these headers; its latches are
all such sources, its blocks the header and all blocks that can be reached and reach a latch around
the header. Two loops are apart, or one is inside the other. So the loops that a block is in are a
chain, as long as its depth says, and its innermost loop is inside all others. -/
theorem loops_are_natural_and_nested (hne : ∀ b ∈ fn.blocks, b.id ≠ 0)
    (hnodup : fn.blockIds.Nodup) (he : fn.entryBlock? = some e) :
    let g := FlowGraph.build fn
    let t := DomTree.build g
    let loops := LoopInfo.find g t
    ((∃ trace, Visits (FlowGraph.existingSuccs g.edges) {} [e.id] trace ∧ trace.done = g.rpo) ∧
      DomTree.Settles g [(e.id, e.id)] t.idoms ∧
      ∀ l ∈ loops, LoopInfo.Collects g [l.header] l.latches l.blocks ∧ ∃ trace,
        Visits (LoopInfo.back g) { met := [l.header] } l.latches trace ∧ trace.met = l.blocks) ∧
    LoopInfo.Enumerated g fn.Flows e.id loops ∧
    (∀ l ∈ loops, ∀ l' ∈ loops, l ≠ l' →
      (∀ id, l.contains id = true → l'.contains id = false) ∨ l'.Inside l ∨ l.Inside l') ∧
    ∀ id, (loops.filter fun l => l.contains id).Pairwise (fun l l' => l'.Inside l) ∧
      (loops.filter fun l => l.contains id).length = LoopInfo.depth loops id ∧
      (LoopInfo.innermost? loops id = none ↔ LoopInfo.depth loops id = 0) ∧
      ∀ l, LoopInfo.innermost? loops id = some l → l ∈ loops ∧ l.contains id = true ∧
        ∀ l' ∈ loops, l'.contains id = true → l' = l ∨ l.Inside l' := by
  intro g t loops
  have hd : LoopInfo.Decides g t fn.Flows e.id := loops_decided hne hnodup he
  have hloops : LoopInfo.Enumerated g fn.Flows e.id loops := LoopInfo.find_enumerated hd
  refine ⟨⟨FlowGraph.rpo_visits he, (DomTree.build_settles hd.toOrdered).1, fun l hl => ?_⟩,
    hloops, fun l hl l' hl' hne => ?_, fun id => ⟨hloops.chain hd.toOrdered id, ?_, ?_, fun l =>
      hloops.innermost?_subset hd.toOrdered⟩⟩
  · obtain ⟨h, -, hl⟩ := List.mem_filterMap.1 hl
    obtain ⟨rfl, -⟩ := LoopInfo.loopAt?_eq_some_iff.1 hl
    exact ⟨LoopInfo.body_collects hd.toOrdered fun x => hd.mem_latchesOf,
      LoopInfo.body_visits hd.toOrdered fun x => hd.mem_latchesOf⟩
  · have hheader : l.header ≠ l'.header := fun heq =>
      hne (List.inj_on_of_nodup_map hloops.headers_nodup hl hl' heq)
    exact (hloops.apart_or_inside hl hl' hheader).imp_right (Or.imp And.right And.right)
  · exact List.countP_eq_length_filter.symm
  · rw [hloops.innermost?_eq hd.toOrdered id, List.getLast?_eq_none_iff, LoopInfo.depth,
      List.countP_eq_length_filter, List.length_eq_zero_iff]

/-- Two loops, one in the other, of which the inner one has two latches. The outer one holds blocks
that go to each other and are entered both ways, once by a handler. A block that cannot be reached
goes to the inner loop. -/
def loopInLoop : Function where
  name := "loopInLoop"
  params := [⟨1, "c", some .bool⟩]
  blocks :=
    [{ id := 1, term := some (.br 2) },
     { id := 2, term := some (.brIf 1 3 7) },
     { id := 3, term := some (.brIf 1 4 5) },
     { id := 4, term := some (.br 3), handler := 9 },
     { id := 5, term := some (.brIf 1 3 6) },
     { id := 6, term := some (.brIf 1 2 9) },
     { id := 7, term := some (.ret 0 false) },
     { id := 8, term := some (.br 4) },
     { id := 9, term := some (.br 6) }]

theorem loopInLoop_loops :
    (∀ b ∈ loopInLoop.blocks, b.id ≠ 0) ∧ loopInLoop.blockIds.Nodup ∧
      (∀ h, (∃ x, BackEdge loopInLoop.Flows 1 x h) ↔ h = 2 ∨ h = 3) ∧
      (∀ x, BackEdge loopInLoop.Flows 1 x 3 ↔ x = 4 ∨ x = 5) ∧
      InLoop loopInLoop.Flows 1 2 9 ∧ ¬ InLoop loopInLoop.Flows 1 3 9 ∧
      ¬ InLoop loopInLoop.Flows 1 3 8 ∧
      ∃ inner outer, LoopInfo.find (FlowGraph.build loopInLoop)
          (DomTree.build (FlowGraph.build loopInLoop)) = [outer, inner] ∧ inner.Inside outer := by
  have hne : ∀ b ∈ loopInLoop.blocks, b.id ≠ 0 := by decide
  have hnodup : loopInLoop.blockIds.Nodup := by decide
  have he : loopInLoop.entryBlock? = some { id := 1, term := some (.br 2) } := by decide
  have hfind : LoopInfo.find (FlowGraph.build loopInLoop)
      (DomTree.build (FlowGraph.build loopInLoop)) =
        [⟨2, [6], [5, 3, 4, 9, 6, 2]⟩, ⟨3, [5, 4], [4, 5, 3]⟩] := by
    decide +kernel
  obtain ⟨-, hloops, -, hchain⟩ := loops_are_natural_and_nested hne hnodup he
  rw [hfind] at hloops hchain
  have houter := hloops.natural ⟨2, [6], [5, 3, 4, 9, 6, 2]⟩ (by simp)
  have hinner := hloops.natural ⟨3, [5, 4], [4, 5, 3]⟩ (by simp)
  refine ⟨hne, hnodup, fun h => ?_, fun x => ?_, (houter.contains_iff 9).1 (by decide),
    mt (hinner.contains_iff 9).2 (by decide), mt (hinner.contains_iff 8).2 (by decide), _, _,
    hfind, ?_⟩
  · rw [← hloops.header_iff h]
    simp
  · rw [← hinner.latch_iff x]
    simp [or_comm]
  · exact (List.pairwise_cons.1 (hchain 3).1).1 _ (by decide)

end Function

end SsaOpt
