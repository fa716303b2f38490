import SsaOpt.Proofs.InlineScan

/-!
# Reverse post-order and dead blocks

A flow graph lists the blocks that can be reached in reverse post-order, and a block that every way
to another one goes through comes before that one (`rpoIndex_lt_of_dominates`). The proof goes from
a block to a predecessor that comes earlier in the list, and such a predecessor is found without
looking at the edges that lead back.

Two searches decide which blocks are dead: the walk behind the reverse post-order, and the worklist
that dead code is removed by. They agree on the blocks of a function (`reachable_eq_contains`), and
so do the passes: folding goes through the dead blocks last (`ConstFold.visitOrder_split`), removing
dead code leaves the other ones (`DeadCode.keepBlocks_ids`), and inlining looks only at those
(`Inline.liveBlocks_eq`).
-/

namespace SsaOpt

open Relation SsaOpt.Flow

variable {fn : Function}

namespace FlowGraph

theorem head?_rpo (fn : Function) : (build fn).rpo.head? = fn.entryBlock?.map Block.id := by
  cases he : fn.entryBlock? with
  | none => simp [build, he]
  | some e => exact rpo_head? he

/-- **A strict dominator comes earlier** in reverse post-order. -/
theorem rpoIndex_lt_of_dominates (hnodup : fn.blockIds.Nodup) {e : Block}
    (he : fn.entryBlock? = some e) {a b : BlockId} (hab : Dominates fn.Flows e.id a b)
    (hne : a ≠ b) : (build fn).rpoIndex a < (build fn).rpoIndex b := by
  have hg := build_rooted hnodup he
  have ha : a ∈ (build fn).rpo := hg.mem_iff.2 hab.reachable_left
  have hb : b ∈ (build fn).rpo := hg.mem_iff.2 hab.1
  have hle := hg.place_le_of_dominates hab
  have hplace : (build fn).place a ≠ (build fn).place b :=
    fun h => hne (Rooted.eq_of_place_eq ha h)
  rw [Rooted.rpoIndex_eq ha, Rooted.rpoIndex_eq hb]
  omega

/-- **The two searches agree** on the blocks of a function. -/
theorem reachable_eq_contains (hnodup : fn.blockIds.Nodup) {id : BlockId}
    (hid : id ∈ fn.blockIds) : (build fn).reachable id = fn.reach.contains id := by
  rw [reachable, Bool.eq_iff_iff, List.contains_iff_mem, List.contains_iff_mem, mem_rpo_iff hnodup,
    Function.mem_reach_iff hnodup hid]

end FlowGraph

/-! ## Dead blocks -/

/-- The blocks that the worklist has not seen are visited last by folding. -/
theorem ConstFold.visitOrder_split (hnodup : fn.blockIds.Nodup) :
    ∃ live dead, visitOrder fn = live ++ dead ∧ ∀ i b, fn.blocks[i]? = some b →
      (i ∈ live ↔ b.id ∈ fn.reach) ∧ (i ∈ dead ↔ b.id ∉ fn.reach) := by
  refine ⟨reachedOrder fn, unreachedOrder fn, visitOrder_eq fn, fun i b hb => ?_⟩
  have hid : b.id ∈ fn.blockIds := List.mem_map_of_mem (List.mem_of_getElem? hb)
  rw [Function.mem_reach_iff hnodup hid, mem_reachedOrder hnodup, mem_unreachedOrder hnodup, hb]
  simp

/-- The blocks that removing dead code leaves are those on the list of the flow graph. -/
theorem DeadCode.keepBlocks_ids (hnodup : fn.blockIds.Nodup) :
    (keepBlocks fn.reach fn.blocks).map Block.id =
      fn.blockIds.filter (FlowGraph.build fn).reachable := by
  have hids : ∀ blocks : List Block, (keepBlocks fn.reach blocks).map Block.id =
      (blocks.map Block.id).filter fn.reach.contains := by
    intro blocks
    rw [keepBlocks, List.map_map, List.filter_map]
    rfl
  rw [hids, Function.blockIds]
  exact List.filter_congr fun id hid => (FlowGraph.reachable_eq_contains hnodup hid).symm

/-- The blocks that inlining looks at are those that the worklist has seen. The dominator tree takes
`0` as the number of no block. -/
theorem Inline.liveBlocks_eq (hnodup : fn.blockIds.Nodup) (hne : ∀ b ∈ fn.blocks, b.id ≠ 0) :
    liveBlocks (DomTree.build (FlowGraph.build fn)) fn = fn.blockIds.filter fn.reach.contains := by
  refine List.filter_congr fun id hid => ?_
  have hlive : id ∈ liveBlocks (DomTree.build (FlowGraph.build fn)) fn ↔ fn.Reachable id :=
    mem_liveBlocks_iff_reachable hne hnodup
  rw [liveBlocks, List.mem_filter] at hlive
  rw [Bool.eq_iff_iff, List.contains_iff_mem, Function.mem_reach_iff hnodup hid, ← hlive]
  exact ⟨fun h => ⟨hid, h⟩, fun h => h.2⟩

namespace Function

/-- **Reverse post-order and the search for dead blocks**, for blocks with distinct numbers and any
branches. Both searches come to an end. The reverse post-order lists the blocks that exist and can
be reached from the entry, each once and the entry first. A block that is on every path from the
entry to another block that can be reached has the smaller index. On the blocks of the function the
two searches agree. So the blocks that folding visits last are those that the worklist has not seen,
the blocks that are left when dead code is removed are those in reverse post-order, and inlining
looks at these only, if `0` is the number of no block. -/
theorem searches_end_order_and_agree (fn : Function) (hnodup : fn.blockIds.Nodup) :
    let g := FlowGraph.build fn
    (∀ e, fn.entryBlock? = some e →
        (∃ w, Finishes (Walk.step (FlowGraph.succsIn g.edges) (FlowGraph.hasNode g.edges))
            (Walk.enter (FlowGraph.succsIn g.edges) {} e.id) w ∧ w.done = g.rpo) ∧
          ∃ w, Finishes (Worklist.step fn.succsOf) (Worklist.see {} e.id) w ∧
            w.seen = fn.reach) ∧
      g.rpo.Nodup ∧ (∀ id, id ∈ g.rpo ↔ fn.Reachable id) ∧
      g.rpo.head? = fn.entryBlock?.map Block.id ∧
      (∀ e a b, fn.entryBlock? = some e → fn.Reachable b →
        (∀ path, Path fn.Flows e.id b path → a ∈ path) → a ≠ b → g.rpoIndex a < g.rpoIndex b) ∧
      (∀ id ∈ fn.blockIds, g.reachable id = fn.reach.contains id) ∧
      (∃ live dead, ConstFold.visitOrder fn = live ++ dead ∧ ∀ i b, fn.blocks[i]? = some b →
        (i ∈ live ↔ b.id ∈ fn.reach) ∧ (i ∈ dead ↔ b.id ∉ fn.reach)) ∧
      (DeadCode.keepBlocks fn.reach fn.blocks).map Block.id = fn.blockIds.filter g.reachable ∧
      ((∀ b ∈ fn.blocks, b.id ≠ 0) →
        Inline.liveBlocks (DomTree.build g) fn = fn.blockIds.filter g.reachable) := by
  refine ⟨fun e he => ⟨FlowGraph.rpo_finishes he, reach_finishes he⟩, FlowGraph.rpo_nodup,
    fun id => FlowGraph.mem_rpo_iff hnodup, FlowGraph.head?_rpo fn, ?_,
    fun id => FlowGraph.reachable_eq_contains hnodup, ConstFold.visitOrder_split hnodup,
    DeadCode.keepBlocks_ids hnodup, fun hne => ?_⟩
  · rintro e a b he ⟨e', he', hb⟩ hall hab
    obtain rfl := Option.some.inj (he.symm.trans he')
    exact FlowGraph.rpoIndex_lt_of_dominates hnodup he ⟨hb, hall⟩ hab
  · rw [Inline.liveBlocks_eq hnodup hne]
    exact List.filter_congr fun id hid => (FlowGraph.reachable_eq_contains hnodup hid).symm

/-- Two loops that share a block, one of them entered in the middle, a branch and a handler that
lead to no block, and a dead loop that leads back. -/
def crossedLoops : Function where
  name := "crossedLoops"
  params := [⟨1, "c", some .bool⟩]
  blocks :=
    [{ id := 6, term := some (.brIf 1 7 3) },
     { id := 2, term := some (.brIf 1 4 3), handler := 11 },
     { id := 3, term := some (.brIf 1 4 5) },
     { id := 4, term := some (.brIf 1 3 2) },
     { id := 5, term := some (.brIf 1 9 2) },
     { id := 7, term := some (.br 6) }]
  entry := 2

theorem searches_of_crossedLoops :
    crossedLoops.blockIds.Nodup ∧ (FlowGraph.build crossedLoops).rpo = [2, 4, 3, 5] ∧
      (FlowGraph.build crossedLoops).rpoIndex 3 < (FlowGraph.build crossedLoops).rpoIndex 5 ∧
      9 ∈ crossedLoops.reach ∧ 11 ∈ crossedLoops.reach ∧ ¬ crossedLoops.Reachable 9 ∧
      ¬ crossedLoops.Reachable 6 ∧ crossedLoops.reach.contains 6 = false ∧
      Inline.liveBlocks (DomTree.build (FlowGraph.build crossedLoops)) crossedLoops =
        [2, 3, 4, 5] := by
  have hnodup : crossedLoops.blockIds.Nodup := by decide
  have hrpo : (FlowGraph.build crossedLoops).rpo = [2, 4, 3, 5] := by decide
  have he : crossedLoops.entryBlock? =
      some { id := 2, term := some (.brIf 1 4 3), handler := 11 } := by decide
  obtain ⟨-, -, hmem, -, hindex, hagree, -, -, hlive⟩ :=
    searches_end_order_and_agree crossedLoops hnodup
  have hreach : crossedLoops.Reachable 5 := (hmem 5).1 (by rw [hrpo]; decide)
  have hedge : ∀ p, crossedLoops.Flows p 5 → p = 3 := by
    rintro p ⟨⟨b, hb, rfl, hs⟩, -⟩
    revert b
    decide
  -- the last edge of a path to block 5 comes from block 3
  have hpath : ∀ path, Path crossedLoops.Flows 2 5 path → 3 ∈ path := by
    intro path hpath
    cases hpath with
    | step hpath hstep =>
      rw [hedge _ hstep] at hpath
      exact List.mem_cons_of_mem _ hpath.end_mem
  refine ⟨hnodup, hrpo, hindex _ 3 5 he hreach hpath (by decide), by decide, by decide,
    fun h => ?_, fun h => ?_, ?_, ?_⟩
  · exact absurd ((hmem 9).2 h) (by rw [hrpo]; decide)
  · exact absurd ((hmem 6).2 h) (by rw [hrpo]; decide)
  · rw [← hagree 6 (by decide), FlowGraph.reachable, hrpo]
    decide
  · rw [hlive (by decide)]
    decide

end Function

end SsaOpt
