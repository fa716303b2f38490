import SsaOpt.Proofs.CachedCalls

/-!
# What becomes of blocks whose calls are replaced

Replacing calls is described block by block here, without the order of the work. A block becomes the
blocks that its calls ask for (`Inline.Unfolds`): it is kept if none of its calls is wanted;
otherwise it is cut at the first one that is, the copies of the callee's blocks follow as they are,
and then comes what the rest of the block becomes. Blocks that are not live are kept
(`Inline.Treats`). So each call that is live and wanted is replaced once, and no other one
(`Inline.Treats.calls_eq`).

The caller's phis name exit blocks in the place of blocks that have been cut. The blocks are
therefore those of the description up to the predecessors that phis name (`Block.SameButPreds`).
-/

namespace SsaOpt

/-! ## Calls -/

namespace Inline

@[simp] theorem callsOf_merge (r : Renaming) (call : Call) (callee : Function) :
    callsOf (Splice.merge r call callee) = [] := by
  rw [Splice.merge]
  split <;> rfl

/-- The calls in the blocks that are live, in order. -/
def liveCalls (live : BlockId → Bool) (blocks : List Block) : List Call :=
  (blocks.filter fun b => live b.id).flatMap fun b => callsOf b.instrs

@[simp] theorem liveCalls_nil (live : BlockId → Bool) : liveCalls live [] = [] := rfl

@[simp] theorem liveCalls_append (live : BlockId → Bool) (bs bs' : List Block) :
    liveCalls live (bs ++ bs') = liveCalls live bs ++ liveCalls live bs' := by
  simp [liveCalls]

theorem liveCalls_cons_of_live {live : BlockId → Bool} {b : Block} (h : live b.id = true)
    (bs : List Block) : liveCalls live (b :: bs) = callsOf b.instrs ++ liveCalls live bs := by
  simp [liveCalls, h]

theorem liveCalls_cons_of_not_live {live : BlockId → Bool} {b : Block} (h : live b.id = false)
    (bs : List Block) : liveCalls live (b :: bs) = liveCalls live bs := by
  simp [liveCalls, h]

theorem length_liveCalls_le (live : BlockId → Bool) (fn : Function) :
    (liveCalls live fn.blocks).length ≤ callCount fn := by
  rw [callCount, CallGraph.callTargets_eq_map, List.length_map, callsOf_instrs]
  exact (List.filter_sublist.flatMap _).length_le

end Inline

/-! ## Blocks up to predecessors -/

namespace Block

/-- Blocks that differ in the predecessors that phis name, if at all. -/
structure SameButPreds (b b' : Block) : Prop where
  id_eq : b.id = b'.id
  name_eq : b.name = b'.name
  instrs_eq : b.instrs.map (Instr.mapPreds fun _ => 0) = b'.instrs.map (Instr.mapPreds fun _ => 0)
  term_eq : b.term = b'.term
  handler_eq : b.handler = b'.handler

namespace SameButPreds

variable {b b' b'' : Block}

theorem refl (b : Block) : b.SameButPreds b := ⟨rfl, rfl, rfl, rfl, rfl⟩

theorem symm (h : b.SameButPreds b') : b'.SameButPreds b :=
  ⟨h.id_eq.symm, h.name_eq.symm, h.instrs_eq.symm, h.term_eq.symm, h.handler_eq.symm⟩

theorem trans (h : b.SameButPreds b') (h' : b'.SameButPreds b'') : b.SameButPreds b'' :=
  ⟨h.id_eq.trans h'.id_eq, h.name_eq.trans h'.name_eq, h.instrs_eq.trans h'.instrs_eq,
    h.term_eq.trans h'.term_eq, h.handler_eq.trans h'.handler_eq⟩

theorem mapPreds (f : BlockId → BlockId) (b : Block) :
    b.SameButPreds (b.mapInstrs (Instr.mapPreds f)) := by
  refine ⟨rfl, rfl, ?_, rfl, rfl⟩
  rw [mapInstrs, List.map_map]
  refine List.map_congr_left fun i _ => ?_
  cases i <;> simp [Instr.mapPreds, Instr.mapIncoming]

theorem take_eq (h : b.SameButPreds b') (n : Nat) :
    (b.instrs.take n).map (Instr.mapPreds fun _ => 0) =
      (b'.instrs.take n).map (Instr.mapPreds fun _ => 0) := by
  rw [List.map_take, List.map_take, h.instrs_eq]

theorem drop_eq (h : b.SameButPreds b') (n : Nat) :
    (b.instrs.drop n).map (Instr.mapPreds fun _ => 0) =
      (b'.instrs.drop n).map (Instr.mapPreds fun _ => 0) := by
  rw [List.map_drop, List.map_drop, h.instrs_eq]

theorem callsOf_take_eq (h : b.SameButPreds b') (n : Nat) :
    Inline.callsOf (b.instrs.take n) = Inline.callsOf (b'.instrs.take n) := by
  have heq := congrArg Inline.callsOf (h.take_eq n)
  rwa [Inline.callsOf_mapPreds, Inline.callsOf_mapPreds] at heq

theorem callsOf_eq (h : b.SameButPreds b') :
    Inline.callsOf b.instrs = Inline.callsOf b'.instrs := by
  have heq := congrArg Inline.callsOf h.instrs_eq
  rwa [Inline.callsOf_mapPreds, Inline.callsOf_mapPreds] at heq

theorem call_at (h : b.SameButPreds b') {n : Nat} {c : Call}
    (hc : b.instrs[n]? = some (.call c)) : b'.instrs[n]? = some (.call c) := by
  have heq := List.getElem?_map (f := Instr.mapPreds fun _ => 0) (l := b'.instrs) (i := n)
  rw [← h.instrs_eq, List.getElem?_map, hc] at heq
  obtain ⟨i, hi, hmap⟩ := Option.map_eq_some_iff.1 heq.symm
  have hcall : i.call? = some c := by
    rw [← Instr.call?_mapPreds fun _ => 0, hmap]
    rfl
  rw [hi, Instr.call?_eq_some.1 hcall]

end SameButPreds

end Block

namespace Splice

variable {fn callee : Function} {r : Renaming} {b b' : Block} {place : Nat} {call : Call}

theorem repoint_sameButPreds (fn : Function) (b c : Block) : c.SameButPreds (repoint fn b c) := by
  rw [repoint]
  split
  · exact .mapPreds _ c
  · exact .refl c

theorem head_sameButPreds :
    Block.SameButPreds
      { b with instrs := b.instrs.take place, term := (head fn r b place callee).term }
      (head fn r b place callee) := by
  have h := repoint_sameButPreds fn b { b with instrs := b.instrs.take place }
  exact ⟨h.id_eq, h.name_eq, h.instrs_eq, rfl, h.handler_eq⟩

theorem head_congr (h : b.SameButPreds b') :
    (head fn r b place callee).SameButPreds (head fn r b' place callee) := by
  refine head_sameButPreds.symm.trans (Block.SameButPreds.trans ?_ head_sameButPreds)
  exact ⟨h.id_eq, h.name_eq, h.take_eq place, rfl, h.handler_eq⟩

theorem exit_congr (h : b.SameButPreds b') :
    (exit fn r b place call callee).SameButPreds (exit fn r b' place call callee) := by
  refine ⟨rfl, rfl, ?_, h.term_eq, h.handler_eq⟩
  rw [exit, exit, List.map_append, List.map_append, h.drop_eq]

theorem copies_congr (h : b.SameButPreds b') :
    copies fn r b callee = copies fn r b' callee := by
  rw [copies, copies, h.handler_eq]

end Splice

/-! ## What becomes of a block -/

namespace Inline

variable {wanted : Call → Option Function} {live live' : BlockId → Bool}

theorem liveCalls_map {f : Block → Block} (hf : ∀ b : Block, b.SameButPreds (f b))
    {blocks : List Block} (hlive : ∀ b ∈ blocks, live' b.id = live b.id) :
    liveCalls live' (blocks.map f) = liveCalls live blocks := by
  induction blocks with
  | nil => rfl
  | cons b blocks ih =>
    have hb : live' (f b).id = live b.id := by rw [← (hf b).id_eq, hlive b (by simp)]
    have hrest := ih fun c hc => hlive c (List.mem_cons_of_mem b hc)
    rw [List.map_cons]
    cases hbool : live b.id with
    | true =>
      rw [liveCalls_cons_of_live (hb.trans hbool), liveCalls_cons_of_live hbool, hrest,
        (hf b).callsOf_eq]
    | false =>
      rw [liveCalls_cons_of_not_live (hb.trans hbool), liveCalls_cons_of_not_live hbool, hrest]

/-- What a block becomes when the calls in it that are `wanted` are replaced: a block without such a
call is kept; otherwise it is cut at the first one, the copies follow, and then what the rest of the
block becomes. -/
inductive Unfolds (wanted : Call → Option Function) : Block → List Replacement → List Block → Prop
  | keep {b b' : Block} (hcalls : ∀ c ∈ callsOf b.instrs, wanted c = none)
    (hsame : b.SameButPreds b') : Unfolds wanted b [] [b']
  | replace {b head : Block} {e : Replacement} {rs : List Replacement} {rest : List Block}
    (hcalls : ∀ c ∈ callsOf (b.instrs.take e.place), wanted c = none)
    (hcall : b.instrs[e.place]? = some (.call e.call)) (hwanted : wanted e.call = some e.callee)
    (hhead : (Splice.head e.caller e.numbers b e.place e.callee).SameButPreds head)
    (hrest : Unfolds wanted (Splice.exit e.caller e.numbers b e.place e.call e.callee) rs rest) :
    Unfolds wanted b (e :: rs) (head :: (Splice.copies e.caller e.numbers b e.callee ++ rest))

theorem Unfolds.congr {b b' : Block} {rs : List Replacement} {bs : List Block}
    (h : Unfolds wanted b rs bs) (hsame : b'.SameButPreds b) : Unfolds wanted b' rs bs := by
  induction h generalizing b' with
  | keep hcalls hkept =>
    exact .keep (by rwa [hsame.callsOf_eq]) (hsame.trans hkept)
  | @replace b head e rs rest hcalls hcall hwanted hhead _ ih =>
    rw [← Splice.copies_congr hsame]
    exact .replace (by rwa [hsame.callsOf_take_eq]) (hsame.symm.call_at hcall) hwanted
      ((Splice.head_congr hsame).trans hhead) (ih (Splice.exit_congr hsame))

/-- **The calls that are replaced** in a block are those that are wanted, each once and in order. -/
theorem Unfolds.calls_eq {b : Block} {rs : List Replacement} {bs : List Block}
    (h : Unfolds wanted b rs bs) : rs.map (fun e => (e.call, e.callee)) =
      (callsOf b.instrs).filterMap fun c => (wanted c).map fun callee => (c, callee) := by
  induction h with
  | @keep b b' hcalls _ =>
    exact (List.filterMap_eq_nil_iff.2 fun c hc => by rw [hcalls c hc]; rfl).symm
  | @replace b head e rs rest hcalls hcall hwanted _ _ ih =>
    have hbefore : (callsOf (b.instrs.take e.place)).filterMap
        (fun c => (wanted c).map fun callee => (c, callee)) = [] :=
      List.filterMap_eq_nil_iff.2 fun c hc => by rw [hcalls c hc]; rfl
    rw [callsOf_eq_of_call_at hcall, List.filterMap_append, hbefore, List.nil_append,
      List.filterMap_cons_some (by rw [hwanted]; rfl), List.map_cons, ih, Splice.exit,
      callsOf_append, callsOf_merge, List.nil_append]

/-- What blocks become when the calls that are `wanted` are replaced in those that are live. -/
inductive Treats (wanted : Call → Option Function) (live : BlockId → Bool) :
    List Block → List Replacement → List Block → Prop
  | nil : Treats wanted live [] [] []
  | live {b : Block} {blocks bs bs' : List Block} {rs rs' : List Replacement}
    (hlive : live b.id = true) (hb : Unfolds wanted b rs bs)
    (h : Treats wanted live blocks rs' bs') :
    Treats wanted live (b :: blocks) (rs ++ rs') (bs ++ bs')
  | dead {b b' : Block} {blocks bs : List Block} {rs : List Replacement}
    (hdead : live b.id = false) (hb : b.SameButPreds b') (h : Treats wanted live blocks rs bs) :
    Treats wanted live (b :: blocks) rs (b' :: bs)

namespace Treats

variable {blocks bs : List Block} {rs : List Replacement}

theorem append {blocks' bs' : List Block} {rs' : List Replacement}
    (h : Treats wanted live blocks rs bs) (h' : Treats wanted live blocks' rs' bs') :
    Treats wanted live (blocks ++ blocks') (rs ++ rs') (bs ++ bs') := by
  induction h with
  | nil => exact h'
  | live hlive hb _ ih =>
    rw [List.append_assoc, List.append_assoc]
    exact .live hlive hb ih
  | dead hdead hb _ ih => exact .dead hdead hb ih

theorem map {f : Block → Block} (hf : ∀ b : Block, b.SameButPreds (f b))
    (hcalls : ∀ c ∈ liveCalls live blocks, wanted c = none) :
    Treats wanted live blocks [] (blocks.map f) := by
  induction blocks with
  | nil => exact .nil
  | cons b blocks ih =>
    cases hlive : live b.id with
    | true =>
      rw [liveCalls_cons_of_live hlive] at hcalls
      exact .live hlive (.keep (fun c hc => hcalls c (List.mem_append_left _ hc)) (hf b))
        (ih fun c hc => hcalls c (List.mem_append_right _ hc))
    | false =>
      rw [liveCalls_cons_of_not_live hlive] at hcalls
      exact .dead hlive (hf b) (ih hcalls)

theorem of_map {f : Block → Block} (hf : ∀ b : Block, b.SameButPreds (f b))
    (hlive : ∀ b ∈ blocks, live' b.id = live b.id)
    (h : Treats wanted live' (blocks.map f) rs bs) : Treats wanted live blocks rs bs := by
  induction blocks generalizing rs bs with
  | nil => cases h; exact .nil
  | cons b blocks ih =>
    have hb : live' (f b).id = live b.id := by rw [← (hf b).id_eq, hlive b (by simp)]
    have hblocks : ∀ c ∈ blocks, live' c.id = live c.id := fun c hc =>
      hlive c (List.mem_cons_of_mem b hc)
    rw [List.map_cons] at h
    cases h with
    | live hlive' hu h => exact .live (hb ▸ hlive') (hu.congr (hf b)) (ih hblocks h)
    | dead hdead hsame h => exact .dead (hb ▸ hdead) ((hf b).trans hsame) (ih hblocks h)

/-- **The calls that are replaced** are those that are live and wanted, each once and in order. -/
theorem calls_eq (h : Treats wanted live blocks rs bs) :
    rs.map (fun e => (e.call, e.callee)) = (liveCalls live blocks).filterMap fun c =>
      (wanted c).map fun callee => (c, callee) := by
  induction h with
  | nil => rfl
  | live hlive hb _ ih =>
    rw [liveCalls_cons_of_live hlive, List.filterMap_append, List.map_append, hb.calls_eq, ih]
  | dead hdead _ _ ih => rw [liveCalls_cons_of_not_live hdead, ih]

end Treats

end Inline

end SsaOpt
