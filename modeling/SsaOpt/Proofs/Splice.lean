import SsaOpt.Proofs.Numbering

/-!
# What a splice makes

`Function.splice_eq` writes out the function that replacing a call leaves, whatever numbers the
counters give (`Splice.numbers`): the blocks in front of the call's block and after it, with their
phis re-pointed (`Splice.repoint`), and in place of the call's block its first part (`Splice.head`),
the copies of the callee's blocks and the exit block (`Splice.exit`).

The counters are asked when the caller has lost the call and what is behind it, so a counter that is
set then may give a number that is in use there. What is needed of the numbers is `Splice.Fresh`. It
holds if the numbers are apart from those behind the call (`Splice.numbers_fresh`), which is so
where both counters have been set together (`Splice.numbers_apart`).
-/

namespace SsaOpt

theorem modify_middle {α : Type} (f : α → α) (l₁ : List α) (x : α) (l₂ : List α) :
    (l₁ ++ x :: l₂).modify l₁.length f = l₁ ++ f x :: l₂ := by
  induction l₁ with
  | nil => simp
  | cons y l₁ ih => simpa using ih

/-- A list around one of its elements. -/
theorem eq_take_cons_drop {α : Type} {l : List α} {i : Nat} {x : α} (h : l[i]? = some x) :
    l = l.take i ++ x :: l.drop (i + 1) ∧ (l.take i).length = i := by
  obtain ⟨hlt, hget⟩ := List.getElem?_eq_some_iff.1 h
  rw [← hget, List.getElem_cons_drop, List.take_append_drop, List.length_take]
  exact ⟨rfl, Nat.min_eq_left (Nat.le_of_lt hlt)⟩

/-- What a change leaves alone is the same for the whole list. -/
theorem map_modify {α β : Type} {f : α → α} {g : α → β} (h : ∀ x, g (f x) = g x) (l : List α)
    (i : Nat) : (l.modify i f).map g = l.map g := by
  induction l generalizing i with
  | nil => simp
  | cons x l ih =>
    cases i with
    | zero => simp [h]
    | succ i => simpa using ih i

/-- Changing the first element of a key, if keys are distinct. -/
theorem modify_findIdx? {α β : Type} [DecidableEq β] (key : α → β) (k : β) (f : α → α) {l : List α}
    (h : (l.map key).Nodup) :
    (match l.findIdx? fun x => key x = k with
      | some i => l.modify i f
      | none => l) = l.map fun x => if key x = k then f x else x := by
  induction l with
  | nil => rfl
  | cons x l ih =>
    rw [List.map_cons, List.nodup_cons] at h
    by_cases hx : key x = k
    · have hrest : ∀ y ∈ l, key y ≠ k := fun y hy hk => h.1 (hx ▸ hk ▸ List.mem_map_of_mem hy)
      have hmap : (l.map fun y => if key y = k then f y else y) = l := by
        conv_rhs => rw [← List.map_id l]
        exact List.map_congr_left fun y hy => if_neg (hrest y hy)
      simp [List.findIdx?_cons, hx, hmap]
    · have ih := ih h.2
      rw [List.map_cons, if_neg hx, ← ih, List.findIdx?_cons, decide_eq_false hx]
      cases l.findIdx? fun x => key x = k <;> simp

namespace Splice

/-- The number of the exit block. -/
def exitId (fn : Function) : BlockId := UInt32.ofNat fn.blockMark

/-- The caller when the numbers of the copy are taken: the exit block has got its number, and the
call's block ends in front of the call. -/
def cut (fn : Function) (position place : Nat) : Function :=
  fn.freshBlock.2.modifyBlock (fun b => { b with instrs := b.instrs.take place }) position

/-- The numbers of the caller for those of the callee. -/
def numbers (fn : Function) (position place : Nat) (call : Call) (callee : Function) :
    Renaming where
  values := (callee.results.zip ((cut fn position place).drawn .value
    (Function.requests callee.blocks))).reverse ++ (Renaming.ofArgs callee.params call.args).values
  blocks := (callee.blockIds.zip ((cut fn position place).drawn .block
    (Function.requests callee.blocks))).reverse

/-- The phis of a block that the block `b` jumps to take the exit block for the predecessor. -/
def repoint (fn : Function) (b : Block) (c : Block) : Block :=
  if c.id ∈ (b.term.map Term.targets).getD [] then
    c.mapInstrs (Instr.mapPreds fun p => if p = b.id then exitId fn else p)
  else c

/-- What stays of the block of the call. -/
def head (fn : Function) (r : Renaming) (b : Block) (place : Nat) (callee : Function) : Block :=
  { repoint fn b { b with instrs := b.instrs.take place } with
    term := some (.br ((r.blocks.lookup callee.entryId).getD 0)) }

/-- The copies of the callee's blocks. -/
def copies (fn : Function) (r : Renaming) (b : Block) (callee : Function) : List Block :=
  callee.blocks.map (copyBlock r callee.name b.handler (exitId fn))

/-- The phi that collects what the callee returns. -/
def merge (r : Renaming) (call : Call) (callee : Function) : List Instr :=
  if call.result = 0 then []
  else [.phi ⟨call.result, call.ty, callee.blocks.filterMap (returned r)⟩]

/-- The exit block. -/
def exit (fn : Function) (r : Renaming) (b : Block) (place : Nat) (call : Call)
    (callee : Function) : Block where
  id := exitId fn
  name := s!"{callee.name}.exit.{(exitId fn).toNat}"
  instrs := merge r call callee ++ b.instrs.drop (place + 1)
  term := b.term
  handler := b.handler

theorem repoint_id (fn : Function) (b c : Block) : (repoint fn b c).id = c.id := by
  unfold repoint
  split <;> rfl

end Splice

namespace Function

variable {fn callee : Function} {b : Block} {place : Nat} {call : Call}

open Splice

theorem enterFrom_eq {fn : Function} (h : fn.blockIds.Nodup) (old exit id : BlockId) :
    enterFrom old exit fn id = fn.mapBlocks fun c =>
      if c.id = id then c.mapInstrs (Instr.mapPreds fun p => if p = old then exit else p)
      else c := by
  have hmodify := modify_findIdx? Block.id id
    (Block.mapInstrs (Instr.mapPreds fun p => if p = old then exit else p)) h
  unfold enterFrom mapBlocks
  rw [← hmodify, show fn.blockIndex? id = fn.blocks.findIdx? fun b => b.id = id from rfl]
  cases fn.blocks.findIdx? fun b => b.id = id <;> rfl

theorem targets_nodup (b : Block) : ((b.term.map Term.targets).getD []).Nodup := by
  cases b.term with
  | none => simp
  | some t =>
    cases t with
    | brIf c yes no =>
      by_cases h : no = yes
      · simp [Term.targets, h]
      · simpa [Term.targets, h] using Ne.symm h
    | _ => simp [Term.targets]

/-- All targets of a block are entered from the exit block. -/
theorem foldl_enterFrom {ts : List BlockId} (hts : ts.Nodup) (old exit : BlockId) :
    ∀ fn : Function, fn.blockIds.Nodup →
      ts.foldl (enterFrom old exit) fn = fn.mapBlocks fun c =>
        if c.id ∈ ts then c.mapInstrs (Instr.mapPreds fun p => if p = old then exit else p)
        else c := by
  induction ts with
  | nil =>
    intro fn _
    simp [mapBlocks]
  | cons t ts ih =>
    intro fn hids
    obtain ⟨ht, hts⟩ := List.nodup_cons.1 hts
    rw [List.foldl_cons, enterFrom_eq hids]
    generalize hf : Block.mapInstrs (Instr.mapPreds fun p => if p = old then exit else p) = f at *
    have hid : ∀ c, (f c).id = c.id := by
      intro c
      rw [← hf]
      rfl
    rw [ih hts]
    · simp only [mapBlocks, List.map_map]
      congr 1
      refine List.map_congr_left fun c _ => ?_
      by_cases hc : c.id = t
      · simp [hc, hid, ht]
      · simp [hc]
    · have hsame : (fn.mapBlocks fun c => if c.id = t then f c else c).blockIds = fn.blockIds := by
        simp only [mapBlocks, blockIds, List.map_map]
        refine List.map_congr_left fun c _ => ?_
        by_cases hc : c.id = t <;> simp [hc, hid]
      rwa [hsame]

theorem insertAfter_middle {fn : Function} (h : fn.blockIds.Nodup) {pre post : List Block}
    {c : Block} (hblocks : fn.blocks = pre ++ c :: post) {id : BlockId} (hid : c.id = id)
    (new : List Block) :
    fn.insertAfter id new = { fn with blocks := pre ++ c :: (new ++ post) } := by
  subst hid
  have hindex : fn.blockIndex? c.id = some pre.length := by
    rw [blockIndex?, List.findIdx?_eq_some_iff_getElem, hblocks]
    refine ⟨by simp, by simp, fun j hj => ?_⟩
    have hmem : pre[j].id ∈ pre.map Block.id := List.mem_map_of_mem (List.getElem_mem hj)
    rw [blockIds, hblocks, List.map_append, List.map_cons] at h
    have hne : pre[j].id ≠ c.id := fun heq =>
      List.disjoint_of_nodup_append h hmem (by simp [heq])
    simpa [List.getElem_append_left hj] using hne
  rw [insertAfter, hindex, hblocks]
  simp [List.take_length_add_append]

theorem freshBlock_fst (fn : Function) : fn.freshBlock.1 = exitId fn := fn.draw_fst .block

/-- **What a splice makes.** -/
theorem splice_eq (hids : fn.blockIds.Nodup) {pre post : List Block}
    (hblocks : fn.blocks = pre ++ b :: post) (place : Nat) (call : Call) (callee : Function) :
    fn.splice pre.length place call callee =
      ({ fn with
          blocks := pre.map (repoint fn b) ++
            head fn (numbers fn pre.length place call callee) b place callee ::
              (copies fn (numbers fn pre.length place call callee) b callee ++
                exit fn (numbers fn pre.length place call callee) b place call callee ::
                  post.map (repoint fn b))
          mayThrow := fn.mayThrow || callee.mayThrow
          nextValue := ((Splice.cut fn pre.length place).after (requests callee.blocks)).nextValue
          nextBlock :=
            ((Splice.cut fn pre.length place).after (requests callee.blocks)).nextBlock },
        exitId fn) := by
  have hb : fn.blocks.getD pre.length { id := 0 } = b := by simp [hblocks]
  have hnumbers : Renaming.addBlocks callee.blocks (Renaming.ofArgs callee.params call.args)
      (Splice.cut fn pre.length place) = (numbers fn pre.length place call callee,
        (Splice.cut fn pre.length place).after (requests callee.blocks)) := by
    rw [addBlocks_eq]
    simp [numbers, results, instrs, blockIds, Renaming.ofArgs]
  obtain ⟨v, n, hfresh⟩ := fn.freshBlock_counters
  have hcut : Splice.cut fn pre.length place =
      { fn with
        blocks := pre ++ { b with instrs := b.instrs.take place } :: post
        nextValue := v
        nextBlock := n } := by
    rw [Splice.cut, hfresh, modifyBlock, hblocks, modify_middle]
  obtain ⟨v', n', hafter⟩ :=
    (Splice.cut fn pre.length place).after_counters (requests callee.blocks)
  have hfold : ∀ fn₁ : Function, fn₁.blockIds.Nodup →
      ((b.term.map Term.targets).getD []).foldl (enterFrom b.id (exitId fn)) fn₁ =
        fn₁.mapBlocks (repoint fn b) :=
    foldl_enterFrom (targets_nodup b) b.id (exitId fn)
  unfold splice
  simp only [hb, freshBlock_fst]
  rw [show Function.modifyBlock (fun b => { b with instrs := b.instrs.take place }) pre.length
    fn.freshBlock.2 = Splice.cut fn pre.length place from rfl, hnumbers, hafter, hcut]
  dsimp only
  rw [hfold _ (by simpa [blockIds, hblocks] using hids)]
  simp only [mapBlocks, modifyBlock, List.map_append, List.map_cons]
  have hmodify := modify_middle (fun c => { c with term := some (.br
    (((numbers fn pre.length place call callee).blocks.lookup callee.entryId).getD 0)) })
    (pre.map (repoint fn b)) (repoint fn b { b with instrs := b.instrs.take place })
    (post.map (repoint fn b))
  rw [List.length_map] at hmodify
  rw [hmodify]
  have hhead : (head fn (numbers fn pre.length place call callee) b place callee).id = b.id :=
    repoint_id ..
  refine Prod.ext ((insertAfter_middle ?_ rfl hhead _).trans ?_) rfl
  · simpa [blockIds, hblocks, repoint_id, Function.comp_def] using hids
  · rw [List.append_assoc]
    rfl

/-! ## What stays of the caller -/

/-- A function with other counters and other blocks, but with all the block numbers that there
were. -/
def Grows (fn fn' : Function) : Prop :=
  ∃ bs v n, fn' = { fn with blocks := bs, nextValue := v, nextBlock := n } ∧
    fn.blockIds.Sublist (bs.map Block.id)

theorem addBlocks_counters (bs : List Block) (r : Renaming) (fn : Function) :
    SameButCounters fn (Renaming.addBlocks bs r fn).2 := by
  rw [addBlocks_eq]
  exact fn.after_counters _

theorem SameButCounters.grows {fn fn' : Function} (h : SameButCounters fn fn') : Grows fn fn' := by
  obtain ⟨v, n, rfl⟩ := h
  exact ⟨_, v, n, rfl, .refl _⟩

namespace Grows

variable {fn fn' fn'' : Function}

theorem refl (fn : Function) : Grows fn fn := ⟨_, _, _, rfl, .refl _⟩

theorem trans (h : Grows fn fn') (h' : Grows fn' fn'') : Grows fn fn'' := by
  obtain ⟨bs, v, n, rfl, hsub⟩ := h
  obtain ⟨bs', v', n', rfl, hsub'⟩ := h'
  exact ⟨bs', v', n', rfl, hsub.trans hsub'⟩

theorem orThrows (h : Grows fn fn') (throws : Bool) :
    Grows { fn with mayThrow := fn.mayThrow || throws }
      { fn' with mayThrow := fn'.mayThrow || throws } := by
  obtain ⟨bs, v, n, rfl, hsub⟩ := h
  exact ⟨bs, v, n, rfl, hsub⟩

end Grows

theorem modifyBlock_grows {f : Block → Block} (h : ∀ b, (f b).id = b.id) (i : Nat) (fn : Function) :
    Grows fn (fn.modifyBlock f i) := by
  refine ⟨fn.blocks.modify i f, _, _, rfl, ?_⟩
  rw [map_modify h]
  exact .refl _

theorem foldl_enterFrom_grows (old exit : BlockId) (ts : List BlockId) (fn : Function) :
    Grows fn (ts.foldl (enterFrom old exit) fn) := by
  induction ts generalizing fn with
  | nil => exact .refl fn
  | cons t ts ih =>
    refine Grows.trans ?_ (ih _)
    unfold enterFrom
    split
    · exact modifyBlock_grows (fun _ => by rfl) _ fn
    · exact .refl fn

theorem insertAfter_grows (id : BlockId) (new : List Block) (fn : Function) :
    Grows fn (fn.insertAfter id new) := by
  unfold insertAfter
  split
  · next i _ =>
    refine ⟨_, _, _, rfl, List.Sublist.map _ ?_⟩
    conv_lhs => rw [← List.take_append_drop (i + 1) fn.blocks]
    exact (List.sublist_append_left _ _).append (.refl _)
  · exact ⟨_, _, _, rfl, List.Sublist.map _ (List.sublist_append_left _ _)⟩

/-- A splice ends with new blocks put in. -/
theorem splice_insertAfter (fn : Function) (position place : Nat) (call : Call)
    (callee : Function) :
    ∃ fn' id new, Grows { fn with mayThrow := fn.mayThrow || callee.mayThrow } fn' ∧ new ≠ [] ∧
      (fn.splice position place call callee).1 = fn'.insertAfter id new := by
  unfold splice
  dsimp only
  refine ⟨_, _, _, Grows.orThrows ?_ _, by simp, rfl⟩
  refine Grows.trans ?_ (modifyBlock_grows (fun _ => by rfl) _ _)
  refine Grows.trans ?_ (foldl_enterFrom_grows _ _ _ _)
  refine Grows.trans ?_ (addBlocks_counters _ _ _).grows
  exact fn.freshBlock_counters.grows.trans (modifyBlock_grows (fun _ => by rfl) _ _)

/-- **What a splice leaves of the caller**, whether there are numbers left or not. -/
theorem splice_grows (fn : Function) (position place : Nat) (call : Call) (callee : Function) :
    Grows { fn with mayThrow := fn.mayThrow || callee.mayThrow }
      (fn.splice position place call callee).1 := by
  obtain ⟨fn', id, new, hgrows, -, heq⟩ := fn.splice_insertAfter position place call callee
  rw [heq]
  exact hgrows.trans (insertAfter_grows id new fn')

/-- A replacement does not change the name. -/
theorem splice_name (fn : Function) (position place : Nat) (call : Call) (callee : Function) :
    (fn.splice position place call callee).1.name = fn.name := by
  obtain ⟨bs, v, n, heq, -⟩ := fn.splice_grows position place call callee
  rw [heq]

/-- A replacement takes no block number away. -/
theorem blockIds_splice (fn : Function) (position place : Nat) (call : Call) (callee : Function) :
    fn.blockIds.Sublist (fn.splice position place call callee).1.blockIds := by
  obtain ⟨bs, v, n, heq, hsub⟩ := fn.splice_grows position place call callee
  rw [heq]
  exact hsub

/-- **The instructions after a splice**: those of the caller without the call, with other
predecessors in some phis, and in its place the copies and the phi for what is returned. -/
theorem splice_instrs (hids : fn.blockIds.Nodup) {pre post : List Block}
    (hblocks : fn.blocks = pre ++ b :: post) (place : Nat) (call : Call) (callee : Function) :
    ∃ (f : Block → Block) (copies merge : List Instr),
      (∀ c, f c = c ∨ ∃ g, f c = c.mapInstrs (Instr.mapPreds g)) ∧
      (fn.splice pre.length place call callee).1.instrs =
        (pre.map f).flatMap Block.instrs ++ ((f { b with instrs := b.instrs.take place }).instrs ++
          (copies ++
            (merge ++ (b.instrs.drop (place + 1) ++ (post.map f).flatMap Block.instrs)))) := by
  refine ⟨repoint fn b,
    (copies fn (numbers fn pre.length place call callee) b callee).flatMap Block.instrs,
    merge (numbers fn pre.length place call callee) call callee, fun c => ?_, ?_⟩
  · unfold repoint
    split
    · exact .inr ⟨_, rfl⟩
    · exact .inl rfl
  · rw [splice_eq hids hblocks, instrs]
    simp only [List.flatMap_append, List.flatMap_cons, exit, List.append_assoc]
    rfl

end Function

/-! ## The numbers of a copy -/

namespace Splice

variable {fn callee : Function} {call : Call} {position place : Nat} {b : Block}

section Keys

theorem numbers_values_fst : (numbers fn position place call callee).values.map Prod.fst =
    callee.results.reverse ++
      ((callee.params.map Param.id).zip call.args).reverse.map Prod.fst := by
  rw [numbers, List.map_append, List.map_reverse, List.map_fst_zip]
  · rfl
  · rw [Function.length_drawn, Function.count_value_requests]
    exact Nat.le_refl _

theorem numbers_blocks_fst :
    (numbers fn position place call callee).blocks.map Prod.fst = callee.blockIds.reverse := by
  rw [numbers, List.map_reverse, List.map_fst_zip (Nat.le_of_eq ?_)]
  rw [Function.length_drawn, Function.count_block_requests, Function.length_blockIds]

/-- Every block of the callee gets a number. -/
theorem numbers_lookup {id : BlockId} (hid : id ∈ callee.blockIds) :
    (numbers fn position place call callee).blocks.lookup id =
      some ((numbers fn position place call callee).block id) := by
  cases h : (numbers fn position place call callee).blocks.lookup id with
  | some n => rw [Renaming.block, h]; rfl
  | none =>
    have hkey : id ∈ (numbers fn position place call callee).blocks.map Prod.fst := by
      rw [numbers_blocks_fst]
      exact List.mem_reverse.2 hid
    obtain ⟨e, he, rfl⟩ := List.mem_map.1 hkey
    simpa using List.lookup_eq_none_iff.1 h e he

variable (hcallee : callee.Shape)
include hcallee

/-- No parameter and no result of the callee is `0`. -/
theorem numbers_value_zero : (numbers fn position place call callee).value 0 = 0 := by
  have hkey : ∀ e ∈ (numbers fn position place call callee).values, e.1 ≠ 0 := by
    intro e he
    have hmem := List.mem_map_of_mem (f := Prod.fst) he
    rw [numbers_values_fst] at hmem
    rcases List.mem_append.1 hmem with hmem | hmem
    · exact (Function.mem_results.1 (List.mem_reverse.1 hmem)).1
    · obtain ⟨e', he', heq⟩ := List.mem_map.1 hmem
      obtain ⟨hparam, -⟩ := List.of_mem_zip (List.mem_reverse.1 he')
      obtain ⟨p, hp, hid⟩ := List.mem_map.1 hparam
      exact heq ▸ hid ▸ hcallee.param_ne_zero p hp
  have hnone : (numbers fn position place call callee).values.lookup 0 = none := by
    rw [List.lookup_eq_none_iff]
    exact fun e he => by simpa using (hkey e he).symm
  rw [Renaming.value, hnone]
  rfl

theorem numbers_value_of_mem (hargs : call.args.length = callee.params.length) {v w : ValueId}
    (h : (v, w) ∈ (numbers fn position place call callee).values) :
    (numbers fn position place call callee).value v = w := by
  have hnodup : ((numbers fn position place call callee).values.map Prod.fst).Nodup := by
    have hdefined := hcallee.defined_nodup
    rw [Function.definedIds_filter hcallee.param_ne_zero] at hdefined
    rw [numbers_values_fst, List.map_reverse, List.map_fst_zip (by simp [hargs]),
      ← List.reverse_append]
    exact List.nodup_reverse.2 hdefined
  rw [Renaming.value, (lookup_eq_some_iff_mem hnodup).2 h]
  rfl

/-- Parameters become arguments. -/
theorem numbers_param (hargs : call.args.length = callee.params.length) {e : ValueId × ValueId}
    (he : e ∈ (callee.params.map Param.id).zip call.args) :
    (numbers fn position place call callee).value e.1 = e.2 :=
  numbers_value_of_mem hcallee hargs (List.mem_append_right _ (List.mem_reverse.2 he))

theorem numbers_result_mem (hargs : call.args.length = callee.params.length) {v : ValueId}
    (hv : v ∈ callee.results) : (v, (numbers fn position place call callee).value v) ∈
      callee.results.zip ((cut fn position place).drawn .value
        (Function.requests callee.blocks)) := by
  obtain ⟨k, hk, rfl⟩ := List.mem_iff_getElem.1 hv
  have hlength : callee.results.length = ((cut fn position place).drawn .value
      (Function.requests callee.blocks)).length := by
    rw [Function.length_drawn, Function.count_value_requests]
    rfl
  have hmem : (callee.results[k], ((cut fn position place).drawn .value
      (Function.requests callee.blocks))[k]) ∈ callee.results.zip
        ((cut fn position place).drawn .value (Function.requests callee.blocks)) :=
    List.mem_iff_getElem.2 ⟨k, by simp [← hlength, hk], by simp⟩
  rwa [numbers_value_of_mem hcallee hargs (List.mem_append_left _ (List.mem_reverse.2 hmem))]

theorem numbers_blocks_nodup :
    ((numbers fn position place call callee).blocks.map Prod.fst).Nodup := by
  rw [numbers_blocks_fst]
  exact List.nodup_reverse.2 hcallee.ids_nodup

theorem numbers_block_of_mem {id n : BlockId}
    (h : (id, n) ∈ (numbers fn position place call callee).blocks) :
    (numbers fn position place call callee).block id = n := by
  rw [Renaming.block, (lookup_eq_some_iff_mem (numbers_blocks_nodup hcallee)).2 h]
  rfl

theorem numbers_block_mem {id : BlockId} (hid : id ∈ callee.blockIds) :
    (id, (numbers fn position place call callee).block id) ∈
      callee.blockIds.zip ((cut fn position place).drawn .block
        (Function.requests callee.blocks)) :=
  List.mem_reverse.1 ((lookup_eq_some_iff_mem (numbers_blocks_nodup hcallee)).1
    (numbers_lookup hid))

end Keys

/-- The numbers of the new blocks are not in use, and different blocks get different ones. -/
structure FreshBlocks (fn callee : Function) (r : Renaming) : Prop where
  block : ∀ id ∈ callee.blockIds, r.block id ≠ 0 ∧ r.block id ∉ fn.blockIds ∧ r.block id ≠ exitId fn
  block_inj : ∀ id ∈ callee.blockIds, ∀ id' ∈ callee.blockIds, r.block id = r.block id' → id = id'
  exit : exitId fn ≠ 0 ∧ exitId fn ∉ fn.blockIds

/-- The same for blocks and values. This is all that has to be known of the numbers of a copy. -/
structure Fresh (fn callee : Function) (r : Renaming) : Prop extends FreshBlocks fn callee r where
  result : ∀ v ∈ callee.results, r.value v ≠ 0 ∧ r.value v ∉ fn.definedIds
  result_inj : ∀ v ∈ callee.results, ∀ w ∈ callee.results, r.value v = r.value w → v = w

/-! ## Where the numbers come from -/

/-- The copy takes no number of a value that is defined by the call or behind it. -/
def Apart (b : Block) (place : Nat) (callee : Function) (r : Renaming) : Prop :=
  ∀ v ∈ callee.results, r.value v ∉ Function.resultsOf (b.instrs.drop place)

theorem blockIds_cut : (cut fn position place).blockIds = fn.blockIds := by
  have hids : fn.freshBlock.2.blockIds = fn.blockIds := fn.inUse_draw .block .block
  rw [← hids]
  exact map_modify (f := fun b : Block => { b with instrs := b.instrs.take place })
    (fun _ => rfl) fn.freshBlock.2.blocks position

theorem reading_cut (c : Function.Counter) :
    (cut fn position place).reading c = (fn.draw .block).2.reading c := by
  cases c <;> rfl

/-- The call's block has lost the call and what is behind it. -/
theorem definedIds_cut {pre post : List Block} (hblocks : fn.blocks = pre ++ b :: post)
    (place : Nat) :
    fn.definedIds.Perm
      ((cut fn pre.length place).definedIds ++ (b.instrs.drop place).map Instr.result) := by
  obtain ⟨v, n, hfresh⟩ := fn.freshBlock_counters
  rw [cut, hfresh, Function.modifyBlock, hblocks, modify_middle]
  simp only [Function.definedIds, Function.instrs, hblocks, List.flatMap_append, List.flatMap_cons,
    List.map_append, List.append_assoc]
  refine .append_left _ (.append_left _ ?_)
  conv_lhs => rw [← List.take_append_drop place b.instrs, List.map_append, List.append_assoc]
  exact .append_left _ List.perm_append_comm

theorem mark_block_cut (position place : Nat) (hlt : fn.blockMark + 1 < UInt32.size) :
    (cut fn position place).mark .block = fn.blockMark + 1 := by
  have hnext : (fn.draw .block).2.mark .block = fn.blockMark + 1 :=
    Function.mark_draw_self (c := .block) hlt
  rw [← hnext, Function.mark_eq, Function.mark_eq, reading_cut, Function.lastUsed, Function.inUse,
    blockIds_cut, Function.lastUsed_draw]
  rfl

section

variable (habove : fn.CountersAbove) {pre post : List Block}
  (hblocks : fn.blocks = pre ++ b :: post)
include habove

include hblocks in
theorem cut_above (place : Nat) (hlt : fn.blockMark < UInt32.size) :
    (cut fn pre.length place).CountersAbove := by
  refine (habove.draw (c := .block) hlt).of_subset reading_cut fun c => ?_
  rw [Function.inUse_draw]
  cases c
  · exact fun id hid => (definedIds_cut hblocks place).mem_iff.2 (List.mem_append_left _ hid)
  · rw [Function.inUse, blockIds_cut]
    exact fun id hid => hid

include hblocks in
/-- The value counter is computed anew from fewer numbers, or it is not. -/
theorem mark_value_cut_le (place : Nat) :
    (cut fn pre.length place).mark .value ≤ fn.valueMark := by
  have hsame : (fn.draw .block).2.mark .value = fn.mark .value :=
    Function.mark_draw_of_ne (by decide) (habove.lastUsed_lt .value)
  rw [show fn.valueMark = fn.mark .value from rfl, ← hsame, Function.mark_eq, Function.mark_eq,
    reading_cut]
  split
  · rw [Function.lastUsed_draw]
    refine Nat.succ_le_succ ?_
    by_cases h0 : (cut fn pre.length place).lastUsed .value = 0
    · rw [h0]
      exact Nat.zero_le _
    · exact UInt32.le_iff_toNat_le.1 (Function.le_greatest
        ((definedIds_cut hblocks place).mem_iff.2 (List.mem_append_left _
          (Function.greatest_mem h0))))
  · exact Nat.le_refl _

end

section Numbers

variable {pre post : List Block} (hblocks : fn.blocks = pre ++ b :: post)
  (habove : fn.CountersAbove) (hfits : fn.Fits callee)
include hblocks habove hfits

/-- The blocks get the numbers after that of the exit block. -/
theorem zip_drawn_blocks (place : Nat) :
    callee.blockIds.zip ((cut fn pre.length place).drawn .block
      (Function.requests callee.blocks)) = numbered (fn.blockMark + 1) callee.blockIds := by
  by_cases hnone : callee.blocks = []
  · rw [Function.blockIds, hnone]
    rfl
  · have hpos := List.length_pos_iff.2 hnone
    have hbounds := hfits.blocks
    have hmark : (cut fn pre.length place).mark .block = fn.blockMark + 1 :=
      mark_block_cut pre.length place (by omega)
    rw [← hmark]
    exact Function.zip_drawn (cut_above habove hblocks place (by omega))
      (by rw [Function.count_block_requests, Function.length_blockIds])
      (by rw [hmark, Function.length_blockIds]; omega)

theorem mark_value_cut_fits (place : Nat) :
    (cut fn pre.length place).mark .value + callee.results.length ≤ UInt32.size :=
  Nat.le_trans (Nat.add_le_add_right (mark_value_cut_le habove hblocks place) _) hfits.values

/-- The values get consecutive numbers. -/
theorem zip_drawn_results (place : Nat) :
    callee.results.zip ((cut fn pre.length place).drawn .value
      (Function.requests callee.blocks)) =
        numbered ((cut fn pre.length place).mark .value) callee.results := by
  have hbounds := hfits.blocks
  exact Function.zip_drawn (cut_above habove hblocks place (by omega))
    (Function.count_value_requests callee.blocks)
    (mark_value_cut_fits hblocks habove hfits place)

variable (hcallee : callee.Shape)
include hcallee

theorem numbers_block (place : Nat) (call : Call) {id : BlockId} (hid : id ∈ callee.blockIds) :
    (id, (numbers fn pre.length place call callee).block id) ∈
      numbered (fn.blockMark + 1) callee.blockIds :=
  zip_drawn_blocks hblocks habove hfits place ▸ numbers_block_mem hcallee hid

/-- **The numbers of the new blocks are fresh.** -/
theorem numbers_freshBlocks (place : Nat) (call : Call) :
    FreshBlocks fn callee (numbers fn pre.length place call callee) := by
  have hbounds := hfits.blocks
  have hids : fn.blockMark + 1 + callee.blockIds.length ≤ UInt32.size := by
    rw [Function.length_blockIds]
    omega
  have hexit : (exitId fn).toNat = fn.blockMark := toNat_ofNat (by omega)
  have hnumber := @numbers_block fn callee b pre post hblocks habove hfits hcallee place call
  exact {
    block := fun id hid => by
      have hle : fn.blockMark + 1 ≤ ((numbers fn pre.length place call callee).block id).toNat :=
        (le_toNat_of_mem_numbered hids (hnumber hid)).1
      obtain ⟨hne, hmem⟩ := habove.unused (c := .block) (Nat.le_of_succ_le hle)
      refine ⟨hne, hmem, fun heq => ?_⟩
      rw [heq, hexit] at hle
      omega
    block_inj := fun id hid id' hid' heq => by
      have hmem := hnumber hid'
      rw [← heq] at hmem
      exact eq_of_mem_numbered hids (hnumber hid) hmem
    exit := habove.unused (c := .block) (Nat.le_of_eq hexit.symm) }

variable (place : Nat) (hargs : call.args.length = callee.params.length)
include hargs

theorem numbers_result {v : ValueId} (hv : v ∈ callee.results) :
    (v, (numbers fn pre.length place call callee).value v) ∈
      numbered ((cut fn pre.length place).mark .value) callee.results :=
  zip_drawn_results hblocks habove hfits place ▸ numbers_result_mem hcallee hargs hv

/-- No value in front of the call has the number of a copy. -/
theorem numbers_unused {v : ValueId} (hv : v ∈ callee.results) :
    (numbers fn pre.length place call callee).value v ≠ 0 ∧
      (numbers fn pre.length place call callee).value v ∉
        (cut fn pre.length place).definedIds := by
  have hbounds := hfits.blocks
  have hle := (le_toNat_of_mem_numbered (mark_value_cut_fits hblocks habove hfits place)
    (numbers_result hblocks habove hfits hcallee place hargs hv)).1
  exact (cut_above habove hblocks place (by omega)).unused hle

/-- **The numbers of a copy are fresh**, if they are not those of values defined behind the call. -/
theorem numbers_fresh
    (hapart : Apart b place callee (numbers fn pre.length place call callee)) :
    Fresh fn callee (numbers fn pre.length place call callee) where
  toFreshBlocks := numbers_freshBlocks hblocks habove hfits hcallee place call
  result v hv := by
    obtain ⟨hne, hnot⟩ := numbers_unused hblocks habove hfits hcallee place hargs hv
    refine ⟨hne, fun hmem => ?_⟩
    rcases List.mem_append.1 ((definedIds_cut hblocks place).mem_iff.1 hmem) with hmem | hmem
    · exact hnot hmem
    · exact hapart v hv (List.mem_filter.2 ⟨hmem, by simpa using hne⟩)
  result_inj v hv w hw heq := by
    have hmem := numbers_result hblocks habove hfits hcallee place hargs hw
    rw [← heq] at hmem
    exact eq_of_mem_numbered (mark_value_cut_fits hblocks habove hfits place)
      (numbers_result hblocks habove hfits hcallee place hargs hv) hmem

end Numbers

/-! ### Counters that have been set together -/

/-- The numbers of a copy where the value counter is not computed anew. -/
def rename (fn : Function) (call : Call) (callee : Function) : Renaming where
  values := (numbered fn.valueMark callee.results).reverse ++
    (Renaming.ofArgs callee.params call.args).values
  blocks := (numbered (fn.blockMark + 1) callee.blockIds).reverse

section Counted

variable {pre post : List Block} (hblocks : fn.blocks = pre ++ b :: post)
  (hcounted : fn.Counted) (hfits : fn.Fits callee)
include hcounted

theorem reading_value_cut (position place : Nat) :
    (cut fn position place).reading .value = UInt32.ofNat fn.valueMark := by
  have hfresh := congrArg Function.nextValue hcounted.freshBlock_eq
  exact (reading_cut .value).trans hfresh

theorem mark_value_cut (position place : Nat) (hlt : fn.valueMark < UInt32.size) :
    (cut fn position place).mark .value = fn.valueMark := by
  have hreading := reading_value_cut hcounted position place
  have hne : (cut fn position place).reading .value ≠ 0 :=
    hreading ▸ Function.ofNat_ne_zero (fn.mark_pos .value) hlt
  rw [Function.mark_of_reading_ne_zero hne, hreading, toNat_ofNat hlt]

include hblocks hfits

theorem numbers_eq_rename (place : Nat) (call : Call) :
    numbers fn pre.length place call callee = rename fn call callee := by
  have hresults : callee.results.zip ((cut fn pre.length place).drawn .value
      (Function.requests callee.blocks)) = numbered fn.valueMark callee.results := by
    rw [zip_drawn_results hblocks hcounted.toCountersAbove hfits]
    by_cases hnone : callee.results = []
    · rw [hnone]
      rfl
    · have hpos := List.length_pos_iff.2 hnone
      have hvalues := hfits.values
      rw [mark_value_cut hcounted pre.length place (by omega)]
  rw [numbers, hresults, zip_drawn_blocks hblocks hcounted.toCountersAbove hfits, rename]

/-- Where the counters have been set together, no copy gets a number that is in use. -/
theorem numbers_apart (hcallee : callee.Shape) (place : Nat)
    (hargs : call.args.length = callee.params.length) :
    Apart b place callee (numbers fn pre.length place call callee) := by
  intro v hv hmem
  have hpos := List.length_pos_of_mem hv
  have hvalues := hfits.values
  have hmark := mark_value_cut hcounted pre.length place (by omega)
  have hnumber := numbers_result hblocks hcounted.toCountersAbove hfits hcallee place hargs hv
  rw [hmark] at hnumber
  refine (hcounted.unused (c := .value) (le_toNat_of_mem_numbered hvalues hnumber).1).2 ?_
  exact (definedIds_cut hblocks place).mem_iff.2
    (List.mem_append_right _ (List.mem_of_mem_filter hmem))

end Counted

end Splice

end SsaOpt
