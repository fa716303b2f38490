import SsaOpt.Flow.UseDef
import SsaOpt.Proofs.Numbering

/-!
# Use-def chains follow removals

Instructions are taken out of a function one after the other (`Function.takeOutAll`), and the chains
of the function forget each of them. A cut of a function (`Function.Cut`) tells what stands around
an instruction. The function uses what the rest of it uses and the operands of the instruction
(`UseDef.uses_eq`), and it defines what the rest defines and the result (`UseDef.def?_rest`).
Forgetting takes just these away, so the chains always answer like those that are built of what
remains (`UseDef.forget_agrees_with_build`).
-/

namespace SsaOpt

namespace Function

/-! ## Removals -/

/-- Takes an instruction out, by the position of its block and its own position there. -/
def takeOut (fn : Function) (p k : Nat) : Option (Instr × Function) := do
  let b ← fn.blocks[p]?
  let i ← b.instrs[k]?
  let b' ← b.removeInstr k
  some (i, fn.modifyBlock (fun _ => b') p)

/-- Takes instructions out, one after the other. Comes back with them and what remains, or with
nothing if there is no instruction at one of the positions. -/
def takeOutAll : Function → List (Nat × Nat) → Option (List Instr × Function)
  | fn, [] => some ([], fn)
  | fn, (p, k) :: sites => do
    let (i, fn₁) ← fn.takeOut p k
    let (is, fn₂) ← takeOutAll fn₁ sites
    some (i :: is, fn₂)

/-- An instruction of a function, and what stands around it. -/
structure Cut (fn : Function) (i : Instr) where
  front : List Block
  block : Block
  back : List Block
  before : List Instr
  after : List Instr
  blocks_eq : fn.blocks = front ++ block :: back
  instrs_eq : block.instrs = before ++ i :: after

/-- What remains of the block. -/
def Cut.shortened {fn : Function} {i : Instr} (c : Cut fn i) : Block :=
  { c.block with instrs := c.before ++ c.after }

/-- What remains of the function. -/
def Cut.rest {fn : Function} {i : Instr} (c : Cut fn i) : Function :=
  { fn with blocks := c.front ++ c.shortened :: c.back }

variable {fn fn' : Function} {i : Instr} {p k : Nat}

/-- The place of an instruction holds an instruction that is equal to it. -/
theorem getElem?_of_placeOf {b : Block} (hi : b.instrs[k]? = some i) {j : Nat}
    (hj : b.placeOf k = some j) : b.instrs[j]? = some i := by
  rw [Block.placeOf, hi, Option.map_some] at hj
  obtain rfl := Option.some.inj hj
  split
  · exact List.getElem?_idxOf (List.mem_of_getElem? hi)
  · exact hi

theorem takeOut_eq_some (h : fn.takeOut p k = some (i, fn')) :
    ∃ c : Cut fn i, fn' = c.rest := by
  obtain ⟨b, hb, h⟩ := Option.bind_eq_some_iff.1 h
  obtain ⟨i', hi, h⟩ := Option.bind_eq_some_iff.1 h
  obtain ⟨b', hb', h⟩ := Option.bind_eq_some_iff.1 h
  obtain ⟨rfl, rfl⟩ := Prod.mk.inj (Option.some.inj h)
  obtain ⟨j, hj, rfl⟩ := Option.map_eq_some_iff.1 hb'
  obtain ⟨hp, rfl⟩ := List.getElem?_eq_some_iff.1 hb
  obtain ⟨hlt, hget⟩ := List.getElem?_eq_some_iff.1 (getElem?_of_placeOf hi hj)
  refine ⟨⟨fn.blocks.take p, fn.blocks[p], fn.blocks.drop (p + 1), fn.blocks[p].instrs.take j,
    fn.blocks[p].instrs.drop (j + 1), ?_, ?_⟩, ?_⟩
  · rw [List.getElem_cons_drop, List.take_append_drop]
  · rw [← hget, List.getElem_cons_drop, List.take_append_drop]
  · rw [modifyBlock, List.modify_eq_take_cons_drop hp, List.eraseIdx_eq_take_drop_succ]
    rfl

/-- Every instruction can be taken out. -/
theorem isSome_takeOut {b : Block} (hb : fn.blocks[p]? = some b) (hk : k < b.instrs.length) :
    (fn.takeOut p k).isSome = true := by
  have hi : b.instrs[k]? = some b.instrs[k] := List.getElem?_eq_getElem hk
  simp [takeOut, hb, Block.removeInstr, Block.placeOf, hi]

theorem takeOutAll_cons_eq_some {sites : List (Nat × Nat)} {is : List Instr}
    (h : fn.takeOutAll ((p, k) :: sites) = some (is, fn')) :
    ∃ i fn₁ is', fn.takeOut p k = some (i, fn₁) ∧ fn₁.takeOutAll sites = some (is', fn') ∧
      is = i :: is' := by
  obtain ⟨⟨i, fn₁⟩, hfirst, h⟩ := Option.bind_eq_some_iff.1 h
  obtain ⟨⟨is', fn₂⟩, hrest, h⟩ := Option.bind_eq_some_iff.1 h
  obtain ⟨rfl, rfl⟩ := Prod.mk.inj (Option.some.inj h)
  exact ⟨i, fn₁, is', hfirst, hrest, rfl⟩

/-- One more instruction is taken out. -/
theorem takeOutAll_concat {sites : List (Nat × Nat)} {is : List Instr}
    (h : fn.takeOutAll sites = some (is, fn')) {e : Instr × Function}
    (he : fn'.takeOut p k = some e) :
    fn.takeOutAll (sites ++ [(p, k)]) = some (is ++ [e.1], e.2) := by
  induction sites generalizing fn is with
  | nil =>
    obtain ⟨rfl, rfl⟩ := Prod.mk.inj (Option.some.inj h)
    simp [takeOutAll, he]
  | cons site sites ih =>
    obtain ⟨i, fn₁, is', hfirst, hrest, rfl⟩ := takeOutAll_cons_eq_some h
    simp [takeOutAll, hfirst, ih hrest]

theorem Cut.instrs_perm (c : Cut fn i) : (i :: c.rest.instrs).Perm fn.instrs := by
  simp only [instrs, rest, shortened, c.blocks_eq, c.instrs_eq, List.flatMap_append,
    List.flatMap_cons]
  grind

/-- What is taken out and what remains are the instructions of the function. -/
theorem perm_of_takeOutAll {sites : List (Nat × Nat)} {is : List Instr}
    (h : fn.takeOutAll sites = some (is, fn')) : (is ++ fn'.instrs).Perm fn.instrs := by
  induction sites generalizing fn is with
  | nil =>
    obtain ⟨rfl, rfl⟩ := Prod.mk.inj (Option.some.inj h)
    exact List.Perm.refl _
  | cons site sites ih =>
    obtain ⟨i, fn₁, is', hfirst, hrest, rfl⟩ := takeOutAll_cons_eq_some h
    obtain ⟨c, rfl⟩ := takeOut_eq_some hfirst
    exact ((ih hrest).cons i).trans c.instrs_perm

end Function

namespace UseDef

variable {fn : Function} {i : Instr}

/-! ## What forgetting does -/

theorem count_foldl_erase (ops used : List ValueId) (v : ValueId) :
    (ops.foldl List.erase used).count v = used.count v - ops.count v := by
  induction ops generalizing used with
  | nil => simp
  | cons op ops ih =>
    rw [List.foldl_cons, ih, List.count_erase, List.count_cons]
    omega

theorem uses_forget (ud : UseDef) (i : Instr) (v : ValueId) :
    (ud.forget i).uses v = ud.uses v - i.operands.count v :=
  count_foldl_erase i.operands ud.used v

theorem def?_forget (ud : UseDef) (i : Instr) (v : ValueId) :
    (ud.forget i).def? v = if v ≠ 0 ∧ v = i.result then none else ud.def? v := by
  unfold def? forget
  by_cases h0 : i.result = 0
  · rw [if_pos h0, h0, if_neg fun h => h.1 h.2]
  · rw [if_neg h0]
    by_cases hv : v = i.result
    · rw [if_pos ⟨hv ▸ h0, hv⟩, List.lookup_eq_none_iff]
      intro e he
      rw [bne_iff_ne, hv]
      exact Ne.symm (of_decide_eq_true (List.mem_filter.1 he).2)
    · rw [if_neg fun h => hv h.2]
      exact lookup_filter (q := fun u => u ≠ i.result) (decide_eq_true hv)

/-- Chains that answer alike. -/
structure Agrees (ud ud' : UseDef) : Prop where
  uses : ∀ v, ud.uses v = ud'.uses v
  def? : ∀ v, ud.def? v = ud'.def? v

theorem Agrees.hasUsers {ud ud' : UseDef} (h : ud.Agrees ud') (v : ValueId) :
    ud.hasUsers v = ud'.hasUsers v := by
  rw [UseDef.hasUsers, h.uses, UseDef.hasUsers]

/-- No value has two definitions. -/
def Distinct (ud : UseDef) : Prop := (ud.defs.map Prod.fst).Nodup

/-! ## The chains of what remains -/

section Cut

variable (c : fn.Cut i) (v : ValueId)

/-- **The uses of a function** are those of the rest and the operands of the instruction. -/
theorem uses_eq : (build fn).uses v = i.operands.count v + (build c.rest).uses v := by
  have hwhole : (build fn).used = c.front.flatMap blockUses ++
      (blockUses c.block ++ c.back.flatMap blockUses) := by
    simp only [build, c.blocks_eq, List.flatMap_append, List.flatMap_cons]
  have hrest : (build c.rest).used = c.front.flatMap blockUses ++
      (blockUses c.shortened ++ c.back.flatMap blockUses) := by
    simp only [build, Function.Cut.rest, List.flatMap_append, List.flatMap_cons]
  have hblock : (blockUses c.block).count v =
      i.operands.count v + (blockUses c.shortened).count v := by
    simp only [blockUses, Function.Cut.shortened, c.instrs_eq, List.flatMap_append,
      List.flatMap_cons, List.count_append]
    omega
  rw [uses, uses, hwhole, hrest]
  simp only [List.count_append, hblock]
  omega

/-- The definition that an instruction of a block makes, if any. -/
def madeBy (b : BlockId) (i : Instr) : List (ValueId × Definition) :=
  if i.result = 0 then [] else [(i.result, .instr b i)]

theorem blockDefs_block : blockDefs c.block =
    blockDefs { c.block with instrs := c.before } ++
      (madeBy c.block.id i ++ blockDefs { c.block with instrs := c.after }) := by
  simp only [blockDefs, c.instrs_eq, List.filter_append, List.map_append, List.filter_cons]
  by_cases h0 : i.result = 0 <;> simp [madeBy, h0]

theorem blockDefs_shortened : blockDefs c.shortened =
    blockDefs { c.block with instrs := c.before } ++
      blockDefs { c.block with instrs := c.after } := by
  simp only [blockDefs, Function.Cut.shortened, List.filter_append, List.map_append]

/-- **The definitions of a function** are those of the rest and that of the instruction. -/
theorem exists_defs_eq : ∃ later earlier, (build c.rest).defs = later ++ earlier ∧
    (build fn).defs = later ++ (madeBy c.block.id i ++ earlier) := by
  have hsingle : (madeBy c.block.id i).reverse = madeBy c.block.id i := by
    unfold madeBy
    split <;> rfl
  refine ⟨(blockDefs { c.block with instrs := c.after } ++ c.back.flatMap blockDefs).reverse,
    (fn.params.map (fun p => (p.id, Definition.param)) ++ c.front.flatMap blockDefs ++
      blockDefs { c.block with instrs := c.before }).reverse, ?_, ?_⟩
  · simp only [build, Function.Cut.rest, List.flatMap_append, List.flatMap_cons,
      blockDefs_shortened, List.reverse_append, List.append_assoc]
  · simp only [build, c.blocks_eq, List.flatMap_append, List.flatMap_cons, blockDefs_block,
      List.reverse_append, List.append_assoc, hsingle]

variable {c v}

theorem Distinct.rest (h : (build fn).Distinct) : (build c.rest).Distinct := by
  obtain ⟨later, earlier, hrest, hwhole⟩ := exists_defs_eq c
  rw [Distinct, hwhole] at h
  rw [Distinct, hrest]
  refine h.sublist (List.Sublist.map _ ?_)
  exact (List.Sublist.refl later).append (List.sublist_append_right _ earlier)

/-- Where no value is defined twice, the rest defines what the function does but for the result of
the instruction. -/
theorem def?_rest (h : (build fn).Distinct) :
    (build c.rest).def? v = if v ≠ 0 ∧ v = i.result then none else (build fn).def? v := by
  obtain ⟨later, earlier, hrest, hwhole⟩ := exists_defs_eq c
  rw [Distinct, hwhole] at h
  rw [def?, def?, hrest, hwhole]
  by_cases h0 : i.result = 0
  · rw [madeBy, if_pos h0, h0, if_neg fun hv => hv.1 hv.2, List.nil_append]
  · rw [madeBy, if_neg h0, List.singleton_append] at h ⊢
    by_cases hv : v = i.result
    · -- The result is defined by the instruction, and so by nothing else.
      rw [List.map_append, List.map_cons, List.nodup_middle, ← List.map_append] at h
      rw [if_pos ⟨hv ▸ h0, hv⟩, List.lookup_eq_none_iff]
      intro e he
      rw [bne_iff_ne, hv]
      exact fun heq => (List.nodup_cons.1 h).1 (List.mem_map.2 ⟨e, he, heq.symm⟩)
    · rw [if_neg fun hc => hv hc.2, List.lookup_append, List.lookup_append, List.lookup_cons,
        beq_eq_false_iff_ne.2 hv]

/-- **A step.** Chains that answer like those of a function do so after a removal, too. -/
theorem Agrees.forget {ud : UseDef} (hagrees : ud.Agrees (build fn))
    (hdistinct : (build fn).Distinct) : (ud.forget i).Agrees (build c.rest) where
  uses v := by
    rw [uses_forget, hagrees.uses, uses_eq c, Nat.add_sub_cancel_left]
  def? v := by
    rw [def?_forget, hagrees.def?, def?_rest hdistinct]

end Cut

/-! ## Runs -/

theorem keys_build (fn : Function) :
    (build fn).defs.map Prod.fst = (fn.params.map Param.id ++ fn.results).reverse := by
  have hblock : ∀ b : Block, (blockDefs b).map Prod.fst = Function.resultsOf b.instrs := by
    intro b
    simp [blockDefs, Function.resultsOf, List.filter_map, Function.comp_def]
  have hresults : fn.results = fn.blocks.flatMap fun b => Function.resultsOf b.instrs := by
    simp only [Function.results, Function.resultsOf, Function.instrs, List.map_flatMap,
      List.filter_flatMap]
  simp only [build, List.map_reverse, List.map_append, List.map_map, List.map_flatMap, hblock,
    hresults]
  rfl

/-- A function with blocks that has no defects defines no value twice. -/
theorem distinct_of_defects (h : fn.defects = []) (hblocks : fn.blocks ≠ []) :
    (build fn).Distinct := by
  have hbody : fn.isExternal = false := List.isEmpty_eq_false_iff.2 hblocks
  obtain ⟨hshape, -, -⟩ := (Function.defects_eq_nil_iff hbody).1 h
  rw [Distinct, keys_build, List.nodup_reverse, ← Function.definedIds_filter hshape.param_ne_zero]
  exact hshape.defined_nodup

/-- **A run.** The chains answer like those of what remains, after any number of removals. -/
theorem agrees_of_takeOutAll {fn fn' : Function} {sites : List (Nat × Nat)} {is : List Instr}
    {ud : UseDef} (hrun : fn.takeOutAll sites = some (is, fn')) (hagrees : ud.Agrees (build fn))
    (hdistinct : fn.blocks ≠ [] → (build fn).Distinct) :
    (is.foldl UseDef.forget ud).Agrees (build fn') := by
  induction sites generalizing fn is ud with
  | nil =>
    obtain ⟨rfl, rfl⟩ := Prod.mk.inj (Option.some.inj hrun)
    exact hagrees
  | cons site sites ih =>
    obtain ⟨i, fn₁, is', hfirst, hrest, rfl⟩ := Function.takeOutAll_cons_eq_some hrun
    obtain ⟨c, rfl⟩ := Function.takeOut_eq_some hfirst
    have honce := hdistinct (by simp [c.blocks_eq])
    rw [List.foldl_cons]
    exact ih hrest (hagrees.forget honce) fun _ => honce.rest

/-- **Chains follow removals.** Instructions are taken out of a function without defects, one after
the other and in any order, and the chains forget each of them. Whatever has been taken out so far,
the chains answer like those built of what remains; what remains is the rest of the instructions;
and each of these can be taken out next. -/
theorem forget_agrees_with_build {fn fn' : Function} {sites : List (Nat × Nat)} {is : List Instr}
    (h : fn.defects = []) (hrun : fn.takeOutAll sites = some (is, fn')) :
    (∀ v, (is.foldl forget (build fn)).uses v = (build fn').uses v ∧
      (is.foldl forget (build fn)).hasUsers v = (build fn').hasUsers v ∧
      (is.foldl forget (build fn)).def? v = (build fn').def? v) ∧
    (is ++ fn'.instrs).Perm fn.instrs ∧
    ∀ p b k, fn'.blocks[p]? = some b → k < b.instrs.length →
      (fn.takeOutAll (sites ++ [(p, k)])).isSome = true := by
  have hagrees : (is.foldl forget (build fn)).Agrees (build fn') :=
    agrees_of_takeOutAll hrun ⟨fun _ => rfl, fun _ => rfl⟩ (distinct_of_defects h)
  refine ⟨fun v => ⟨hagrees.uses v, hagrees.hasUsers v, hagrees.def? v⟩,
    Function.perm_of_takeOutAll hrun, fun p b k hb hk => ?_⟩
  obtain ⟨e, he⟩ := Option.isSome_iff_exists.1 (Function.isSome_takeOut hb hk)
  rw [Function.takeOutAll_concat hrun he]
  rfl

/-- A sum that is read twice by a call, by a phi, and by a return in the end. Two instructions are
blank. -/
def rereadSum : Function where
  name := "f"
  params := [⟨1, "a", some (.int ⟨true, .w32⟩)⟩]
  ret := some (.int ⟨true, .w32⟩)
  blocks := [
    { id := 1
      instrs := [.nop, .binary ⟨2, .add, 1, 1, some (.int ⟨true, .w32⟩)⟩, .nop,
        .call ⟨0, "log", [2, 1, 2], none, .side, false⟩]
      term := some (.br 2) },
    { id := 2
      instrs := [.phi ⟨3, some (.int ⟨true, .w32⟩), [⟨1, 2⟩, ⟨2, 3⟩]⟩,
        .compare ⟨4, .eq, 3, 3, some .bool⟩]
      term := some (.brIf 4 2 3) },
    { id := 3, term := some (.ret 2 true) }]

/-- What remains when the sum, a blank, the call and the phi have been taken out. -/
def strandedReads : Function :=
  { rereadSum with
    blocks := [
      { id := 1, instrs := [.nop], term := some (.br 2) },
      { id := 2, instrs := [.compare ⟨4, .eq, 3, 3, some .bool⟩], term := some (.brIf 4 2 3) },
      { id := 3, term := some (.ret 2 true) }] }

theorem rereadSum_agrees_with_strandedReads :
    rereadSum.defects = [] ∧ ∃ is,
      rereadSum.takeOutAll [(0, 1), (0, 1), (0, 1), (1, 0)] = some (is, strandedReads) ∧
      (∀ v, (is.foldl forget (build rereadSum)).uses v = (build strandedReads).uses v ∧
        (is.foldl forget (build rereadSum)).def? v = (build strandedReads).def? v) ∧
      (build strandedReads).uses 2 = 1 ∧ (build strandedReads).def? 2 = none ∧
      (build strandedReads).uses 3 = 2 ∧ (build strandedReads).def? 3 = none := by
  have hsound : rereadSum.defects = [] := by decide
  obtain ⟨is, hrun⟩ : ∃ is, rereadSum.takeOutAll [(0, 1), (0, 1), (0, 1), (1, 0)] =
      some (is, strandedReads) := ⟨_, rfl⟩
  obtain ⟨hanswers, -, -⟩ := forget_agrees_with_build hsound hrun
  exact ⟨hsound, is, hrun, fun v => ⟨(hanswers v).1, (hanswers v).2.2⟩, by decide, by decide,
    by decide, by decide⟩

end UseDef

end SsaOpt
