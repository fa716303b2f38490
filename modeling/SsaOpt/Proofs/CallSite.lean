import Mathlib.Data.List.Perm.Lattice
import SsaOpt.Pass.Inline
import SsaOpt.Proofs.Splice

/-!
# Call sites

A `CallPlace` is a call in a function, and a `CallSite` is one that can be replaced by the body of
another function, with numbers for the copies that are not in use. The blocks of the function that
the replacement leaves are of four kinds (`CallPlace.Part`), and all that is proved of this function
goes by these kinds: it keeps the shape (`CallSite.shape`), reads no value that is not defined
(`CallSite.closed`), and if the counters of the former function have been set together, those of
this one are above its numbers (`CallSite.counted_result`).
-/

namespace SsaOpt

/-! ## Renamed instructions -/

namespace Instr

variable (i : Instr) (f : BlockId → BlockId) (g : ValueId → ValueId) (v : ValueId)

@[simp] theorem result_mapPreds : (i.mapPreds f).result = i.result := by cases i <;> rfl

@[simp] theorem resultType_mapPreds : (i.mapPreds f).resultType = i.resultType := by
  cases i <;> rfl

@[simp] theorem isPhi_mapPreds : (i.mapPreds f).isPhi = i.isPhi := by cases i <;> rfl

@[simp] theorem isCall_mapPreds : (i.mapPreds f).isCall = i.isCall := by cases i <;> rfl

@[simp] theorem operands_mapPreds : (i.mapPreds f).operands = i.operands := by
  cases i <;> simp [mapPreds, mapIncoming, operands]

@[simp] theorem result_mapOperands : (i.mapOperands g).result = i.result := by cases i <;> rfl

@[simp] theorem resultType_mapOperands : (i.mapOperands g).resultType = i.resultType := by
  cases i <;> rfl

@[simp] theorem isPhi_mapOperands : (i.mapOperands g).isPhi = i.isPhi := by cases i <;> rfl

@[simp] theorem isCall_mapOperands : (i.mapOperands g).isCall = i.isCall := by cases i <;> rfl

@[simp] theorem operands_mapOperands : (i.mapOperands g).operands = i.operands.map g := by
  cases i <;> simp [mapOperands, operands]

@[simp] theorem resultType_setResult : (i.setResult v).resultType = i.resultType := by
  cases i <;> rfl

@[simp] theorem isPhi_setResult : (i.setResult v).isPhi = i.isPhi := by cases i <;> rfl

@[simp] theorem isCall_setResult : (i.setResult v).isCall = i.isCall := by cases i <;> rfl

@[simp] theorem operands_setResult : (i.setResult v).operands = i.operands := by cases i <;> rfl

theorem result_setResult (hg : g 0 = 0) : (i.setResult (g i.result)).result = g i.result := by
  cases i <;> simp [setResult, result, hg]

theorem mapPreds_id (i : Instr) : i.mapPreds id = i := by
  cases i <;> simp [mapPreds, mapIncoming]

/-- A phi with other predecessors is a phi. -/
theorem mapPreds_eq_phi {i : Instr} {f : BlockId → BlockId} {p : Phi} (h : i.mapPreds f = .phi p) :
    ∃ q, i = .phi q ∧
      p = { q with incoming := q.incoming.map fun e => { e with pred := f e.pred } } := by
  cases i with
  | phi q => exact ⟨q, rfl, (Instr.phi.inj h).symm⟩
  | _ => simp [mapPreds, mapIncoming] at h

/-- What only depends on the result, the type and the effect of a call. -/
theorem Typed.congr {i j : Instr} (h : i.Typed) (hzero : j.result = 0 ↔ i.result = 0)
    (htype : j.resultType = i.resultType) (hcall : j.isCall = i.isCall)
    (heffect : ∀ c, j = .call c → ∃ c', i = .call c' ∧ c'.effect = c.effect) : j.Typed where
  result_ne_zero hty hc := by
    rw [Ne, hzero]
    exact h.result_ne_zero (htype ▸ hty) (hcall ▸ hc)
  type_ne_none hres := by
    rw [htype]
    exact h.type_ne_none fun h0 => hres (hzero.2 h0)
  effect_listed c hc := by
    obtain ⟨c', rfl, heq⟩ := heffect c hc
    exact heq ▸ h.effect_listed c' rfl

theorem Typed.mapPreds {i : Instr} (h : i.Typed) : (i.mapPreds f).Typed := by
  refine h.congr (by simp) (by simp) (by simp) fun c hc => ⟨c, ?_, rfl⟩
  cases i <;> simp_all [Instr.mapPreds, mapIncoming]

end Instr

namespace Renaming

variable (r : Renaming) (i : Instr)

@[simp] theorem resultType_instr : (r.instr i).resultType = i.resultType := by simp [instr]

@[simp] theorem isPhi_instr : (r.instr i).isPhi = i.isPhi := by simp [instr]

@[simp] theorem isCall_instr : (r.instr i).isCall = i.isCall := by simp [instr]

@[simp] theorem operands_instr : (r.instr i).operands = i.operands.map r.value := by simp [instr]

theorem result_instr (h : r.value 0 = 0) : (r.instr i).result = r.value i.result := by
  simp [instr, Instr.result_setResult, h]

/-- A phi of a copy is the copy of a phi. -/
theorem instr_eq_phi {r : Renaming} {i : Instr} {p : Phi} (h : r.instr i = .phi p) :
    ∃ q, i = .phi q ∧ p = ⟨r.value q.result, q.ty,
      q.incoming.map fun e => ⟨r.block e.pred, r.value e.value⟩⟩ := by
  cases i with
  | phi q =>
    refine ⟨q, rfl, ?_⟩
    have := Instr.phi.inj h
    simpa [Function.comp_def, Instr.result] using this.symm
  | _ => simp [instr, Instr.setResult, Instr.mapOperands, Instr.mapPreds, Instr.mapIncoming] at h

end Renaming

namespace Inline

variable {call : Call} {callee : Function} (h : compatible call callee = true)
include h

theorem compatible_args : call.args.length = callee.params.length := by
  simp only [compatible, Bool.and_eq_true, decide_eq_true_eq] at h
  exact h.1

/-- A call whose value is used has the type of what the callee returns. -/
theorem compatible_ret (h0 : call.result ≠ 0) : callee.ret ≠ none ∧ callee.ret = call.ty := by
  simp only [compatible, Bool.and_eq_true, Bool.or_eq_true, decide_eq_true_eq, h0,
    false_or, Option.isSome_iff_ne_none] at h
  exact h.2

end Inline

/-! ## The parts of the result -/

/-- A call of `fn`, and a function that is to stand for it. -/
structure CallPlace (fn callee : Function) where
  pre : List Block
  block : Block
  post : List Block
  place : Nat
  call : Call
  blocks_eq : fn.blocks = pre ++ block :: post
  call_at : block.instrs[place]? = some (.call call)
  ids_nodup : fn.blockIds.Nodup

namespace CallPlace

variable {fn callee : Function} (s : CallPlace fn callee)

/-- The function after the replacement. -/
def result : Function := (fn.splice s.pre.length s.place s.call callee).1

/-- The numbers of the copy. -/
def numbers : Renaming := Splice.numbers fn s.pre.length s.place s.call callee

/-- The number of the exit block. -/
def exitId (_ : CallPlace fn callee) : BlockId := Splice.exitId fn

/-- A block of the caller that is not the call's, after the replacement. -/
def other (c : Block) : Block := Splice.repoint fn s.block c

/-- What stays of the call's block. -/
def head : Block := Splice.head fn s.numbers s.block s.place callee

/-- The copy of a block of the callee. -/
def copy (c : Block) : Block :=
  Splice.copyBlock s.numbers callee.name s.block.handler s.exitId c

/-- The exit block. -/
def exit : Block := Splice.exit fn s.numbers s.block s.place s.call callee

/-- A block of the result. -/
inductive Part : Block → Prop
  | other {c : Block} (hc : c ∈ fn.blocks) (hne : c.id ≠ s.block.id) : Part (s.other c)
  | head : Part s.head
  | copy {c : Block} (hc : c ∈ callee.blocks) : Part (s.copy c)
  | exit : Part s.exit

theorem block_mem : s.block ∈ fn.blocks := by simp [s.blocks_eq]

theorem call_mem : .call s.call ∈ s.block.instrs := List.mem_of_getElem? s.call_at

/-- The call cuts the instructions of its block in two. -/
theorem instrs_eq : s.block.instrs =
    s.block.instrs.take s.place ++ .call s.call :: s.block.instrs.drop (s.place + 1) := by
  obtain ⟨hlt, hget⟩ := List.getElem?_eq_some_iff.1 s.call_at
  rw [← hget, List.getElem_cons_drop, List.take_append_drop]

theorem result_eq : s.result =
    { fn with
      blocks := s.pre.map s.other ++ s.head ::
        (callee.blocks.map s.copy ++ s.exit :: s.post.map s.other)
      mayThrow := fn.mayThrow || callee.mayThrow
      nextValue := ((Splice.cut fn s.pre.length s.place).after
        (Function.requests callee.blocks)).nextValue
      nextBlock := ((Splice.cut fn s.pre.length s.place).after
        (Function.requests callee.blocks)).nextBlock } := by
  rw [result, Function.splice_eq s.ids_nodup s.blocks_eq]
  rfl

/-- The other blocks are those with another number. -/
theorem mem_pre_or_post {c : Block} :
    c ∈ s.pre ∨ c ∈ s.post ↔ c ∈ fn.blocks ∧ c.id ≠ s.block.id := by
  have hnodup := s.ids_nodup
  rw [Function.blockIds, s.blocks_eq, List.map_append, List.map_cons, List.nodup_append',
    List.nodup_cons] at hnodup
  obtain ⟨-, ⟨hpost, -⟩, hdisjoint⟩ := hnodup
  rw [s.blocks_eq]
  constructor
  · rintro (hc | hc)
    · refine ⟨by simp [hc], fun heq => hdisjoint (List.mem_map_of_mem hc) (by simp [heq])⟩
    · exact ⟨by simp [hc], fun heq => hpost (heq ▸ List.mem_map_of_mem hc)⟩
  · rintro ⟨hc, hne⟩
    have hc' : c ∈ s.pre ∨ c = s.block ∨ c ∈ s.post := by simpa using hc
    rcases hc' with hc' | rfl | hc'
    · exact Or.inl hc'
    · exact absurd rfl hne
    · exact Or.inr hc'

/-- **The blocks of the result** are of four kinds. -/
theorem mem_result {c : Block} : c ∈ s.result.blocks ↔ s.Part c := by
  have hmem : c ∈ s.result.blocks ↔ (∃ d, (d ∈ s.pre ∨ d ∈ s.post) ∧ s.other d = c) ∨
      c = s.head ∨ (∃ d ∈ callee.blocks, s.copy d = c) ∨ c = s.exit := by
    rw [s.result_eq]
    simp only [List.mem_append, List.mem_cons, List.mem_map]
    grind
  rw [hmem]
  constructor
  · rintro (⟨d, hd, rfl⟩ | rfl | ⟨d, hd, rfl⟩ | rfl)
    · obtain ⟨hd, hne⟩ := s.mem_pre_or_post.1 hd
      exact .other hd hne
    · exact .head
    · exact .copy hd
    · exact .exit
  · rintro (⟨hd, hne⟩ | _ | hd | _)
    · exact Or.inl ⟨_, s.mem_pre_or_post.2 ⟨hd, hne⟩, rfl⟩
    · exact Or.inr (Or.inl rfl)
    · exact Or.inr (Or.inr (Or.inl ⟨_, hd, rfl⟩))
    · exact Or.inr (Or.inr (Or.inr rfl))

/-! ### Their numbers, instructions and successors -/

/-- The predecessor that the phis of block `id` name in the place of `p`. -/
def source (id p : BlockId) : BlockId :=
  if p = s.block.id ∧ id ∈ (s.block.term.map Term.targets).getD [] then s.exitId else p

@[simp] theorem other_id (c : Block) : (s.other c).id = c.id := by
  rw [other, Splice.repoint]
  split <;> rfl

@[simp] theorem other_term (c : Block) : (s.other c).term = c.term := by
  rw [other, Splice.repoint]
  split <;> rfl

@[simp] theorem other_handler (c : Block) : (s.other c).handler = c.handler := by
  rw [other, Splice.repoint]
  split <;> rfl

@[simp] theorem other_successors (c : Block) : (s.other c).successors = c.successors := by
  simp [Block.successors]

theorem other_instrs (c : Block) :
    (s.other c).instrs = c.instrs.map (Instr.mapPreds (s.source c.id)) := by
  rw [other, Splice.repoint]
  split
  · next h =>
    have hif : s.source c.id = fun p => if p = s.block.id then Splice.exitId fn else p := by
      funext p
      simp [source, exitId, h]
    rw [hif]
    rfl
  · next h =>
    have hid : s.source c.id = id := by
      funext p
      simp [source, h]
    conv_lhs => rw [← List.map_id c.instrs]
    exact List.map_congr_left fun i _ => by rw [hid, Instr.mapPreds_id]; rfl

@[simp] theorem head_id : s.head.id = s.block.id :=
  s.other_id { s.block with instrs := s.block.instrs.take s.place }

@[simp] theorem head_handler : s.head.handler = s.block.handler :=
  s.other_handler { s.block with instrs := s.block.instrs.take s.place }

theorem head_instrs :
    s.head.instrs = (s.block.instrs.take s.place).map (Instr.mapPreds (s.source s.block.id)) :=
  s.other_instrs { s.block with instrs := s.block.instrs.take s.place }

theorem copy_id {c : Block} (hc : c ∈ callee.blocks) : (s.copy c).id = s.numbers.block c.id :=
  congrArg (Option.getD · 0) (Splice.numbers_lookup (Function.mem_blockIds.2 ⟨c, hc, rfl⟩))

@[simp] theorem copy_instrs (c : Block) : (s.copy c).instrs = c.instrs.map s.numbers.instr := rfl

@[simp] theorem exit_id : s.exit.id = s.exitId := rfl

theorem exit_instrs : s.exit.instrs =
    Splice.merge s.numbers s.call callee ++ s.block.instrs.drop (s.place + 1) := rfl

/-- The numbers of the result are the old ones, that of the exit block, and those of the copies. -/
theorem blockIds_perm : s.result.blockIds.Perm
    (fn.blockIds ++ s.exitId :: callee.blockIds.map s.numbers.block) := by
  have hcopies : (callee.blocks.map s.copy).map Block.id =
      callee.blockIds.map s.numbers.block := by
    rw [List.map_map, Function.blockIds, List.map_map]
    exact List.map_congr_left fun c hc => s.copy_id hc
  have hothers : ∀ l : List Block, (l.map s.other).map Block.id = l.map Block.id := by
    intro l
    simp [Function.comp_def]
  rw [s.result_eq, Function.blockIds, Function.blockIds, s.blocks_eq]
  simp only [List.map_append, List.map_cons, hcopies, hothers, head_id, exit_id]
  rw [List.append_assoc]
  refine List.Perm.append_left _ (List.Perm.cons _ ?_)
  refine List.perm_middle.trans (List.Perm.trans ?_ List.perm_middle.symm)
  exact List.Perm.cons _ List.perm_append_comm

theorem mem_blockIds_result {id : BlockId} : id ∈ s.result.blockIds ↔
    id ∈ fn.blockIds ∨ id = s.exitId ∨ ∃ c ∈ callee.blockIds, s.numbers.block c = id := by
  rw [s.blockIds_perm.mem_iff]
  simp

theorem blockIds_nodup (hcallee : callee.blockIds.Nodup)
    (hfresh : Splice.FreshBlocks fn callee s.numbers) : s.result.blockIds.Nodup := by
  rw [s.blockIds_perm.nodup_iff, List.nodup_append', List.nodup_cons]
  refine ⟨s.ids_nodup, ⟨fun h => ?_, ?_⟩, fun id hid h => ?_⟩
  · obtain ⟨id, hid, heq⟩ := List.mem_map.1 h
    exact (hfresh.block id hid).2.2 heq
  · exact List.Nodup.map_on (fun id hid id' hid' => hfresh.block_inj id hid id' hid') hcallee
  · rcases List.mem_cons.1 h with rfl | h
    · exact hfresh.exit.2 hid
    · obtain ⟨id', hid', rfl⟩ := List.mem_map.1 h
      exact (hfresh.block id' hid').2.1 hid

/-- **The instructions of the result** are those of the caller, with other predecessors in their
phis, the phi of the exit block, and the copies. -/
theorem mem_instrs_result {i : Instr} (hi : i ∈ s.result.instrs) :
    (∃ j ∈ fn.instrs, ∃ f, j.mapPreds f = i) ∨ i ∈ Splice.merge s.numbers s.call callee ∨
      ∃ j ∈ callee.instrs, s.numbers.instr j = i := by
  obtain ⟨c, hc, hi⟩ := Function.mem_instrs.1 hi
  have hmem : ∀ j ∈ s.block.instrs, j ∈ fn.instrs := fun j hj =>
    Function.mem_instrs.2 ⟨_, s.block_mem, hj⟩
  cases s.mem_result.1 hc with
  | @other d hd hne =>
    rw [other_instrs] at hi
    obtain ⟨j, hj, rfl⟩ := List.mem_map.1 hi
    exact Or.inl ⟨j, Function.mem_instrs.2 ⟨d, hd, hj⟩, _, rfl⟩
  | head =>
    rw [head_instrs] at hi
    obtain ⟨j, hj, rfl⟩ := List.mem_map.1 hi
    exact Or.inl ⟨j, hmem j (List.mem_of_mem_take hj), _, rfl⟩
  | @copy d hd =>
    obtain ⟨j, hj, rfl⟩ := List.mem_map.1 hi
    exact Or.inr (Or.inr ⟨j, Function.mem_instrs.2 ⟨d, hd, hj⟩, rfl⟩)
  | exit =>
    rw [exit_instrs] at hi
    rcases List.mem_append.1 hi with hi | hi
    · exact Or.inr (Or.inl hi)
    · exact Or.inl ⟨i, hmem i (List.mem_of_mem_drop hi), id, Instr.mapPreds_id i⟩

theorem mem_merge {i : Instr} (hi : i ∈ Splice.merge s.numbers s.call callee) : s.call.result ≠ 0 ∧
    i = .phi ⟨s.call.result, s.call.ty, callee.blocks.filterMap (Splice.returned s.numbers)⟩ := by
  unfold Splice.merge at hi
  split at hi
  · simp at hi
  · next h0 => exact ⟨h0, List.mem_singleton.1 hi⟩

/-- The entries of the phi that collects what the callee returns. -/
theorem mem_returned {e : Incoming} (he : e ∈ callee.blocks.filterMap (Splice.returned s.numbers)) :
    ∃ c ∈ callee.blocks, ∃ v, c.term = some (.ret v true) ∧
      e = ⟨s.numbers.block c.id, s.numbers.value v⟩ := by
  obtain ⟨c, hc, he⟩ := List.mem_filterMap.1 he
  refine ⟨c, hc, ?_⟩
  rw [Splice.returned] at he
  split at he
  · next v hv =>
    refine ⟨v, hv, ?_⟩
    rw [← s.copy_id hc]
    exact (Option.some.inj he).symm
  · simp at he

theorem hasEdge_result {c : Block} (hc : s.Part c) {p q : BlockId} (hp : c.id = p)
    (hq : q ∈ c.successors) : s.result.hasEdge p q = true :=
  Function.hasEdge_iff.2 ⟨c, s.mem_result.2 hc, hp, hq⟩

/-- The edges of the caller. -/
theorem hasEdge_source {p q : BlockId} (h : fn.hasEdge p q = true) :
    s.result.hasEdge (s.source q p) q = true := by
  obtain ⟨c, hc, rfl, hq⟩ := Function.hasEdge_iff.1 h
  by_cases hid : c.id = s.block.id
  · obtain rfl := Function.eq_of_id_eq s.ids_nodup hc s.block_mem hid
    by_cases htarget : q ∈ (s.block.term.map Term.targets).getD []
    · rw [source, if_pos ⟨rfl, htarget⟩]
      exact s.hasEdge_result .exit rfl hq
    · -- only the handler is left
      rw [source, if_neg fun h => htarget h.2]
      refine s.hasEdge_result .head s.head_id ?_
      rcases List.mem_append.1 hq with hq | hq
      · exact absurd hq htarget
      · exact List.mem_append_right _ (by rwa [head_handler])
  · rw [source, if_neg fun h => hid h.1]
    exact s.hasEdge_result (.other hc hid) (s.other_id c) (by rwa [other_successors])

section Copy

variable {c : Block}

theorem copy_term_ret {v : ValueId} {hasValue : Bool} (h : c.term = some (.ret v hasValue)) :
    (s.copy c).term = some (.br s.exitId) := by
  simp [copy, Splice.copyBlock, h]

theorem copy_term_br {id : BlockId} (h : c.term = some (.br id)) :
    (s.copy c).term = some (.br (s.numbers.block id)) := by
  simp [copy, Splice.copyBlock, h, Renaming.term, Term.mapOperands, Term.mapTargets]

theorem copy_term_brIf {v : ValueId} {yes no : BlockId} (h : c.term = some (.brIf v yes no)) :
    (s.copy c).term =
      some (.brIf (s.numbers.value v) (s.numbers.block yes) (s.numbers.block no)) := by
  simp [copy, Splice.copyBlock, h, Renaming.term, Term.mapOperands, Term.mapTargets]

theorem copy_term_unreachable (h : c.term = some .unreachable) :
    (s.copy c).term = some .unreachable := by
  simp [copy, Splice.copyBlock, h, Renaming.term, Term.mapOperands, Term.mapTargets]

theorem copy_handler :
    (s.copy c).handler =
      if c.handler = 0 then s.block.handler else s.numbers.block c.handler := rfl

theorem of_mem_copy_successors (hterm : c.term ≠ none) {q : BlockId}
    (hq : q ∈ (s.copy c).successors) :
    ((∃ v hasValue, c.term = some (.ret v hasValue)) ∧ q = s.exitId) ∨
      (c.handler = 0 ∧ s.block.handler ≠ 0 ∧ q = s.block.handler) ∨
      ∃ q' ∈ c.successors, s.numbers.block q' = q := by
  obtain ⟨t, ht⟩ := Option.ne_none_iff_exists'.1 hterm
  rcases Block.mem_successors.1 hq with ⟨t', ht', hmem⟩ | ⟨h0, rfl⟩
  · have hmap : ∀ q' ∈ t.targets, ∃ q'' ∈ c.successors, s.numbers.block q'' = s.numbers.block q' :=
      fun q' hq' => ⟨q', Block.mem_successors.2 (Or.inl ⟨t, ht, hq'⟩), rfl⟩
    cases t with
    | ret v hasValue =>
      obtain rfl := Option.some.inj (ht'.symm.trans (s.copy_term_ret ht))
      exact Or.inl ⟨⟨v, hasValue, ht⟩, List.mem_singleton.1 hmem⟩
    | unreachable =>
      obtain rfl := Option.some.inj (ht'.symm.trans (s.copy_term_unreachable ht))
      simp [Term.targets] at hmem
    | br id =>
      obtain rfl := Option.some.inj (ht'.symm.trans (s.copy_term_br ht))
      obtain rfl := List.mem_singleton.1 hmem
      exact Or.inr (Or.inr (hmap id (List.mem_singleton.2 rfl)))
    | brIf v yes no =>
      obtain rfl := Option.some.inj (ht'.symm.trans (s.copy_term_brIf ht))
      refine Or.inr (Or.inr ?_)
      rcases Term.mem_targets_brIf.1 hmem with rfl | rfl
      · exact hmap yes (Term.mem_targets_brIf.2 (Or.inl rfl))
      · exact hmap no (Term.mem_targets_brIf.2 (Or.inr rfl))
  · rw [copy_handler] at h0 ⊢
    split at h0
    · next hc0 =>
      rw [if_pos hc0]
      exact Or.inr (Or.inl ⟨hc0, h0, rfl⟩)
    · next hc0 =>
      rw [if_neg hc0]
      exact Or.inr (Or.inr ⟨_, Block.mem_successors.2 (Or.inr ⟨hc0, rfl⟩), rfl⟩)

end Copy

/-! ### Definitions -/

theorem resultsOf_map_mapPreds (f : BlockId → BlockId) (l : List Instr) :
    Function.resultsOf (l.map (Instr.mapPreds f)) = Function.resultsOf l := by
  simp [Function.resultsOf, Function.comp_def]

theorem resultsOf_others (l : List Block) :
    Function.resultsOf ((l.map s.other).flatMap Block.instrs) =
      Function.resultsOf (l.flatMap Block.instrs) := by
  induction l with
  | nil => rfl
  | cons c l ih =>
    rw [List.map_cons, List.flatMap_cons, List.flatMap_cons, Function.resultsOf_append,
      Function.resultsOf_append,
      ih, other_instrs, resultsOf_map_mapPreds]

theorem resultsOf_merge : Function.resultsOf (Splice.merge s.numbers s.call callee) =
    Function.resultsOf [.call s.call] := by
  by_cases h0 : s.call.result = 0 <;>
    simp [Splice.merge, Function.resultsOf, Instr.result, h0]

section Results

variable (hcallee : callee.Shape) (hne : ∀ v ∈ callee.results, s.numbers.value v ≠ 0)
include hcallee hne

theorem resultsOf_copies :
    Function.resultsOf ((callee.blocks.map s.copy).flatMap Block.instrs) =
      callee.results.map s.numbers.value := by
  have hinstrs : (callee.blocks.map s.copy).flatMap Block.instrs =
      callee.instrs.map s.numbers.instr := by
    rw [List.flatMap_map, Function.instrs, List.map_flatMap]
    rfl
  have hzero : s.numbers.value 0 = 0 := Splice.numbers_value_zero hcallee
  have hne' : ∀ i ∈ callee.instrs, (s.numbers.value i.result ≠ 0 ↔ i.result ≠ 0) := by
    intro i hi
    constructor
    · intro h h0
      exact h (h0 ▸ hzero)
    · exact fun h0 => hne _ (Function.mem_results.2 ⟨h0, i, hi, rfl⟩)
  rw [hinstrs, Function.results, Function.resultsOf, Function.resultsOf, List.map_map,
    List.filter_map, List.filter_map, List.map_map]
  have hresult : ∀ i : Instr, (s.numbers.instr i).result = s.numbers.value i.result :=
    fun i => s.numbers.result_instr i hzero
  simp only [Function.comp_def, hresult]
  rw [List.filter_congr fun i hi => decide_eq_decide.2 (hne' i hi)]

/-- The values that the result defines are the old ones and those of the copies. -/
theorem results_perm :
    s.result.results.Perm (fn.results ++ callee.results.map s.numbers.value) := by
  have hfn : fn.results = Function.resultsOf (s.pre.flatMap Block.instrs) ++
      (Function.resultsOf (s.block.instrs.take s.place) ++ (Function.resultsOf [.call s.call] ++
        (Function.resultsOf (s.block.instrs.drop (s.place + 1)) ++
          Function.resultsOf (s.post.flatMap Block.instrs)))) := by
    rw [Function.results, Function.instrs, s.blocks_eq, List.flatMap_append, List.flatMap_cons]
    conv_lhs => rw [s.instrs_eq]
    simp only [Function.resultsOf_append, List.append_assoc]
    rw [← List.singleton_append, Function.resultsOf_append, List.append_assoc]
  have hresult : s.result.results = Function.resultsOf (s.pre.flatMap Block.instrs) ++
      (Function.resultsOf (s.block.instrs.take s.place) ++ (callee.results.map s.numbers.value ++
        (Function.resultsOf [.call s.call] ++
          (Function.resultsOf (s.block.instrs.drop (s.place + 1)) ++
            Function.resultsOf (s.post.flatMap Block.instrs))))) := by
    rw [Function.results, Function.instrs, s.result_eq]
    simp only [List.flatMap_append, List.flatMap_cons, Function.resultsOf_append, resultsOf_others,
      s.resultsOf_copies hcallee hne, head_instrs, resultsOf_map_mapPreds, exit_instrs,
      resultsOf_merge, List.append_assoc]
  rw [hfn, hresult, List.append_assoc, List.append_assoc]
  refine List.Perm.append_left _ (List.Perm.append_left _ ?_)
  exact List.perm_append_comm

end Results

theorem params_result : s.result.params = fn.params := by rw [s.result_eq]

/-! ### Calls given by their place -/

section Index

variable {b : Block} {position place : Nat} {call : Call} (callee) (hids : fn.blockIds.Nodup)
  (hblock : fn.blocks[position]? = some b) (hcall : b.instrs[place]? = some (.call call))

/-- The call at a place of a block. -/
def ofIndex : CallPlace fn callee :=
  ⟨fn.blocks.take position, b, fn.blocks.drop (position + 1), place, call,
    (eq_take_cons_drop hblock).1, hcall, hids⟩

theorem result_ofIndex : (ofIndex callee hids hblock hcall).result =
    (fn.splice position place call callee).1 := by
  rw [result, ofIndex, (eq_take_cons_drop hblock).2]

theorem numbers_ofIndex : (ofIndex callee hids hblock hcall).numbers =
    Splice.numbers fn position place call callee := by
  rw [numbers, ofIndex, (eq_take_cons_drop hblock).2]

end Index

/-- **Counters that have been set together** give numbers that are not in use. -/
theorem fresh_of_counted (hcounted : fn.Counted) (hfits : fn.Fits callee) (hcallee : callee.Shape)
    (hargs : s.call.args.length = callee.params.length) : Splice.Fresh fn callee s.numbers :=
  Splice.numbers_fresh s.blocks_eq hcounted.toCountersAbove hfits hcallee s.place hargs
    (Splice.numbers_apart s.blocks_eq hcounted hfits hcallee s.place hargs)

end CallPlace

/-! ## The shape of the result -/

/-- A call of `fn` that can be replaced by the body of `callee`, both functions being in good shape,
and with numbers for the copy that are not in use. -/
structure CallSite (fn callee : Function) extends CallPlace fn callee where
  compatible : Inline.compatible call callee = true
  body : callee.isExternal = false
  caller : fn.Shape
  called : callee.Shape
  fresh : Splice.Fresh fn callee toCallPlace.numbers

namespace CallSite

open CallPlace

variable {fn callee : Function} (s : CallSite fn callee)

theorem args_length : s.call.args.length = callee.params.length :=
  Inline.compatible_args s.compatible

theorem value_zero : s.numbers.value 0 = 0 := Splice.numbers_value_zero s.called

theorem result_ne_zero : ∀ v ∈ callee.results, s.numbers.value v ≠ 0 := fun v hv =>
  (s.fresh.result v hv).1

theorem entryId_mem (s : CallSite fn callee) : callee.entryId ∈ callee.blockIds :=
  s.called.entryId_mem s.body

theorem head_term : s.head.term = some (.br (s.numbers.block callee.entryId)) :=
  congrArg (fun id : Option BlockId => some (Term.br (id.getD 0)))
    (Splice.numbers_lookup s.entryId_mem)

/-- Nothing after the call is a phi. -/
theorem not_isPhi_of_mem_drop {i : Instr} (hi : i ∈ s.block.instrs.drop (s.place + 1)) :
    i.isPhi = false := by
  have hphis := s.caller.phis_first s.block s.block_mem
  rw [s.instrs_eq, Function.PhisFirst, List.pairwise_append, List.pairwise_cons] at hphis
  cases hphi : i.isPhi with
  | false => rfl
  | true => simpa [Instr.isPhi] using hphis.2.1.1 i hi hphi

/-- The successors of a copy are the copies of the successors, besides the exit block and the
handler of the call's block. -/
theorem mem_copy_successors {c : Block} (hc : c ∈ callee.blocks) {q : BlockId}
    (hq : q ∈ c.successors) : s.numbers.block q ∈ (s.copy c).successors := by
  rw [Block.mem_successors]
  rcases Block.mem_successors.1 hq with ⟨t, ht, hmem⟩ | ⟨h0, rfl⟩
  · refine Or.inl ?_
    cases t with
    | ret v hasValue => simp [Term.targets] at hmem
    | unreachable => simp [Term.targets] at hmem
    | br id =>
      obtain rfl := List.mem_singleton.1 hmem
      exact ⟨_, s.copy_term_br ht, List.mem_singleton.2 rfl⟩
    | brIf v yes no =>
      refine ⟨_, s.copy_term_brIf ht, Term.mem_targets_brIf.2 ?_⟩
      exact (Term.mem_targets_brIf.1 hmem).imp (congrArg _) (congrArg _)
  · refine Or.inr ?_
    rw [copy_handler, if_neg h0]
    exact ⟨(s.fresh.block _ (s.called.succ_mem c hc _ hq)).1, rfl⟩

/-! ### Definitions -/

theorem definedIds_nodup : (s.result.definedIds.filter (· ≠ 0)).Nodup := by
  have hparams : ∀ p ∈ s.result.params, p.id ≠ 0 := by
    rw [params_result]
    exact s.caller.param_ne_zero
  have hfn := s.caller.defined_nodup
  have hfn' : ∀ v ∈ fn.params.map Param.id ++ fn.results, v ∈ fn.definedIds := by
    intro v hv
    rw [← Function.definedIds_filter s.caller.param_ne_zero] at hv
    exact (List.mem_filter.1 hv).1
  rw [Function.definedIds_filter s.caller.param_ne_zero] at hfn
  rw [Function.definedIds_filter hparams, params_result,
    (List.Perm.append_left _ (s.results_perm s.called s.result_ne_zero)).nodup_iff,
    ← List.append_assoc, List.nodup_append']
  refine ⟨hfn, List.Nodup.map_on (fun v hv w hw => s.fresh.result_inj v hv w hw) ?_, ?_⟩
  · have hcallee := s.called.defined_nodup
    rw [Function.definedIds_filter s.called.param_ne_zero] at hcallee
    exact (List.nodup_append'.1 hcallee).2.1
  · intro v hv hv'
    obtain ⟨w, hw, rfl⟩ := List.mem_map.1 hv'
    exact (s.fresh.result w hw).2 (hfn' _ hv)

theorem defined_result {v : ValueId} : s.result.Defined v ↔
    fn.Defined v ∨ ∃ w ∈ callee.results, s.numbers.value w = v := by
  have hparams : ∀ p ∈ s.result.params, p.id ≠ 0 := by
    rw [params_result]
    exact s.caller.param_ne_zero
  rw [Function.defined_iff hparams, Function.defined_iff s.caller.param_ne_zero, params_result,
    (s.results_perm s.called s.result_ne_zero).mem_iff, List.mem_append,
    List.mem_map (f := s.numbers.value), or_assoc]

/-! ### All rules -/

theorem value_eq_zero_iff {i : Instr} (hi : i ∈ callee.instrs) :
    s.numbers.value i.result = 0 ↔ i.result = 0 := by
  constructor
  · intro h
    by_contra h0
    exact (s.fresh.result _ (Function.mem_results.2 ⟨h0, i, hi, rfl⟩)).1 h
  · exact fun h0 => h0 ▸ s.value_zero

theorem typed_copy {i : Instr} (hi : i ∈ callee.instrs) : (s.numbers.instr i).Typed := by
  refine (s.called.typed i hi).congr ?_ (by simp) (by simp) ?_
  · rw [s.numbers.result_instr i s.value_zero, s.value_eq_zero_iff hi]
  · intro c hc
    cases i with
    | call c' =>
      refine ⟨c', rfl, ?_⟩
      rw [← Instr.call.inj hc]
    | _ => simp [Renaming.instr, Instr.setResult, Instr.mapOperands, Instr.mapPreds,
        Instr.mapIncoming] at hc

theorem typed_merge {i : Instr} (hi : i ∈ Splice.merge s.numbers s.call callee) : i.Typed := by
  obtain ⟨h0, rfl⟩ := s.mem_merge hi
  refine ⟨fun _ _ => h0, fun _ => ?_, fun c hc => by simp at hc⟩
  obtain ⟨hne, heq⟩ := Inline.compatible_ret s.compatible h0
  exact heq ▸ hne

theorem phisFirst_map {l : List Instr} (h : Function.PhisFirst l) {f : Instr → Instr}
    (hf : ∀ i, (f i).isPhi = i.isPhi) : Function.PhisFirst (l.map f) := by
  rw [Function.PhisFirst, List.pairwise_map]
  simp only [hf]
  exact h

/-- The entries of phis that name other predecessors. -/
theorem incoming_source {c : Block} (hc : c ∈ fn.blocks) {is : List Instr}
    (his : ∀ i ∈ is, i ∈ c.instrs) {p : Phi}
    (hp : .phi p ∈ is.map (Instr.mapPreds (s.source c.id))) {e : Incoming} (he : e ∈ p.incoming) :
    s.result.hasEdge e.pred c.id = true := by
  obtain ⟨i, hi, heq⟩ := List.mem_map.1 hp
  obtain ⟨q, rfl, rfl⟩ := Instr.mapPreds_eq_phi heq
  obtain ⟨e', he', rfl⟩ := List.mem_map.1 he
  exact s.hasEdge_source (s.caller.incoming_edge c hc q (his _ hi) e' he')

theorem incoming_result {c : Block} (hc : s.Part c) {p : Phi} (hp : .phi p ∈ c.instrs)
    {e : Incoming} (he : e ∈ p.incoming) : s.result.hasEdge e.pred c.id = true := by
  cases hc with
  | @other c hc hne =>
    rw [other_instrs] at hp
    rw [other_id]
    exact s.incoming_source hc (fun _ hi => hi) hp he
  | head =>
    rw [head_instrs] at hp
    rw [head_id]
    exact s.incoming_source s.block_mem (fun _ hi => List.mem_of_mem_take hi) hp he
  | @copy c hc =>
    obtain ⟨i, hi, heq⟩ := List.mem_map.1 hp
    obtain ⟨q, rfl, rfl⟩ := Renaming.instr_eq_phi heq
    obtain ⟨e', he', rfl⟩ := List.mem_map.1 he
    obtain ⟨d, hd, hid, hsucc⟩ :=
      Function.hasEdge_iff.1 (s.called.incoming_edge c hc q hi e' he')
    rw [s.copy_id hc]
    exact s.hasEdge_result (.copy hd) (hid ▸ s.copy_id hd) (s.mem_copy_successors hd hsucc)
  | exit =>
    rw [exit_instrs] at hp
    rcases List.mem_append.1 hp with hp | hp
    · obtain ⟨-, heq⟩ := s.mem_merge hp
      obtain rfl := Instr.phi.inj heq
      obtain ⟨d, hd, v, hv, rfl⟩ := s.mem_returned he
      refine s.hasEdge_result (.copy hd) (s.copy_id hd) (Block.mem_successors.2 (Or.inl ?_))
      exact ⟨_, s.copy_term_ret hv, List.mem_singleton.2 rfl⟩
    · simpa [Instr.isPhi] using s.not_isPhi_of_mem_drop hp

theorem typed_result {i : Instr} (hi : i ∈ s.result.instrs) : i.Typed := by
  rcases s.mem_instrs_result hi with ⟨j, hj, f, rfl⟩ | hi | ⟨j, hj, rfl⟩
  · exact (s.caller.typed j hj).mapPreds f
  · exact s.typed_merge hi
  · exact s.typed_copy hj

theorem phisFirst_result {c : Block} (hc : s.Part c) : Function.PhisFirst c.instrs := by
  have hblock := s.caller.phis_first s.block s.block_mem
  cases hc with
  | @other c hc hne =>
    rw [other_instrs]
    exact phisFirst_map (s.caller.phis_first c hc) fun i => i.isPhi_mapPreds _
  | head =>
    rw [head_instrs]
    exact phisFirst_map (hblock.sublist (List.take_sublist _ _)) fun i => i.isPhi_mapPreds _
  | @copy c hc => exact phisFirst_map (s.called.phis_first c hc) s.numbers.isPhi_instr
  | exit =>
    rw [exit_instrs, Function.PhisFirst, List.pairwise_append]
    refine ⟨?_, hblock.sublist (List.drop_sublist _ _), fun i hi j hj hphi => ?_⟩
    · unfold Splice.merge
      split <;> simp
    · simp [s.not_isPhi_of_mem_drop hj] at hphi

theorem succ_mem_result {c : Block} (hc : s.Part c) {q : BlockId} (hq : q ∈ c.successors) :
    q ∈ s.result.blockIds := by
  rw [mem_blockIds_result]
  cases hc with
  | @other c hc hne =>
    rw [other_successors] at hq
    exact Or.inl (s.caller.succ_mem c hc q hq)
  | head =>
    rcases Block.mem_successors.1 hq with ⟨t, ht, hq⟩ | ⟨h0, rfl⟩
    · rw [head_term] at ht
      obtain rfl := Option.some.inj ht
      obtain rfl := List.mem_singleton.1 hq
      exact Or.inr (Or.inr ⟨_, s.entryId_mem, rfl⟩)
    · rw [head_handler] at h0 ⊢
      exact Or.inl (s.caller.succ_mem _ s.block_mem _ (Block.mem_successors.2 (Or.inr ⟨h0, rfl⟩)))
  | @copy c hc =>
    rcases s.of_mem_copy_successors (s.called.has_term c hc) hq with
      ⟨-, rfl⟩ | ⟨-, h0, rfl⟩ | ⟨q', hq', rfl⟩
    · exact Or.inr (Or.inl rfl)
    · exact Or.inl (s.caller.succ_mem _ s.block_mem _ (Block.mem_successors.2 (Or.inr ⟨h0, rfl⟩)))
    · exact Or.inr (Or.inr ⟨q', s.called.succ_mem c hc q' hq', rfl⟩)
  | exit => exact Or.inl (s.caller.succ_mem _ s.block_mem q hq)

/-- The terminators of the result: those of the caller, jumps to the entry of the copy and to the
exit block, and renamed ones that are no returns. -/
theorem term_result {c : Block} (hc : s.Part c) : ∃ t, c.term = some t ∧
    ((∃ d ∈ fn.blocks, d.term = some t) ∨ (∃ id, t = .br id) ∨
      ∃ d ∈ callee.blocks, ∃ u, d.term = some u ∧ (∀ v hasValue, u ≠ .ret v hasValue) ∧
        t = s.numbers.term u) := by
  have hold : ∀ d ∈ fn.blocks, ∃ t, d.term = some t := fun d hd =>
    Option.ne_none_iff_exists'.1 (s.caller.has_term d hd)
  cases hc with
  | @other d hd hne =>
    obtain ⟨t, ht⟩ := hold d hd
    exact ⟨t, (s.other_term d).trans ht, Or.inl ⟨d, hd, ht⟩⟩
  | head => exact ⟨_, s.head_term, Or.inr (Or.inl ⟨_, rfl⟩)⟩
  | @copy d hd =>
    obtain ⟨u, hu⟩ := Option.ne_none_iff_exists'.1 (s.called.has_term d hd)
    cases u with
    | ret v hasValue => exact ⟨_, s.copy_term_ret hu, Or.inr (Or.inl ⟨_, rfl⟩)⟩
    | br id => exact ⟨_, s.copy_term_br hu, Or.inr (Or.inl ⟨_, rfl⟩)⟩
    | brIf v yes no => exact ⟨_, s.copy_term_brIf hu, Or.inr (Or.inr ⟨d, hd, _, hu, by simp, rfl⟩)⟩
    | unreachable =>
      exact ⟨_, s.copy_term_unreachable hu, Or.inr (Or.inr ⟨d, hd, _, hu, by simp, rfl⟩)⟩
  | exit =>
    obtain ⟨t, ht⟩ := hold _ s.block_mem
    exact ⟨t, ht, Or.inl ⟨_, s.block_mem, ht⟩⟩

theorem id_ne_zero_result {c : Block} (hc : s.Part c) : c.id ≠ 0 := by
  cases hc with
  | other hc hne =>
    rw [other_id]
    exact s.caller.id_ne_zero _ hc
  | head =>
    rw [head_id]
    exact s.caller.id_ne_zero _ s.block_mem
  | @copy c hc =>
    rw [s.copy_id hc]
    exact (s.fresh.block _ (Function.mem_blockIds.2 ⟨c, hc, rfl⟩)).1
  | exit => exact s.fresh.exit.1

/-- **Replacing a call keeps the shape.** -/
theorem shape : s.result.Shape where
  id_ne_zero c hc := s.id_ne_zero_result (s.mem_result.1 hc)
  ids_nodup := s.blockIds_nodup s.called.ids_nodup s.fresh.toFreshBlocks
  entry_mem h0 := by
    have hentry : s.result.entry = fn.entry := by rw [s.result_eq]
    rw [hentry] at h0 ⊢
    exact s.mem_blockIds_result.2 (Or.inl (s.caller.entry_mem h0))
  param_ne_zero := by
    rw [params_result]
    exact s.caller.param_ne_zero
  defined_nodup := s.definedIds_nodup
  typed i hi := s.typed_result hi
  phis_first c hc := s.phisFirst_result (s.mem_result.1 hc)
  incoming_edge c hc p hp e he := s.incoming_result (s.mem_result.1 hc) hp he
  has_term c hc := by
    obtain ⟨t, ht, -⟩ := s.term_result (s.mem_result.1 hc)
    rw [ht]
    simp
  succ_mem c hc q hq := s.succ_mem_result (s.mem_result.1 hc) hq
  returns c hc v hasValue hterm := by
    have hret : s.result.returnsNothing = fn.returnsNothing := by
      rw [s.result_eq]
      rfl
    obtain ⟨t, ht, hkind⟩ := s.term_result (s.mem_result.1 hc)
    obtain rfl := Option.some.inj (ht.symm.trans hterm)
    rw [hret]
    rcases hkind with ⟨d, hd, hdterm⟩ | ⟨id, heq⟩ | ⟨d, hd, u, -, hne, heq⟩
    · exact s.caller.returns d hd v hasValue hdterm
    · simp at heq
    · cases u with
      | ret w hasValue' => exact absurd rfl (hne w hasValue')
      | _ => simp [Renaming.term, Term.mapOperands, Term.mapTargets] at heq

/-! ### The values that are read -/

theorem value_of_mem_zip {e : ValueId × ValueId}
    (he : e ∈ (callee.params.map Param.id).zip s.call.args) : s.numbers.value e.1 = e.2 :=
  Splice.numbers_param s.called s.args_length he

/-- A parameter stands for the argument at its place. -/
theorem value_param {v : ValueId} (hv : v ∈ callee.params.map Param.id) :
    ∃ (k : Nat) (p : Param), callee.params[k]? = some p ∧ p.id = v ∧
      s.call.args[k]? = some (s.numbers.value v) := by
  obtain ⟨k, hk, hget⟩ := List.mem_iff_getElem.1 hv
  have hlen : k < callee.params.length := by simpa using hk
  have hk' : k < s.call.args.length := s.args_length ▸ hlen
  have hmem : (v, s.call.args[k]) ∈ (callee.params.map Param.id).zip s.call.args := by
    rw [List.mem_iff_getElem]
    exact ⟨k, by simpa [s.args_length] using hk, by simp [← hget]⟩
  refine ⟨k, callee.params[k], List.getElem?_eq_getElem hlen, by simpa using hget, ?_⟩
  rw [s.value_of_mem_zip hmem, List.getElem?_eq_getElem hk']

theorem defined_param (hfn : fn.Closed) {v : ValueId} (hv : v ∈ callee.params.map Param.id) :
    fn.Defined (s.numbers.value v) := by
  obtain ⟨k, p, -, -, hk⟩ := s.value_param hv
  exact hfn.operand _ s.block_mem _ s.call_mem _ (List.mem_of_getElem? hk)

/-- A value that the callee reads stands for one that the result defines. -/
theorem defined_value (hfn : fn.Closed) {v : ValueId} (hv : callee.Defined v) :
    s.result.Defined (s.numbers.value v) := by
  rw [defined_result]
  rcases (Function.defined_iff s.called.param_ne_zero).1 hv with hv | hv
  · exact Or.inl (s.defined_param hfn hv)
  · exact Or.inr ⟨v, hv, rfl⟩

/-- **Replacing a call** leads to no read of a value that is not defined. -/
theorem closed (hfn : fn.Closed) (hcallee : callee.Closed) : s.result.Closed where
  operand c hc i hi v hv := by
    rcases s.mem_instrs_result (Function.mem_instrs.2 ⟨c, hc, hi⟩) with
      ⟨j, hj, f, rfl⟩ | hi | ⟨j, hj, rfl⟩
    · obtain ⟨d, hd, hj⟩ := Function.mem_instrs.1 hj
      rw [Instr.operands_mapPreds] at hv
      exact s.defined_result.2 (Or.inl (hfn.operand d hd j hj v hv))
    · obtain ⟨-, rfl⟩ := s.mem_merge hi
      obtain ⟨e, he, rfl⟩ := List.mem_map.1 hv
      obtain ⟨d, hd, w, hterm, rfl⟩ := s.mem_returned he
      exact s.defined_value hfn (hcallee.termOperand d hd _ hterm w (List.mem_singleton.2 rfl))
    · obtain ⟨d, hd, hj⟩ := Function.mem_instrs.1 hj
      rw [Renaming.operands_instr] at hv
      obtain ⟨w, hw, rfl⟩ := List.mem_map.1 hv
      exact s.defined_value hfn (hcallee.operand d hd j hj w hw)
  termOperand c hc t ht v hv := by
    obtain ⟨t', ht', hkind⟩ := s.term_result (s.mem_result.1 hc)
    obtain rfl := Option.some.inj (ht'.symm.trans ht)
    rcases hkind with ⟨d, hd, hdterm⟩ | ⟨id, rfl⟩ | ⟨d, hd, u, hu, -, rfl⟩
    · exact s.defined_result.2 (Or.inl (hfn.termOperand d hd _ hdterm v hv))
    · simp [Term.operands] at hv
    · have hoperands : (s.numbers.term u).operands = u.operands.map s.numbers.value := by
        cases u with
        | ret w hasValue => cases hasValue <;> rfl
        | _ => rfl
      rw [hoperands] at hv
      obtain ⟨w, hw, rfl⟩ := List.mem_map.1 hv
      exact s.defined_value hfn (hcallee.termOperand d hd u hu w hw)

/-! ## The counters of the result -/

/-- A counter that has come to `n`, in a function whose numbers are all below `n`. It has only come
to 2 ^ 32 if the last number is in use. -/
theorem mark_eq {ids : List UInt32} {n : Nat} (hpos : 0 < n) (hle : n ≤ UInt32.size)
    (hlast : n = UInt32.size → ∃ id ∈ ids, id.toNat + 1 = n) :
    (if UInt32.ofNat n = 0 then (Function.greatest ids).toNat + 1 else (UInt32.ofNat n).toNat) =
      n := by
  by_cases hn : n = UInt32.size
  · obtain ⟨id, hid, heq⟩ := hlast hn
    have hge := UInt32.le_iff_toNat_le.1 (Function.le_greatest hid)
    have hlt := (Function.greatest ids).toNat_lt_size
    rw [if_pos (by rw [hn]; rfl)]
    omega
  · have hlt : n < UInt32.size := by omega
    rw [if_neg (Function.ofNat_ne_zero hpos hlt), toNat_ofNat hlt]

/-- The last one of consecutive numbers. -/
theorem last_mem_numbered {k : Nat} {ids : List UInt32} (hne : ids ≠ [])
    (hle : k + ids.length ≤ UInt32.size) :
    ∃ e ∈ numbered k ids, e.2.toNat + 1 = k + ids.length := by
  have hlen : 0 < ids.length := List.length_pos_iff.2 hne
  have hlast : ids.length - 1 < ids.length := by omega
  refine ⟨(ids[ids.length - 1], UInt32.ofNat (k + (ids.length - 1))), mem_numbered.2 ?_, ?_⟩
  · exact ⟨ids.length - 1, List.getElem?_eq_getElem hlast, rfl⟩
  · dsimp only
    rw [toNat_ofNat (by omega)]
    omega

theorem mem_definedIds_result {v : ValueId} : v ∈ s.result.definedIds →
    v = 0 ∨ v ∈ fn.definedIds ∨ ∃ w ∈ callee.results, s.numbers.value w = v := by
  intro hv
  by_cases h0 : v = 0
  · exact Or.inl h0
  · exact Or.inr ((s.defined_result.1 ⟨h0, hv⟩).imp And.right id)

section Counted

variable (hcounted : fn.Counted) (hfits : fn.Fits callee)
include hcounted hfits

theorem numbers_eq : s.numbers = Splice.rename fn s.call callee :=
  Splice.numbers_eq_rename s.blocks_eq hcounted hfits s.place s.call

/-- Both counters have moved on by the numbers that have been taken. -/
theorem next_result :
    s.result.nextValue = UInt32.ofNat (fn.valueMark + callee.results.length) ∧
      s.result.nextBlock = UInt32.ofNat (fn.blockMark + (callee.blocks.length + 1)) := by
  have hafter : ∀ c, ((Splice.cut fn s.pre.length s.place).after
      (Function.requests callee.blocks)).reading c = UInt32.ofNat (fn.mark c +
        [Function.Counter.block].count c + (Function.requests callee.blocks).count c) :=
    Function.reading_after
      (fun c => by
        cases c
        · exact Splice.reading_value_cut hcounted s.pre.length s.place
        · exact (Splice.reading_cut .block).trans (fn.reading_draw_self .block))
      (fun c => Nat.add_pos_left (fn.mark_pos c) _)
      (fun c => by
        cases c
        · rw [Function.count_value_requests]
          exact hfits.values
        · rw [Function.count_block_requests, Nat.add_assoc, Nat.add_comm _ callee.blocks.length]
          exact hfits.blocks)
  have hvalue := hafter .value
  have hblock := hafter .block
  rw [Function.count_value_requests] at hvalue
  rw [Function.count_block_requests, Nat.add_assoc, Nat.add_comm _ callee.blocks.length] at hblock
  rw [s.result_eq]
  exact ⟨hvalue, hblock⟩

/-- The values of the result are below where the counter has come to. -/
theorem value_lt {v : ValueId} (hv : v ∈ s.result.definedIds) :
    v.toNat < fn.valueMark + callee.results.length := by
  have hpos : 0 < fn.valueMark := fn.mark_pos .value
  rcases s.mem_definedIds_result hv with rfl | hv | ⟨w, hw, rfl⟩
  · simp
    omega
  · exact Nat.lt_add_right _ (hcounted.lt_mark (c := .value) hv)
  · have hlt := List.length_pos_of_mem hw
    have hle := hfits.values
    have hnumber := Splice.numbers_result s.blocks_eq hcounted.toCountersAbove hfits s.called
      s.place s.args_length hw
    rw [Splice.mark_value_cut hcounted _ _ (by omega)] at hnumber
    exact (le_toNat_of_mem_numbered hle hnumber).2

theorem valueMark_result : s.result.valueMark = fn.valueMark + callee.results.length := by
  have hpos : 0 < fn.valueMark := fn.mark_pos .value
  have hle := hfits.values
  rw [Function.valueMark, (s.next_result hcounted hfits).1]
  refine mark_eq (by omega) hle fun hfull => ?_
  by_cases hnil : callee.results = []
  · -- nothing is numbered, so the last number was in use before
    rw [hnil, List.length_nil, Nat.add_zero] at hfull ⊢
    have hmark := hfull
    unfold Function.valueMark at hmark
    split at hmark
    · have hne : Function.greatest fn.definedIds ≠ 0 := by
        intro h0
        simp [h0, UInt32.size] at hmark
      refine ⟨_, ?_, hmark.trans hfull.symm⟩
      exact (s.defined_result.2 (Or.inl ⟨hne, Function.greatest_mem hne⟩)).2
    · have := fn.nextValue.toNat_lt_size
      omega
  · obtain ⟨⟨w, v⟩, he, heq⟩ := last_mem_numbered hnil hle
    have hw : w ∈ callee.results := by
      have := List.mem_map_of_mem (f := Prod.fst) he
      rwa [numbered_fst] at this
    have hmem : (w, v) ∈ s.numbers.values := by
      rw [s.numbers_eq hcounted hfits]
      exact List.mem_append_left _ (List.mem_reverse.2 he)
    have hvalue : s.numbers.value w = v :=
      Splice.numbers_value_of_mem s.called s.args_length hmem
    exact ⟨v, (s.defined_result.2 (Or.inr ⟨w, hw, hvalue⟩)).2, heq⟩

/-- The blocks of the result are below where the counter has come to. -/
theorem block_lt {id : BlockId} (hid : id ∈ s.result.blockIds) :
    id.toNat < fn.blockMark + (callee.blocks.length + 1) := by
  have hle := hfits.blocks
  rcases s.mem_blockIds_result.1 hid with hid | rfl | ⟨c, hc, rfl⟩
  · exact Nat.lt_add_right _ (hcounted.lt_mark (c := .block) hid)
  · rw [exitId, Splice.exitId, toNat_ofNat (by omega)]
    omega
  · have hlength := callee.length_blockIds
    have hlt : (s.numbers.block c).toNat < fn.blockMark + 1 + callee.blockIds.length :=
      (le_toNat_of_mem_numbered (by omega) (Splice.numbers_block s.blocks_eq
        hcounted.toCountersAbove hfits s.called s.place s.call hc)).2
    omega

theorem blockMark_result : s.result.blockMark = fn.blockMark + (callee.blocks.length + 1) := by
  have hpos : 0 < fn.blockMark := fn.mark_pos .block
  have hle := hfits.blocks
  have hlength := callee.length_blockIds
  have hne : callee.blockIds ≠ [] := by
    intro h
    simpa [h] using s.entryId_mem
  rw [Function.blockMark, (s.next_result hcounted hfits).2]
  refine mark_eq (by omega) hle fun _ => ?_
  obtain ⟨⟨c, id⟩, he, heq⟩ :=
    last_mem_numbered hne (k := fn.blockMark + 1) (by omega)
  have hc : c ∈ callee.blockIds := by
    have := List.mem_map_of_mem (f := Prod.fst) he
    rwa [numbered_fst] at this
  have hblock : s.numbers.block c = id := by
    have hmem : (c, id) ∈ s.numbers.blocks := by
      rw [s.numbers_eq hcounted hfits]
      exact List.mem_reverse.2 he
    exact Splice.numbers_block_of_mem s.called hmem
  dsimp only at heq
  exact ⟨id, s.mem_blockIds_result.2 (Or.inr (Or.inr ⟨c, hc, hblock⟩)), by omega⟩

/-- **Replacing a call** leaves counters that are above the numbers in use. -/
theorem counted_result : s.result.Counted where
  value_lt h0 v hv := by
    have hmark := s.valueMark_result hcounted hfits
    rw [Function.valueMark, if_neg h0] at hmark
    rw [UInt32.lt_iff_toNat_lt, hmark]
    exact s.value_lt hcounted hfits hv
  block_lt h0 id hid := by
    have hmark := s.blockMark_result hcounted hfits
    rw [Function.blockMark, if_neg h0] at hmark
    rw [UInt32.lt_iff_toNat_lt, hmark]
    exact s.block_lt hcounted hfits hid
  together h0 _ := by
    have hle := hfits.values
    have hpos : 0 < fn.valueMark := fn.mark_pos .value
    rw [s.valueMark_result hcounted hfits]
    by_contra hne
    exact Function.ofNat_ne_zero (by omega) (by omega) ((s.next_result hcounted hfits).1 ▸ h0)

end Counted

end CallSite

end SsaOpt
