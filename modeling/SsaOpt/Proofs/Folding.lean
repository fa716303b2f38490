import SsaOpt.Pass.ConstFold
import SsaOpt.Proofs.Addresses
import SsaOpt.Proofs.Results

/-!
# Constant folding keeps functions sound

Folding puts constants in the place of other instructions. A constant has the number and the type of
what it replaces (`Stands`), so nothing of what the rules speak about changes: `Folded.sound`. This
is so whether or not the pass fails in the end (`run_folded`).
-/

namespace SsaOpt

namespace ConstFold

/-- An instruction in the place of another: itself, or a constant of the same number and type. -/
inductive Stands : Instr → Instr → Prop
  | same (i : Instr) : Stands i i
  | const {i : Instr} {c : Const} (hresult : c.result = i.result) (htype : c.ty = i.resultType)
    (hne : c.ty ≠ none) (hphi : i.isPhi = false) (hcall : i.isCall = false)
    (hcritical : i.isCritical = false) : Stands i (.const c)

/-- A block with constants in the place of some instructions. -/
def FoldedBlock (b b' : Block) : Prop :=
  ∃ is, b' = { b with instrs := is } ∧ List.Forall₂ Stands b.instrs is

/-- A function with constants in the place of some instructions. -/
def Folded (fn fn' : Function) : Prop :=
  ∃ bs, fn' = { fn with blocks := bs } ∧ List.Forall₂ FoldedBlock fn.blocks bs

namespace Stands

variable {i j k : Instr}

theorem trans (h : Stands i j) (h' : Stands j k) : Stands i k := by
  cases h' with
  | same => exact h
  | const hresult htype hne hphi hcall hcritical =>
    cases h with
    | same => exact .const hresult htype hne hphi hcall hcritical
    | const hresult' htype' _ hphi' hcall' hcritical' =>
      exact .const (hresult.trans hresult') (htype.trans htype') hne hphi' hcall' hcritical'

theorem result_eq (h : Stands i j) : j.result = i.result := by
  cases h with
  | same => rfl
  | const hresult => exact hresult

theorem type_eq (h : Stands i j) : j.resultType = i.resultType := by
  cases h with
  | same => rfl
  | const _ htype => exact htype

theorem isPhi_eq (h : Stands i j) : j.isPhi = i.isPhi := by
  cases h with
  | same => rfl
  | const _ _ _ hphi => exact hphi.symm

theorem eq_of_phi {p : Phi} (h : Stands i (.phi p)) : i = .phi p := by
  cases h
  rfl

theorem eq_of_access {a : ValueId} (h : Stands i j) (ha : Function.accessAddr? j = some a) :
    i = j := by
  cases h with
  | same => rfl
  | const => simp [Function.accessAddr?] at ha

/-- Critical instructions and calls stay. -/
theorem eq_of_critical (h : Stands i j) (hi : i.isCritical = true ∨ i.isCall = true) : j = i := by
  cases h with
  | same => rfl
  | const _ _ _ _ hcall hcritical => simp [hcall, hcritical] at hi

theorem operands_subset (h : Stands i j) : j.operands ⊆ i.operands := by
  cases h with
  | same => exact fun _ hv => hv
  | const => simp [Instr.operands]

theorem typed (h : Stands i j) (hi : i.Typed) : j.Typed := by
  cases h with
  | same => exact hi
  | @const c hresult htype hne _ hcall _ =>
    refine ⟨fun _ _ h0 => ?_, fun _ => hne, by simp⟩
    exact hi.result_ne_zero (htype ▸ hne) hcall (hresult ▸ h0)

end Stands

theorem FoldedBlock.refl (b : Block) : FoldedBlock b b :=
  ⟨b.instrs, rfl, List.forall₂_same.2 fun i _ => .same i⟩

theorem FoldedBlock.trans {b b' b'' : Block} (h : FoldedBlock b b') (h' : FoldedBlock b' b'') :
    FoldedBlock b b'' := by
  obtain ⟨is, rfl, his⟩ := h
  obtain ⟨is', rfl, his'⟩ := h'
  exact ⟨is', rfl, forall₂_trans (R := Stands) (fun _ _ _ => .trans) his his'⟩

namespace Folded

variable {fn fn' fn'' : Function}

theorem refl (fn : Function) : Folded fn fn :=
  ⟨fn.blocks, rfl, List.forall₂_same.2 fun b _ => .refl b⟩

theorem trans (h : Folded fn fn') (h' : Folded fn' fn'') : Folded fn fn'' := by
  obtain ⟨bs, rfl, hbs⟩ := h
  obtain ⟨bs', rfl, hbs'⟩ := h'
  exact ⟨bs', rfl, forall₂_trans (R := FoldedBlock) (fun _ _ _ => .trans) hbs hbs'⟩

/-! ### What stays as it is -/

theorem name_eq (h : Folded fn fn') : fn'.name = fn.name := by
  obtain ⟨bs, rfl, -⟩ := h
  rfl

theorem isExternal_eq (h : Folded fn fn') : fn'.isExternal = fn.isExternal := by
  have hempty : ∀ {l l' : List Block}, List.Forall₂ FoldedBlock l l' → l'.isEmpty = l.isEmpty := by
    intro l l' hl
    cases hl <;> rfl
  obtain ⟨bs, rfl, hbs⟩ := h
  exact hempty hbs

/-- Each block comes from one that differs in its instructions only. -/
theorem block (h : Folded fn fn') {b' : Block} (hb' : b' ∈ fn'.blocks) :
    ∃ b ∈ fn.blocks, FoldedBlock b b' := by
  obtain ⟨bs, rfl, hbs⟩ := h
  exact forall₂_exists_left hbs hb'

theorem map_blocks {α : Type} (h : Folded fn fn') {f : Block → α}
    (hf : ∀ b is, f { b with instrs := is } = f b) : fn'.blocks.map f = fn.blocks.map f := by
  obtain ⟨bs, rfl, hbs⟩ := h
  refine forall₂_map_eq hbs fun b b' hb => ?_
  obtain ⟨is, rfl, -⟩ := hb
  exact hf b is

theorem instrs (h : Folded fn fn') : List.Forall₂ Stands fn.instrs fn'.instrs := by
  obtain ⟨bs, rfl, hbs⟩ := h
  refine List.rel_flatMap hbs fun b b' hb => ?_
  obtain ⟨is, rfl, his⟩ := hb
  exact his

theorem blockIds_eq (h : Folded fn fn') : fn'.blockIds = fn.blockIds :=
  h.map_blocks fun _ _ => rfl

theorem definedIds_eq (h : Folded fn fn') : fn'.definedIds = fn.definedIds := by
  have hresults := forall₂_map_eq h.instrs fun _ _ hi => hi.result_eq
  obtain ⟨bs, rfl, -⟩ := h
  rw [Function.definedIds, Function.definedIds, hresults]

theorem hasEdge_eq (h : Folded fn fn') (p q : BlockId) : fn'.hasEdge p q = fn.hasEdge p q := by
  have hany : ∀ blocks : List Block, (blocks.any fun b => b.id = p && b.successors.contains q) =
      (blocks.map fun b => decide (b.id = p) && b.successors.contains q).any id := by
    intro blocks
    rw [List.any_map]
    rfl
  rw [Function.hasEdge, Function.hasEdge, hany, hany, h.map_blocks fun _ _ => rfl]

/-- Folding leaves the flow of control as it is. -/
theorem flowGraph_eq (h : Folded fn fn') : FlowGraph.build fn' = FlowGraph.build fn := by
  have hedges : fn'.blocks.map (fun b => (b.id, b.successors)) =
      fn.blocks.map fun b => (b.id, b.successors) := h.map_blocks fun _ _ => rfl
  have hentry : fn'.entryBlock?.map Block.id = fn.entryBlock?.map Block.id := by
    have hids : fn'.blocks.map Block.id = fn.blocks.map Block.id := h.map_blocks fun _ _ => rfl
    have hmap : ∀ g : Function, g.entryBlock?.map Block.id =
        if g.entry = 0 then (g.blocks.map Block.id).head?
        else (g.blocks.map Block.id).find? fun id => id = g.entry := by
      intro g
      unfold Function.entryBlock? Function.block?
      split
      · rw [List.head?_map]
      · rw [List.find?_map]
        rfl
    rw [hmap, hmap, hids]
    obtain ⟨bs, rfl, -⟩ := h
    rfl
  unfold FlowGraph.build
  cases he : fn.entryBlock? <;> cases he' : fn'.entryBlock? <;> simp [he, he'] at hentry
  · simp only [hedges]
  · simp only [hedges, hentry]

theorem hasType_iff (h : Folded fn fn') {v : ValueId} {ty : Option Ty} :
    fn'.HasType v ty ↔ fn.HasType v ty := by
  have htypes := forall₂_map_eq (f := fun i => (i.result, i.resultType))
    (g := fun i => (i.result, i.resultType)) h.instrs fun _ _ hi => by rw [hi.result_eq, hi.type_eq]
  have hmem : ∀ is : List Instr, (∃ i ∈ is, i.result ≠ 0 ∧ i.result = v ∧ i.resultType = ty) ↔
      v ≠ 0 ∧ (v, ty) ∈ is.map fun i => (i.result, i.resultType) := by
    intro is
    simp only [List.mem_map, Prod.mk.injEq]
    grind
  obtain ⟨bs, rfl, -⟩ := h
  rw [Function.HasType, Function.HasType, hmem, hmem, htypes]

/-! ### The rules -/

theorem shape (h : Folded fn fn') (hfn : fn.Shape) : fn'.Shape where
  id_ne_zero b' hb' := by
    obtain ⟨b, hb, is, rfl, -⟩ := h.block hb'
    exact hfn.id_ne_zero b hb
  ids_nodup := h.blockIds_eq ▸ hfn.ids_nodup
  entry_mem h0 := by
    rw [h.blockIds_eq]
    obtain ⟨bs, rfl, -⟩ := h
    exact hfn.entry_mem h0
  param_ne_zero := by
    obtain ⟨bs, rfl, -⟩ := h
    exact hfn.param_ne_zero
  defined_nodup := h.definedIds_eq ▸ hfn.defined_nodup
  typed j hj := by
    obtain ⟨i, hi, hstands⟩ := forall₂_exists_left h.instrs hj
    exact hstands.typed (hfn.typed i hi)
  phis_first b' hb' := by
    obtain ⟨b, hb, is, rfl, his⟩ := h.block hb'
    have hphis := forall₂_map_eq his fun _ _ hi => hi.isPhi_eq
    have hfirst : ∀ l : List Instr, Function.PhisFirst l ↔
        (l.map Instr.isPhi).Pairwise fun x y => y = true → x = true := by
      intro l
      rw [List.pairwise_map]
      rfl
    rw [hfirst, hphis, ← hfirst]
    exact hfn.phis_first b hb
  incoming_edge b' hb' p hp e he := by
    obtain ⟨b, hb, is, rfl, his⟩ := h.block hb'
    obtain ⟨i, hi, hstands⟩ := forall₂_exists_left his hp
    rw [h.hasEdge_eq]
    exact hfn.incoming_edge b hb p (hstands.eq_of_phi ▸ hi) e he
  has_term b' hb' := by
    obtain ⟨b, hb, is, rfl, -⟩ := h.block hb'
    exact hfn.has_term b hb
  succ_mem b' hb' := by
    obtain ⟨b, hb, is, rfl, -⟩ := h.block hb'
    exact h.blockIds_eq ▸ hfn.succ_mem b hb
  returns b' hb' := by
    obtain ⟨b, hb, is, rfl, -⟩ := h.block hb'
    obtain ⟨bs, rfl, -⟩ := h
    exact hfn.returns b hb

theorem closed (h : Folded fn fn') (hfn : fn.Closed) : fn'.Closed where
  operand b' hb' j hj v hv := by
    obtain ⟨b, hb, is, rfl, his⟩ := h.block hb'
    obtain ⟨i, hi, hstands⟩ := forall₂_exists_left his hj
    rw [Function.Defined, h.definedIds_eq]
    exact hfn.operand b hb i hi v (hstands.operands_subset hv)
  termOperand b' hb' t ht v hv := by
    obtain ⟨b, hb, is, rfl, -⟩ := h.block hb'
    rw [Function.Defined, h.definedIds_eq]
    exact hfn.termOperand b hb t ht v hv

theorem addressed (h : Folded fn fn') (hfn : fn.Addressed) : fn'.Addressed := by
  intro j hj a ha ty hty
  obtain ⟨i, hi, hstands⟩ := forall₂_exists_left h.instrs hj
  obtain rfl := hstands.eq_of_access ha
  exact hfn i hi a ha ty (h.hasType_iff.1 hty)

/-- **Folding keeps all rules.** -/
theorem sound (h : Folded fn fn') (hfn : fn.Sound) : fn'.Sound where
  shape := h.shape hfn.shape
  named := by
    rw [Function.Named, h.map_blocks fun _ _ => rfl]
    exact hfn.named
  closed := h.closed hfn.closed
  addressed := h.addressed hfn.addressed

end Folded

/-! ## A run -/

variable {refuse : Instr → Const → Option Failure}

/-- What is planned for an instruction is a constant that it evaluates to. -/
theorem plan_forall₂ (consts : Consts) (is : List Instr) :
    List.Forall₂ (fun i e => e.1 = i ∧ ∀ c, e.2 = some c → ∃ known, foldInstr known i = some c) is
      (plan consts is).1 := by
  induction is generalizing consts with
  | nil => exact .nil
  | cons i is ih => exact .cons ⟨rfl, fun c hc => ⟨consts, hc⟩⟩ (ih _)

/-- **The replacements of a block** that are not refused. -/
theorem commit_forall₂ {R : Instr → Instr → Prop} (hrefl : ∀ i, R i i)
    {planned : List (Instr × Option Const)}
    (h : ∀ e ∈ planned, ∀ c, e.2 = some c → refuse e.1 c = none → R e.1 (.const c)) :
    List.Forall₂ R (planned.map Prod.fst) (commit refuse planned).instrs := by
  induction planned with
  | nil => exact .nil
  | cons e planned ih =>
    obtain ⟨i, new⟩ := e
    have hrest := ih fun e he => h e (by simp [he])
    cases new with
    | none => exact .cons (hrefl i) hrest
    | some c =>
      rw [commit]
      cases hrefuse : refuse i c with
      | some f => exact .cons (hrefl i) (List.forall₂_same.2 fun j _ => hrefl j)
      | none => exact .cons (h _ (by simp) c rfl hrefuse) hrest

theorem commit_failure {planned : List (Instr × Option Const)} {f : Failure}
    (h : (commit refuse planned).failure = some f) : ∃ i c, refuse i c = some f := by
  induction planned with
  | nil => simp [commit] at h
  | cons e planned ih =>
    obtain ⟨i, new⟩ := e
    cases new with
    | none => exact ih h
    | some c =>
      rw [commit] at h
      cases hrefuse : refuse i c with
      | some f' =>
        simp only [hrefuse, Option.some.injEq] at h
        exact ⟨i, c, h ▸ hrefuse⟩
      | none =>
        simp only [hrefuse] at h
        exact ih h

/-- Without a replacement a block stays as it is. -/
theorem commit_of_zero {planned : List (Instr × Option Const)}
    (h : (commit refuse planned).folded = 0) :
    (commit refuse planned).instrs = planned.map Prod.fst := by
  induction planned with
  | nil => rfl
  | cons e planned ih =>
    obtain ⟨i, new⟩ := e
    cases new with
    | none => exact congrArg (i :: ·) (ih h)
    | some c =>
      rw [commit] at h ⊢
      cases hrefuse : refuse i c with
      | some f => rfl
      | none => simp [hrefuse] at h

theorem planned_fst (consts : Consts) (is : List Instr) : (plan consts is).1.map Prod.fst = is := by
  have h := forall₂_map_eq (g := Prod.fst) (f := id) (plan_forall₂ consts is) fun _ _ he => he.1
  rwa [List.map_id] at h

theorem folded_modifyBlock {fn : Function} {k : Nat} {f : Block → Block}
    (h : ∀ b, fn.blocks[k]? = some b → FoldedBlock b (f b)) : Folded fn (fn.modifyBlock f k) := by
  refine ⟨fn.blocks.modify k f, rfl, ?_⟩
  generalize fn.blocks = blocks at h
  induction blocks generalizing k with
  | nil => simp
  | cons b rest ih =>
    cases k with
    | zero => exact .cons (h b (by simp)) (List.forall₂_same.2 fun c _ => .refl c)
    | succ k => exact .cons (.refl b) (ih fun c hc => h c (by simpa using hc))

/-- **What a run preserves**, with an error or without. -/
theorem foldBlocks_folded
    (hrefuse : ∀ known i c, foldInstr known i = some c → refuse i c = none → Stands i (.const c))
    (positions : List Nat) (consts : Consts) (fn : Function) :
    Folded fn (foldBlocks refuse positions consts fn).function := by
  induction positions generalizing consts fn with
  | nil => exact .refl fn
  | cons k rest ih =>
    rw [foldBlocks]
    dsimp only
    have hstep : Folded fn (fn.modifyBlock (fun b => { b with instrs := (commit refuse
        (plan consts ((fn.blocks[k]?.map Block.instrs).getD [])).1).instrs }) k) := by
      refine folded_modifyBlock fun b hb => ⟨_, rfl, ?_⟩
      rw [hb]
      have hcommit : List.Forall₂ Stands ((plan consts b.instrs).1.map Prod.fst)
          (commit refuse (plan consts b.instrs).1).instrs :=
        commit_forall₂ .same fun e he c hc hnone => by
          obtain ⟨i, -, hi, hfold⟩ := forall₂_exists_left (plan_forall₂ consts b.instrs) he
          obtain ⟨known, hknown⟩ := hfold c hc
          exact hi ▸ hrefuse known i c hknown (hi ▸ hnone)
      rwa [planned_fst] at hcommit
    split
    · exact hstep
    · exact hstep.trans (ih _ _)

theorem foldBlocks_failure {positions : List Nat} {consts : Consts} {fn : Function} {f : Failure}
    (h : (foldBlocks refuse positions consts fn).failure = some f) :
    ∃ i c, refuse i c = some f := by
  induction positions generalizing consts fn with
  | nil => simp [foldBlocks] at h
  | cons k rest ih =>
    rw [foldBlocks] at h
    dsimp only at h
    split at h
    · next hf =>
      obtain rfl := Option.some.inj h
      exact commit_failure hf
    · exact ih h

/-- A block with the instructions that it has. -/
theorem modifyBlock_self (fn : Function) (k : Nat) : fn.modifyBlock (fun b =>
    { b with instrs := (fn.blocks[k]?.map Block.instrs).getD [] }) k = fn := by
  rw [Function.modifyBlock]
  cases hb : fn.blocks[k]? with
  | none => rw [List.modify_eq_self (by simpa using hb)]
  | some b =>
    obtain ⟨hlt, hget⟩ := List.getElem?_eq_some_iff.1 hb
    have hset : fn.blocks.modify k (fun c => { c with instrs := b.instrs }) =
        fn.blocks.set k b := by
      rw [List.modify_eq_set_getElem?, hb]
      rfl
    rw [Option.map_some, Option.getD_some, hset, ← hget, List.set_getElem_self]

/-- A run that folds nothing leaves the function as it is, whether or not it fails. -/
theorem foldBlocks_of_zero {positions : List Nat} {consts : Consts} {fn : Function}
    (h : (foldBlocks refuse positions consts fn).folded = 0) :
    (foldBlocks refuse positions consts fn).function = fn := by
  induction positions generalizing consts fn with
  | nil => rfl
  | cons k rest ih =>
    have hself (hzero : (commit refuse
        (plan consts ((fn.blocks[k]?.map Block.instrs).getD [])).1).folded = 0) :
        fn.modifyBlock (fun b => { b with instrs := (commit refuse
          (plan consts ((fn.blocks[k]?.map Block.instrs).getD [])).1).instrs }) k = fn := by
      rw [commit_of_zero hzero, planned_fst, modifyBlock_self]
    rw [foldBlocks] at h ⊢
    dsimp only at h ⊢
    cases hf : (commit refuse
        (plan consts ((fn.blocks[k]?.map Block.instrs).getD [])).1).failure with
    | some f =>
      simp only [hf] at h
      exact hself h
    | none =>
      simp only [hf] at h ⊢
      rw [hself (by omega)] at h ⊢
      exact ih (by omega)

theorem stands_of_refusal {checker : Option Checker} {function : String} {known : Consts}
    {i : Instr} {c : Const} (hfold : foldInstr known i = some c)
    (h : refusal checker function i c = none) : Stands i (.const c) := by
  have htype : i.resultType ≠ none ∧ i.resultType = c.ty := by
    by_contra hne
    rw [not_and_or, not_not] at hne
    simp only [refusal, if_pos hne] at h
    split at h <;> cases h
  have hne : c.ty ≠ none := htype.2 ▸ htype.1
  cases i with
  | binary b =>
    simp only [foldInstr, Option.bind_eq_bind, Option.bind_eq_some_iff, Option.some.injEq] at hfold
    obtain ⟨_, _, _, _, rfl⟩ := hfold
    have hcritical : (Instr.binary b).isCritical = false := by
      simp only [Instr.isCritical, Instr.effect]
      split <;> rfl
    exact .const rfl htype.2.symm hne rfl rfl hcritical
  | compare b =>
    simp only [foldInstr, Option.bind_eq_bind, Option.bind_eq_some_iff, Option.some.injEq] at hfold
    obtain ⟨_, _, _, _, rfl⟩ := hfold
    exact .const rfl htype.2.symm hne rfl rfl rfl
  | cast b =>
    simp only [foldInstr, Option.bind_eq_bind, Option.bind_eq_some_iff,
      Option.ite_none_right_eq_some, Option.some.injEq] at hfold
    obtain ⟨_, _, _, _, _, rfl⟩ := hfold
    exact .const rfl htype.2.symm hne rfl rfl rfl
  | _ => cases hfold

/-- **What constant folding makes of a function**, with an error or without. -/
theorem run_folded (checker : Option Checker) (fn : Function) :
    Folded fn (run checker fn).function :=
  foldBlocks_folded (fun _ _ _ => stands_of_refusal) _ _ _

end ConstFold

end SsaOpt
