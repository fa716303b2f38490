import SsaOpt.Proofs.InlineDefects

/-!
# Replacing one call

What the checks report after one call has been replaced, for a caller that may already have names
that come twice. Such a caller is one that follows all rules but that on names
(`Function.onlyNamesClash_iff`). The structural defects of the result are names that come twice, and
its memory defects are the copies of loads and stores that go through a parameter for which the call
passes no pointer, all of them (`CallSite.mem_memoryDefects_result`).
-/

namespace SsaOpt

/-- The flaw of a name that comes twice. -/
def Flaw.isDuplicateName : Flaw → Bool
  | .duplicateBlockName _ => true
  | _ => false

theorem Flaw.isDuplicateName_iff {f : Flaw} :
    f.isDuplicateName = true ↔ ∃ n, f = .duplicateBlockName n := by
  cases f <;> simp [isDuplicateName]

namespace Function

variable {fn : Function}

/-! ## Callers in which only names clash -/

/-- The structural defects of the function are names of blocks that come twice. -/
def OnlyNamesClash (fn : Function) : Prop :=
  ∀ d ∈ fn.defects, ∃ n, d.flaw = .duplicateBlockName n

theorem blockFlaws_names_iff (ids : List BlockId) (names : List String) (blocks : List Block) :
    (∀ e ∈ blockFlaws ids names blocks, e.2.isDuplicateName = true) ↔
      (∀ b ∈ blocks, b.id ≠ 0 ∧ b.id ∉ ids) ∧ (blocks.map Block.id).Nodup := by
  induction blocks generalizing ids names with
  | nil => simp [blockFlaws]
  | cons b rest ih =>
    rw [blockFlaws]
    by_cases h0 : b.id = 0
    · simp [h0, Flaw.isDuplicateName]
    · have hhead : (∀ e ∈ (flawIf (ids.contains b.id) .duplicateBlockId ++
          flawIf (b.name ≠ "" && names.contains b.name) (.duplicateBlockName b.name)).map (b.id, ·),
            e.2.isDuplicateName = true) ↔ b.id ∉ ids := by
        cases hid : ids.contains b.id <;>
          cases hname : (decide (b.name ≠ "") && names.contains b.name) <;>
          simp_all [flawIf, Flaw.isDuplicateName]
      rw [if_neg h0, List.forall_mem_append, hhead, ih, List.map_cons, List.nodup_cons]
      simp only [List.mem_cons, forall_eq_or_imp, List.mem_map]
      grind

/-- A check that is not about names. -/
theorem names_iff_eq_nil {α : Type} {flaw : α → Flaw} {l : List α}
    (h : ∀ e ∈ l, (flaw e).isDuplicateName = false) :
    (∀ e ∈ l, (flaw e).isDuplicateName = true) ↔ l = [] := by
  rw [List.eq_nil_iff_forall_not_mem]
  exact forall₂_congr fun e he => by simp [h e he]

theorem not_name_of_mem_redefinition {earlier : List ValueId} {id : ValueId} {f : Flaw}
    (hf : f ∈ redefinition earlier id) : f.isDuplicateName = false := by
  obtain ⟨-, rfl⟩ := mem_flawIf.1 hf
  rfl

theorem not_name_of_mem_paramFlaws {earlier : List ValueId} {params : List Param}
    {e : BlockId × Flaw} (he : e ∈ paramFlaws earlier params) : e.2.isDuplicateName = false := by
  induction params generalizing earlier with
  | nil => simp [paramFlaws] at he
  | cons p rest ih =>
    rcases List.mem_append.1 he with he | he
    · obtain ⟨f, hf, rfl⟩ := List.mem_map.1 he
      rcases List.mem_append.1 hf with hf | hf
      · obtain ⟨-, rfl⟩ := mem_flawIf.1 hf
        rfl
      · exact not_name_of_mem_redefinition hf
    · exact ih he

theorem not_name_of_mem_instrFlaws {i : Instr} {f : Flaw} (hf : f ∈ instrFlaws i) :
    f.isDuplicateName = false := by
  rw [instrFlaws_eq] at hf
  rcases List.mem_append.1 hf with hf | hf
  · rcases List.mem_append.1 hf with hf | hf <;> obtain ⟨-, rfl⟩ := mem_flawIf.1 hf <;> rfl
  · cases i with
    | call c =>
      obtain ⟨-, rfl⟩ := mem_flawIf.1 hf
      rfl
    | _ => simp [effectFlaws] at hf

theorem not_name_of_mem_definitionFlaws {earlier : List ValueId} {placed : List (BlockId × Instr)}
    {e : BlockId × Flaw} (he : e ∈ definitionFlaws earlier placed) :
    e.2.isDuplicateName = false := by
  induction placed generalizing earlier with
  | nil => simp [definitionFlaws] at he
  | cons p rest ih =>
    rcases List.mem_append.1 he with he | he
    · obtain ⟨f, hf, rfl⟩ := List.mem_map.1 he
      rcases List.mem_append.1 hf with hf | hf
      · exact not_name_of_mem_instrFlaws hf
      · exact not_name_of_mem_redefinition hf
    · exact ih he

theorem not_name_of_mem_useFlaws {b : BlockId} {late : Bool} {is : List Instr} {f : Flaw}
    (hf : f ∈ useFlaws fn b late is) : f.isDuplicateName = false := by
  induction is generalizing late with
  | nil => simp [useFlaws] at hf
  | cons i rest ih =>
    rw [useFlaws_cons] at hf
    rcases List.mem_append.1 hf with hf | hf
    · rcases List.mem_append.1 hf with hf | hf
      · cases i with
        | phi p =>
          rcases List.mem_append.1 hf with hf | hf
          · obtain ⟨-, rfl⟩ := mem_flawIf.1 hf
            rfl
          · obtain ⟨e, -, rfl⟩ := List.mem_map.1 hf
            rfl
        | _ => simp [phiFlaws] at hf
      · obtain ⟨v, -, rfl⟩ := List.mem_map.1 hf
        rfl
    · exact ih hf

theorem not_name_of_mem_endFlaws {b : Block} {f : Flaw} (hf : f ∈ fn.endFlaws b) :
    f.isDuplicateName = false := by
  cases ht : b.term with
  | none =>
    simp only [endFlaws, ht, List.mem_singleton] at hf
    exact hf ▸ rfl
  | some t =>
    rw [endFlaws_eq ht] at hf
    rcases List.mem_append.1 hf with hf | hf
    · rcases List.mem_append.1 hf with hf | hf <;> obtain ⟨v, -, rfl⟩ := List.mem_map.1 hf <;> rfl
    · cases t with
      | ret v hasValue =>
        rcases List.mem_append.1 hf with hf | hf <;> obtain ⟨-, rfl⟩ := mem_flawIf.1 hf <;> rfl
      | _ => simp [returnFlaws] at hf

/-- **Only names clash** in a function that follows all rules but that on names. -/
theorem onlyNamesClash_iff (hblocks : fn.isExternal = false) :
    fn.OnlyNamesClash ↔ fn.Shape ∧ fn.Closed := by
  have hids : (∀ e ∈ blockFlaws [] [] fn.blocks, e.2.isDuplicateName = true) ↔
      (∀ b ∈ fn.blocks, b.id ≠ 0) ∧ fn.blockIds.Nodup := by
    rw [blockFlaws_names_iff]
    simp [blockIds]
  have hentry : (∀ e ∈ fn.entryFlaws, e.2.isDuplicateName = true) ↔ fn.entryFlaws = [] := by
    refine names_iff_eq_nil fun e he => ?_
    obtain ⟨f, hf, rfl⟩ := List.mem_map.1 he
    obtain ⟨-, rfl⟩ := mem_flawIf.1 hf
    rfl
  have huses : (∀ e ∈ fn.blocks.flatMap fun b =>
      (useFlaws fn b.id false b.instrs ++ fn.endFlaws b).map (b.id, ·),
        e.2.isDuplicateName = true) ↔
        ∀ b ∈ fn.blocks, useFlaws fn b.id false b.instrs = [] ∧ fn.endFlaws b = [] := by
    rw [List.forall_mem_flatMap]
    refine forall₂_congr fun b _ => ?_
    rw [List.forall_mem_map, ← List.append_eq_nil_iff]
    refine names_iff_eq_nil fun f hf => ?_
    exact (List.mem_append.1 hf).elim not_name_of_mem_useFlaws not_name_of_mem_endFlaws
  rw [← checks_iff, OnlyNamesClash]
  simp only [defects, hblocks, Bool.false_eq_true, if_false, List.forall_mem_map,
    List.forall_mem_append, ← Flaw.isDuplicateName_iff, hids, hentry, huses,
    names_iff_eq_nil fun _ he => not_name_of_mem_paramFlaws he,
    names_iff_eq_nil fun _ he => not_name_of_mem_definitionFlaws he, and_assoc]

end Function

namespace CallPlace

variable {fn callee : Function} (s : CallPlace fn callee)

theorem entryId_result (hfn : fn.Shape) (hids : s.result.blockIds.Nodup) :
    s.result.entryId = fn.entryId := by
  have hentry : s.result.entry = fn.entry := by rw [s.result_eq]
  by_cases h0 : fn.entry = 0
  · rw [Function.entryId, Function.entryId, Function.entryBlock?, Function.entryBlock?, if_pos h0,
      if_pos (hentry.trans h0), s.result_eq, s.blocks_eq]
    cases s.pre with
    | nil => simp
    | cons c rest => simp
  · have hid : ∀ f : Function, f.blockIds.Nodup → f.entry ≠ 0 → f.entry ∈ f.blockIds →
        f.entryId = f.entry := by
      intro f hf hne hmem
      obtain ⟨c, hc, hid⟩ := Function.mem_blockIds.1 hmem
      rw [Function.entryId, Function.entryBlock?, if_neg hne, ← hid, Function.block?_of_mem hf hc]
      rfl
    have hmem := hfn.entry_mem h0
    rw [hid _ hids (hentry ▸ h0) (hentry ▸ s.mem_blockIds_result.2 (Or.inl hmem)),
      hid _ hfn.ids_nodup h0 hmem, hentry]

/-- Where only names clash, no copy has the number of a value that is defined behind the call. -/
theorem apart_of_onlyNamesClash (hcallee : callee.Shape)
    (hne : ∀ v ∈ callee.results, s.numbers.value v ≠ 0) (h : s.result.OnlyNamesClash) :
    Splice.Apart s.block s.place callee s.numbers := by
  have hbody : s.result.isExternal = false :=
    Function.isExternal_of_mem (s.mem_result.2 .head)
  obtain ⟨hshape, -⟩ := (Function.onlyNamesClash_iff hbody).1 h
  have hnodup := hshape.defined_nodup
  rw [Function.definedIds_filter hshape.param_ne_zero] at hnodup
  have hresults := (s.results_perm hcallee hne).nodup_iff.1 (List.nodup_append'.1 hnodup).2.1
  intro v hv hmem
  refine (List.nodup_append'.1 hresults).2.2 ?_ (List.mem_map_of_mem hv)
  obtain ⟨hmem, h0⟩ := List.mem_filter.1 hmem
  obtain ⟨i, hi, heq⟩ := List.mem_map.1 hmem
  rw [← heq] at h0 ⊢
  exact Function.mem_results.2 ⟨by simpa using h0, i,
    Function.mem_instrs.2 ⟨_, s.block_mem, List.mem_of_mem_drop hi⟩, rfl⟩

end CallPlace

namespace CallSite

open CallPlace

variable {fn callee : Function} (s : CallSite fn callee)

/-! ## The loads and stores of the result -/

/-- The result keeps the types of the caller. -/
theorem hasType_of_caller {v : ValueId} {ty : Option Ty} (h : fn.HasType v ty) :
    s.result.HasType v ty := by
  rcases h with hparam | ⟨i, hi, h0, rfl, rfl⟩
  · exact Or.inl (s.params_result ▸ hparam)
  obtain ⟨c, hc, hic⟩ := Function.mem_instrs.1 hi
  -- The instruction is in the result, or a phi defines the value in its place.
  have hpart : ∀ d j, s.Part d → j ∈ d.instrs → j.result = i.result →
      j.resultType = i.resultType → s.result.HasType i.result i.resultType := by
    intro d j hd hj hresult htype
    refine Or.inr ⟨j, Function.mem_instrs.2 ⟨d, s.mem_result.2 hd, hj⟩, ?_, hresult, htype⟩
    rwa [hresult]
  by_cases hid : c.id = s.block.id
  · obtain rfl : c = s.block := Function.eq_of_id_eq s.caller.ids_nodup hc s.block_mem hid
    rw [s.instrs_eq] at hic
    rcases List.mem_append.1 hic with hic | hic
    · exact hpart _ _ .head (s.head_instrs ▸ List.mem_map_of_mem hic) (by simp) (by simp)
    · rcases List.mem_cons.1 hic with rfl | hic
      · have hmerge : .phi ⟨s.call.result, s.call.ty,
            callee.blocks.filterMap (Splice.returned s.numbers)⟩ ∈ s.exit.instrs := by
          have hne : s.call.result ≠ 0 := h0
          rw [exit_instrs, Splice.merge, if_neg hne]
          exact List.mem_cons_self
        exact hpart _ _ .exit hmerge rfl rfl
      · exact hpart _ _ .exit (List.mem_append_right _ hic) rfl rfl
  · exact hpart _ _ (.other hc hid) (s.other_instrs c ▸ List.mem_map_of_mem hic) (by simp) (by simp)

/-- **The memory defects of the result.** -/
theorem mem_memoryDefects_result (hfn : fn.Closed) (haddr : fn.Addressed) (hcallee : callee.Sound)
    {d : Defect} : d ∈ s.result.memoryDefects ↔
      ∃ c ∈ callee.blocks, ∃ j ∈ c.instrs, ∃ (k : Nat) (p : Param) (a : ValueId) (ty : Option Ty),
        callee.params[k]? = some p ∧ Function.accessAddr? j = some p.id ∧
        s.call.args[k]? = some a ∧ fn.typeOf? a = some ty ∧ ty ≠ some .ptr ∧
        d = ⟨fn.name, s.numbers.block c.id, .notPointer (s.numbers.instr j) ty⟩ := by
  have hname : s.result.name = fn.name := by rw [s.result_eq]
  rw [Function.mem_memoryDefects s.shape, hname]
  constructor
  · rintro ⟨c, hc, i, hi, a, ty, ha, hty, hne, rfl⟩
    have hcaller : ∀ j ∈ fn.instrs, ∀ f, j.mapPreds f ≠ i := by
      rintro j hj f rfl
      obtain ⟨-, ha, hty⟩ := s.access_of_caller hfn hj ha hty
      exact hne (haddr j hj a ha ty hty)
    have hblock : ∀ j ∈ s.block.instrs, ∀ f, j.mapPreds f ≠ i := fun j hj =>
      hcaller j (Function.mem_instrs.2 ⟨_, s.block_mem, hj⟩)
    cases s.mem_result.1 hc with
    | @other e he hid =>
      rw [other_instrs] at hi
      obtain ⟨j, hj, heq⟩ := List.mem_map.1 hi
      exact absurd heq (hcaller j (Function.mem_instrs.2 ⟨e, he, hj⟩) _)
    | head =>
      rw [head_instrs] at hi
      obtain ⟨j, hj, heq⟩ := List.mem_map.1 hi
      exact absurd heq (hblock j (List.mem_of_mem_take hj) _)
    | @copy e he =>
      rw [s.copy_id he]
      obtain ⟨j, hj, rfl⟩ := List.mem_map.1 hi
      obtain ⟨k, p, hp, haddr, hk, htype⟩ :=
        s.access_of_copy hfn hcallee (Function.mem_instrs.2 ⟨e, he, hj⟩) ha hty hne
      exact ⟨e, he, j, hj, k, p, a, ty, hp, haddr, hk, htype, hne, rfl⟩
    | exit =>
      rw [exit_instrs] at hi
      rcases List.mem_append.1 hi with hi | hi
      · obtain ⟨-, rfl⟩ := s.mem_merge hi
        simp [Function.accessAddr?] at ha
      · exact absurd (Instr.mapPreds_id i) (hblock i (List.mem_of_mem_drop hi) _)
  · rintro ⟨c, hc, j, hj, k, p, a, ty, hp, hw, hk, htype, hne, rfl⟩
    have hvalue : s.numbers.value p.id = a := by
      refine s.value_of_mem_zip (e := (p.id, a)) (List.mem_iff_getElem?.2 ⟨k, ?_⟩)
      simp [List.getElem?_zip_eq_some, hp, hk]
    have hfnType := (Function.typeOf?_eq_some_iff s.caller).1 htype
    refine ⟨s.copy c, s.mem_result.2 (.copy hc), _, List.mem_map_of_mem hj, a, ty, ?_,
      s.hasType_of_caller hfnType, hne, by rw [s.copy_id hc]⟩
    rw [Instr.accessAddr?_instr, hw, Option.map_some, hvalue]

/-- **The structural defects of the result** are names that come twice. -/
theorem mem_defects_result (hfn : fn.Closed) (hcallee : callee.Sound) {d : Defect}
    (hd : d ∈ s.result.defects) : ∃ n, d.flaw = .duplicateBlockName n ∧
      (2 ≤ (fn.blocks.map Block.name).count n ∨ Splice.Makes fn callee s.numbers n) := by
  have hbut : fn.SoundBut (fun n => 2 ≤ (fn.blocks.map Block.name).count n) fun _ => True :=
    ⟨s.caller, hfn, fun n _ hn => by omega, fun _ _ hnot => absurd trivial hnot⟩
  obtain ⟨n, hn, hflaw⟩ := (s.soundBut hbut hcallee).defect hd
  exact ⟨n, hflaw, hn⟩

end CallSite

namespace Function

variable {fn callee : Function}

/-- **Replacing a call keeps the caller well formed, up to two defects, if the copy gets no number
that is in use.** The caller may have names that come twice; the callee has a body and no defect at
all. The counters of the caller are `0` or above its numbers, and there are numbers left. Then only
names clash afterwards if and only if no copy has the number of a value that the call or an
instruction behind it defines, and only a caller whose value counter is `0` and whose block counter
is not gets such a number. Control enters where it did. If the numbers are apart, the names that
come twice did so before or have been made for the copies, and if all loads and stores of the caller
went through pointers, the ones that do not are exactly the copies of those whose address is a
parameter for which the call passes something else. -/
theorem splice_keeps_rules_but_two {position place : Nat} {b : Block} {call : Call}
    (hfn : fn.OnlyNamesClash) (habove : fn.CountersAbove) (hfits : fn.Fits callee)
    (hblock : fn.blocks[position]? = some b) (hcall : b.instrs[place]? = some (.call call))
    (hcompatible : Inline.compatible call callee = true) (hbody : callee.isExternal = false)
    (hdefects : callee.defects = []) (hmemory : callee.memoryDefects = []) :
    let fn' := (fn.splice position place call callee).1
    let r := Splice.numbers fn position place call callee
    (fn'.OnlyNamesClash ↔ Splice.Apart b place callee r) ∧
      (¬ Splice.Apart b place callee r → fn.nextValue = 0 ∧ fn.nextBlock ≠ 0) ∧
      fn'.entryId = fn.entryId ∧
      (Splice.Apart b place callee r →
        (∀ d ∈ fn'.defects, ∃ n, d.flaw = .duplicateBlockName n ∧
          (2 ≤ (fn.blocks.map Block.name).count n ∨ Splice.Makes fn callee r n)) ∧
        (fn.memoryDefects = [] → ∀ d, d ∈ fn'.memoryDefects ↔
          ∃ c ∈ callee.blocks, ∃ i ∈ c.instrs,
            ∃ (k : Nat) (p : Param) (a : ValueId) (ty : Option Ty),
              callee.params[k]? = some p ∧ accessAddr? i = some p.id ∧ call.args[k]? = some a ∧
              fn.typeOf? a = some ty ∧ ty ≠ some .ptr ∧
              d = ⟨fn.name, r.block c.id, .notPointer (r.instr i) ty⟩)) := by
  obtain ⟨hshape, hclosed⟩ :=
    (onlyNamesClash_iff (isExternal_of_mem (List.mem_of_getElem? hblock))).1 hfn
  have hcallee : callee.Sound := (sound_iff hbody).2 ⟨hdefects, hmemory⟩
  let s : CallPlace fn callee := .ofIndex callee hshape.ids_nodup hblock hcall
  have hargs : s.call.args.length = callee.params.length := Inline.compatible_args hcompatible
  rw [← CallPlace.result_ofIndex callee hshape.ids_nodup hblock hcall,
    ← CallPlace.numbers_ofIndex callee hshape.ids_nodup hblock hcall]
  intro fn' r
  have hne : ∀ v ∈ callee.results, s.numbers.value v ≠ 0 := fun v hv =>
    (Splice.numbers_unused s.blocks_eq habove hfits hcallee.shape s.place hargs hv).1
  have hids : s.result.blockIds.Nodup := s.blockIds_nodup hcallee.shape.ids_nodup
    (Splice.numbers_freshBlocks s.blocks_eq habove hfits hcallee.shape s.place s.call)
  let site (hapart : Splice.Apart b place callee r) : CallSite fn callee :=
    ⟨s, hcompatible, hbody, hshape, hcallee.shape,
      Splice.numbers_fresh s.blocks_eq habove hfits hcallee.shape s.place hargs hapart⟩
  refine ⟨⟨s.apart_of_onlyNamesClash hcallee.shape hne, fun hapart d hd => ?_⟩, fun hnot => ?_,
    s.entryId_result hshape hids, fun hapart => ⟨fun d hd => ?_, fun hnone d => ?_⟩⟩
  · obtain ⟨n, hflaw, -⟩ := (site hapart).mem_defects_result hclosed hcallee hd
    exact ⟨n, hflaw⟩
  · by_contra hset
    have hcounted : fn.Counted := ⟨habove, fun hv hb => absurd ⟨hv, hb⟩ hset⟩
    exact hnot (Splice.numbers_apart s.blocks_eq hcounted hfits hcallee.shape s.place hargs)
  · exact (site hapart).mem_defects_result hclosed hcallee hd
  · have haddr := (memoryDefects_eq_nil_iff_addressed hshape).1 hnone
    exact (site hapart).mem_memoryDefects_result hclosed haddr hcallee

/-- A function that loads through its parameter. -/
def loadOnce : Function where
  name := "g"
  params := [⟨1, "p", some .ptr⟩]
  ret := some .bool
  blocks :=
    [{ id := 1, instrs := [.load ⟨2, 1, some .bool, false, false⟩], term := some (.br 2) },
      { id := 2, name := "out", instrs := [.phi ⟨3, some .bool, [⟨1, 2⟩]⟩]
        term := some (.ret 3 true) }]

/-- A loop through a call of it that passes a bit. Both blocks have the name that is to be made for
the exit block. -/
def loopOverLoad : Function where
  name := "f"
  blocks :=
    [{ id := 1, name := "g.exit.3", instrs := [.const ⟨1, some .bool, "true"⟩]
       term := some (.br 2) },
      { id := 2, name := "g.exit.3"
        instrs := [.phi ⟨2, some .bool, [⟨1, 1⟩, ⟨2, 3⟩]⟩,
          .call ⟨3, "g", [2], some .bool, .pure, false⟩]
        term := some (.br 2) }]

/-- Both defects at once: a made name that is in use, and a copied load through a bit. Where the
value counter alone is `0`, the copy of a value gets the number of the call. -/
theorem splice_loopOverLoad :
    let fn' := (loopOverLoad.splice 1 1 ⟨3, "g", [2], some .bool, .pure, false⟩ loadOnce).1
    loopOverLoad.defects = [⟨"f", 2, .duplicateBlockName "g.exit.3"⟩] ∧
      (∀ d ∈ fn'.defects, ∃ n, d.flaw = .duplicateBlockName n) ∧
      ⟨"f", 3, .duplicateBlockName "g.exit.3"⟩ ∈ fn'.defects ∧ fn'.entryId = 1 ∧
      ⟨"f", 4, .notPointer (.load ⟨4, 2, some .bool, false, false⟩) (some .bool)⟩ ∈
        fn'.memoryDefects ∧
      halfCounted.defects = [] ∧
      ¬ (halfCounted.splice 0 0 ⟨2, "g", [], some .bool, .pure, false⟩
        returnsBit).1.OnlyNamesClash := by
  intro fn'
  have hdefects : loopOverLoad.defects = [⟨"f", 2, .duplicateBlockName "g.exit.3"⟩] := by
    decide +kernel
  have hfn : loopOverLoad.OnlyNamesClash := by
    intro d hd
    rw [hdefects, List.mem_singleton] at hd
    exact ⟨_, congrArg Defect.flaw hd⟩
  obtain ⟨hclash, hapart, hentry, hkept⟩ := @splice_keeps_rules_but_two loopOverLoad loadOnce 1 1
    _ _ hfn (Counted.of_zero rfl rfl).toCountersAbove (by decide +kernel) rfl rfl rfl rfl
    (by decide +kernel) (by decide +kernel)
  have hapart := by_contra fun h => (hapart h).2 rfl
  obtain ⟨-, hmemory⟩ := hkept hapart
  have hhalf : halfCounted.defects = [] := by decide +kernel
  obtain ⟨hclash', -⟩ := @splice_keeps_rules_but_two halfCounted returnsBit 0 0 _
    ⟨2, "g", [], some .bool, .pure, false⟩ (by simp [OnlyNamesClash, hhalf])
    countersAbove_halfCounted (by decide +kernel) rfl rfl rfl rfl (by decide +kernel)
    (by decide +kernel)
  refine ⟨hdefects, hclash.2 hapart, by decide +kernel, hentry.trans (by decide), ?_, hhalf,
    fun h => ?_⟩
  · refine (hmemory (by decide +kernel) _).2 ⟨_, List.mem_cons_self, _, List.mem_cons_self, 0, _, 2,
      some .bool, rfl, rfl, rfl, by decide +kernel, by decide, by decide +kernel⟩
  · exact hclash'.1 h 1 (by decide +kernel) (by decide +kernel)

end Function

end SsaOpt
