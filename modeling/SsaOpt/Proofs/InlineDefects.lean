import SsaOpt.Proofs.Addresses
import SsaOpt.Proofs.InlineRuns

/-!
# What inlining can break

Replacing a call keeps all rules but two (`CallSite.soundBut`). The names made for the new blocks
may be in use already. And a load or store of the callee may go through a parameter for which the
call passes something else than a pointer, for the rules do not compare the types of arguments with
those of parameters. `Function.SoundBut` leaves out some names and some instructions; over a run,
these are the names and the copies that its replacements made (`Inlined.soundBut`).
-/

namespace SsaOpt

namespace Function

/-- All rules, but names in `N` may come twice, and instructions in `P` may go through something
else than a pointer. -/
structure SoundBut (N : String → Prop) (P : Instr → Prop) (fn : Function) : Prop where
  shape : fn.Shape
  closed : fn.Closed
  named : ∀ n, n ≠ "" → ¬ N n → (fn.blocks.map Block.name).count n ≤ 1
  addressed : ∀ i ∈ fn.instrs, ¬ P i → ∀ a, accessAddr? i = some a →
    ∀ ty, fn.HasType a ty → ty = some .ptr

namespace SoundBut

variable {fn : Function} {N N' : String → Prop} {P P' : Instr → Prop}

theorem of_sound (h : fn.Sound) : fn.SoundBut N P where
  shape := h.shape
  closed := h.closed
  named _ hn _ := h.named.count_le_one hn
  addressed i hi _ := h.addressed i hi

theorem mono (h : fn.SoundBut N P) (hN : ∀ n, N n → N' n) (hP : ∀ i, P i → P' i) :
    fn.SoundBut N' P' where
  shape := h.shape
  closed := h.closed
  named n hn hnot := h.named n hn fun hin => hnot (hN n hin)
  addressed i hi hnot := h.addressed i hi fun hin => hnot (hP i hin)

/-- The structural defects that are left. -/
theorem defect (h : fn.SoundBut N P) {d : Defect} (hd : d ∈ fn.defects) :
    ∃ n, N n ∧ d.flaw = .duplicateBlockName n := by
  rcases h.shape.defect hd with ⟨n, hflaw, hn, htwice⟩ | ⟨b, hb, -, hread⟩
  · refine ⟨n, by_contra fun hnot => ?_, hflaw⟩
    have hone := h.named n hn hnot
    omega
  · exfalso
    rcases hread with ⟨i, hi, v, hv, hnot, -⟩ | ⟨t, ht, v, hv, hnot, -⟩
    · exact hnot (h.closed.operand b hb i hi v hv)
    · exact hnot (h.closed.termOperand b hb t ht v hv)

/-- The memory defects that are left. -/
theorem memoryDefect (h : fn.SoundBut N P) {d : Defect} (hd : d ∈ fn.memoryDefects) :
    ∃ i ty, P i ∧ d.flaw = .notPointer i ty := by
  obtain ⟨b, hb, i, hi, a, ty, ha, hty, hne, rfl⟩ := (mem_memoryDefects h.shape).1 hd
  refine ⟨i, ty, by_contra fun hnot => hne ?_, rfl⟩
  exact h.addressed i (mem_instrs.2 ⟨b, hb, hi⟩) hnot a ha ty hty

end SoundBut

end Function

namespace Instr

variable {i : Instr} {f : BlockId → BlockId} {a : ValueId}

theorem mapPreds_eq_self (h : Function.accessAddr? (i.mapPreds f) = some a) : i.mapPreds f = i := by
  cases i with
  | phi p => simp [mapPreds, mapIncoming, Function.accessAddr?] at h
  | _ => rfl

theorem accessAddr?_mem_operands (h : Function.accessAddr? i = some a) : a ∈ i.operands := by
  cases i with
  | load l => simp_all [Function.accessAddr?, operands]
  | store s => simp_all [Function.accessAddr?, operands]
  | _ => simp [Function.accessAddr?] at h

theorem accessAddr?_instr (r : Renaming) (i : Instr) :
    Function.accessAddr? (r.instr i) = (Function.accessAddr? i).map r.value := by
  cases i <;> rfl

end Instr

namespace Splice

/-- A name that is made for a block when a call is replaced and the copy gets the numbers `r`. -/
def Makes (fn callee : Function) (r : Renaming) (n : String) : Prop :=
  n = s!"{callee.name}.exit.{(exitId fn).toNat}" ∨
    ∃ c ∈ callee.blocks, c.name ≠ "" ∧ n = s!"{callee.name}.{c.name}.{(r.block c.id).toNat}"

/-- The copy of a load or store whose address is a parameter, where the call passes something else
than a pointer. -/
def Misdirects (fn : Function) (call : Call) (callee : Function) (r : Renaming) (i : Instr) :
    Prop :=
  ∃ j ∈ callee.instrs, i = r.instr j ∧
    ∃ (k : Nat) (p : Param) (a : ValueId) (ty : Option Ty), callee.params[k]? = some p ∧
      Function.accessAddr? j = some p.id ∧ call.args[k]? = some a ∧ fn.typeOf? a = some ty ∧
      ty ≠ some .ptr

end Splice

namespace CallSite

open CallPlace

variable {fn callee : Function} (s : CallSite fn callee)

/-! ## The types of the result -/

/-- The types that the result declares are those of the caller and those of the copies. -/
theorem hasType_result {v : ValueId} {ty : Option Ty} (h : s.result.HasType v ty) :
    fn.HasType v ty ∨ ∃ w ∈ callee.results, s.numbers.value w = v ∧ callee.HasType w ty := by
  rcases h with hparam | ⟨i, hi, h0, rfl, rfl⟩
  · rw [params_result] at hparam
    exact Or.inl (Or.inl hparam)
  rcases s.mem_instrs_result hi with ⟨j, hj, f, rfl⟩ | hi | ⟨j, hj, rfl⟩
  · exact Or.inl (Or.inr ⟨j, hj, by simpa using h0, by simp, by simp⟩)
  · obtain ⟨hne, rfl⟩ := s.mem_merge hi
    exact Or.inl (Or.inr ⟨.call s.call, Function.mem_instrs.2 ⟨_, s.block_mem, s.call_mem⟩, hne,
      rfl, rfl⟩)
  · rw [s.numbers.result_instr j s.value_zero] at h0 ⊢
    have hj0 : j.result ≠ 0 := fun heq => h0 ((s.value_eq_zero_iff hj).2 heq)
    have hresult : j.result ∈ callee.results := Function.mem_results.2 ⟨hj0, j, hj, rfl⟩
    exact Or.inr ⟨j.result, hresult, rfl, Or.inr ⟨j, hj, hj0, rfl, by simp⟩⟩

/-- The values of the caller keep their types. -/
theorem hasType_of_defined {v : ValueId} {ty : Option Ty} (h : s.result.HasType v ty)
    (hv : fn.Defined v) : fn.HasType v ty := by
  refine (s.hasType_result h).resolve_right ?_
  rintro ⟨w, hw, rfl, -⟩
  exact (s.fresh.result w hw).2 hv.2

/-- The copies of values have the types of the callee. -/
theorem hasType_of_copy {w : ValueId} {ty : Option Ty} (h : s.result.HasType (s.numbers.value w) ty)
    (hw : w ∈ callee.results) : callee.HasType w ty := by
  rcases s.hasType_result h with h | ⟨w', hw', heq, h⟩
  · have hdefined : s.numbers.value w ∈ fn.definedIds := by
      rcases h with ⟨p, hp, hid, -⟩ | ⟨i, hi, -, hid, -⟩
      · exact hid ▸ List.mem_append_left _ (List.mem_map_of_mem hp)
      · exact hid ▸ List.mem_append_right _ (List.mem_map_of_mem hi)
    exact absurd hdefined (s.fresh.result w hw).2
  · exact s.fresh.result_inj w' hw' w hw heq ▸ h

/-- A load or store of the caller goes through a value of the type that it had. -/
theorem access_of_caller (hfn : fn.Closed) {i : Instr} (hi : i ∈ fn.instrs)
    {f : BlockId → BlockId} {a : ValueId} (ha : Function.accessAddr? (i.mapPreds f) = some a)
    {ty : Option Ty} (hty : s.result.HasType a ty) :
    i.mapPreds f = i ∧ Function.accessAddr? i = some a ∧ fn.HasType a ty := by
  have hself := Instr.mapPreds_eq_self ha
  rw [hself] at ha
  obtain ⟨b, hb, hib⟩ := Function.mem_instrs.1 hi
  have hdefined := hfn.operand b hb i hib a (Instr.accessAddr?_mem_operands ha)
  exact ⟨hself, ha, s.hasType_of_defined hty hdefined⟩

/-- The copy of a load or store goes through a pointer, or through the argument for a parameter. -/
theorem access_of_copy (hfn : fn.Closed) (hcallee : callee.Sound) {i : Instr}
    (hi : i ∈ callee.instrs) {a : ValueId} (ha : Function.accessAddr? (s.numbers.instr i) = some a)
    {ty : Option Ty} (hty : s.result.HasType a ty) (hne : ty ≠ some .ptr) :
    ∃ (k : Nat) (p : Param), callee.params[k]? = some p ∧ Function.accessAddr? i = some p.id ∧
      s.call.args[k]? = some a ∧ fn.typeOf? a = some ty := by
  rw [Instr.accessAddr?_instr] at ha
  obtain ⟨w, hw, rfl⟩ := Option.map_eq_some_iff.1 ha
  obtain ⟨b, hb, hib⟩ := Function.mem_instrs.1 hi
  have hdefined := hcallee.closed.operand b hb i hib w (Instr.accessAddr?_mem_operands hw)
  rcases (Function.defined_iff s.called.param_ne_zero).1 hdefined with hparam | hresult
  · obtain ⟨k, p, hp, rfl, hk⟩ := s.value_param hparam
    have htype := s.hasType_of_defined hty (s.defined_param hfn hparam)
    exact ⟨k, p, hp, hw, hk, (Function.typeOf?_eq_some_iff s.caller).2 htype⟩
  · exact absurd (hcallee.addressed i hi w hw ty (s.hasType_of_copy hty hresult)) hne

/-- **The addresses of the result.** Those of the caller are as they were, and those of the copies
are pointers, but for parameters that stand for something else. -/
theorem addressed_result {P : Instr → Prop} (hfn : fn.Closed) (hcallee : callee.Sound)
    (haddr : ∀ i ∈ fn.instrs, ¬ P i → ∀ a, Function.accessAddr? i = some a →
      ∀ ty, fn.HasType a ty → ty = some .ptr)
    {i : Instr} (hi : i ∈ s.result.instrs) (hP : ¬ P i)
    (hnot : ¬ Splice.Misdirects fn s.call callee s.numbers i) {a : ValueId}
    (ha : Function.accessAddr? i = some a) {ty : Option Ty} (hty : s.result.HasType a ty) :
    ty = some .ptr := by
  rcases s.mem_instrs_result hi with ⟨j, hj, f, rfl⟩ | hi | ⟨j, hj, rfl⟩
  · obtain ⟨hself, ha, hty⟩ := s.access_of_caller hfn hj ha hty
    exact haddr j hj (hself ▸ hP) a ha ty hty
  · obtain ⟨-, rfl⟩ := s.mem_merge hi
    simp [Function.accessAddr?] at ha
  · by_contra hne
    obtain ⟨k, p, hp, haddr, hk, htype⟩ := s.access_of_copy hfn hcallee hj ha hty hne
    exact hnot ⟨j, hj, rfl, k, p, a, ty, hp, haddr, hk, htype, hne⟩

/-! ## The names of the result -/

theorem names_result : s.result.blocks.map Block.name =
    s.pre.map Block.name ++ s.block.name ::
      ((callee.blocks.map s.copy).map Block.name ++ s.exit.name :: s.post.map Block.name) := by
  have hother : ∀ c, (s.other c).name = c.name := by
    intro c
    unfold other Splice.repoint
    split <;> rfl
  have hothers : ∀ l : List Block, (l.map s.other).map Block.name = l.map Block.name := by
    intro l
    simp [hother, Function.comp_def]
  have hhead : s.head.name = s.block.name :=
    hother { s.block with instrs := s.block.instrs.take s.place }
  rw [s.result_eq]
  simp only [List.map_append, List.map_cons, hothers, hhead]

/-- A name that comes more often than before is one that has been made. -/
theorem count_name_result {n : String} (hn : n ≠ "") (hnot : ¬ Splice.Makes fn callee s.numbers n) :
    (s.result.blocks.map Block.name).count n = (fn.blocks.map Block.name).count n := by
  rw [Splice.Makes, not_or] at hnot
  have hexit : s.exit.name ≠ n := fun heq => hnot.1 heq.symm
  have hcopies : ((callee.blocks.map s.copy).map Block.name).count n = 0 := by
    rw [List.count_eq_zero, List.map_map]
    intro hmem
    obtain ⟨c, hc, heq⟩ := List.mem_map.1 hmem
    have hname : (s.copy c).name = if c.name = "" then "" else
        s!"{callee.name}.{c.name}.{(s.copy c).id.toNat}" := rfl
    rw [Function.comp_apply, hname, s.copy_id hc] at heq
    split at heq
    · exact hn heq.symm
    · next hne => exact hnot.2 ⟨c, hc, hne, heq.symm⟩
  rw [names_result, s.blocks_eq]
  simp only [List.map_append, List.map_cons, List.count_append, List.count_cons, hcopies]
  simp [hexit]

/-- **Replacing a call keeps all rules but two.** -/
theorem soundBut {N : String → Prop} {P : Instr → Prop} (hfn : fn.SoundBut N P)
    (hcallee : callee.Sound) :
    s.result.SoundBut (fun n => N n ∨ Splice.Makes fn callee s.numbers n)
      (fun i => P i ∨ Splice.Misdirects fn s.call callee s.numbers i) where
  shape := s.shape
  closed := s.closed hfn.closed hcallee.closed
  named n hn hnot := by
    rw [not_or] at hnot
    rw [s.count_name_result hn hnot.2]
    exact hfn.named n hn hnot.1
  addressed i hi hnot a ha ty hty := by
    rw [not_or] at hnot
    exact s.addressed_result hfn.closed hcallee hfn.addressed hi hnot.1 hnot.2 ha hty

end CallSite

/-! ## A run -/

namespace Inline

variable {p : Policy} {m m' : Module} {i : Nat} {r : Replacement} {rs : List Replacement}

/-- The counters of the caller are above its numbers, and there are enough numbers for the copy. -/
def Replacement.Numbered (r : Replacement) : Prop := r.caller.Counted ∧ r.caller.Fits r.callee

/-- A replacement makes a name. -/
def Replacement.Makes (r : Replacement) : String → Prop :=
  Splice.Makes r.caller r.callee (Splice.rename r.caller r.call r.callee)

/-- A replacement makes a load or store through an argument that is no pointer. -/
def Replacement.Misdirects (r : Replacement) : Instr → Prop :=
  Splice.Misdirects r.caller r.call r.callee (Splice.rename r.caller r.call r.callee)

/-- The standard checker lets only sound functions be copied. -/
theorem sound_of_refusal {function : String} {callee : Function}
    (h : refusal p (some .standard) function callee = none) : callee.Sound := by
  have hnone : inliningErr? callee = none := by
    unfold refusal at h
    dsimp only at h
    split at h
    · cases h
    · split at h
      · cases h
      · exact Option.map_eq_none_iff.1 h
  exact (Function.inliningErr?_eq_none_iff.1 hnone).2

theorem Replacement.Allowed.callee_sound (hr : r.Allowed p (some .standard) m i) :
    r.callee.Sound := sound_of_refusal hr.safe

theorem Inlined.names_eq {checker : Option Checker} (h : Inlined p checker m rs m') :
    m'.functions.map Function.name = m.functions.map Function.name := by
  induction h with
  | nil m => rfl
  | cons self hr _ ih =>
    exact ih.trans (Module.names_set hr.caller_eq (Function.splice_name _ _ _ _ _))

/-- **What a run preserves.** -/
theorem Inlined.soundBut (h : Inlined p (some .standard) m rs m') (hnumbered : ∀ r ∈ rs, r.Numbered)
    {N : String → Prop} {P : Instr → Prop}
    (hm : ∀ fn ∈ m.functions, fn.isExternal = false → fn.SoundBut N P) :
    ∀ fn ∈ m'.functions, fn.isExternal = false →
      fn.SoundBut (fun n => N n ∨ ∃ r ∈ rs, r.Makes n)
        (fun i => P i ∨ ∃ r ∈ rs, r.Misdirects i) := by
  induction h generalizing N P with
  | nil m => exact fun fn hfn hbody => (hm fn hfn hbody).mono (fun _ => .inl) (fun _ => .inl)
  | @cons m m' r rs i hr _ ih =>
    obtain ⟨hmem, hbody⟩ := hr.caller_mem
    obtain ⟨hcounted, hfits⟩ := hnumbered r (by simp)
    have hcaller := hm _ hmem hbody
    have hcallee := hr.callee_sound.shape
    obtain ⟨s, hcall, hresult⟩ :=
      hr.site hcaller.shape hcallee (hr.fresh hcaller.shape hcallee hcounted hfits)
    have hstep : ∀ fn ∈ m.functions.set i r.result, fn.isExternal = false →
        fn.SoundBut (fun n => N n ∨ r.Makes n) fun i => P i ∨ r.Misdirects i := by
      intro fn hfn hbody
      rcases List.mem_or_eq_of_mem_set hfn with hfn | rfl
      · exact (hm fn hfn hbody).mono (fun _ => .inl) fun _ => .inl
      · rw [← hresult]
        have hsound := s.soundBut hcaller hr.callee_sound
        rwa [s.numbers_eq hcounted hfits, hcall] at hsound
    intro fn hfn hbody
    refine (ih (fun r hr => hnumbered r (by simp [hr])) hstep fn hfn hbody).mono ?_ ?_
    · rintro n ((hn | hn) | ⟨r', hr', hn⟩)
      · exact .inl hn
      · exact .inr ⟨r, by simp, hn⟩
      · exact .inr ⟨r', by simp [hr'], hn⟩
    · rintro i ((hi | hi) | ⟨r', hr', hi⟩)
      · exact .inl hi
      · exact .inr ⟨r, by simp, hi⟩
      · exact .inr ⟨r', by simp [hr'], hi⟩

/-- **All defects that a run leaves** in a verified module, as long as numbers last. -/
theorem Inlined.defects (h : Inlined p (some .standard) m rs m') (hnumbered : ∀ r ∈ rs, r.Numbered)
    (hm : moduleErr? (some m) = none) :
    (∀ d ∈ m'.defects, ∃ r ∈ rs, ∃ n, r.Makes n ∧ d.flaw = .duplicateBlockName n) ∧
      ∀ d ∈ m'.memoryDefects, ∃ r ∈ rs, ∃ i ty, r.Misdirects i ∧ d.flaw = .notPointer i ty := by
  obtain ⟨hnames, hsound⟩ := Module.verified_iff.1 hm
  have hbut := h.soundBut hnumbered (N := fun _ => False) (P := fun _ => False)
    fun fn hfn hbody => .of_sound (hsound fn hfn hbody)
  have hnames' : m'.DistinctNames := hnames.congr h.names_eq
  have hbody : ∀ fn ∈ m'.functions, fn.defects ≠ [] ∨ fn.memoryDefects ≠ [] →
      fn.isExternal = false := by
    intro fn _ hne
    by_contra hext
    obtain ⟨hd, hmemory⟩ := Function.defects_of_isExternal (by simpa using hext)
    simp [hd, hmemory] at hne
  constructor
  · intro d hd
    obtain ⟨fn, hfn, hd⟩ := (Module.mem_defects hnames').1 hd
    have hext := hbody fn hfn (.inl (List.ne_nil_of_mem hd))
    obtain ⟨n, hn, hflaw⟩ := (hbut fn hfn hext).defect hd
    obtain ⟨r, hr, hmakes⟩ := hn.resolve_left id
    exact ⟨r, hr, n, hmakes, hflaw⟩
  · intro d hd
    obtain ⟨fn, hfn, hd⟩ := List.mem_flatMap.1 hd
    have hext := hbody fn hfn (.inr (List.ne_nil_of_mem hd))
    obtain ⟨i, ty, hi, hflaw⟩ := (hbut fn hfn hext).memoryDefect hd
    obtain ⟨r, hr, hmisdirects⟩ := hi.resolve_left id
    exact ⟨r, hr, i, ty, hmisdirects, hflaw⟩

end Inline

end SsaOpt
