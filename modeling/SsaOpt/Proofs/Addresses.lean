import SsaOpt.Proofs.WellFormed

/-!
# The types of values and of addresses

Loads and stores go through values of type `ptr`. `HasType` is the declared type of a value without
the order of definitions, `Addressed` the rule on addresses, and `Sound` all rules on a function
with a body together. A module is verified exactly if its functions have distinct names and are
sound (`Module.verified_iff`).
-/

namespace SsaOpt

namespace Function

variable {fn : Function} {v : ValueId} {ty : Option Ty}

/-- A parameter or an instruction declares the type of a value. -/
def HasType (fn : Function) (v : ValueId) (ty : Option Ty) : Prop :=
  (∃ p ∈ fn.params, p.id = v ∧ p.ty = ty) ∨
    ∃ i ∈ fn.instrs, i.result ≠ 0 ∧ i.result = v ∧ i.resultType = ty

/-- Loads and stores go through pointers only. -/
def Addressed (fn : Function) : Prop :=
  ∀ i ∈ fn.instrs, ∀ a, accessAddr? i = some a → ∀ ty, fn.HasType a ty → ty = some .ptr

/-- All rules on a function that has a body. -/
structure Sound (fn : Function) : Prop where
  shape : fn.Shape
  named : fn.Named
  closed : fn.Closed
  addressed : fn.Addressed

theorem mem_valueTypes : (v, ty) ∈ fn.valueTypes ↔ fn.HasType v ty := by
  simp only [valueTypes, HasType, List.mem_reverse, List.mem_append, List.mem_map, List.mem_filter,
    Prod.mk.injEq, decide_eq_true_eq]
  grind

/-- Each value has one definition, so the last one is the only one. -/
theorem valueTypes_nodup (h : fn.Shape) : (fn.valueTypes.map Prod.fst).Nodup := by
  have hresults : ((fn.instrs.filter fun i => i.result ≠ 0).map fun i =>
      (i.result, i.resultType)).map Prod.fst = (fn.instrs.map Instr.result).filter (· ≠ 0) := by
    rw [List.map_map, List.filter_map]
    rfl
  have hnodup := h.defined_nodup
  rw [definedIds, List.filter_append, paramIds_filter h.param_ne_zero, ← hresults] at hnodup
  rw [valueTypes, List.map_reverse, List.nodup_reverse, List.map_append]
  simpa [Function.comp_def] using hnodup

theorem typeOf?_eq_some_iff (h : fn.Shape) : fn.typeOf? v = some ty ↔ fn.HasType v ty := by
  rw [typeOf?, lookup_eq_some_iff_mem (valueTypes_nodup h), mem_valueTypes]

/-- **A memory defect** is a load or a store through a value of a type that is not `ptr`. -/
theorem mem_memoryDefects (h : fn.Shape) {d : Defect} : d ∈ fn.memoryDefects ↔
    ∃ b ∈ fn.blocks, ∃ i ∈ b.instrs, ∃ a ty, accessAddr? i = some a ∧ fn.HasType a ty ∧
      ty ≠ some .ptr ∧ d = ⟨fn.name, b.id, .notPointer i ty⟩ := by
  have hflaw : ∀ i flaw, fn.memoryFlaw? i = some flaw ↔
      ∃ a ty, accessAddr? i = some a ∧ fn.HasType a ty ∧ ty ≠ some .ptr ∧
        flaw = .notPointer i ty := by
    intro i flaw
    simp only [memoryFlaw?, Option.bind_eq_some_iff, ← typeOf?_eq_some_iff h]
    refine exists_congr fun a => ?_
    cases htype : fn.typeOf? a with
    | none => simp
    | some ty => by_cases hptr : ty = some .ptr <;> simp [hptr, eq_comm]
  simp only [memoryDefects, placedInstrs, List.mem_filterMap, List.mem_flatMap, List.mem_map,
    Prod.exists, Prod.mk.injEq, Option.map_eq_some_iff, hflaw]
  grind

theorem memoryDefects_eq_nil_iff_addressed (h : fn.Shape) :
    fn.memoryDefects = [] ↔ fn.Addressed := by
  simp only [List.eq_nil_iff_forall_not_mem, mem_memoryDefects h, Addressed, mem_instrs]
  grind

/-- **A function without any defect** is a sound one. -/
theorem sound_iff (hblocks : fn.isExternal = false) :
    fn.Sound ↔ fn.defects = [] ∧ fn.memoryDefects = [] := by
  rw [defects_eq_nil_iff hblocks]
  constructor
  · intro h
    exact ⟨⟨h.shape, h.named, h.closed⟩, (memoryDefects_eq_nil_iff_addressed h.shape).2 h.addressed⟩
  · rintro ⟨⟨hshape, hnamed, hclosed⟩, hmemory⟩
    exact ⟨hshape, hnamed, hclosed, (memoryDefects_eq_nil_iff_addressed hshape).1 hmemory⟩

/-- The functions that may be copied are those with a body that follow the rules. -/
theorem inliningErr?_eq_none_iff : inliningErr? fn = none ↔ fn.isExternal = false ∧ fn.Sound := by
  cases hext : fn.isExternal with
  | true => simp [inliningErr?, hext]
  | false =>
    rw [sound_iff hext, inliningErr?, if_neg (by simp [hext])]
    cases hd : fn.defects with
    | cons d ds => simp [Err.ofList?]
    | nil => cases hmem : fn.memoryDefects <;> simp [Err.ofList?]

theorem defects_of_isExternal (h : fn.isExternal = true) :
    fn.defects = [] ∧ fn.memoryDefects = [] := by
  have hblocks : fn.blocks = [] := List.isEmpty_iff.1 h
  simp [defects, h, memoryDefects, placedInstrs, hblocks]

end Function

namespace Module

variable {m : Module}

/-- The functions of a module have names, different ones. -/
def DistinctNames (m : Module) : Prop :=
  (∀ fn ∈ m.functions, fn.name ≠ "") ∧ (m.functions.map Function.name).Nodup

theorem DistinctNames.congr {m' : Module} (h : m.DistinctNames)
    (hnames : m'.functions.map Function.name = m.functions.map Function.name) :
    m'.DistinctNames := by
  have hne : ∀ m : Module,
      (∀ fn ∈ m.functions, fn.name ≠ "") ↔ "" ∉ m.functions.map Function.name := by
    intro m
    simp
  rw [DistinctNames, hne] at h ⊢
  rwa [hnames]

/-- With distinct names, all structural defects of a module are those of its functions. -/
theorem mem_defects (h : m.DistinctNames) {d : Defect} :
    d ∈ m.defects ↔ ∃ fn ∈ m.functions, d ∈ fn.defects := by
  have hfunctions : ∀ (fns : List Function) (earlier : List String),
      (∀ fn ∈ fns, fn.name ≠ "" ∧ fn.name ∉ earlier) → (fns.map Function.name).Nodup →
      (d ∈ functionDefects earlier fns ↔ ∃ fn ∈ fns, d ∈ fn.defects) := by
    intro fns
    induction fns with
    | nil => simp [functionDefects]
    | cons fn rest ih =>
      intro earlier hnames hnodup
      rw [List.map_cons, List.nodup_cons] at hnodup
      obtain ⟨hne, hearlier⟩ := hnames fn (by simp)
      have hname : nameDefects earlier fn.name = [] := by simp [nameDefects, hne, hearlier]
      rw [functionDefects, hname, List.nil_append, List.mem_append,
        ih (fn.name :: earlier) _ hnodup.2]
      · simp
      intro g hg
      refine ⟨(hnames g (by simp [hg])).1, fun hmem => ?_⟩
      rcases List.mem_cons.1 hmem with heq | hmem
      · exact hnodup.1 (heq ▸ List.mem_map_of_mem hg)
      · exact (hnames g (by simp [hg])).2 hmem
  exact hfunctions m.functions [] (fun fn hfn => ⟨h.1 fn hfn, by simp⟩) h.2

/-- **A verified module.** -/
theorem verified_iff : moduleErr? (some m) = none ↔
    m.DistinctNames ∧ ∀ fn ∈ m.functions, fn.isExternal = false → fn.Sound := by
  rw [moduleErr?_eq_none_iff, defects_eq_nil_iff, memoryDefects, List.flatMap_eq_nil_iff]
  constructor
  · rintro ⟨⟨hne, hnodup, hdefects⟩, hmemory⟩
    exact ⟨⟨hne, hnodup⟩, fun fn hfn hbody =>
      (Function.sound_iff hbody).2 ⟨hdefects fn hfn, hmemory fn hfn⟩⟩
  · rintro ⟨⟨hne, hnodup⟩, hsound⟩
    have hnone : ∀ fn ∈ m.functions, fn.defects = [] ∧ fn.memoryDefects = [] := by
      intro fn hfn
      cases hext : fn.isExternal with
      | true => exact Function.defects_of_isExternal hext
      | false => exact (Function.sound_iff hext).1 (hsound fn hfn hext)
    exact ⟨⟨hne, hnodup, fun fn hfn => (hnone fn hfn).1⟩, fun fn hfn => (hnone fn hfn).2⟩

end Module

end SsaOpt
