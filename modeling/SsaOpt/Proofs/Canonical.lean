import SsaOpt.Ir.Listing
import SsaOpt.Proofs.Addresses

/-!
# Canonical forms

The text of a module leaves some things out. `canonical` sets those of them that no pass looks at to
one of their values: no type becomes `void` where a parameter, a storage or a call without a result
has none, a function without an explicit entry gets its first block, a return without a value
returns no number, and a module without a name is called `<unknown>`. The canonical form has the
same text (`Listing.render_canonical`), and follows the rules exactly if the module does
(`Module.verified_canonical_iff`).
-/

namespace SsaOpt

/-- The type that is printed. -/
def printedType (t : Option Ty) : Option Ty := some (t.getD .void)

@[simp] theorem typeName_printedType (t : Option Ty) : typeName (printedType t) = typeName t := by
  cases t <;> rfl

theorem printedType_eq_self {t : Option Ty} (h : t ≠ none) : printedType t = t := by
  obtain ⟨t, rfl⟩ := Option.ne_none_iff_exists'.1 h
  rfl

theorem printedType_eq_ptr_iff {t : Option Ty} : printedType t = some .ptr ↔ t = some .ptr := by
  cases t <;> simp [printedType]

/-! ## Definitions -/

/-- A call without a result has the type that is printed. -/
def Call.canonical (c : Call) : Call :=
  if c.result = 0 then { c with ty := printedType c.ty } else c

/-- The canonical form of an instruction. -/
def Instr.canonical : Instr → Instr
  | alloca a => alloca { a with elem := printedType a.elem }
  | call c => call c.canonical
  | i => i

/-- The canonical form of a terminator. -/
def Term.canonical : Term → Term
  | ret _ false => ret 0 false
  | t => t

/-- The canonical form of a parameter. -/
def Param.canonical (p : Param) : Param := { p with ty := printedType p.ty }

/-- The canonical form of a block. -/
def Block.canonical (b : Block) : Block :=
  { b with instrs := b.instrs.map Instr.canonical, term := b.term.map Term.canonical }

namespace Function

/-- The number of the first block, `0` if there is none. -/
def firstId (fn : Function) : BlockId := (fn.blocks.head?.map Block.id).getD 0

/-- The entry in so many words; a function without a body has none. -/
def explicitEntry (fn : Function) : BlockId :=
  if fn.isExternal then 0 else if fn.entry = 0 then fn.firstId else fn.entry

/-- The canonical form of a function. -/
def canonical (fn : Function) : Function :=
  { fn with
    params := fn.params.map Param.canonical
    blocks := fn.blocks.map Block.canonical
    entry := fn.explicitEntry }

end Function

/-- The name of a module that is printed. -/
def printedName (name : String) : String := if name = "" then "<unknown>" else name

/-- The canonical form of a module. -/
def Module.canonical (m : Module) : Module where
  name := printedName m.name
  functions := m.functions.map Function.canonical

/-- The canonical form of a listing. -/
def Listing.canonical (l : Listing) : Listing where
  name := printedName l.name
  places := l.places.map (Option.map Function.canonical)

/-! ## Instructions and terminators -/

namespace Call

variable (c : Call)

@[simp] theorem result_canonical : c.canonical.result = c.result := by
  unfold canonical
  split <;> rfl

@[simp] theorem target_canonical : c.canonical.target = c.target := by
  unfold canonical
  split <;> rfl

@[simp] theorem args_canonical : c.canonical.args = c.args := by
  unfold canonical
  split <;> rfl

@[simp] theorem effect_canonical : c.canonical.effect = c.effect := by
  unfold canonical
  split <;> rfl

@[simp] theorem unchecked_canonical : c.canonical.unchecked = c.unchecked := by
  unfold canonical
  split <;> rfl

@[simp] theorem typeName_ty_canonical : typeName c.canonical.ty = typeName c.ty := by
  unfold canonical
  split <;> simp

theorem ty_canonical (h : c.result ≠ 0) : c.canonical.ty = c.ty := by
  rw [canonical, if_neg h]

end Call

namespace Instr

variable (i : Instr)

@[simp] theorem result_canonical : i.canonical.result = i.result := by
  cases i <;> simp [canonical, result]

theorem resultType_canonical (h : i.result ≠ 0) : i.canonical.resultType = i.resultType := by
  cases i with
  | call c => exact c.ty_canonical h
  | _ => rfl

@[simp] theorem operands_canonical : i.canonical.operands = i.operands := by
  cases i <;> simp [canonical, operands]

theorem effect_canonical : i.canonical.effect = i.effect := by
  cases i with
  | call c => exact c.effect_canonical
  | _ => rfl

@[simp] theorem isCritical_canonical : i.canonical.isCritical = i.isCritical := by
  rw [isCritical, isCritical, effect_canonical]

@[simp] theorem isUnchecked_canonical : i.canonical.isUnchecked = i.isUnchecked := by
  cases i <;> simp [canonical, isUnchecked]

@[simp] theorem isPhi_canonical : i.canonical.isPhi = i.isPhi := by cases i <;> rfl

@[simp] theorem accessAddr?_canonical :
    Function.accessAddr? i.canonical = Function.accessAddr? i := by cases i <;> rfl

@[simp] theorem render_canonical : i.canonical.render = i.render := by
  cases i <;> simp [canonical, render]

theorem canonical_eq_phi_iff {p : Phi} : i.canonical = .phi p ↔ i = .phi p := by
  cases i <;> simp [canonical]

theorem canonical_eq_nop_iff : i.canonical = .nop ↔ i = .nop := by cases i <;> simp [canonical]

theorem mapIncoming_canonical (f : List Incoming → List Incoming) :
    i.canonical.mapIncoming f = (i.mapIncoming f).canonical := by cases i <;> rfl

theorem typed_canonical_iff : i.canonical.Typed ↔ i.Typed := by
  cases i with
  | call c =>
    by_cases h : c.result = 0
    · constructor
      · rintro ⟨-, -, h₃⟩
        refine ⟨fun _ hc => by simp [isCall] at hc, fun h0 => absurd h h0, ?_⟩
        rintro _ ⟨⟩
        simpa using h₃ c.canonical rfl
      · rintro ⟨-, -, h₃⟩
        refine ⟨fun _ hc => by simp [canonical, isCall] at hc, fun h0 => absurd h ?_, ?_⟩
        · rwa [result_canonical] at h0
        · rintro _ ⟨⟩
          simpa using h₃ c rfl
    · rw [canonical, Call.canonical, if_neg h]
  | alloca a =>
    exact ⟨fun h => ⟨h.1, h.2, fun c hc => by cases hc⟩,
      fun h => ⟨h.1, h.2, fun c hc => by cases hc⟩⟩
  | _ => rfl

end Instr

namespace Term

variable (t : Term)

@[simp] theorem operands_canonical : t.canonical.operands = t.operands := by
  rcases t with ⟨v, _ | _⟩ | _ | _ | _ <;> rfl

@[simp] theorem targets_canonical : t.canonical.targets = t.targets := by
  rcases t with ⟨v, _ | _⟩ | _ | _ | _ <;> rfl

@[simp] theorem render_canonical : t.canonical.render = t.render := by
  rcases t with ⟨v, _ | _⟩ | _ | _ | _ <;> rfl

end Term

/-! ## Blocks -/

namespace Block

variable (b : Block)

@[simp] theorem id_canonical : b.canonical.id = b.id := rfl

@[simp] theorem name_canonical : b.canonical.name = b.name := rfl

theorem targets_canonical : b.canonical.term.map Term.targets = b.term.map Term.targets := by
  rw [canonical, Option.map_map]
  exact congrArg (b.term.map ·) (funext Term.targets_canonical)

@[simp] theorem successors_canonical : b.canonical.successors = b.successors := by
  rw [successors, targets_canonical]
  rfl

@[simp] theorem render_canonical (isEntry : Bool) :
    b.canonical.render isEntry = b.render isEntry := by
  have hbody : (b.canonical.instrs.map fun i => s!"    {i.render}\n") =
      b.instrs.map fun i => s!"    {i.render}\n" := by
    simp [canonical, Function.comp_def]
  unfold render
  dsimp only
  rw [hbody]
  obtain ⟨id, name, instrs, _ | t, handler⟩ := b
  · rfl
  · simp only [canonical, Option.map_some, Term.render_canonical]
    rfl

end Block

/-! ## Functions -/

namespace Function

variable (fn : Function)

@[simp] theorem isExternal_canonical : fn.canonical.isExternal = fn.isExternal := by
  simp [isExternal, canonical]

@[simp] theorem blockIds_canonical : fn.canonical.blockIds = fn.blockIds := by
  simp [blockIds, canonical, Function.comp_def]

@[simp] theorem instrs_canonical : fn.canonical.instrs = fn.instrs.map Instr.canonical := by
  simp [instrs, canonical, List.map_flatMap, List.flatMap_map, Block.canonical]

@[simp] theorem size_canonical : fn.canonical.size = fn.size := by simp [size]

@[simp] theorem paramIds_canonical :
    fn.canonical.params.map Param.id = fn.params.map Param.id := by
  simp [canonical, Param.canonical, Function.comp_def]

@[simp] theorem definedIds_canonical : fn.canonical.definedIds = fn.definedIds := by
  rw [definedIds, definedIds, paramIds_canonical]
  simp [Function.comp_def]

theorem find?_canonical (p : BlockId → Bool) (blocks : List Block) :
    (blocks.map Block.canonical).find? (fun b => p b.id) =
      (blocks.find? fun b => p b.id).map Block.canonical := by
  rw [List.find?_map]
  rfl

@[simp] theorem blockIndex?_canonical (id : BlockId) :
    fn.canonical.blockIndex? id = fn.blockIndex? id := by
  rw [blockIndex?, canonical, List.findIdx?_map]
  rfl

theorem entryBlock?_canonical : fn.canonical.entryBlock? = fn.entryBlock?.map Block.canonical := by
  have hfind : ∀ id, fn.canonical.block? id = (fn.block? id).map Block.canonical :=
    fun id => find?_canonical (fun b => decide (b = id)) fn.blocks
  unfold entryBlock?
  rw [hfind]
  cases hblocks : fn.blocks with
  | nil => simp [canonical, explicitEntry, isExternal, block?, hblocks]
  | cons b rest =>
    have hentry : fn.canonical.entry = if fn.entry = 0 then b.id else fn.entry := by
      simp [canonical, explicitEntry, isExternal, firstId, hblocks]
    rw [hentry]
    by_cases h0 : fn.entry = 0
    · rw [if_pos h0, if_pos h0]
      split <;> simp [canonical, block?, hblocks]
    · rw [if_neg h0, if_neg h0]
      simp [h0]

@[simp] theorem entryId_canonical : fn.canonical.entryId = fn.entryId := by
  rw [entryId, entryId, entryBlock?_canonical, Option.map_map]
  rfl

@[simp] theorem render_canonical : fn.canonical.render = fn.render := by
  have hparams :
      (fn.canonical.params.map fun p => s!"{renderValue p.id} {p.name}: {typeName p.ty}") =
        fn.params.map fun p => s!"{renderValue p.id} {p.name}: {typeName p.ty}" := by
    simp [canonical, Param.canonical, Function.comp_def]
  have hblocks : (fn.canonical.blocks.map fun b => b.render (b.id = fn.entryId)) =
      fn.blocks.map fun b => b.render (b.id = fn.entryId) := by
    rw [canonical, List.map_map]
    exact List.map_congr_left fun b _ => b.render_canonical (b.id = fn.entryId)
  unfold render
  dsimp only
  rw [hparams, entryId_canonical, hblocks]
  rfl

/-! ### The rules -/

@[simp] theorem hasEdge_canonical (p q : BlockId) : fn.canonical.hasEdge p q = fn.hasEdge p q := by
  have hedge : (fun b : Block => decide (b.id = p) && b.successors.contains q) ∘ Block.canonical =
      fun b => decide (b.id = p) && b.successors.contains q := by
    funext b
    simp only [Function.comp_apply, Block.successors_canonical]
    rfl
  rw [hasEdge, canonical, List.any_map, hedge, hasEdge]

variable {fn}

theorem defined_canonical_iff {v : ValueId} : fn.canonical.Defined v ↔ fn.Defined v := by
  rw [Defined, Defined, definedIds_canonical]

theorem forall_blocks_canonical {P : Block → Prop} :
    (∀ b ∈ fn.canonical.blocks, P b) ↔ ∀ b ∈ fn.blocks, P b.canonical :=
  List.forall_mem_map

theorem explicitEntry_mem_iff (hbody : fn.isExternal = false) :
    (fn.explicitEntry ≠ 0 → fn.explicitEntry ∈ fn.blockIds) ↔
      (fn.entry ≠ 0 → fn.entry ∈ fn.blockIds) := by
  rw [explicitEntry, if_neg (by simp [hbody])]
  split
  · next h0 =>
    cases hblocks : fn.blocks with
    | nil => simp [isExternal, hblocks] at hbody
    | cons b rest => simp [h0, firstId, blockIds, hblocks]
  · rfl

theorem shape_canonical_iff (hbody : fn.isExternal = false) : fn.canonical.Shape ↔ fn.Shape := by
  have hentry : (fn.canonical.entry ≠ 0 → fn.canonical.entry ∈ fn.canonical.blockIds) ↔
      (fn.entry ≠ 0 → fn.entry ∈ fn.blockIds) := by
    rw [blockIds_canonical]
    exact explicitEntry_mem_iff hbody
  have hparams : (∀ p ∈ fn.canonical.params, p.id ≠ 0) ↔ ∀ p ∈ fn.params, p.id ≠ 0 :=
    List.forall_mem_map
  have htyped : (∀ i ∈ fn.canonical.instrs, i.Typed) ↔ ∀ i ∈ fn.instrs, i.Typed := by
    simp only [instrs_canonical, List.forall_mem_map, Instr.typed_canonical_iff]
  have hfirst : (∀ b ∈ fn.canonical.blocks, PhisFirst b.instrs) ↔
      ∀ b ∈ fn.blocks, PhisFirst b.instrs := by
    simp [forall_blocks_canonical, Block.canonical, PhisFirst, List.pairwise_map]
  have hincoming : (∀ b ∈ fn.canonical.blocks, ∀ p, .phi p ∈ b.instrs → ∀ e ∈ p.incoming,
      fn.canonical.hasEdge e.pred b.id = true) ↔
      ∀ b ∈ fn.blocks, ∀ p, .phi p ∈ b.instrs → ∀ e ∈ p.incoming,
        fn.hasEdge e.pred b.id = true := by
    simp [forall_blocks_canonical, Block.canonical, Instr.canonical_eq_phi_iff]
  have hterm : (∀ b ∈ fn.canonical.blocks, b.term ≠ none) ↔ ∀ b ∈ fn.blocks, b.term ≠ none := by
    simp [forall_blocks_canonical, Block.canonical]
  have hsucc : (∀ b ∈ fn.canonical.blocks, ∀ t ∈ b.successors, t ∈ fn.canonical.blockIds) ↔
      ∀ b ∈ fn.blocks, ∀ t ∈ b.successors, t ∈ fn.blockIds := by
    simp [forall_blocks_canonical]
  have hreturns : (∀ b ∈ fn.canonical.blocks, ∀ v hasValue, b.term = some (.ret v hasValue) →
      hasValue = !fn.canonical.returnsNothing) ↔
      ∀ b ∈ fn.blocks, ∀ v hasValue, b.term = some (.ret v hasValue) →
        hasValue = !fn.returnsNothing := by
    rw [forall_blocks_canonical, show fn.canonical.returnsNothing = fn.returnsNothing from rfl]
    refine forall₂_congr fun b _ => ?_
    obtain ⟨_, _, _, _ | t, _⟩ := b
    · simp [Block.canonical]
    · rcases t with ⟨v, _ | _⟩ | _ | _ | _ <;>
        simp [Block.canonical, Term.canonical]
  constructor
  · intro h
    exact ⟨forall_blocks_canonical.1 h.id_ne_zero, fn.blockIds_canonical ▸ h.ids_nodup,
      hentry.1 h.entry_mem, hparams.1 h.param_ne_zero, fn.definedIds_canonical ▸ h.defined_nodup,
      htyped.1 h.typed, hfirst.1 h.phis_first, hincoming.1 h.incoming_edge, hterm.1 h.has_term,
      hsucc.1 h.succ_mem, hreturns.1 h.returns⟩
  · intro h
    exact ⟨forall_blocks_canonical.2 h.id_ne_zero, fn.blockIds_canonical.symm ▸ h.ids_nodup,
      hentry.2 h.entry_mem, hparams.2 h.param_ne_zero,
      fn.definedIds_canonical.symm ▸ h.defined_nodup, htyped.2 h.typed, hfirst.2 h.phis_first,
      hincoming.2 h.incoming_edge, hterm.2 h.has_term, hsucc.2 h.succ_mem, hreturns.2 h.returns⟩

theorem named_canonical_iff : fn.canonical.Named ↔ fn.Named := by
  simp [Named, canonical, Function.comp_def]

theorem closed_canonical_iff : fn.canonical.Closed ↔ fn.Closed := by
  have hoperand : (∀ b ∈ fn.canonical.blocks, ∀ i ∈ b.instrs, ∀ v ∈ i.operands,
      fn.canonical.Defined v) ↔
        ∀ b ∈ fn.blocks, ∀ i ∈ b.instrs, ∀ v ∈ i.operands, fn.Defined v := by
    simp [forall_blocks_canonical, Block.canonical, defined_canonical_iff]
  have hterm : (∀ b ∈ fn.canonical.blocks, ∀ t, b.term = some t → ∀ v ∈ t.operands,
      fn.canonical.Defined v) ↔
      ∀ b ∈ fn.blocks, ∀ t, b.term = some t → ∀ v ∈ t.operands, fn.Defined v := by
    simp [forall_blocks_canonical, Block.canonical, defined_canonical_iff]
  exact ⟨fun h => ⟨hoperand.1 h.operand, hterm.1 h.termOperand⟩,
    fun h => ⟨hoperand.2 h.operand, hterm.2 h.termOperand⟩⟩

/-- The types of values change where a parameter has none. -/
theorem hasType_canonical_iff {v : ValueId} {ty : Option Ty} : fn.canonical.HasType v ty ↔
    (∃ p ∈ fn.params, p.id = v ∧ printedType p.ty = ty) ∨
      ∃ i ∈ fn.instrs, i.result ≠ 0 ∧ i.result = v ∧ i.resultType = ty := by
  have hparams : (∃ p ∈ fn.canonical.params, p.id = v ∧ p.ty = ty) ↔
      ∃ p ∈ fn.params, p.id = v ∧ printedType p.ty = ty := by
    simp [canonical, Param.canonical]
  have hinstrs : (∃ i ∈ fn.canonical.instrs, i.result ≠ 0 ∧ i.result = v ∧ i.resultType = ty) ↔
      ∃ i ∈ fn.instrs, i.result ≠ 0 ∧ i.result = v ∧ i.resultType = ty := by
    simp only [instrs_canonical, List.mem_map, exists_exists_and_eq_and, Instr.result_canonical]
    refine exists_congr fun i => and_congr_right fun _ => and_congr_right fun h0 => ?_
    rw [i.resultType_canonical h0]
  rw [HasType, hparams, hinstrs]

theorem addressed_canonical_iff : fn.canonical.Addressed ↔ fn.Addressed := by
  simp only [Addressed, instrs_canonical, List.forall_mem_map, Instr.accessAddr?_canonical]
  refine forall₄_congr fun i _ a _ => ?_
  simp only [hasType_canonical_iff]
  simp only [HasType, or_imp, forall_and]
  refine and_congr_left fun _ => ?_
  constructor
  · rintro h ty ⟨p, hp, hid, rfl⟩
    exact printedType_eq_ptr_iff.1 (h _ ⟨p, hp, hid, rfl⟩)
  · rintro h ty ⟨p, hp, hid, rfl⟩
    exact printedType_eq_ptr_iff.2 (h _ ⟨p, hp, hid, rfl⟩)

/-- **The canonical form of a function follows the rules** exactly if the function does. -/
theorem sound_canonical_iff (hbody : fn.isExternal = false) :
    fn.canonical.Sound ↔ fn.Sound := by
  have hshape := shape_canonical_iff hbody
  exact ⟨fun h => ⟨hshape.1 h.shape, named_canonical_iff.1 h.named,
      closed_canonical_iff.1 h.closed, addressed_canonical_iff.1 h.addressed⟩,
    fun h => ⟨hshape.2 h.shape, named_canonical_iff.2 h.named,
      closed_canonical_iff.2 h.closed, addressed_canonical_iff.2 h.addressed⟩⟩

end Function

/-! ## Modules and listings -/

namespace Module

variable {m : Module}

theorem names_canonical :
    m.canonical.functions.map Function.name = m.functions.map Function.name := by
  rw [canonical, List.map_map]
  rfl

/-- **The canonical form of a module is verified** exactly if the module is. -/
theorem verified_canonical_iff :
    moduleErr? (some m.canonical) = none ↔ moduleErr? (some m) = none := by
  have hnames : m.canonical.DistinctNames ↔ m.DistinctNames :=
    ⟨fun h => h.congr names_canonical.symm, fun h => h.congr names_canonical⟩
  rw [verified_iff, verified_iff, hnames]
  refine and_congr_right fun _ => ?_
  rw [canonical, List.forall_mem_map]
  refine forall₂_congr fun fn _ => ?_
  rw [Function.isExternal_canonical]
  exact forall_congr' fun hbody => Function.sound_canonical_iff hbody

theorem function?_canonical (name : String) :
    m.canonical.function? name = (m.function? name).map Function.canonical := by
  rw [function?, canonical, List.find?_map]
  rfl

theorem lookup?_canonical (name : String) :
    m.canonical.lookup? name = (m.lookup? name).map fun e => (e.1, e.2.canonical) := by
  have hindex : (m.canonical.functions.findIdx? fun fn => fn.name = name) =
      m.functions.findIdx? fun fn => fn.name = name := by
    rw [canonical, List.findIdx?_map]
    rfl
  rw [lookup?, lookup?, hindex]
  cases m.functions.findIdx? fun fn => fn.name = name with
  | none => rfl
  | some i =>
    simp only [Option.bind_some, canonical, List.getElem?_map, Option.map_map]
    rfl

theorem isCritical_canonical (i : Instr) : m.canonical.isCritical i.canonical = m.isCritical i := by
  unfold isCritical
  rw [Instr.isCritical_canonical]
  cases i with
  | call c =>
    simp only [Instr.canonical, Call.target_canonical, function?_canonical, Option.any_map]
    rfl
  | _ => rfl

end Module

namespace Listing

variable (l : Listing)

@[simp] theorem render_canonical : l.canonical.render = l.render := by
  have hplaces : (l.canonical.places.map fun slot => "\n" ++ (slot.map Function.render).getD "") =
      l.places.map fun slot => "\n" ++ (slot.map Function.render).getD "" := by
    rw [canonical, List.map_map]
    refine List.map_congr_left fun slot _ => ?_
    cases slot <;> simp
  unfold render Module.renderSlots
  rw [hplaces]
  unfold canonical printedName
  by_cases hname : l.name = "" <;> simp [hname]

@[simp] theorem isComplete_canonical : l.canonical.isComplete = l.isComplete := by
  simp [isComplete, canonical, Function.comp_def]

theorem front_canonical : l.canonical.front = l.front.canonical := by
  have hplaces : ∀ places : List (Option Function),
      ((places.map (Option.map Function.canonical)).takeWhile Option.isSome).filterMap id =
        ((places.takeWhile Option.isSome).filterMap id).map Function.canonical := by
    intro places
    induction places with
    | nil => rfl
    | cons p rest ih =>
      cases p with
      | none => rfl
      | some fn => exact congrArg (fn.canonical :: ·) ih
  rw [front, front, Module.canonical, canonical, hplaces]

theorem module?_canonical : l.canonical.module? = l.module?.map Module.canonical := by
  unfold module?
  rw [isComplete_canonical, front_canonical]
  split <;> rfl

theorem function?_canonical (k : Nat) :
    l.canonical.function? k = (l.function? k).map Function.canonical := by
  rw [function?, function?, canonical, List.getElem?_map]
  cases l.places[k]? <;> rfl

theorem setFunction_canonical (k : Nat) (fn : Function) :
    l.canonical.setFunction k fn.canonical = (l.setFunction k fn).canonical := by
  simp [setFunction, canonical, List.map_set]

theorem canJudge_canonical (i : Instr) : l.canonical.canJudge i.canonical = l.canJudge i := by
  unfold canJudge canSearch
  rw [Instr.isCritical_canonical, isComplete_canonical, front_canonical]
  cases i with
  | call c => simp [Instr.canonical, Module.function?_canonical]
  | _ => rfl

theorem canonical_ofModule (m : Module) : (ofModule m).canonical = ofModule m.canonical := by
  simp [ofModule, canonical, Module.canonical, Function.comp_def]

end Listing

end SsaOpt
