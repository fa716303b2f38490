import Mathlib.Tactic.MkIffOfInductiveProp
import SsaOpt.Interchange.Codec
import SsaOpt.Proofs.Records

/-!
# Modules survive writing and reading

A module is portable (`Module.Portable`) if no instruction is missing in it, its types are scalar
types, and its texts and lists are within the limits of reading. A portable module can be written,
and what is written is read as the same module, the counters for fresh numbers aside. Whatever is
read is portable.
-/

namespace SsaOpt

open Interchange Cbor

/-! ## What can be written -/

/-- No type, or one of the scalar types. -/
def Nameable (t : Option Ty) : Prop := ∀ u, t = some u → u.name ∈ scalarNames

/-- The type that is written with an instruction: for storage, the type of what is stored. -/
def Instr.writtenType : Instr → Option Ty
  | alloca a => a.elem
  | i => i.resultType

/-- The texts of an instruction. -/
def Instr.texts : Instr → List String
  | const c => [c.literal]
  | binary b => [b.op.name]
  | compare c => [c.pred.name]
  | call c => [c.target]
  | _ => []

/-- An instruction that is not missing, with a scalar type, within the limits of reading. -/
@[mk_iff] structure Instr.Portable (i : Instr) : Prop where
  present : i ≠ .hole
  type : Nameable i.writtenType
  texts : ∀ s ∈ i.texts, Short s
  operands : i.operands.length ≤ maxElements

/-- A block of portable instructions, within the limits of reading. -/
@[mk_iff] structure Block.Portable (b : Block) : Prop where
  name : Short b.name
  instrs : FitList Instr.Portable b.instrs

/-- A parameter with a scalar type and a name that is not too long. -/
@[mk_iff] structure Param.Portable (p : Param) : Prop where
  name : Short p.name
  type : Nameable p.ty

/-- A function of portable blocks and parameters, within the limits of reading. -/
@[mk_iff] structure Function.Portable (fn : Function) : Prop where
  name : Short fn.name
  ret : Nameable fn.ret
  params : FitList Param.Portable fn.params
  blocks : FitList Block.Portable fn.blocks

/-- A module of portable functions, within the limits of reading. -/
@[mk_iff] structure Module.Portable (m : Module) : Prop where
  name : Short m.name
  functions : FitList Function.Portable m.functions

instance : DecidablePred Nameable
  | none => isTrue fun u hu => by cases hu
  | some u => decidable_of_iff (u.name ∈ scalarNames) (by simp [Nameable])

instance {α : Type} {P : α → Prop} [DecidablePred P] : DecidablePred (FitList P) :=
  fun xs => inferInstanceAs (Decidable (xs.length ≤ _ ∧ _))

instance : DecidablePred Instr.Portable := fun i => decidable_of_iff' _ i.portable_iff

instance : DecidablePred Block.Portable := fun b => decidable_of_iff' _ b.portable_iff

instance : DecidablePred Param.Portable := fun p => decidable_of_iff' _ p.portable_iff

instance : DecidablePred Function.Portable := fun fn => decidable_of_iff' _ fn.portable_iff

instance : DecidablePred Module.Portable := fun m => decidable_of_iff' _ m.portable_iff

/-- The function with both counters for fresh numbers unset. -/
def Function.forgetCounters (fn : Function) : Function := { fn with nextValue := 0, nextBlock := 0 }

/-- The module with all counters for fresh numbers unset. -/
def Module.forgetCounters (m : Module) : Module :=
  { m with functions := m.functions.map Function.forgetCounters }

/-! ## Names and codes -/

theorem eq_of_find?_eq_some {α : Type} {f : α → String} {n : String} {xs : List α} {x : α}
    (h : (xs.find? fun x => f x = n) = some x) : f x = n := by
  simpa using List.find?_some h

theorem BinOp.name_ofName (n : String) : (ofName n).name = n := by
  unfold ofName
  split
  · next o h => exact eq_of_find?_eq_some h
  · rfl

theorem BinOp.ofName_name (o : BinOp) : ofName o.name = o := by
  cases o with
  | other n hn =>
    unfold ofName
    split
    · next o h =>
      have ho : o.name = n := eq_of_find?_eq_some h
      have hmem := List.mem_map_of_mem (f := name) (List.mem_of_find?_eq_some h)
      rw [map_name_listed, ho] at hmem
      exact absurd hmem hn
    · rfl
  | _ => rfl

theorem CmpPred.name_ofName (n : String) : (ofName n).name = n := by
  unfold ofName
  split
  · next p h => exact eq_of_find?_eq_some h
  · rfl

theorem CmpPred.ofName_name (p : CmpPred) : ofName p.name = p := by
  cases p with
  | other n hn =>
    unfold ofName
    split
    · next p h =>
      have hp : p.name = n := eq_of_find?_eq_some h
      have hmem := List.mem_map_of_mem (f := name) (List.mem_of_find?_eq_some h)
      rw [map_name_listed, hp] at hmem
      exact absurd hmem hn
    · rfl
  | _ => rfl

theorem Effect.ofCode_code (e : Effect) : ofCode e.code = e := by
  cases e with
  | unlisted c hc => exact dif_neg hc
  | _ => rfl

theorem Ty.scalar?_name {t : Ty} (h : t.name ∈ scalarNames) : scalar? t.name = some t := by
  obtain ⟨u, hu⟩ : ∃ u, scalar? t.name = some u := by
    cases hfind : scalar? t.name with
    | none => exact absurd h (not_mem_scalarNames_of_scalar? hfind)
    | some u => exact ⟨u, rfl⟩
  have hname : u.name = t.name := eq_of_find?_eq_some hu
  rw [hu, name_injective hname]

theorem readType_typeField {t : Option Ty} (h : Nameable t) : readType (typeField t) = .ok t := by
  cases t with
  | none => rfl
  | some u =>
    have hname := h u rfl
    have hne : u.name ≠ "" := by
      intro hempty
      rw [hempty] at hname
      exact absurd hname (by decide)
    show readType u.name = .ok (some u)
    rw [readType, if_neg hne, Ty.scalar?_name hname]

theorem nameable_of_readType {name : String} {t : Option Ty} (h : readType name = .ok t) :
    Nameable t := by
  unfold readType at h
  split at h
  · cases h
    intro u hu
    cases hu
  · split at h
    · next u hu =>
      cases h
      intro v hv
      obtain rfl := Option.some.inj hv
      rw [← Ty.map_name_scalars]
      exact List.mem_map_of_mem (List.mem_of_find?_eq_some hu)
    · cases h

theorem short_typeField {t : Option Ty} (h : Nameable t) : Short (typeField t) := by
  cases t with
  | none => decide
  | some u =>
    have hall : ∀ n ∈ scalarNames, Short n := by decide
    exact hall u.name (h u rfl)

/-! ## Instructions and terminators -/

/-- **An instruction is found in its record.** -/
theorem Instr.Portable.exists_record {i : Instr} (h : i.Portable) :
    ∃ r, i.toRecord? = some r ∧ r.Fits ∧ Instr.ofRecord r = .ok i := by
  obtain ⟨hpresent, htype, htexts, hoperands⟩ := h
  have hread := readType_typeField htype
  have hshort := short_typeField htype
  have hempty : Short "" := by decide
  have hnone : 0 ≤ maxElements := by decide
  have hone : 1 ≤ maxElements := by decide
  have htwo : 2 ≤ maxElements := by decide
  simp only [Instr.writtenType, Instr.resultType] at hread hshort
  -- All instructions share one record: a field that an instruction does not use is empty.
  cases i with
  | const c =>
    have hliteral : Short c.literal := htexts _ (List.mem_singleton_self _)
    refine ⟨_, rfl, ?_, ?_⟩
    · exact ⟨(by decide : Short "const"), hempty, hshort, hliteral, hempty, hnone, hnone⟩
    · simp [Instr.ofRecord, hread, bind, Except.bind]
  | binary b =>
    have hkind : Short b.op.name := htexts _ (List.mem_singleton_self _)
    refine ⟨_, rfl, ?_, ?_⟩
    · exact ⟨(by decide : Short "binary"), hkind, hshort, hempty, hempty, htwo, hnone⟩
    · simp [Instr.ofRecord, hread, bind, Except.bind, InstrRecord.operands, BinOp.ofName_name]
  | compare c =>
    have hkind : Short c.pred.name := htexts _ (List.mem_singleton_self _)
    refine ⟨_, rfl, ?_, ?_⟩
    · exact ⟨(by decide : Short "compare"), hkind, hshort, hempty, hempty, htwo, hnone⟩
    · simp [Instr.ofRecord, hread, bind, Except.bind, InstrRecord.operands, CmpPred.ofName_name]
  | cast c =>
    refine ⟨_, rfl, ?_, ?_⟩
    · exact ⟨(by decide : Short "cast"), hempty, hshort, hempty, hempty, hone, hnone⟩
    · simp [Instr.ofRecord, hread, bind, Except.bind, InstrRecord.operand]
  | alloca a =>
    refine ⟨_, rfl, ?_, ?_⟩
    · exact ⟨(by decide : Short "alloca"), hempty, hshort, hempty, hempty, hnone, hnone⟩
    · simp [Instr.ofRecord, hread, bind, Except.bind]
  | load l =>
    refine ⟨_, rfl, ?_, ?_⟩
    · exact ⟨(by decide : Short "load"), hempty, hshort, hempty, hempty, hone, hnone⟩
    · simp [Instr.ofRecord, hread, bind, Except.bind, InstrRecord.operand]
  | store s =>
    refine ⟨_, rfl, ?_, ?_⟩
    · exact ⟨(by decide : Short "store"), hempty, hempty, hempty, hempty, htwo, hnone⟩
    · simp [Instr.ofRecord, readType, bind, Except.bind, InstrRecord.operands]
  | call c =>
    have htarget : Short c.target := htexts _ (List.mem_singleton_self _)
    refine ⟨_, rfl, ?_, ?_⟩
    · exact ⟨(by decide : Short "call"), hempty, hshort, hempty, htarget, hoperands, hnone⟩
    · simp [Instr.ofRecord, hread, bind, Except.bind, Effect.ofCode_code]
  | phi p =>
    have hvalues : (p.incoming.map Incoming.value).length ≤ maxElements := hoperands
    have hpreds : (p.incoming.map Incoming.pred).length ≤ maxElements := by
      rw [List.length_map] at hvalues ⊢
      exact hvalues
    refine ⟨_, rfl, ?_, ?_⟩
    · exact ⟨(by decide : Short "phi"), hempty, hshort, hempty, hempty, hvalues, hpreds⟩
    · simp [Instr.ofRecord, hread, bind, Except.bind]
  | nop =>
    refine ⟨_, rfl, ?_, ?_⟩
    · exact ⟨(by decide : Short "nop"), hempty, hempty, hempty, hempty, hnone, hnone⟩
    · simp [Instr.ofRecord, readType, bind, Except.bind]
  | hole => exact absurd rfl hpresent

/-- **What is found in a record** that is within the limits is portable. -/
theorem Instr.portable_of_ofRecord {r : InstrRecord} {i : Instr} (h : r.Fits)
    (hi : Instr.ofRecord r = .ok i) : i.Portable := by
  obtain ⟨t, ht, hi⟩ := exists_of_bind_eq_ok hi
  have htype := nameable_of_readType ht
  have hnil : ∀ s ∈ ([] : List String), Short s := by simp
  have hnone : 0 ≤ maxElements := by decide
  have hone : 1 ≤ maxElements := by decide
  have htwo : 2 ≤ maxElements := by decide
  have hvoid : Nameable none := fun u hu => by cases hu
  split at hi
  · cases hi
    exact ⟨by simp, htype, List.forall_mem_singleton.2 h.value, hnone⟩
  · obtain ⟨⟨left, right⟩, -, hi⟩ := exists_of_bind_eq_ok hi
    cases hi
    refine ⟨by simp, htype, List.forall_mem_singleton.2 ?_, htwo⟩
    show Short (BinOp.ofName r.kind).name
    rw [BinOp.name_ofName]
    exact h.kind
  · obtain ⟨⟨left, right⟩, -, hi⟩ := exists_of_bind_eq_ok hi
    cases hi
    refine ⟨by simp, htype, List.forall_mem_singleton.2 ?_, htwo⟩
    show Short (CmpPred.ofName r.kind).name
    rw [CmpPred.name_ofName]
    exact h.kind
  · obtain ⟨operand, -, hi⟩ := exists_of_bind_eq_ok hi
    cases hi
    exact ⟨by simp, htype, hnil, hone⟩
  · cases hi
    exact ⟨by simp, htype, hnil, hnone⟩
  · obtain ⟨addr, -, hi⟩ := exists_of_bind_eq_ok hi
    cases hi
    exact ⟨by simp, htype, hnil, hone⟩
  · obtain ⟨⟨addr, value⟩, -, hi⟩ := exists_of_bind_eq_ok hi
    cases hi
    exact ⟨by simp, hvoid, hnil, htwo⟩
  · cases hi
    exact ⟨by simp, htype, List.forall_mem_singleton.2 h.target, h.args⟩
  · split at hi
    · cases hi
      refine ⟨by simp, htype, hnil, ?_⟩
      show (List.map Incoming.value (List.zipWith Incoming.mk r.preds r.args)).length ≤ _
      have hargs := h.args
      rw [List.length_map, List.length_zipWith]
      omega
    · cases hi
  · cases hi
    exact ⟨by simp, hvoid, hnil, hnone⟩
  · cases hi

theorem Term.ofRecord_toRecord (t : Term) : Term.ofRecord t.toRecord = .ok t := by
  cases t <;> simp [Term.toRecord, Term.ofRecord]

theorem Term.fits_toRecord (t : Term) : t.toRecord.Fits := by
  cases t with
  | ret value hasValue => exact ⟨(by decide : Short "ret"), Nat.zero_le _⟩
  | br target => exact ⟨(by decide : Short "br"), (by decide : 1 ≤ maxElements)⟩
  | brIf cond yes no => exact ⟨(by decide : Short "br_if"), (by decide : 2 ≤ maxElements)⟩
  | unreachable => exact ⟨(by decide : Short "unreachable"), Nat.zero_le _⟩

/-! ## Lists of records -/

/-- If each element is found in its record, then so is a list of them. -/
theorem exists_mapM {m n : Type → Type} [Monad m] [LawfulMonad m] [Monad n] [LawfulMonad n]
    {α β : Type} {f : α → m β} {g : β → n α} {k : α → α} {P : α → Prop} {Q : β → Prop}
    {xs : List α} (h : FitList P xs)
    (hone : ∀ x, P x → ∃ y, f x = pure y ∧ Q y ∧ g y = pure (k x)) :
    ∃ ys, xs.mapM f = pure ys ∧ FitList Q ys ∧ ys.mapM g = pure (xs.map k) := by
  obtain ⟨hlength, hall⟩ := h
  have hlists : ∃ ys, List.Forall₂ (fun x y => f x = pure y ∧ Q y ∧ g y = pure (k x)) xs ys := by
    clear hlength
    induction xs with
    | nil => exact ⟨[], .nil⟩
    | cons x xs ih =>
      obtain ⟨hx, hxs⟩ := List.forall_mem_cons.1 hall
      obtain ⟨y, hy⟩ := hone x hx
      obtain ⟨ys, hys⟩ := ih hxs
      exact ⟨y :: ys, .cons hy hys⟩
  obtain ⟨ys, hys⟩ := hlists
  refine ⟨ys, mapM_eq_pure (hys.imp fun _ _ hy => hy.1), ⟨hys.length_eq ▸ hlength, ?_⟩,
    mapM_eq_pure ?_⟩
  · intro y hy
    obtain ⟨x, -, -, hQ, -⟩ := forall₂_exists_left hys hy
    exact hQ
  · rw [List.forall₂_map_right_iff]
    exact hys.flip.imp fun _ _ hy => hy.2.2

/-- What is found in a list of records within the limits. -/
theorem fitList_of_mapM {ε α β : Type} {g : β → Except ε α} {P : α → Prop} {Q : β → Prop}
    {xs : List α} {ys : List β} (h : FitList Q ys) (hxs : ys.mapM g = .ok xs)
    (hone : ∀ y x, Q y → g y = .ok x → P x) : FitList P xs := by
  have hall := forall₂_of_mapM_eq_ok hxs
  refine ⟨hall.length_eq ▸ h.1, fun x hx => ?_⟩
  obtain ⟨y, hy, hg⟩ := forall₂_exists_left hall hx
  exact hone y x (h.2 y hy) hg

/-! ## Blocks, functions and modules -/

theorem Block.Portable.exists_record {b : Block} (h : b.Portable) :
    ∃ r, b.toRecord? = some r ∧ r.Fits ∧ Block.ofRecord r = .ok b := by
  obtain ⟨instrs, hinstrs, hfits, hread⟩ :=
    exists_mapM (f := Instr.toRecord?) (g := Instr.ofRecord) (k := fun i => i) h.instrs
      fun _ hi => hi.exists_record
  rw [List.map_id'] at hread
  refine ⟨_, Option.bind_eq_some_iff.2 ⟨instrs, hinstrs, rfl⟩, ⟨h.name, ?_, hfits⟩, ?_⟩
  · intro t ht
    obtain ⟨term, -, rfl⟩ := Option.map_eq_some_iff.1 ht
    exact term.fits_toRecord
  · obtain ⟨id, name, is, _ | term, handler⟩ := b
    · simp [Block.ofRecord, hread, bind, Except.bind, pure, Except.pure]
    · simp [Block.ofRecord, hread, bind, Except.bind, pure, Except.pure, Except.map,
        Term.ofRecord_toRecord]

theorem Block.portable_of_ofRecord {r : BlockRecord} {b : Block} (h : r.Fits)
    (hb : Block.ofRecord r = .ok b) : b.Portable := by
  obtain ⟨instrs, hinstrs, hb⟩ := exists_of_bind_eq_ok hb
  have hfit := fitList_of_mapM h.instrs hinstrs fun _ _ => Instr.portable_of_ofRecord
  dsimp only at hb
  split at hb
  · obtain ⟨term, -, hb⟩ := exists_of_bind_eq_ok hb
    cases hb
    exact ⟨h.name, hfit⟩
  · cases hb
    exact ⟨h.name, hfit⟩

theorem Param.Portable.exists_record {p : Param} (h : p.Portable) :
    (⟨p.id, p.name, typeField p.ty⟩ : ParamRecord).Fits ∧
      Param.ofRecord ⟨p.id, p.name, typeField p.ty⟩ = .ok p := by
  refine ⟨⟨h.name, short_typeField h.type⟩, ?_⟩
  simp [Param.ofRecord, readType_typeField h.type, bind, Except.bind, pure, Except.pure]

theorem Param.portable_of_ofRecord {r : ParamRecord} {p : Param} (h : r.Fits)
    (hp : Param.ofRecord r = .ok p) : p.Portable := by
  obtain ⟨t, ht, hp⟩ := exists_of_bind_eq_ok hp
  cases hp
  exact ⟨h.name, nameable_of_readType ht⟩

theorem Function.Portable.exists_record {fn : Function} (h : fn.Portable) :
    ∃ r, fn.toRecord? = some r ∧ r.Fits ∧ Function.ofRecord r = .ok fn.forgetCounters := by
  have hblock : ∀ b : Block, b.Portable → ∃ r, b.toRecord? = pure r ∧ r.Fits ∧
      (Block.ofRecord r).mapError (DecodeError.flawed fn.name (some r.id)) = pure b := by
    intro b hb
    obtain ⟨r, hr, hfits, hread⟩ := hb.exists_record
    exact ⟨r, hr, hfits, congrArg (Except.mapError _) hread⟩
  have hparam : ∀ p : Param, p.Portable →
      ∃ r, (pure ⟨p.id, p.name, typeField p.ty⟩ : Option ParamRecord) = pure r ∧ r.Fits ∧
        Param.ofRecord r = pure p :=
    fun p hp => ⟨_, rfl, hp.exists_record⟩
  obtain ⟨blocks, hblocks, hbfits, hbread⟩ := exists_mapM (k := fun b => b) h.blocks hblock
  obtain ⟨params, hparams, hpfits, hpread⟩ := exists_mapM (k := fun p => p) h.params hparam
  rw [List.mapM_pure] at hparams
  obtain rfl := Option.some.inj hparams
  rw [List.map_id'] at hbread hpread
  refine ⟨_, Option.bind_eq_some_iff.2 ⟨blocks, hblocks, rfl⟩,
    ⟨h.name, short_typeField h.ret, hbfits, hpfits⟩, ?_⟩
  rw [Function.ofRecord]
  dsimp only
  rw [readType_typeField h.ret, hpread, hbread]
  rfl

theorem Function.portable_of_ofRecord {r : FunctionRecord} {fn : Function} (h : r.Fits)
    (hfn : Function.ofRecord r = .ok fn) : fn.Portable ∧ fn.forgetCounters = fn := by
  obtain ⟨ret, hret, hfn⟩ := exists_of_bind_eq_ok hfn
  obtain ⟨params, hparams, hfn⟩ := exists_of_bind_eq_ok hfn
  obtain ⟨blocks, hblocks, hfn⟩ := exists_of_bind_eq_ok hfn
  cases hfn
  refine ⟨⟨h.name, nameable_of_readType (eq_ok_of_mapError_eq_ok hret), ?_, ?_⟩, rfl⟩
  · exact fitList_of_mapM h.params (eq_ok_of_mapError_eq_ok hparams) fun _ _ =>
      Param.portable_of_ofRecord
  · exact fitList_of_mapM h.blocks hblocks fun b _ hb hread =>
      Block.portable_of_ofRecord hb (eq_ok_of_mapError_eq_ok hread)

theorem Module.Portable.exists_record {m : Module} (h : m.Portable) :
    ∃ r, m.toRecord = .ok r ∧ r.Fits ∧ Module.ofRecord r = .ok m.forgetCounters := by
  obtain ⟨functions, hfunctions, hfits, hread⟩ :=
    exists_mapM (f := Function.toRecord?) (g := Function.ofRecord) h.functions
      fun _ hfn => hfn.exists_record
  refine ⟨⟨m.name, functions⟩, ?_, ⟨h.name, hfits⟩, ?_⟩
  · unfold Module.toRecord
    rw [mapM_eq_pure ((forall₂_of_mapM_eq_some hfunctions).imp fun fn r hr => ?_)]
    · rfl
    · rw [hr]
      rfl
  · rw [Module.ofRecord, hread]
    rfl

theorem Module.portable_of_ofRecord {r : ModuleRecord} {m : Module} (h : r.Fits)
    (hm : Module.ofRecord r = .ok m) : m.Portable ∧ m.forgetCounters = m := by
  obtain ⟨functions, hfunctions, hm⟩ := exists_of_bind_eq_ok hm
  cases hm
  obtain ⟨hlength, hall⟩ := fitList_of_mapM h.functions hfunctions
    fun _ _ => Function.portable_of_ofRecord
  refine ⟨⟨h.name, hlength, fun fn hfn => (hall fn hfn).1⟩, ?_⟩
  have hmap : functions.map Function.forgetCounters = functions.map id :=
    List.map_congr_left fun fn hfn => (hall fn hfn).2
  rw [Module.forgetCounters, hmap, List.map_id]

/-- **Writing, then reading.** -/
theorem Module.Portable.decode_encode {m : Module} (h : m.Portable) :
    ∃ bytes, m.encode = .ok bytes ∧ Module.decode bytes = .ok m.forgetCounters := by
  obtain ⟨r, hr, hfits, hread⟩ := h.exists_record
  refine ⟨r.toItem.write, ?_, ?_⟩
  · rw [Module.encode, hr]
    rfl
  · have hplain : Item.Plain maxDepth r.toItem := hfits.plain
    rw [Module.decode, hplain.read_write]
    dsimp only
    rw [ModuleRecord.ofItem?_toItem]
    exact hread

/-- **What is read is portable.** -/
theorem Module.portable_of_decode {bytes : List UInt8} {m : Module}
    (hbytes : bytes.length < UInt64.size) (h : Module.decode bytes = .ok m) :
    m.Portable ∧ m.forgetCounters = m := by
  rw [Module.decode] at h
  split at h
  · cases h
  · next x hx =>
    split at h
    · cases h
    · next r hr =>
      have hmodest := Item.modest_of_read hbytes hx
      exact portable_of_ofRecord (ModuleRecord.fits_of_ofItem? hmodest hr) h

/-- **Modules survive writing and reading.** A portable module can be written, and its bytes are
read as the same module with its counters unset. Any module that is read from fewer bytes than a
length can count, in whatever form, is portable; written and read again, it is the same module. -/
theorem Module.decode_inverts_encode :
    (∀ m : Module, m.Portable →
      ∃ bytes, m.encode = .ok bytes ∧ Module.decode bytes = .ok m.forgetCounters) ∧
    ∀ (bytes : List UInt8) (m : Module), bytes.length < UInt64.size →
      Module.decode bytes = .ok m →
        m.Portable ∧ ∃ bytes', m.encode = .ok bytes' ∧ Module.decode bytes' = .ok m := by
  constructor
  · intro m hm
    exact hm.decode_encode
  · intro bytes m hbytes hread
    obtain ⟨hm, hcounters⟩ := portable_of_decode hbytes hread
    obtain ⟨bytes', hwritten, hread'⟩ := hm.decode_encode
    rw [hcounters] at hread'
    exact ⟨hm, bytes', hwritten, hread'⟩

/-- A module with all kinds of instructions and terminators, with operands that are zero, types that
are missing, and an effect that is negative. -/
def Module.everyShape : Module where
  name := ""
  functions := [
    { name := "f", params := [⟨1, "", none⟩, ⟨2, "x", some .ptr⟩], ret := some .void, entry := 2
      mayThrow := true, nextValue := 20, nextBlock := 5
      blocks := [
        { id := 1, name := "a", handler := 3, term := some (.br 0)
          instrs := [.const ⟨3, some (.int ⟨true, .w64⟩), "-1"⟩,
            .binary ⟨4, .other "shl" (by decide), 3, 0, none⟩, .compare ⟨5, .le, 0, 0, some .bool⟩,
            .cast ⟨6, 0, some .f64⟩, .alloca ⟨7, none⟩, .load ⟨8, 7, some .f32, true, false⟩,
            .store ⟨7, 8, false, true⟩] },
        { id := 2, term := some (.brIf 5 1 0)
          instrs := [.phi ⟨9, none, [⟨0, 0⟩, ⟨1, 3⟩]⟩, .nop,
            .call ⟨0, "g", [0, 4], none, .unlisted (-1) (by decide), true⟩] },
        { id := 3, term := some (.ret 0 true) }, { id := 4, term := some .unreachable },
        { id := 0 }] },
    { name := "", critical := true }]

/-- The bytes of a module with its name under a key in upper case and in two chunks, a key that is
no field, and lengths that are left open. -/
def Module.looseBytes : List UInt8 :=
  [0xbf, 0x64, 0x4e, 0x41, 0x4d, 0x45, 0x7f, 0x61, 0x61, 0x78, 0x01, 0x62, 0xff, 0x01, 0x9f, 0xff,
    0xff]

theorem Module.decode_inverts_encode_examples :
    Module.everyShape.Portable ∧ Module.everyShape.forgetCounters ≠ Module.everyShape ∧
    (∃ bytes, Module.everyShape.encode = .ok bytes ∧
      Module.decode bytes = .ok Module.everyShape.forgetCounters) ∧
    Module.decode Module.looseBytes = .ok ⟨"ab", []⟩ ∧
    (∃ bytes, Module.encode ⟨"ab", []⟩ = .ok bytes ∧ bytes ≠ Module.looseBytes ∧
      Module.decode bytes = .ok ⟨"ab", []⟩) := by
  have hportable : Module.everyShape.Portable := by decide +kernel
  have hloose : Module.decode Module.looseBytes = .ok ⟨"ab", []⟩ := by decide +kernel
  obtain ⟨hwrite, hread⟩ := decode_inverts_encode
  obtain ⟨-, bytes, hbytes, hagain⟩ := hread _ _ (by decide) hloose
  have hstrict : Module.encode ⟨"ab", []⟩ = .ok [0xa2, 0x64, 0x6e, 0x61, 0x6d, 0x65, 0x62, 0x61,
      0x62, 0x69, 0x66, 0x75, 0x6e, 0x63, 0x74, 0x69, 0x6f, 0x6e, 0x73, 0xf6] := by decide +kernel
  refine ⟨hportable, by decide, hwrite _ hportable, hloose, bytes, hbytes, ?_, hagain⟩
  rintro rfl
  exact absurd (Except.ok.inj (hstrict.symm.trans hbytes)) (by decide)

end SsaOpt
