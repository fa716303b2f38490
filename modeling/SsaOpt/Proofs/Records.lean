import SsaOpt.Interchange.Record
import SsaOpt.Proofs.ItemBytes

/-!
# The items of records

A record is found again in its item, although fields that are zero or empty are left out:
`InstrRecord.ofItem?_toItem` and its companions. Other items describe the record too.

A record fits (`InstrRecord.Fits`) if its texts and lists are within the limits of reading. The item
of a record that fits is plain, and a record that is found in a modest item fits.
-/

namespace SsaOpt

open Cbor

theorem Text.length_utf8Bytes (s : String) : (utf8Bytes s).length = s.utf8ByteSize := by
  rw [utf8Bytes, Array.length_toList]
  rfl

/-- A text whose bytes can be counted. -/
def Short (s : String) : Prop := s.utf8ByteSize < UInt64.size

instance : DecidablePred Short := fun s => inferInstanceAs (Decidable (s.utf8ByteSize < _))

namespace Cbor.Item

/-! ## Texts and numbers -/

theorem mapM_utf8Text?_utf8Bytes (s : String) :
    [Text.utf8Bytes s].mapM Text.utf8Text? = some [s] :=
  mapM_eq_pure (.cons (Text.utf8Text?_eq_some_iff.2 rfl) .nil)

theorem text?_ofText (s : String) : (ofText s).text? = some s := by
  show ([Text.utf8Bytes s].mapM Text.utf8Text?).map String.join = some s
  rw [mapM_utf8Text?_utf8Bytes, Option.map_some, String.join_cons, String.join_nil,
    String.append_empty]

theorem number?_negative (n : UInt64) : (negative n).number? = some (-1 - (n.toNat : Int)) := rfl

theorem number?_ofInt64 (n : Int64) : (ofInt64 n).number? = some n.toInt := by
  unfold ofInt64
  split
  · next h =>
    show some (n.toUInt64.toNat : Int) = some n.toInt
    rw [Int64.toNat_toUInt64_of_le h, Int64.cast_toNatClampNeg n h]
  · next h =>
    have hneg : n.toInt < 0 := by
      rw [Int64.le_iff_toInt_le] at h
      exact Int.not_le.1 h
    have hmin := n.le_toInt
    have hvalue : (-1 - n).toInt = -1 - n.toInt := by
      rw [Int64.toInt_sub]
      apply Int.bmod_eq_of_le <;> simp <;> omega
    have hnonneg : 0 ≤ -1 - n := by
      rw [Int64.le_iff_toInt_le, hvalue, Int64.toInt_zero]
      omega
    rw [number?_negative, Int64.toNat_toUInt64_of_le hnonneg,
      Int64.cast_toNatClampNeg _ hnonneg, hvalue, Int.sub_sub_self]

theorem int64?_ofInt64 (n : Int64) : (ofInt64 n).int64? = some n := by
  rw [int64?, number?_ofInt64]
  dsimp only
  rw [if_pos ⟨n.minValue_le_toInt, n.toInt_le⟩, Int64.ofInt_toInt]

/-! ## Fields -/

/-- The names of the fields of a record: few and short, in lower case, and no two alike. -/
def FieldNames (names : List String) : Prop :=
  names.length ≤ maxElements ∧ names.Nodup ∧ ∀ n ∈ names, n.map Char.toLower = n ∧ Short n

instance : DecidablePred FieldNames := fun _ => inferInstanceAs (Decidable (_ ∧ _))

theorem fields?_record (fields : List (String × Option Item)) :
    (record fields).fields? = some (fields.filterMap fun f => f.2.map fun x => (f.1, x)) := by
  show ((fields.filterMap fun f => f.2.map fun x => (ofText f.1, x)).mapM field?).map
    (fun fs => fs.filterMap id) = _
  have hfield : ∀ name x, field? (ofText name, x) = some (some (name, x)) := by
    intro name x
    show ([Text.utf8Bytes name].mapM Text.utf8Text?).map (fun ps => some (String.join ps, x)) = _
    rw [mapM_utf8Text?_utf8Bytes, Option.map_some, String.join_cons, String.join_nil,
      String.append_empty]
  induction fields with
  | nil => rfl
  | cons f fields ih =>
    obtain ⟨name, _ | x⟩ := f
    · exact ih
    · obtain ⟨fs, hfs, hall⟩ := Option.map_eq_some_iff.1 ih
      show (((ofText name, x) :: fields.filterMap fun f => f.2.map fun x => (ofText f.1, x)).mapM
        field?).map (fun fs => fs.filterMap id) = _
      rw [List.mapM_cons, hfield, hfs]
      show some ((name, x) :: fs.filterMap id) = _
      rw [hall]
      rfl

theorem get_filterMap {fields : List (String × Option Item)}
    (h : FieldNames (fields.map Prod.fst)) (name : String) :
    Fields.get (fields.filterMap fun f => f.2.map fun x => (f.1, x)) name =
      ((fields.lookup name).bind id).getD null := by
  obtain ⟨-, hnodup, hlower⟩ := h
  have hfind : ((fields.filterMap fun f => f.2.map fun x => (f.1, x)).find? fun f =>
      f.1.map Char.toLower = name).map Prod.snd = (fields.lookup name).bind id := by
    induction fields with
    | nil => rfl
    | cons f fields ih =>
      rw [List.map_cons, List.nodup_cons] at hnodup
      have ih := ih hnodup.2 fun n hn => hlower n (List.mem_cons_of_mem _ hn)
      have hf := (hlower f.1 (by simp)).1
      obtain ⟨n, value⟩ := f
      by_cases hn : n = name
      · subst hn
        have habsent : fields.lookup n = none := by
          rw [List.lookup_eq_none_iff]
          intro f hmem
          rw [bne_iff_ne]
          rintro rfl
          exact hnodup.1 (List.mem_map.2 ⟨f, hmem, rfl⟩)
        cases value with
        | none => simpa [List.lookup_cons, habsent] using ih
        | some x => simp [hf]
      · have hne : (name == n) = false := by simpa using Ne.symm hn
        cases value with
        | none => simpa [List.lookup_cons, hne] using ih
        | some x => simpa [List.lookup_cons, hf, hn, hne] using ih
  rw [Fields.get, hfind]

theorem exists_fields {x : Item} {fields : List (String × Option Item)} {names : List String}
    (hx : x = record fields) (hfields : fields.map Prod.fst = names) (h : FieldNames names) :
    ∃ f, x.fields? = some f ∧ ∀ name, f.get name = ((fields.lookup name).bind id).getD null := by
  subst hx hfields
  exact ⟨_, fields?_record fields, get_filterMap h⟩

/-- A field that may be left out and is plain otherwise. -/
def PlainField (depth : Nat) (value : Option Item) : Prop := ∀ x, value = some x → Plain depth x

theorem plain_record {depth : Nat} {x : Item} {fields : List (String × Option Item)}
    {names : List String} (hx : x = record fields) (hfields : fields.map Prod.fst = names)
    (h : FieldNames names) (hvalues : ∀ f ∈ fields, PlainField depth f.2) :
    Plain (depth + 1) x := by
  rw [hx]
  obtain ⟨hfew, -, hshort⟩ := h
  have hentry : ∀ e ∈ fields.filterMap fun f => f.2.map fun x => (ofText f.1, x),
      ∃ f ∈ fields, ∃ x, f.2 = some x ∧ e = (ofText f.1, x) := by
    intro e he
    obtain ⟨f, hf, he⟩ := List.mem_filterMap.1 he
    obtain ⟨x, hx, rfl⟩ := Option.map_eq_some_iff.1 he
    exact ⟨f, hf, x, hx, rfl⟩
  apply Plain.map
  · apply Nat.le_trans (List.length_filterMap_le _ _)
    rw [← List.length_map, hfields]
    exact hfew
  · intro e he
    obtain ⟨f, hf, x, -, rfl⟩ := hentry e he
    have hname := (hshort f.1 (hfields ▸ List.mem_map_of_mem hf)).2
    apply Plain.text
    rw [Text.length_utf8Bytes]
    exact hname
  · intro e he
    obtain ⟨f, hf, x, hx, rfl⟩ := hentry e he
    exact hvalues f hf x hx

end Cbor.Item

namespace Interchange

open Cbor.Item

/-! ## Fields that may be left out -/

@[simp] theorem text?_unlessEmpty (s : String) : ((unlessEmpty s).getD null).text? = some s := by
  unfold unlessEmpty
  split
  · next h =>
    rw [h]
    rfl
  · exact text?_ofText s

@[simp] theorem uint32?_ofId (id : UInt32) : (ofId id).uint32? = some id := by
  have hnumber : (ofId id).number? = some (id.toNat : Int) := rfl
  rw [uint32?, hnumber]
  dsimp only
  rw [if_pos ⟨Int.natCast_nonneg _, Int.ofNat_lt.2 id.toNat_lt⟩, Int.toNat_natCast,
    UInt32.ofNat_toNat]

@[simp] theorem uint32?_unlessZero (id : UInt32) :
    ((unlessZero id).getD null).uint32? = some id := by
  unfold unlessZero
  split
  · next h =>
    rw [h]
    rfl
  · exact uint32?_ofId id

@[simp] theorem bool?_ifTrue (b : Bool) : ((ifTrue b).getD null).bool? = some b := by
  cases b <;> rfl

theorem list?_unlessNil {α : Type} {find : Item → Option α} {toItem : α → Item}
    (h : ∀ x, find (toItem x) = some x) (xs : List α) :
    ((unlessNil (xs.map toItem)).getD null).list? find = some xs := by
  cases xs with
  | nil => rfl
  | cons x xs =>
    show ((x :: xs).map toItem).mapM find = some (x :: xs)
    apply mapM_eq_pure
    rw [List.forall₂_map_left_iff]
    exact List.forall₂_same.2 fun y _ => h y

@[simp] theorem list?_unlessNil_ofId (ids : List UInt32) :
    ((unlessNil (ids.map ofId)).getD null).list? Item.uint32? = some ids :=
  list?_unlessNil uint32?_ofId ids

section Plain

variable {depth : Nat}

theorem plainField_none : PlainField depth none := by
  intro x hx
  cases hx

theorem plainField_some {x : Item} (h : Plain depth x) : PlainField depth (some x) := by
  intro y hy
  obtain rfl := Option.some.inj hy
  exact h

theorem plain_ofText {s : String} (h : Short s) : Plain depth (ofText s) := by
  apply Plain.text
  rw [Text.length_utf8Bytes]
  exact h

theorem plainField_unlessEmpty {s : String} (h : Short s) : PlainField depth (unlessEmpty s) := by
  unfold unlessEmpty
  split
  · exact plainField_none
  · exact plainField_some (plain_ofText h)

theorem plain_ofId (id : UInt32) : Plain depth (ofId id) := .unsigned depth id.toUInt64

theorem plainField_unlessZero (id : UInt32) : PlainField depth (unlessZero id) := by
  unfold unlessZero
  split
  · exact plainField_none
  · exact plainField_some (plain_ofId id)

theorem plainField_ifTrue (b : Bool) : PlainField depth (ifTrue b) := by
  cases b
  · exact plainField_none
  · exact plainField_some (.simple depth (by decide))

theorem plain_ofInt64 (n : Int64) : Plain depth (ofInt64 n) := by
  unfold ofInt64
  split
  · exact .unsigned depth _
  · exact .negative depth _

/-- A list that is not too long, of things that fit. -/
def FitList {α : Type} (P : α → Prop) (xs : List α) : Prop :=
  xs.length ≤ maxElements ∧ ∀ x ∈ xs, P x

theorem plainField_unlessNil {α : Type} {P : α → Prop} {toItem : α → Item} {xs : List α}
    (h : FitList P xs) (hplain : ∀ x, P x → Plain depth (toItem x)) :
    PlainField (depth + 1) (unlessNil (xs.map toItem)) := by
  unfold unlessNil
  split
  · exact plainField_none
  · apply plainField_some
    apply Plain.array
    · rw [List.length_map]
      exact h.1
    · intro y hy
      obtain ⟨x, hx, rfl⟩ := List.mem_map.1 hy
      exact hplain x (h.2 x hx)

theorem plainField_ids {ids : List UInt32} (h : ids.length ≤ maxElements) :
    PlainField (depth + 1) (unlessNil (ids.map ofId)) :=
  plainField_unlessNil (P := fun _ => True) ⟨h, fun _ _ => trivial⟩ fun id _ => plain_ofId id

end Plain

/-! ## What is found in a modest item -/

theorem modest_of_untagged? {x y : Item} (h : x.Modest) (hy : x.untagged? = some y) :
    y.Modest := by
  induction h with
  | tag number hcontent ih =>
    rw [untagged?] at hy
    split at hy
    · cases hy
    · split at hy
      · obtain rfl := Option.some.inj hy
        exact .tag number hcontent
      · exact ih hy
  | _ =>
    obtain rfl := Option.some.inj hy
    constructor <;> assumption

theorem isNull_null : null.isNull = true := rfl

theorem modest_null : null.Modest := .simple 22

theorem snd_eq_of_field? {entry : Item × Item} {e : String × Item}
    (h : field? entry = some (some e)) : e.2 = entry.2 := by
  unfold field? at h
  split at h
  · obtain ⟨parts, -, he⟩ := Option.map_eq_some_iff.1 h
    obtain rfl := Option.some.inj he
    rfl
  · cases h
  · cases h
  · cases h

theorem modest_get {x : Item} (h : x.Modest) {f : Fields} (hf : x.fields? = some f)
    (name : String) : (f.get name).Modest := by
  have hfields : ∀ e ∈ f, e.2.Modest := by
    unfold fields? at hf
    split at hf
    · next entries hx =>
      obtain ⟨fs, hfs, rfl⟩ := Option.map_eq_some_iff.1 hf
      intro e he
      obtain ⟨e', he', heq⟩ := List.mem_filterMap.1 he
      obtain rfl : e' = some e := heq
      obtain ⟨entry, hentry, hfield⟩ := forall₂_exists_left (forall₂_of_mapM_eq_some hfs) he'
      cases modest_of_untagged? h hx with
      | map hvalues =>
        rw [snd_eq_of_field? hfield]
        exact hvalues entry hentry
    · split at hf
      · obtain rfl := Option.some.inj hf
        simp
      · cases hf
    · cases hf
  unfold Fields.get
  cases hfind : f.find? fun e => e.1.map Char.toLower = name with
  | none => exact modest_null
  | some e => exact hfields e (List.mem_of_find?_eq_some hfind)

theorem utf8ByteSize_join {chunks : List (List UInt8)} {parts : List String}
    (h : chunks.mapM Text.utf8Text? = some parts) :
    (String.join parts).utf8ByteSize = chunks.flatten.length := by
  induction forall₂_of_mapM_eq_some h with
  | nil => rfl
  | cons hpart hrest ih =>
    rw [String.join_cons, String.utf8ByteSize_append, List.flatten_cons, List.length_append,
      Text.utf8Text?_eq_some_iff.1 hpart, Text.length_utf8Bytes, ih (mapM_eq_pure hrest)]

theorem short_of_text? {x : Item} (h : x.Modest) {s : String} (hs : x.text? = some s) :
    Short s := by
  unfold text? at hs
  split at hs
  · next chunks hx =>
    obtain ⟨parts, hparts, rfl⟩ := Option.map_eq_some_iff.1 hs
    cases modest_of_untagged? h hx with
    | text hlength =>
      rw [Short, utf8ByteSize_join hparts]
      exact hlength
  · split at hs
    · obtain rfl := Option.some.inj hs
      decide
    · cases hs
  · cases hs

theorem fitList_of_list? {α : Type} {find : Item → Option α} {x : Item} (h : x.Modest)
    {xs : List α} (hxs : x.list? find = some xs) {P : α → Prop}
    (hP : ∀ y a, y.Modest → find y = some a → P a) : FitList P xs := by
  unfold list? at hxs
  split at hxs
  · next items hx =>
    cases modest_of_untagged? h hx with
    | array hlength hitems =>
      have hall := forall₂_of_mapM_eq_some hxs
      refine ⟨hall.length_eq ▸ hlength, fun a ha => ?_⟩
      obtain ⟨y, hy, hfind⟩ := forall₂_exists_left hall ha
      exact hP y a (hitems y hy) hfind
  · split at hxs
    · obtain rfl := Option.some.inj hxs
      exact ⟨Nat.zero_le _, by simp⟩
    · cases hxs
  · cases hxs

/-! ## The names of fields -/

/-- The names of the fields of an instruction. -/
def InstrRecord.fieldNames : List String :=
  ["op", "args", "kind", "type", "preds", "value", "effect", "result", "target", "unsafe",
    "volatile"]

/-- The names of the fields of a terminator. -/
def TermRecord.fieldNames : List String := ["op", "value", "targets", "has_value"]

/-- The names of the fields of a block. -/
def BlockRecord.fieldNames : List String := ["id", "name", "term", "instrs", "handler"]

/-- The names of the fields of a parameter. -/
def ParamRecord.fieldNames : List String := ["id", "name", "type"]

/-- The names of the fields of a function. -/
def FunctionRecord.fieldNames : List String :=
  ["name", "entry", "blocks", "params", "return", "unsafe", "critical", "may_throw"]

/-- The names of the fields of a module. -/
def ModuleRecord.fieldNames : List String := ["name", "functions"]

theorem fieldNames_instr : FieldNames InstrRecord.fieldNames := by decide +kernel

theorem fieldNames_term : FieldNames TermRecord.fieldNames := by decide +kernel

theorem fieldNames_block : FieldNames BlockRecord.fieldNames := by decide +kernel

theorem fieldNames_param : FieldNames ParamRecord.fieldNames := by decide +kernel

theorem fieldNames_function : FieldNames FunctionRecord.fieldNames := by decide +kernel

theorem fieldNames_module : FieldNames ModuleRecord.fieldNames := by decide +kernel

/-! ## A record is found in its item -/

theorem InstrRecord.ofItem?_toItem (r : InstrRecord) : InstrRecord.ofItem? r.toItem = some r := by
  obtain ⟨f, hf, hget⟩ := exists_fields (rfl : r.toItem = record _) rfl fieldNames_instr
  have heffect : (((if r.effect = 0 then none else some (ofInt64 r.effect)).getD
      null).int64?) = some r.effect := by
    split
    · next h =>
      rw [h]
      rfl
    · exact int64?_ofInt64 r.effect
  simp [InstrRecord.ofItem?, hf, hget, List.lookup_cons, heffect, text?_ofText]

theorem TermRecord.ofItem?_toItem (r : TermRecord) : TermRecord.ofItem? r.toItem = some r := by
  obtain ⟨f, hf, hget⟩ := exists_fields (rfl : r.toItem = record _) rfl fieldNames_term
  simp [TermRecord.ofItem?, hf, hget, List.lookup_cons, text?_ofText]

theorem BlockRecord.ofItem?_toItem (r : BlockRecord) : BlockRecord.ofItem? r.toItem = some r := by
  obtain ⟨f, hf, hget⟩ := exists_fields (rfl : r.toItem = record _) rfl fieldNames_block
  have hinstrs := list?_unlessNil InstrRecord.ofItem?_toItem r.instrs
  have hterm : ∀ t, r.term = some t → t.toItem.isNull = false := fun _ _ => rfl
  obtain ⟨id, name, _ | t, instrs, handler⟩ := r
  · simp [BlockRecord.ofItem?, hf, hget, List.lookup_cons, hinstrs, isNull_null]
  · simp [BlockRecord.ofItem?, hf, hget, List.lookup_cons, hinstrs, hterm t rfl,
      TermRecord.ofItem?_toItem]

theorem ParamRecord.ofItem?_toItem (r : ParamRecord) : ParamRecord.ofItem? r.toItem = some r := by
  obtain ⟨f, hf, hget⟩ := exists_fields (rfl : r.toItem = record _) rfl fieldNames_param
  simp [ParamRecord.ofItem?, hf, hget, List.lookup_cons, text?_ofText]

theorem FunctionRecord.ofItem?_toItem (r : FunctionRecord) :
    FunctionRecord.ofItem? r.toItem = some r := by
  obtain ⟨f, hf, hget⟩ := exists_fields (rfl : r.toItem = record _) rfl fieldNames_function
  have hblocks := list?_unlessNil BlockRecord.ofItem?_toItem r.blocks
  have hparams := list?_unlessNil ParamRecord.ofItem?_toItem r.params
  simp [FunctionRecord.ofItem?, hf, hget, List.lookup_cons, hblocks, hparams, text?_ofText]

theorem ModuleRecord.ofItem?_toItem (r : ModuleRecord) :
    ModuleRecord.ofItem? r.toItem = some r := by
  obtain ⟨f, hf, hget⟩ := exists_fields (rfl : r.toItem = record _) rfl fieldNames_module
  have hfunctions := list?_unlessNil FunctionRecord.ofItem?_toItem r.functions
  simp [ModuleRecord.ofItem?, hf, hget, List.lookup_cons, hfunctions, text?_ofText]

/-! ## Records within the limits of reading -/

/-- The texts and lists of an instruction are within the limits. -/
structure InstrRecord.Fits (r : InstrRecord) : Prop where
  op : Short r.op
  kind : Short r.kind
  type : Short r.type
  value : Short r.value
  target : Short r.target
  args : r.args.length ≤ maxElements
  preds : r.preds.length ≤ maxElements

/-- The texts and lists of a terminator are within the limits. -/
structure TermRecord.Fits (r : TermRecord) : Prop where
  op : Short r.op
  targets : r.targets.length ≤ maxElements

/-- The texts and lists of a block are within the limits. -/
structure BlockRecord.Fits (r : BlockRecord) : Prop where
  name : Short r.name
  term : ∀ t, r.term = some t → t.Fits
  instrs : FitList InstrRecord.Fits r.instrs

/-- The texts of a parameter are within the limits. -/
structure ParamRecord.Fits (r : ParamRecord) : Prop where
  name : Short r.name
  type : Short r.type

/-- The texts and lists of a function are within the limits. -/
structure FunctionRecord.Fits (r : FunctionRecord) : Prop where
  name : Short r.name
  ret : Short r.ret
  blocks : FitList BlockRecord.Fits r.blocks
  params : FitList ParamRecord.Fits r.params

/-- The texts and lists of a module are within the limits. -/
structure ModuleRecord.Fits (r : ModuleRecord) : Prop where
  name : Short r.name
  functions : FitList FunctionRecord.Fits r.functions

section ToPlain

variable {depth : Nat}

theorem InstrRecord.Fits.plain {r : InstrRecord} (h : r.Fits) : Plain (depth + 2) r.toItem := by
  apply plain_record (rfl : r.toItem = record _) rfl fieldNames_instr
  have heffect : PlainField (depth + 1)
      (if r.effect = 0 then none else some (ofInt64 r.effect)) := by
    split
    · exact plainField_none
    · exact plainField_some (plain_ofInt64 r.effect)
  simp only [List.forall_mem_cons]
  exact ⟨plainField_some (plain_ofText h.op), plainField_ids h.args,
    plainField_unlessEmpty h.kind, plainField_unlessEmpty h.type, plainField_ids h.preds,
    plainField_unlessEmpty h.value, heffect, plainField_unlessZero r.result,
    plainField_unlessEmpty h.target, plainField_ifTrue r.unchecked, plainField_ifTrue r.volatile,
    by simp⟩

theorem TermRecord.Fits.plain {r : TermRecord} (h : r.Fits) : Plain (depth + 2) r.toItem := by
  apply plain_record (rfl : r.toItem = record _) rfl fieldNames_term
  simp only [List.forall_mem_cons]
  exact ⟨plainField_some (plain_ofText h.op), plainField_unlessZero r.value,
    plainField_ids h.targets, plainField_ifTrue r.hasValue, by simp⟩

theorem BlockRecord.Fits.plain {r : BlockRecord} (h : r.Fits) : Plain (depth + 4) r.toItem := by
  apply plain_record (rfl : r.toItem = record _) rfl fieldNames_block
  have hterm : PlainField (depth + 3) (r.term.map TermRecord.toItem) := by
    intro x hx
    obtain ⟨t, ht, rfl⟩ := Option.map_eq_some_iff.1 hx
    exact (h.term t ht).plain
  simp only [List.forall_mem_cons]
  exact ⟨plainField_some (plain_ofId r.id), plainField_unlessEmpty h.name, hterm,
    plainField_unlessNil h.instrs fun _ hi => hi.plain, plainField_unlessZero r.handler, by simp⟩

theorem ParamRecord.Fits.plain {r : ParamRecord} (h : r.Fits) : Plain (depth + 1) r.toItem := by
  apply plain_record (rfl : r.toItem = record _) rfl fieldNames_param
  simp only [List.forall_mem_cons]
  exact ⟨plainField_some (plain_ofId r.id), plainField_some (plain_ofText h.name),
    plainField_some (plain_ofText h.type), by simp⟩

theorem FunctionRecord.Fits.plain {r : FunctionRecord} (h : r.Fits) :
    Plain (depth + 6) r.toItem := by
  apply plain_record (rfl : r.toItem = record _) rfl fieldNames_function
  simp only [List.forall_mem_cons]
  exact ⟨plainField_some (plain_ofText h.name), plainField_unlessZero r.entry,
    plainField_unlessNil h.blocks fun _ hb => hb.plain,
    plainField_unlessNil h.params fun _ hp => hp.plain, plainField_some (plain_ofText h.ret),
    plainField_ifTrue r.unchecked, plainField_ifTrue r.critical, plainField_ifTrue r.mayThrow,
    by simp⟩

theorem ModuleRecord.Fits.plain {r : ModuleRecord} (h : r.Fits) : Plain (depth + 8) r.toItem := by
  apply plain_record (rfl : r.toItem = record _) rfl fieldNames_module
  have hfunctions : Plain (depth + 7)
      ((unlessNil (r.functions.map FunctionRecord.toItem)).getD null) := by
    cases hitems : unlessNil (r.functions.map FunctionRecord.toItem) with
    | none => exact .simple _ (by decide)
    | some x => exact plainField_unlessNil h.functions (fun _ hf => hf.plain) x hitems
  simp only [List.forall_mem_cons]
  exact ⟨plainField_some (plain_ofText h.name), plainField_some hfunctions, by simp⟩

end ToPlain

section OfModest

variable {x : Item}

theorem length_le_of_list? {ids : List UInt32} (h : x.Modest)
    (hids : x.list? Item.uint32? = some ids) : ids.length ≤ maxElements :=
  (fitList_of_list? (P := fun _ => True) h hids fun _ _ _ _ => trivial).1

theorem InstrRecord.fits_of_ofItem? {r : InstrRecord} (h : x.Modest)
    (hr : InstrRecord.ofItem? x = some r) : r.Fits := by
  simp only [InstrRecord.ofItem?, Option.bind_eq_bind, Option.bind_eq_some_iff, Option.pure_def,
    Option.some.injEq] at hr
  obtain ⟨f, hf, op, hop, args, hargs, kind, hkind, type, htype, preds, hpreds, value, hvalue,
    effect, -, result, -, target, htarget, unchecked, -, volatile, -, rfl⟩ := hr
  have hget := modest_get h hf
  exact ⟨short_of_text? (hget _) hop, short_of_text? (hget _) hkind, short_of_text? (hget _) htype,
    short_of_text? (hget _) hvalue, short_of_text? (hget _) htarget,
    length_le_of_list? (hget _) hargs, length_le_of_list? (hget _) hpreds⟩

theorem TermRecord.fits_of_ofItem? {r : TermRecord} (h : x.Modest)
    (hr : TermRecord.ofItem? x = some r) : r.Fits := by
  simp only [TermRecord.ofItem?, Option.bind_eq_bind, Option.bind_eq_some_iff, Option.pure_def,
    Option.some.injEq] at hr
  obtain ⟨f, hf, op, hop, value, -, targets, htargets, hasValue, -, rfl⟩ := hr
  have hget := modest_get h hf
  exact ⟨short_of_text? (hget _) hop, length_le_of_list? (hget _) htargets⟩

theorem BlockRecord.fits_of_ofItem? {r : BlockRecord} (h : x.Modest)
    (hr : BlockRecord.ofItem? x = some r) : r.Fits := by
  simp only [BlockRecord.ofItem?, Option.bind_eq_bind, Option.bind_eq_some_iff,
    Option.pure_def] at hr
  obtain ⟨f, hf, id, -, name, hname, hr⟩ := hr
  have hget := modest_get h hf
  have hfits : ∀ {is : List InstrRecord}, (f.get "instrs").list? InstrRecord.ofItem? = some is →
      FitList InstrRecord.Fits is :=
    fun his => fitList_of_list? (hget _) his fun _ _ => InstrRecord.fits_of_ofItem?
  -- The choice comes before the other fields are read, so each side reads them.
  split at hr
  · simp only [Option.bind_eq_some_iff, Option.some.injEq] at hr
    obtain ⟨_, rfl, instrs, hinstrs, handler, -, rfl⟩ := hr
    exact ⟨short_of_text? (hget _) hname, fun t ht => (by cases ht), hfits hinstrs⟩
  · simp only [Option.bind_eq_some_iff, Option.map_eq_some_iff, Option.some.injEq] at hr
    obtain ⟨_, ⟨t, ht, rfl⟩, instrs, hinstrs, handler, -, rfl⟩ := hr
    refine ⟨short_of_text? (hget _) hname, fun t' ht' => ?_, hfits hinstrs⟩
    obtain rfl := Option.some.inj ht'
    exact TermRecord.fits_of_ofItem? (hget _) ht

theorem ParamRecord.fits_of_ofItem? {r : ParamRecord} (h : x.Modest)
    (hr : ParamRecord.ofItem? x = some r) : r.Fits := by
  simp only [ParamRecord.ofItem?, Option.bind_eq_bind, Option.bind_eq_some_iff, Option.pure_def,
    Option.some.injEq] at hr
  obtain ⟨f, hf, id, -, name, hname, type, htype, rfl⟩ := hr
  have hget := modest_get h hf
  exact ⟨short_of_text? (hget _) hname, short_of_text? (hget _) htype⟩

theorem FunctionRecord.fits_of_ofItem? {r : FunctionRecord} (h : x.Modest)
    (hr : FunctionRecord.ofItem? x = some r) : r.Fits := by
  simp only [FunctionRecord.ofItem?, Option.bind_eq_bind, Option.bind_eq_some_iff,
    Option.pure_def, Option.some.injEq] at hr
  obtain ⟨f, hf, name, hname, entry, -, blocks, hblocks, params, hparams, ret, hret, unchecked, -,
    critical, -, mayThrow, -, rfl⟩ := hr
  have hget := modest_get h hf
  exact ⟨short_of_text? (hget _) hname, short_of_text? (hget _) hret,
    fitList_of_list? (hget _) hblocks fun _ _ => BlockRecord.fits_of_ofItem?,
    fitList_of_list? (hget _) hparams fun _ _ => ParamRecord.fits_of_ofItem?⟩

theorem ModuleRecord.fits_of_ofItem? {r : ModuleRecord} (h : x.Modest)
    (hr : ModuleRecord.ofItem? x = some r) : r.Fits := by
  simp only [ModuleRecord.ofItem?, Option.bind_eq_bind, Option.bind_eq_some_iff, Option.pure_def,
    Option.some.injEq] at hr
  obtain ⟨f, hf, name, hname, functions, hfunctions, rfl⟩ := hr
  have hget := modest_get h hf
  exact ⟨short_of_text? (hget _) hname,
    fitList_of_list? (hget _) hfunctions fun _ _ => FunctionRecord.fits_of_ofItem?⟩

end OfModest

end Interchange

end SsaOpt
