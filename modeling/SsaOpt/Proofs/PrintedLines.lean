import SsaOpt.Proofs.Canonical
import SsaOpt.Proofs.Literals
import SsaOpt.Proofs.RoundTrip
import SsaOpt.Proofs.Splitting

/-!
# What a printed line says

A line of a printed module says all that its canonical form holds, except for the type of a
comparison, as long as no name in it looks like something else. `Instr.matches_of_render` is this
for instructions, `Term.canonical_of_render` for terminators, `Block.headLine_inj` and
`Function.headLine_inj` for the first lines of blocks and functions.

Names are legible if they hold none of the characters that stand between the parts of a line, and if
an operator is not called like another instruction. The text of a module with other names can be
that of a quite different module.
-/

namespace SsaOpt

/-! ## Legible names -/

/-- The characters that a legible name does not hold. -/
def separators : List Char := [' ', '\n', ',', '(', ')', '%']

/-- A name without separators. -/
def IsPlain (s : String) : Prop := ∀ c ∈ s.toList, c ∉ separators

-- Goes through the characters of the name, not through all that there are.
instance (s : String) : Decidable (IsPlain s) :=
  List.decidableBAll (fun c => c ∉ separators) s.toList

theorem IsPlain.notMem {s : String} (h : IsPlain s) {c : Char} (hc : c ∈ separators) :
    c ∉ s.toList := fun hmem => h c hmem hc

/-- The words with which instructions start that are no arithmetic. -/
def mnemonics : List String :=
  ["const", "cmp", "cast", "alloca", "load", "store", "call", "phi", "nop", "instr"]

/-- The names in an instruction are legible. -/
def Instr.Legible : Instr → Prop
  | const c => IsPlain (typeName c.ty) ∧ '\n' ∉ c.literal.toList
  | binary b => IsPlain b.op.name ∧ b.op.name ∉ mnemonics ∧ IsPlain (typeName b.ty)
  | compare c => IsPlain c.pred.name
  | cast c => IsPlain (typeName c.ty)
  | alloca a => IsPlain (typeName a.elem)
  | load l => IsPlain (typeName l.ty)
  | call c => IsPlain c.target ∧ IsPlain (typeName c.ty)
  | phi p => IsPlain (typeName p.ty)
  | _ => True

instance : DecidablePred Instr.Legible := fun i => by
  cases i <;> unfold Instr.Legible <;> infer_instance

/-- The names of a parameter are legible. -/
def Param.Legible (p : Param) : Prop := IsPlain p.name ∧ IsPlain (typeName p.ty)

instance : DecidablePred Param.Legible := fun p =>
  inferInstanceAs (Decidable (IsPlain p.name ∧ IsPlain (typeName p.ty)))

/-- The names in a block are legible. -/
def Block.Legible (b : Block) : Prop := IsPlain b.name ∧ ∀ i ∈ b.instrs, i.Legible

instance : DecidablePred Block.Legible := fun b =>
  inferInstanceAs (Decidable (IsPlain b.name ∧ ∀ i ∈ b.instrs, i.Legible))

/-- The names in a function are legible. -/
def Function.Legible (fn : Function) : Prop :=
  IsPlain fn.name ∧ IsPlain (typeName fn.ret) ∧ (∀ p ∈ fn.params, p.Legible) ∧
    ∀ b ∈ fn.blocks, b.Legible

instance : DecidablePred Function.Legible := fun fn =>
  inferInstanceAs (Decidable (IsPlain fn.name ∧ IsPlain (typeName fn.ret) ∧
    (∀ p ∈ fn.params, p.Legible) ∧ ∀ b ∈ fn.blocks, b.Legible))

/-- The names in a module are legible; its own name only has to stay on its line. -/
def Module.Legible (m : Module) : Prop := '\n' ∉ m.name.toList ∧ ∀ fn ∈ m.functions, fn.Legible

instance : DecidablePred Module.Legible := fun m =>
  inferInstanceAs (Decidable ('\n' ∉ m.name.toList ∧ ∀ fn ∈ m.functions, fn.Legible))

/-! ## Numbers and types -/

/-- The characters of printed numbers. -/
def isNumberChar (c : Char) : Bool := c.isDigit || "%tb<invalid>".toList.contains c

theorem toString_nat_inj {n m : Nat} (h : toString n = toString m) : n = m := by
  have hn := Text.readNat_toString (Nat.le_max_left n m)
  rw [h, Text.readNat_toString (Nat.le_max_right n m)] at hn
  exact (Except.ok.inj hn).symm

theorem isNumberChar_of_mem_toString {n : Nat} {c : Char} (h : c ∈ (toString n).toList) :
    isNumberChar c = true := by
  rw [Nat.toString_eq_ofList_toDigits, String.toList_ofList] at h
  rw [isNumberChar, Nat.isDigit_of_mem_toDigits (by decide) (by decide) h, Bool.true_or]

/-- A number after some characters, or a word for no number. -/
theorem notMem_number {front word : String} {id : UInt32} {c : Char}
    (hfront : front.toList.all isNumberChar = true) (hword : word.toList.all isNumberChar = true)
    (hc : isNumberChar c = false) :
    c ∉ (if id = 0 then word else front ++ toString id.toNat).toList := by
  intro hmem
  split at hmem
  · simp [List.all_eq_true.1 hword c hmem] at hc
  · rw [String.toList_append, List.mem_append] at hmem
    rcases hmem with hmem | hmem
    · simp [List.all_eq_true.1 hfront c hmem] at hc
    · simp [isNumberChar_of_mem_toString hmem] at hc

theorem notMem_renderValue {c : Char} (hc : isNumberChar c = false) (v : ValueId) :
    c ∉ (renderValue v).toList := by
  have h := @notMem_number "%t" "%<invalid>" v c (by decide) (by decide) hc
  exact h

theorem notMem_renderBlockId {c : Char} (hc : isNumberChar c = false) (b : BlockId) :
    c ∉ (renderBlockId b).toList := by
  have h := @notMem_number "b" "b<invalid>" b c (by decide) (by decide) hc
  exact h

/-- The word for no number is told from the numbers by its last character. -/
theorem number_inj {front word : String} {id id' : UInt32} (hfront : '>' ∉ front.toList)
    (hword : '>' ∈ word.toList)
    (h : (if id = 0 then word else front ++ toString id.toNat) =
      if id' = 0 then word else front ++ toString id'.toNat) : id = id' := by
  have hne : ∀ n : Nat, front ++ toString n ≠ word := by
    intro n hn
    rw [← hn, String.toList_append, List.mem_append] at hword
    rcases hword with hmem | hmem
    · exact hfront hmem
    · rw [Nat.toString_eq_ofList_toDigits, String.toList_ofList] at hmem
      exact absurd (Nat.isDigit_of_mem_toDigits (by decide) (by decide) hmem) (by decide)
  split at h
  · next h0 =>
    split at h
    · next h0' => rw [h0, h0']
    · exact absurd h.symm (hne _)
  · split at h
    · exact absurd h (hne _)
    · exact UInt32.toNat_inj.1 (toString_nat_inj (String.append_right_inj _ |>.1 h))

theorem renderValue_inj {v v' : ValueId} (h : renderValue v = renderValue v') : v = v' :=
  @number_inj "%t" "%<invalid>" v v' (by decide) (by decide) h

theorem renderBlockId_inj {b b' : BlockId} (h : renderBlockId b = renderBlockId b') : b = b' :=
  @number_inj "b" "b<invalid>" b b' (by decide) (by decide) h

theorem printedType_of_typeName {t t' : Option Ty} (h : typeName t = typeName t') :
    printedType t = printedType t' := by
  have hname : ∀ t : Option Ty, typeName t = (t.getD .void).name := by
    intro t
    cases t <;> rfl
  rw [hname, hname] at h
  rw [printedType, printedType, Ty.name_injective h]

theorem type_of_typeName {t t' : Option Ty} (h : typeName t = typeName t')
    (hnone : t = none ↔ t' = none) : t = t' := by
  cases t with
  | none => exact (hnone.1 rfl).symm
  | some u =>
    cases t' with
    | none => exact hnone.2 rfl
    | some u' => exact printedType_of_typeName h

/-! ## Instructions -/

theorem toString_text (s : String) : toString s = s := rfl

namespace Instr

/-- The words for the flags of a memory access. -/
def accessWords (volatile unchecked : Bool) : List String :=
  (if volatile then ["volatile"] else []) ++ if unchecked then ["unsafe"] else []

/-- The words for the effect of a call and for its flag. -/
def callWords (c : Call) : List String :=
  (if c.effect = .side then [] else [c.effect.name]) ++ if c.unchecked then ["unsafe"] else []

/-- An entry of a phi as text. -/
def incomingText (e : Incoming) : String := renderBlockId e.pred ++ (": " ++ renderValue e.value)

/-- The word that an instruction starts with. -/
def mnemonic : Instr → String
  | const _ => "const"
  | binary b => b.op.name
  | compare _ => "cmp"
  | cast _ => "cast"
  | alloca _ => "alloca"
  | load _ => "load"
  | store _ => "store"
  | call _ => "call"
  | phi _ => "phi"
  | nop => "nop"
  | hole => "instr"

/-- What follows the first word. -/
def tail : Instr → String
  | const c => " " ++ (typeName c.ty ++ (" " ++ c.literal))
  | binary b => led " " [typeName b.ty, renderValue b.left ++ ",", renderValue b.right]
  | compare c => led " " [c.pred.name, renderValue c.left ++ ",", renderValue c.right]
  | cast c => led " " [typeName c.ty, renderValue c.operand]
  | alloca a => led " " [typeName a.elem]
  | load l =>
    led " " (accessWords l.volatile l.unchecked ++ [typeName l.ty, renderValue l.addr])
  | store s =>
    led " " (accessWords s.volatile s.unchecked ++ [renderValue s.addr ++ ",", renderValue s.value])
  | call c =>
    led " " (callWords c ++ [c.target]) ++
      ("(" ++ (commaSeparated (c.args.map renderValue) ++ (") : " ++ typeName c.ty)))
  | phi p =>
    " " ++ (typeName p.ty ++
      (" [" ++ (commaSeparated (p.incoming.map incomingText) ++ "]")))
  | nop => ""
  | hole => " <unknown>"

theorem render_eq (i : Instr) : i.render = renderAssign i.result (i.mnemonic ++ i.tail) := by
  cases i with
  | nop => rfl
  | hole => rfl
  | store s =>
    refine String.toList_inj.1 ?_
    rw [result, renderAssign, if_pos rfl]
    cases hv : s.volatile <;> cases hu : s.unchecked <;>
      simp [render, mnemonic, tail, led, accessWords, renderAccess, toString_text, hv, hu]
  | load l =>
    refine congrArg (renderAssign l.result) (String.toList_inj.1 ?_)
    cases hv : l.volatile <;> cases hu : l.unchecked <;>
      simp [mnemonic, tail, led, accessWords, renderAccess, toString_text, hv, hu]
  | call c =>
    refine congrArg (renderAssign c.result) (String.toList_inj.1 ?_)
    by_cases he : c.effect = .side <;> cases hu : c.unchecked <;>
      simp [mnemonic, tail, led, callWords, toString_text, he, hu]
  | phi p =>
    refine congrArg (renderAssign p.result) (String.toList_inj.1 ?_)
    simp [mnemonic, tail, renderIncoming, toString_text, String.append_assoc]
    rfl
  | _ =>
    refine congrArg (renderAssign _) (String.toList_inj.1 ?_)
    simp [mnemonic, tail, led, toString_text]

/-! ### The first word -/

theorem opens_tail (i : Instr) : Opens ' ' i.tail := by
  cases i with
  | nop => exact opens_empty _
  | call c =>
    rw [tail, led_append, String.append_assoc]
    exact (opens_led (by rfl) _).append (opens_append (by simp [led_cons]) _)
  | const c => exact opens_append (by rfl) _
  | phi p => exact opens_append (by rfl) _
  | hole => simp [Opens, tail]
  | _ => exact opens_led (by rfl) _

theorem mnemonic_mem (i : Instr) : i.mnemonic ∈ mnemonics ∨ ∃ b, i = .binary b := by
  cases i with
  | binary b => exact Or.inr ⟨b, rfl⟩
  | _ => exact Or.inl (by simp [mnemonic, mnemonics])

theorem Legible.isPlain_mnemonic {i : Instr} (h : i.Legible) : IsPlain i.mnemonic := by
  have hplain : ∀ s ∈ mnemonics, IsPlain s := by decide
  rcases i.mnemonic_mem with hmem | ⟨b, rfl⟩
  · exact hplain _ hmem
  · exact h.1

/-- Only a result starts with `%`. -/
theorem Legible.body_ne {i : Instr} (h : i.Legible) (v : ValueId) (t : String) :
    i.mnemonic ++ i.tail ≠ renderValue v ++ t := by
  intro heq
  have hvalue : (renderValue v ++ t).toList.head? = some '%' := by
    unfold renderValue
    split <;> simp [toString_text]
  rw [← heq, String.toList_append] at hvalue
  cases hm : i.mnemonic.toList with
  | nil =>
    rw [hm, List.nil_append] at hvalue
    exact absurd (i.opens_tail '%' hvalue) (by decide)
  | cons c cs =>
    rw [hm, List.cons_append, List.head?_cons] at hvalue
    obtain rfl := Option.some.inj hvalue
    exact h.isPlain_mnemonic '%' (by rw [hm]; simp) (by decide)

theorem parts_of_render {i i' : Instr} (h : i.Legible) (h' : i'.Legible)
    (hrender : i.render = i'.render) :
    i.result = i'.result ∧ i.mnemonic = i'.mnemonic ∧ i.tail = i'.tail := by
  have hbody : i.mnemonic ++ i.tail = i'.mnemonic ++ i'.tail →
      i.mnemonic = i'.mnemonic ∧ i.tail = i'.tail :=
    cut ' ' (h.isPlain_mnemonic.notMem (by decide)) (h'.isPlain_mnemonic.notMem (by decide))
      i.opens_tail i'.opens_tail
  have hassign : ∀ {v : ValueId}, v ≠ 0 → ∀ body : String,
      renderAssign v body = renderValue v ++ (" = " ++ body) := by
    intro v hv body
    rw [renderAssign, if_neg hv, ← String.append_assoc]
    rfl
  rw [render_eq, render_eq] at hrender
  by_cases h0 : i.result = 0 <;> by_cases h0' : i'.result = 0
  · rw [renderAssign, renderAssign, if_pos h0, if_pos h0'] at hrender
    exact ⟨h0.trans h0'.symm, hbody hrender⟩
  · rw [hassign h0', renderAssign, if_pos h0] at hrender
    exact absurd hrender (h.body_ne _ _)
  · rw [hassign h0, renderAssign, if_pos h0'] at hrender
    exact absurd hrender.symm (h'.body_ne _ _)
  · rw [hassign h0, hassign h0'] at hrender
    obtain ⟨hvalue, hrest⟩ := cut ' ' (notMem_renderValue (by decide) _)
      (notMem_renderValue (by decide) _) (opens_append (by rfl) _) (opens_append (by rfl) _)
      hrender
    exact ⟨renderValue_inj hvalue, hbody (String.append_right_inj _ |>.1 hrest)⟩

/-- Two instructions of one form. -/
inductive SameForm : Instr → Instr → Prop
  | const (c c' : Const) : SameForm (.const c) (.const c')
  | binary (b b' : Binary) : SameForm (.binary b) (.binary b')
  | compare (c c' : Compare) : SameForm (.compare c) (.compare c')
  | cast (c c' : Cast) : SameForm (.cast c) (.cast c')
  | alloca (a a' : Alloca) : SameForm (.alloca a) (.alloca a')
  | load (l l' : Load) : SameForm (.load l) (.load l')
  | store (s s' : Store) : SameForm (.store s) (.store s')
  | call (c c' : Call) : SameForm (.call c) (.call c')
  | phi (p p' : Phi) : SameForm (.phi p) (.phi p')
  | nop : SameForm .nop .nop
  | hole : SameForm .hole .hole

theorem sameForm_of_mnemonic {i i' : Instr} (h : i.Legible) (h' : i'.Legible)
    (hm : i.mnemonic = i'.mnemonic) : SameForm i i' := by
  have hother : ∀ {b : Binary} {i : Instr}, (Instr.binary b).Legible → b.op.name = i.mnemonic →
      ∃ b', i = .binary b' := by
    intro b i hb hm
    rcases i.mnemonic_mem with hmem | h
    · exact absurd (hm ▸ hmem) hb.2.1
    · exact h
  by_cases hb : ∃ b, i = .binary b
  · obtain ⟨b, rfl⟩ := hb
    obtain ⟨b', rfl⟩ := hother h hm
    exact .binary b b'
  by_cases hb' : ∃ b, i' = .binary b
  · obtain ⟨b', rfl⟩ := hb'
    obtain ⟨b, rfl⟩ := hother h' hm.symm
    exact .binary b b'
  cases i with
  | binary b => exact absurd ⟨b, rfl⟩ hb
  | _ =>
    cases i' with
    | binary b' => exact absurd ⟨b', rfl⟩ hb'
    | _ => simp only [mnemonic, String.reduceEq] at hm <;> constructor

/-! ### The words after it -/

theorem words_inj {ps qs : List String} (hps : ∀ p ∈ ps, ' ' ∉ p.toList)
    (hqs : ∀ q ∈ qs, ' ' ∉ q.toList) (h : led " " ps = led " " qs) : ps = qs :=
  led_inj (by rfl) hps hqs h

theorem blank_notMem_renderValue (v : ValueId) : ' ' ∉ (renderValue v).toList :=
  notMem_renderValue (by decide) v

theorem comma_inj {v v' : ValueId} (h : renderValue v ++ "," = renderValue v' ++ ",") : v = v' :=
  renderValue_inj (String.append_left_inj _ |>.1 h)

theorem const_of_tail {c c' : Const} (hc : (const c).Legible) (hc' : (const c').Legible)
    (h : (const c).tail = (const c').tail) :
    typeName c.ty = typeName c'.ty ∧ c.literal = c'.literal := by
  obtain ⟨hty, hrest⟩ := cut ' ' (hc.1.notMem (by decide)) (hc'.1.notMem (by decide))
    (opens_append (by rfl) _) (opens_append (by rfl) _) (String.append_right_inj _ |>.1 h)
  exact ⟨hty, String.append_right_inj _ |>.1 hrest⟩

theorem binary_of_tail {b b' : Binary} (hb : (binary b).Legible) (hb' : (binary b').Legible)
    (h : (binary b).tail = (binary b').tail) :
    typeName b.ty = typeName b'.ty ∧ b.left = b'.left ∧ b.right = b'.right := by
  have hty : ' ' ∉ (typeName b.ty).toList := hb.2.2.notMem (by decide)
  have hty' : ' ' ∉ (typeName b'.ty).toList := hb'.2.2.notMem (by decide)
  have hwords := words_inj (by simp [hty, blank_notMem_renderValue])
    (by simp [hty', blank_notMem_renderValue]) h
  simp only [List.cons.injEq, and_true] at hwords
  exact ⟨hwords.1, comma_inj hwords.2.1, renderValue_inj hwords.2.2⟩

theorem compare_of_tail {c c' : Compare} (hc : (compare c).Legible) (hc' : (compare c').Legible)
    (h : (compare c).tail = (compare c').tail) :
    c.pred = c'.pred ∧ c.left = c'.left ∧ c.right = c'.right := by
  have hpred : ' ' ∉ c.pred.name.toList := IsPlain.notMem hc (by decide)
  have hpred' : ' ' ∉ c'.pred.name.toList := IsPlain.notMem hc' (by decide)
  have hwords := words_inj (by simp [hpred, blank_notMem_renderValue])
    (by simp [hpred', blank_notMem_renderValue]) h
  simp only [List.cons.injEq, and_true] at hwords
  refine ⟨?_, comma_inj hwords.2.1, renderValue_inj hwords.2.2⟩
  rw [← c.pred.ofName_name, hwords.1, c'.pred.ofName_name]

theorem cast_of_tail {c c' : Cast} (hc : (cast c).Legible) (hc' : (cast c').Legible)
    (h : (cast c).tail = (cast c').tail) :
    typeName c.ty = typeName c'.ty ∧ c.operand = c'.operand := by
  have hty : ' ' ∉ (typeName c.ty).toList := IsPlain.notMem hc (by decide)
  have hty' : ' ' ∉ (typeName c'.ty).toList := IsPlain.notMem hc' (by decide)
  have hwords := words_inj (by simp [hty, blank_notMem_renderValue])
    (by simp [hty', blank_notMem_renderValue]) h
  simp only [List.cons.injEq, and_true] at hwords
  exact ⟨hwords.1, renderValue_inj hwords.2⟩

theorem alloca_of_tail {a a' : Alloca} (ha : (alloca a).Legible) (ha' : (alloca a').Legible)
    (h : (alloca a).tail = (alloca a').tail) : typeName a.elem = typeName a'.elem := by
  have hty : ' ' ∉ (typeName a.elem).toList := IsPlain.notMem ha (by decide)
  have hty' : ' ' ∉ (typeName a'.elem).toList := IsPlain.notMem ha' (by decide)
  simpa using words_inj (by simpa using hty) (by simpa using hty') h

theorem blank_notMem_accessWords {volatile unchecked : Bool} :
    ∀ w ∈ accessWords volatile unchecked, ' ' ∉ w.toList := by
  cases volatile <;> cases unchecked <;> decide

theorem accessWords_inj : ∀ {v u v' u' : Bool}, accessWords v u = accessWords v' u' →
    v = v' ∧ u = u' := by decide

theorem load_of_tail {l l' : Load} (hl : (load l).Legible) (hl' : (load l').Legible)
    (h : (load l).tail = (load l').tail) :
    l.volatile = l'.volatile ∧ l.unchecked = l'.unchecked ∧ typeName l.ty = typeName l'.ty ∧
      l.addr = l'.addr := by
  have hty : ' ' ∉ (typeName l.ty).toList := IsPlain.notMem hl (by decide)
  have hty' : ' ' ∉ (typeName l'.ty).toList := IsPlain.notMem hl' (by decide)
  have hwords := words_inj
    (List.forall_mem_append.2 ⟨blank_notMem_accessWords, by simp [hty, blank_notMem_renderValue]⟩)
    (List.forall_mem_append.2 ⟨blank_notMem_accessWords, by simp [hty', blank_notMem_renderValue]⟩)
    h
  obtain ⟨haccess, hrest⟩ := List.append_inj' hwords rfl
  obtain ⟨hvolatile, hunchecked⟩ := accessWords_inj haccess
  simp only [List.cons.injEq, and_true] at hrest
  exact ⟨hvolatile, hunchecked, hrest.1, renderValue_inj hrest.2⟩

theorem store_of_tail {s s' : Store} (h : (store s).tail = (store s').tail) : s = s' := by
  have hblank : ∀ s : Store, ∀ w ∈ accessWords s.volatile s.unchecked ++
      [renderValue s.addr ++ ",", renderValue s.value], ' ' ∉ w.toList := fun s =>
    List.forall_mem_append.2 ⟨blank_notMem_accessWords, by simp [blank_notMem_renderValue]⟩
  have hwords := words_inj (hblank s) (hblank s') h
  obtain ⟨haccess, hrest⟩ := List.append_inj' hwords rfl
  obtain ⟨hvolatile, hunchecked⟩ := accessWords_inj haccess
  simp only [List.cons.injEq, and_true] at hrest
  obtain ⟨addr, value, volatile, unchecked⟩ := s
  obtain ⟨addr', value', volatile', unchecked'⟩ := s'
  obtain rfl : addr = addr' := comma_inj hrest.1
  obtain rfl : value = value' := renderValue_inj hrest.2
  obtain rfl : volatile = volatile' := hvolatile
  obtain rfl : unchecked = unchecked' := hunchecked
  rfl

theorem callWords_inj {c c' : Call} (hc : c.effect.isListed = true)
    (hc' : c'.effect.isListed = true) (h : callWords c = callWords c') :
    c.effect = c'.effect ∧ c.unchecked = c'.unchecked := by
  obtain ⟨_, _, _, _, effect, unchecked⟩ := c
  obtain ⟨_, _, _, _, effect', unchecked'⟩ := c'
  cases effect <;> cases effect' <;> cases unchecked <;> cases unchecked' <;>
    simp_all [callWords, Effect.name, Effect.isListed]

theorem blank_notMem_callWords {c : Call} (hc : (call c).Legible) :
    ∀ w ∈ callWords c ++ [c.target], ' ' ∉ w.toList ∧ '(' ∉ w.toList := by
  have heffect : ' ' ∉ c.effect.name.toList ∧ '(' ∉ c.effect.name.toList := by
    cases c.effect <;> simp [Effect.name]
  have htarget : ' ' ∉ c.target.toList ∧ '(' ∉ c.target.toList :=
    ⟨hc.1.notMem (by decide), hc.1.notMem (by decide)⟩
  unfold callWords
  split <;> split <;> simp [heffect, htarget]

theorem renderValue_ne_empty (v : ValueId) : renderValue v ≠ "" := by
  unfold renderValue
  split <;> simp [toString_text, ← String.toList_inj]

theorem args_inj {vs vs' : List ValueId}
    (h : commaSeparated (vs.map renderValue) = commaSeparated (vs'.map renderValue)) :
    vs = vs' := by
  have hparts : ∀ vs : List ValueId, ∀ p ∈ vs.map renderValue, p ≠ "" ∧ ',' ∉ p.toList := by
    intro vs p hp
    obtain ⟨v, -, rfl⟩ := List.mem_map.1 hp
    exact ⟨renderValue_ne_empty v, notMem_renderValue (by decide) v⟩
  exact List.map_injective_iff.2 (fun _ _ => renderValue_inj)
    (commaSeparated_inj (hparts vs) (hparts vs') h)

theorem call_of_tail {c c' : Call} (hc : (call c).Legible) (hc' : (call c').Legible)
    (h : (call c).tail = (call c').tail) :
    callWords c = callWords c' ∧ c.target = c'.target ∧ c.args = c'.args ∧
      typeName c.ty = typeName c'.ty := by
  have hblank := blank_notMem_callWords hc
  have hblank' := blank_notMem_callWords hc'
  have hparen : ∀ vs : List ValueId, ')' ∉ (commaSeparated (vs.map renderValue)).toList := by
    intro vs
    refine notMem_commaSeparated (by decide) fun p hp => ?_
    obtain ⟨v, -, rfl⟩ := List.mem_map.1 hp
    exact notMem_renderValue (by decide) v
  obtain ⟨hfront, hrest⟩ := cut '(' (notMem_led (by decide) fun w hw => (hblank w hw).2)
    (notMem_led (by decide) fun w hw => (hblank' w hw).2) (opens_append (by rfl) _)
    (opens_append (by rfl) _) h
  have hwords := words_inj (fun w hw => (hblank w hw).1) (fun w hw => (hblank' w hw).1) hfront
  obtain ⟨hflags, htarget⟩ := List.append_inj' hwords rfl
  obtain ⟨hargs, hty⟩ := cut ')' (hparen _) (hparen _) (opens_append (by rfl) _)
    (opens_append (by rfl) _) (String.append_right_inj _ |>.1 hrest)
  exact ⟨hflags, List.cons.inj htarget |>.1, args_inj hargs, String.append_right_inj _ |>.1 hty⟩

theorem incomingText_inj {e e' : Incoming} (h : incomingText e = incomingText e') : e = e' := by
  obtain ⟨hpred, hrest⟩ := cut ':' (notMem_renderBlockId (by decide) _)
    (notMem_renderBlockId (by decide) _) (opens_append (by rfl) _) (opens_append (by rfl) _) h
  obtain ⟨pred, value⟩ := e
  obtain ⟨pred', value'⟩ := e'
  obtain rfl : pred = pred' := renderBlockId_inj hpred
  obtain rfl : value = value' := renderValue_inj (String.append_right_inj _ |>.1 hrest)
  rfl

theorem phi_of_tail {p p' : Phi} (hp : (phi p).Legible) (hp' : (phi p').Legible)
    (h : (phi p).tail = (phi p').tail) :
    typeName p.ty = typeName p'.ty ∧ p.incoming = p'.incoming := by
  have hparts : ∀ es : List Incoming, ∀ t ∈ es.map incomingText, t ≠ "" ∧ ',' ∉ t.toList := by
    intro es t ht
    obtain ⟨e, -, rfl⟩ := List.mem_map.1 ht
    refine ⟨fun hempty => ?_, ?_⟩
    · exact renderValue_ne_empty e.value
        (String.append_eq_empty_iff.1 (String.append_eq_empty_iff.1 hempty).2).2
    · simp [incomingText, notMem_renderValue, notMem_renderBlockId, isNumberChar]
  obtain ⟨hty, hrest⟩ := cut ' ' (IsPlain.notMem hp (by decide)) (IsPlain.notMem hp' (by decide))
    (opens_append (by rfl) _) (opens_append (by rfl) _) (String.append_right_inj _ |>.1 h)
  have hentries := String.append_left_inj _ |>.1 (String.append_right_inj _ |>.1 hrest)
  exact ⟨hty, List.map_injective_iff.2 (fun _ _ => incomingText_inj)
    (commaSeparated_inj (hparts _) (hparts _) hentries)⟩

/-! ### All of it -/

/-- The type of a comparison, which is not printed. -/
def comparisonType? : Instr → Option (Option Ty)
  | compare c => some c.ty
  | _ => none

/-- Two instructions of which at most the types of comparisons differ in the canonical form. -/
structure Matches (i i' : Instr) : Prop where
  isSome_eq : i.comparisonType?.isSome = i'.comparisonType?.isSome
  canonical_eq : i.comparisonType? = i'.comparisonType? → i.canonical = i'.canonical

theorem Matches.of_canonical {i i' : Instr} (h : i.canonical = i'.canonical) : Matches i i' := by
  have htype : ∀ i : Instr, i.canonical.comparisonType? = i.comparisonType? := by
    intro i
    cases i <;> rfl
  exact ⟨by rw [← htype i, h, htype i'], fun _ => h⟩

/-- The rules say where there is a type, the text which one it is. -/
theorem type_of_typed {i i' : Instr} (hi : i.Typed) (hi' : i'.Typed) (hcall : i.isCall = false)
    (hcall' : i'.isCall = false) (hresult : i.result = i'.result)
    (hty : typeName i.resultType = typeName i'.resultType) : i.resultType = i'.resultType := by
  have hnone : ∀ {i : Instr}, i.Typed → i.isCall = false → (i.resultType = none ↔ i.result = 0) :=
    fun hi hcall => ⟨fun h => by_contra fun h0 => hi.type_ne_none h0 h,
      fun h0 => by_contra fun h => hi.result_ne_zero h hcall h0⟩
  exact type_of_typeName hty ((hnone hi hcall).trans (hresult ▸ (hnone hi' hcall').symm))

theorem call_canonical_eq {c c' : Call} (hc : (call c).Typed) (hc' : (call c').Typed)
    (hresult : c.result = c'.result) (htarget : c.target = c'.target) (hargs : c.args = c'.args)
    (hty : typeName c.ty = typeName c'.ty) (hflags : callWords c = callWords c') :
    c.canonical = c'.canonical := by
  obtain ⟨heffect, hunchecked⟩ :=
    callWords_inj (hc.effect_listed c rfl) (hc'.effect_listed c' rfl) hflags
  have hsome : c.result ≠ 0 → c.ty = c'.ty := by
    intro h0
    have h0' : c'.result ≠ 0 := hresult ▸ h0
    exact type_of_typeName hty (iff_of_false (hc.type_ne_none h0) (hc'.type_ne_none h0'))
  obtain ⟨result, target, args, ty, effect, unchecked⟩ := c
  obtain ⟨result', target', args', ty', effect', unchecked'⟩ := c'
  dsimp only at *
  subst hresult htarget hargs heffect hunchecked
  unfold Call.canonical
  split
  · rw [printedType_of_typeName hty]
  · next h0 => rw [hsome h0]

/-- **The line of an instruction** says all of its canonical form but the type of a comparison. -/
theorem matches_of_render {i i' : Instr} (hi : i.Legible) (hi' : i'.Legible) (ht : i.Typed)
    (ht' : i'.Typed) (h : i.render = i'.render) : Matches i i' := by
  obtain ⟨hresult, hm, htail⟩ := parts_of_render hi hi' h
  have htype := fun hcall hcall' hty => type_of_typed ht ht' hcall hcall' hresult hty
  cases sameForm_of_mnemonic hi hi' hm with
  | const c c' =>
    obtain ⟨hty, hliteral⟩ := const_of_tail hi hi' htail
    obtain ⟨result, ty, literal⟩ := c
    obtain ⟨result', ty', literal'⟩ := c'
    obtain rfl : ty = ty' := htype rfl rfl hty
    obtain rfl : result = result' := hresult
    obtain rfl : literal = literal' := hliteral
    exact .of_canonical rfl
  | binary b b' =>
    obtain ⟨hty, hleft, hright⟩ := binary_of_tail hi hi' htail
    obtain ⟨result, op, left, right, ty⟩ := b
    obtain ⟨result', op', left', right', ty'⟩ := b'
    obtain rfl : ty = ty' := htype rfl rfl hty
    obtain rfl : result = result' := hresult
    obtain rfl : op = op' := by rw [← op.ofName_name, ← op'.ofName_name]; exact congrArg _ hm
    obtain rfl : left = left' := hleft
    obtain rfl : right = right' := hright
    exact .of_canonical rfl
  | compare c c' =>
    obtain ⟨hpred, hleft, hright⟩ := compare_of_tail hi hi' htail
    obtain ⟨result, pred, left, right, ty⟩ := c
    obtain ⟨result', pred', left', right', ty'⟩ := c'
    obtain rfl : result = result' := hresult
    obtain rfl : pred = pred' := hpred
    obtain rfl : left = left' := hleft
    obtain rfl : right = right' := hright
    exact ⟨rfl, fun hty => by rw [show ty = ty' from Option.some.inj hty]⟩
  | cast c c' =>
    obtain ⟨hty, hoperand⟩ := cast_of_tail hi hi' htail
    obtain ⟨result, operand, ty⟩ := c
    obtain ⟨result', operand', ty'⟩ := c'
    obtain rfl : ty = ty' := htype rfl rfl hty
    obtain rfl : result = result' := hresult
    obtain rfl : operand = operand' := hoperand
    exact .of_canonical rfl
  | alloca a a' =>
    have hty := alloca_of_tail hi hi' htail
    obtain ⟨result, elem⟩ := a
    obtain ⟨result', elem'⟩ := a'
    obtain rfl : result = result' := hresult
    refine .of_canonical ?_
    simp only [canonical, printedType_of_typeName hty]
  | load l l' =>
    obtain ⟨hvolatile, hunchecked, hty, haddr⟩ := load_of_tail hi hi' htail
    obtain ⟨result, addr, ty, volatile, unchecked⟩ := l
    obtain ⟨result', addr', ty', volatile', unchecked'⟩ := l'
    obtain rfl : ty = ty' := htype rfl rfl hty
    obtain rfl : result = result' := hresult
    obtain rfl : addr = addr' := haddr
    obtain rfl : volatile = volatile' := hvolatile
    obtain rfl : unchecked = unchecked' := hunchecked
    exact .of_canonical rfl
  | store s s' =>
    rw [store_of_tail htail]
    exact .of_canonical rfl
  | call c c' =>
    obtain ⟨hflags, htarget, hargs, hty⟩ := call_of_tail hi hi' htail
    exact .of_canonical
      (congrArg Instr.call (call_canonical_eq ht ht' hresult htarget hargs hty hflags))
  | phi p p' =>
    obtain ⟨hty, hincoming⟩ := phi_of_tail hi hi' htail
    obtain ⟨result, ty, incoming⟩ := p
    obtain ⟨result', ty', incoming'⟩ := p'
    obtain rfl : ty = ty' := htype rfl rfl hty
    obtain rfl : result = result' := hresult
    obtain rfl : incoming = incoming' := hincoming
    exact .of_canonical rfl
  | nop => exact .of_canonical rfl
  | hole => exact .of_canonical rfl

theorem Legible.newline_notMem_tail {i : Instr} (h : i.Legible) : '\n' ∉ i.tail.toList := by
  have hvalue : ∀ v : ValueId, '\n' ∉ (renderValue v).toList := notMem_renderValue (by decide)
  have hblock : ∀ b : BlockId, '\n' ∉ (renderBlockId b).toList := notMem_renderBlockId (by decide)
  have haccess : ∀ {v u : Bool}, ∀ w ∈ accessWords v u, '\n' ∉ w.toList := by decide
  have hplain : ∀ {s : String}, IsPlain s → '\n' ∉ s.toList := fun hs => hs.notMem (by decide)
  cases i with
  | const c => simp [tail, hplain h.1, h.2]
  | binary b => exact notMem_led (by decide) (by simp [hplain h.2.2, hvalue])
  | compare c => exact notMem_led (by decide) (by simp [hplain h, hvalue])
  | cast c => exact notMem_led (by decide) (by simp [hplain h, hvalue])
  | alloca a => exact notMem_led (by decide) (by simpa using hplain h)
  | load l =>
    exact notMem_led (by decide)
      (List.forall_mem_append.2 ⟨haccess, by simp [hplain h, hvalue]⟩)
  | store s =>
    exact notMem_led (by decide) (List.forall_mem_append.2 ⟨haccess, by simp [hvalue]⟩)
  | call c =>
    have hflags : ∀ w ∈ callWords c ++ [c.target], '\n' ∉ w.toList := by
      have heffect : '\n' ∉ c.effect.name.toList := by cases c.effect <;> simp [Effect.name]
      unfold callWords
      split <;> split <;> simp [heffect, hplain h.1]
    have hargs : '\n' ∉ (commaSeparated (c.args.map renderValue)).toList := by
      refine notMem_commaSeparated (by decide) fun p hp => ?_
      obtain ⟨v, -, rfl⟩ := List.mem_map.1 hp
      exact hvalue v
    have hwords : '\n' ∉ (led " " (callWords c ++ [c.target])).toList :=
      notMem_led (by decide) hflags
    simp [tail, hwords, hargs, hplain h.2]
  | phi p =>
    have hentries : '\n' ∉ (commaSeparated (p.incoming.map incomingText)).toList := by
      refine notMem_commaSeparated (by decide) fun t ht => ?_
      obtain ⟨e, -, rfl⟩ := List.mem_map.1 ht
      simp [incomingText, hvalue, hblock]
    simp [tail, hplain h, hentries]
  | nop => simp [tail]
  | hole => simp [tail]

theorem Legible.newline_notMem_render {i : Instr} (h : i.Legible) : '\n' ∉ i.render.toList := by
  have hbody : '\n' ∉ (i.mnemonic ++ i.tail).toList := by
    simp [h.isPlain_mnemonic.notMem (show '\n' ∈ separators by decide), h.newline_notMem_tail]
  rw [render_eq]
  unfold renderAssign
  split
  · exact hbody
  · simpa [toString_text, notMem_renderValue (show isNumberChar '\n' = false by decide)] using hbody

end Instr

/-! ## Terminators -/

namespace Term

/-- The word that a terminator starts with. -/
def mnemonic : Term → String
  | ret _ _ => "ret"
  | br _ => "br"
  | brIf _ _ _ => "br_if"
  | unreachable => "unreachable"

/-- The words that follow. -/
def words : Term → List String
  | ret v true => [renderValue v]
  | br t => [renderBlockId t]
  | brIf c t e => [renderValue c ++ ",", renderBlockId t ++ ",", renderBlockId e]
  | _ => []

theorem render_eq (t : Term) : t.render = t.mnemonic ++ led " " t.words := by
  rcases t with ⟨v, _ | _⟩ | _ | _ | _
  · rfl
  · refine String.toList_inj.1 ?_
    simp [render, mnemonic, words, led, toString_text]
  · refine String.toList_inj.1 ?_
    simp [render, mnemonic, words, led, toString_text]
  · refine String.toList_inj.1 ?_
    simp [render, mnemonic, words, led, toString_text]
  · rfl

theorem notMem_words {c : Char} (hc : isNumberChar c = false) (hcomma : c ≠ ',') (t : Term) :
    ∀ w ∈ t.words, c ∉ w.toList := by
  rcases t with ⟨v, _ | _⟩ | _ | _ | _ <;>
    simp [words, notMem_renderValue hc, notMem_renderBlockId hc, hcomma]

/-- **The line of a terminator** says all of its canonical form. -/
theorem canonical_of_render {t t' : Term} (h : t.render = t'.render) :
    t.canonical = t'.canonical := by
  have hblank : ∀ t : Term, ' ' ∉ t.mnemonic.toList := by
    intro t
    cases t <;> simp [mnemonic]
  rw [render_eq, render_eq] at h
  obtain ⟨hm, hwords⟩ := cut ' ' (hblank t) (hblank t') (opens_led (by rfl) _)
    (opens_led (by rfl) _) h
  have hwords := Instr.words_inj (notMem_words (by decide) (by decide) t)
    (notMem_words (by decide) (by decide) t') hwords
  rcases t with ⟨v, _ | _⟩ | b | ⟨c, b, e⟩ | _ <;>
    rcases t' with ⟨v', _ | _⟩ | b' | ⟨c', b', e'⟩ | _ <;>
    simp_all [mnemonic, words, canonical]
  · exact renderValue_inj hwords
  · exact renderBlockId_inj hwords
  · exact ⟨renderValue_inj hwords.1, renderBlockId_inj hwords.2.1, renderBlockId_inj hwords.2.2⟩

theorem newline_notMem_render (t : Term) : '\n' ∉ t.render.toList := by
  have hm : '\n' ∉ t.mnemonic.toList := by cases t <;> simp [mnemonic]
  have hwords : '\n' ∉ (led " " t.words).toList :=
    notMem_led (by decide) (notMem_words (by decide) (by decide) t)
  rw [render_eq]
  simp [hm, hwords]

end Term

/-! ## First lines -/

namespace Block

/-- The name of a block, if it has one. -/
def nameWords (b : Block) : List String := if b.name = "" then [] else [b.name]

/-- The mark of the entry. -/
def entryWords (isEntry : Bool) : List String := if isEntry then ["(entry)"] else []

/-- The handler of a block, if it has one. -/
def handlerWords (b : Block) : List String :=
  if b.handler = 0 then [] else ["handler", renderBlockId b.handler]

/-- The words after the number of a block. -/
def headWords (isEntry : Bool) (b : Block) : List String :=
  b.nameWords ++ (entryWords isEntry ++ b.handlerWords)

/-- The first line of a block. -/
def headLine (isEntry : Bool) (b : Block) : String :=
  "  block " ++ (renderBlockId b.id ++ led " " (b.headWords isEntry) ++ ":")

variable {b b' : Block} {isEntry isEntry' : Bool}

theorem notMem_headWords {c : Char} (hc : c = ' ' ∨ c = '\n') (hb : IsPlain b.name) :
    ∀ w ∈ b.headWords isEntry, c ∉ w.toList := by
  have hsep : c ∈ separators ∧ isNumberChar c = false := by
    rcases hc with rfl | rfl <;> decide
  have hword : ∀ w ∈ ["(entry)", "handler"], c ∉ w.toList := by
    rcases hc with rfl | rfl <;> decide
  intro w hw
  simp only [headWords, nameWords, entryWords, handlerWords, List.mem_append] at hw
  rcases hw with hw | hw | hw <;> split at hw
  · cases hw
  · rw [List.mem_singleton.1 hw]
    exact hb.notMem hsep.1
  · rw [List.mem_singleton.1 hw]
    exact hword _ (by simp)
  · cases hw
  · cases hw
  · rcases List.mem_pair.1 hw with rfl | rfl
    · exact hword _ (by simp)
    · exact notMem_renderBlockId hsep.2 _

/-- Neither a name nor a handler looks like the mark of the entry. -/
theorem mark_mem_headWords_iff (hb : IsPlain b.name) :
    "(entry)" ∈ b.headWords isEntry ↔ isEntry = true := by
  have hname : "(entry)" ∉ b.nameWords := by
    unfold nameWords
    split
    · simp
    · rw [List.mem_singleton]
      intro h
      exact absurd (h ▸ hb) (by decide)
  have hhandler : "(entry)" ∉ b.handlerWords := by
    unfold handlerWords
    split
    · simp
    · have hne : "(entry)" ≠ renderBlockId b.handler := fun h =>
        notMem_renderBlockId (show isNumberChar '(' = false by decide) b.handler
          (by rw [← h]; decide)
      simp [hne]
  cases isEntry <;> simp [headWords, entryWords, hname, hhandler]

theorem nameWords_inj (h : b.nameWords = b'.nameWords) : b.name = b'.name := by
  unfold nameWords at h
  split at h <;> split at h <;> simp_all

theorem handlerWords_inj (h : b.handlerWords = b'.handlerWords) : b.handler = b'.handler := by
  unfold handlerWords at h
  split at h <;> split at h
  · simp_all
  · cases h
  · cases h
  · exact renderBlockId_inj (by simpa using h)

theorem headWords_inj (hb : IsPlain b.name) (hb' : IsPlain b'.name)
    (h : b.headWords isEntry = b'.headWords isEntry') :
    b.name = b'.name ∧ isEntry = isEntry' ∧ b.handler = b'.handler := by
  have hentry : isEntry = isEntry' := by
    rw [Bool.eq_iff_iff, ← mark_mem_headWords_iff hb, h, mark_mem_headWords_iff hb']
  subst hentry
  -- a name is at most one word and a handler none or two, so their sum says how many each has
  have hone : ∀ b : Block, b.nameWords.length ≤ 1 := by
    intro b
    unfold nameWords
    split <;> simp
  have htwo : ∀ b : Block, b.handlerWords.length = 0 ∨ b.handlerWords.length = 2 := by
    intro b
    unfold handlerWords
    split <;> simp
  have hlength := congrArg List.length h
  simp only [headWords, List.length_append] at hlength
  have hsame : b.nameWords.length = b'.nameWords.length := by
    have h₁ := hone b
    have h₂ := hone b'
    rcases htwo b with h₃ | h₃ <;> rcases htwo b' with h₄ | h₄ <;> omega
  obtain ⟨hname, hrest⟩ := List.append_inj h hsame
  exact ⟨nameWords_inj hname, rfl, handlerWords_inj (List.append_cancel_left hrest)⟩

/-- **The first line of a block** says which block it is. -/
theorem headLine_inj (hb : IsPlain b.name) (hb' : IsPlain b'.name)
    (h : b.headLine isEntry = b'.headLine isEntry') :
    b.id = b'.id ∧ b.name = b'.name ∧ isEntry = isEntry' ∧ b.handler = b'.handler := by
  have hline := String.append_left_inj _ |>.1 (String.append_right_inj _ |>.1 h)
  obtain ⟨hid, hwords⟩ := cut ' ' (notMem_renderBlockId (by decide) _)
    (notMem_renderBlockId (by decide) _) (opens_led (by rfl) _) (opens_led (by rfl) _) hline
  exact ⟨renderBlockId_inj hid, headWords_inj hb hb'
    (Instr.words_inj (notMem_headWords (Or.inl rfl) hb) (notMem_headWords (Or.inl rfl) hb') hwords)⟩

theorem newline_notMem_headLine (hb : IsPlain b.name) : '\n' ∉ (b.headLine isEntry).toList := by
  have hwords : '\n' ∉ (led " " (b.headWords isEntry)).toList :=
    notMem_led (by decide) (notMem_headWords (Or.inr rfl) hb)
  have hid : '\n' ∉ (renderBlockId b.id).toList := notMem_renderBlockId (by decide) _
  simp [headLine, hwords, hid]

end Block

namespace Param

/-- A parameter as text. -/
def text (p : Param) : String :=
  renderValue p.id ++ (" " ++ (p.name ++ ":" ++ (" " ++ typeName p.ty)))

variable {p p' : Param}

theorem canonical_of_text (hp : p.Legible) (hp' : p'.Legible) (h : p.text = p'.text) :
    p.canonical = p'.canonical := by
  have hname : ∀ {p : Param}, p.Legible → ' ' ∉ (p.name ++ ":").toList := by
    intro p hp
    simp [hp.1.notMem (show ' ' ∈ separators by decide)]
  obtain ⟨hid, hrest⟩ := cut ' ' (notMem_renderValue (by decide) _)
    (notMem_renderValue (by decide) _) (opens_append (by rfl) _) (opens_append (by rfl) _) h
  obtain ⟨hnames, hty⟩ := cut ' ' (hname hp) (hname hp') (opens_append (by rfl) _)
    (opens_append (by rfl) _) (String.append_right_inj _ |>.1 hrest)
  obtain ⟨id, name, ty⟩ := p
  obtain ⟨id', name', ty'⟩ := p'
  obtain rfl : id = id' := renderValue_inj hid
  obtain rfl : name = name' := String.append_left_inj _ |>.1 hnames
  rw [canonical, canonical, printedType_of_typeName (String.append_right_inj _ |>.1 hty)]

theorem text_ne_empty (p : Param) : p.text ≠ "" := fun h =>
  Instr.renderValue_ne_empty p.id (String.append_eq_empty_iff.1 h).1

theorem Legible.notMem_text (hp : p.Legible) {c : Char} (hc : c ∈ separators)
    (hother : isNumberChar c = false ∧ c ≠ ' ' ∧ c ≠ ':') : c ∉ p.text.toList := by
  have hid : c ∉ (renderValue p.id).toList := notMem_renderValue hother.1 _
  simp [text, hid, hp.1.notMem hc, hp.2.notMem hc, hother.2.1, hother.2.2]

end Param

namespace Function

/-- The attributes of a function in brackets, if there are any. -/
def attributeText (fn : Function) : String :=
  if fn.renderAttributes = "" then "" else " [" ++ fn.renderAttributes ++ "]"

/-- The first line of a function. -/
def headLine (fn : Function) : String :=
  "fn " ++ (fn.name ++ ("(" ++ (commaSeparated (fn.params.map Param.text) ++
    (") -> " ++ (typeName fn.ret ++ (fn.attributeText ++ " \x7b"))))))

variable {fn fn' : Function}

theorem attributeText_inj (h : fn.attributeText = fn'.attributeText) :
    fn.mayThrow = fn'.mayThrow ∧ fn.unchecked = fn'.unchecked ∧ fn.critical = fn'.critical := by
  unfold attributeText renderAttributes at h
  cases hm : fn.mayThrow <;> cases hu : fn.unchecked <;> cases hc : fn.critical <;>
    cases hm' : fn'.mayThrow <;> cases hu' : fn'.unchecked <;> cases hc' : fn'.critical <;>
    rw [hm, hu, hc, hm', hu', hc'] at h <;> revert h <;> decide

/-- **The first line of a function** says all of its canonical form but its body, and whether it
returns nothing or `void`. -/
theorem headLine_inj (hfn : fn.Legible) (hfn' : fn'.Legible) (h : fn.headLine = fn'.headLine) :
    fn.name = fn'.name ∧ fn.params.map Param.canonical = fn'.params.map Param.canonical ∧
      fn.mayThrow = fn'.mayThrow ∧ fn.unchecked = fn'.unchecked ∧ fn.critical = fn'.critical := by
  have hparen : ∀ {fn : Function}, fn.Legible →
      ')' ∉ (commaSeparated (fn.params.map Param.text)).toList := by
    intro fn hfn
    refine notMem_commaSeparated (by decide) fun t ht => ?_
    obtain ⟨p, hp, rfl⟩ := List.mem_map.1 ht
    exact (hfn.2.2.1 p hp).notMem_text (by decide) (by decide)
  have hcomma : ∀ {fn : Function}, fn.Legible →
      ∀ t ∈ fn.params.map Param.text, t ≠ "" ∧ ',' ∉ t.toList := by
    intro fn hfn t ht
    obtain ⟨p, hp, rfl⟩ := List.mem_map.1 ht
    exact ⟨p.text_ne_empty, (hfn.2.2.1 p hp).notMem_text (by decide) (by decide)⟩
  have hopens : ∀ fn : Function, Opens ' ' (fn.attributeText ++ " \x7b") := by
    intro fn
    refine Opens.append ?_ (by simp [Opens])
    unfold attributeText
    split
    · exact opens_empty _
    · rw [String.append_assoc]
      exact opens_append (by rfl) _
  obtain ⟨hname, h⟩ := cut '(' (hfn.1.notMem (by decide)) (hfn'.1.notMem (by decide))
    (opens_append (by rfl) _) (opens_append (by rfl) _) (String.append_right_inj _ |>.1 h)
  obtain ⟨hparams, h⟩ := cut ')' (hparen hfn) (hparen hfn') (opens_append (by rfl) _)
    (opens_append (by rfl) _) (String.append_right_inj _ |>.1 h)
  obtain ⟨-, h⟩ := cut ' ' (hfn.2.1.notMem (by decide)) (hfn'.2.1.notMem (by decide))
    (hopens fn) (hopens fn') (String.append_right_inj _ |>.1 h)
  refine ⟨hname, ?_, attributeText_inj (String.append_left_inj _ |>.1 h)⟩
  have htexts := commaSeparated_inj (hcomma hfn) (hcomma hfn') hparams
  have hsame := forall₂_of_map (fun p hp p' hp' => Param.canonical_of_text (hfn.2.2.1 p hp)
    (hfn'.2.2.1 p' hp')) htexts
  exact (forall₂_map_eq hsame fun _ _ h => h.symm).symm

theorem newline_notMem_headLine (hfn : fn.Legible) : '\n' ∉ fn.headLine.toList := by
  have hparams : '\n' ∉ (commaSeparated (fn.params.map Param.text)).toList := by
    refine notMem_commaSeparated (by decide) fun t ht => ?_
    obtain ⟨p, hp, rfl⟩ := List.mem_map.1 ht
    exact (hfn.2.2.1 p hp).notMem_text (by decide) (by decide)
  have hattributes : '\n' ∉ fn.attributeText.toList := by
    unfold attributeText renderAttributes
    cases fn.mayThrow <;> cases fn.unchecked <;> cases fn.critical <;> decide
  have hplain : ∀ {s : String}, IsPlain s → '\n' ∉ s.toList := fun hs => hs.notMem (by decide)
  simp [headLine, hplain hfn.1, hparams, hplain hfn.2.1, hattributes]

end Function

end SsaOpt
