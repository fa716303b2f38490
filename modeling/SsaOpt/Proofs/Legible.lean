import SsaOpt.Proofs.CanonicalPasses
import SsaOpt.Proofs.PrintedLines

/-!
# Legible modules

The text of a module is a list of lines, in groups: a function starts after an empty line, and a
block with a line that is indented less than the others. So the text of a module that verifies and
whose names are legible says all of its canonical form, except for what `Module.unprinted` lists:
whether a function returns nothing or `void`, the counters of functions, and the types of
comparisons. This is `Module.canonical_of_render`.
-/

namespace SsaOpt

/-! ## Lines -/

namespace Block

/-- The lines of a block after the first. -/
def bodyLines (b : Block) : List String :=
  (b.instrs.map fun i => "    " ++ i.render) ++
    ["    " ++ (b.term.map Term.render).getD "term <nil>"]

theorem render_eq (isEntry : Bool) (b : Block) :
    b.render isEntry = unlines (b.headLine isEntry :: b.bodyLines) := by
  have hhead : "  block " ++ renderBlockId b.id ++ (if b.name = "" then "" else " " ++ b.name) ++
      (if isEntry then " (entry)" else "") ++
      (if b.handler = 0 then "" else " handler " ++ renderBlockId b.handler) ++ ":\n" =
        b.headLine isEntry ++ "\n" := by
    refine String.toList_inj.1 ?_
    cases isEntry <;> by_cases hn : b.name = "" <;> by_cases hh : b.handler = 0 <;>
      simp [headLine, headWords, nameWords, entryWords, handlerWords, led, hn, hh]
  have hbody : unlines (b.instrs.map fun i => "    " ++ i.render) =
      String.join (b.instrs.map fun i => s!"    {i.render}\n") := by
    rw [unlines, List.map_map]
    rfl
  rw [unlines_cons, bodyLines, unlines_append, hbody, unlines_cons, ← String.append_assoc,
    ← hhead]
  unfold render
  cases b.term <;> simp [unlines, String.append_assoc, toString_text]

end Block

namespace Function

/-- The lines of a function. -/
def lines (fn : Function) : List String :=
  fn.headLine ::
    ((fn.blocks.flatMap fun b => b.headLine (b.id = fn.entryId) :: b.bodyLines) ++ ["\x7d"])

theorem render_eq (fn : Function) : fn.render = unlines fn.lines := by
  have hblocks : ∀ bs : List Block,
      unlines (bs.flatMap fun b => b.headLine (b.id = fn.entryId) :: b.bodyLines) =
        String.join (bs.map fun b => b.render (b.id = fn.entryId)) := by
    intro bs
    induction bs with
    | nil => rfl
    | cons b bs ih =>
      rw [List.flatMap_cons, unlines_append, ← Block.render_eq, ih, List.map_cons,
        String.join_cons]
  have hparams : (fn.params.map fun p => s!"{renderValue p.id} {p.name}: {typeName p.ty}") =
      fn.params.map Param.text := by
    refine List.map_congr_left fun p _ => String.toList_inj.1 ?_
    simp [Param.text, toString_text]
  rw [lines, unlines_cons, unlines_append, hblocks]
  unfold render headLine attributeText
  dsimp only
  rw [hparams]
  refine String.toList_inj.1 ?_
  by_cases ha : fn.renderAttributes = "" <;> simp [unlines, toString_text, ha]

end Function

namespace Module

/-- The lines of a module. -/
def lines (m : Module) : List String :=
  ("module " ++ printedName m.name) :: m.functions.flatMap fun fn => "" :: fn.lines

theorem render_eq (m : Module) : m.render = unlines m.lines := by
  have hfunctions : ∀ fns : List Function, unlines (fns.flatMap fun fn => "" :: fn.lines) =
      String.join ((fns.map some).map fun slot => "\n" ++ (slot.map Function.render).getD "") := by
    intro fns
    induction fns with
    | nil => rfl
    | cons fn fns ih =>
      rw [List.flatMap_cons, unlines_append, unlines_cons, ← Function.render_eq, ih,
        List.map_cons, List.map_cons, String.join_cons]
      simp
  rw [lines, unlines_cons, hfunctions]
  unfold render renderSlots printedName
  refine String.toList_inj.1 ?_
  split <;> simp [toString_text]

end Module

/-! ## What is not printed -/

/-- What the text of a function leaves out and a pass may look at: whether it returns nothing or
`void`, its counters, and the types of its comparisons. -/
def Function.unprinted (fn : Function) : Option Ty × ValueId × BlockId × List (Option Ty) :=
  (fn.ret, fn.nextValue, fn.nextBlock, fn.instrs.filterMap Instr.comparisonType?)

/-- What the text of a module leaves out and a pass may look at. -/
def Module.unprinted (m : Module) : List (Option Ty × ValueId × BlockId × List (Option Ty)) :=
  m.functions.map Function.unprinted

/-! ## Blocks -/

namespace Block

/-- Two blocks of which at most the types of comparisons differ in the canonical form. -/
structure Matches (b b' : Block) : Prop where
  id_eq : b.id = b'.id
  name_eq : b.name = b'.name
  instrs : List.Forall₂ Instr.Matches b.instrs b'.instrs
  term_eq : b.term.map Term.canonical = b'.term.map Term.canonical
  handler_eq : b.handler = b'.handler

/-- The types of comparisons, of which there are equally many. -/
theorem length_comparisonTypes {is is' : List Instr} (h : List.Forall₂ Instr.Matches is is') :
    (is.filterMap Instr.comparisonType?).length = (is'.filterMap Instr.comparisonType?).length := by
  induction h with
  | nil => rfl
  | @cons i i' is is' hi _ ih =>
    have hsome := hi.isSome_eq
    cases hc : i.comparisonType? <;> cases hc' : i'.comparisonType? <;>
      simp_all

theorem instrs_canonical_eq {is is' : List Instr} (h : List.Forall₂ Instr.Matches is is')
    (htypes : is.filterMap Instr.comparisonType? = is'.filterMap Instr.comparisonType?) :
    is.map Instr.canonical = is'.map Instr.canonical := by
  induction h with
  | nil => rfl
  | @cons i i' is is' hi _ ih =>
    obtain ⟨htype, hrest⟩ : i.comparisonType? = i'.comparisonType? ∧
        is.filterMap Instr.comparisonType? = is'.filterMap Instr.comparisonType? := by
      have hsome := hi.isSome_eq
      cases hc : i.comparisonType? <;> cases hc' : i'.comparisonType? <;>
        simp_all
    rw [List.map_cons, List.map_cons, hi.canonical_eq htype, ih hrest]

theorem canonical_eq {bs bs' : List Block} (h : List.Forall₂ Matches bs bs')
    (htypes : (bs.flatMap instrs).filterMap Instr.comparisonType? =
      (bs'.flatMap instrs).filterMap Instr.comparisonType?) :
    bs.map canonical = bs'.map canonical := by
  induction h with
  | nil => rfl
  | @cons b b' bs bs' hb _ ih =>
    rw [List.flatMap_cons, List.flatMap_cons, List.filterMap_append, List.filterMap_append]
      at htypes
    obtain ⟨hfirst, hrest⟩ := List.append_inj htypes (length_comparisonTypes hb.instrs)
    have hinstrs := instrs_canonical_eq hb.instrs hfirst
    have hcanonical : b.canonical = b'.canonical := by
      rw [canonical, canonical, hb.id_eq, hb.name_eq, hinstrs, hb.term_eq, hb.handler_eq]
    rw [List.map_cons, List.map_cons, hcanonical, ih hrest]

variable {b b' : Block} {isEntry isEntry' : Bool}

/-- **The lines of a block** say all of its canonical form but the types of comparisons. -/
theorem matches_of_lines (hb : b.Legible) (hb' : b'.Legible) (htyped : ∀ i ∈ b.instrs, i.Typed)
    (htyped' : ∀ i ∈ b'.instrs, i.Typed) (hterm : b.term ≠ none) (hterm' : b'.term ≠ none)
    (hhead : b.headLine isEntry = b'.headLine isEntry') (hbody : b.bodyLines = b'.bodyLines) :
    b.Matches b' ∧ isEntry = isEntry' := by
  obtain ⟨hid, hname, hentry, hhandler⟩ := headLine_inj hb.1 hb'.1 hhead
  obtain ⟨hinstrs, hlast⟩ := List.append_inj' hbody rfl
  refine ⟨⟨hid, hname, ?_, ?_, hhandler⟩, hentry⟩
  · refine forall₂_of_map (fun i hi i' hi' h => ?_) hinstrs
    exact Instr.matches_of_render (hb.2 i hi) (hb'.2 i' hi') (htyped i hi) (htyped' i' hi')
      (String.append_right_inj _ |>.1 h)
  · obtain ⟨t, ht⟩ := Option.ne_none_iff_exists'.1 hterm
    obtain ⟨t', ht'⟩ := Option.ne_none_iff_exists'.1 hterm'
    rw [ht, ht'] at hlast ⊢
    have hrender := String.append_right_inj _ |>.1 (List.cons.inj hlast).1
    exact congrArg some (Term.canonical_of_render hrender)

end Block

/-! ## Functions -/

namespace Function

variable {fn fn' : Function}

/-- A function as it can stand in a module that verifies. -/
def Admitted (fn : Function) : Prop := fn.isExternal = false → fn.Sound

theorem Admitted.entryId_mem (h : fn.Admitted) (hbody : fn.isExternal = false) :
    fn.entryId ∈ fn.blockIds ∧ fn.explicitEntry = fn.entryId := by
  have hentry : fn.HasEntry := hasEntry_iff.2 ⟨hbody, (h hbody).shape.entry_mem⟩
  obtain ⟨e, he⟩ := Option.ne_none_iff_exists'.1 hentry
  have hid : fn.entryId = e.id := by rw [entryId, he]; rfl
  rw [hid, explicitEntry, hbody]
  unfold entryBlock? at he
  by_cases h0 : fn.entry = 0
  · rw [if_pos h0] at he
    exact ⟨mem_blockIds.2 ⟨e, List.mem_of_mem_head? he, rfl⟩, by simp [h0, firstId, he]⟩
  · rw [if_neg h0] at he
    obtain ⟨hmem, hid⟩ := mem_of_block? he
    exact ⟨mem_blockIds.2 ⟨e, hmem, rfl⟩, by simp [h0, hid]⟩

/-- The first line of a block is indented less than the others. -/
def isBlockHead (l : String) : Bool := l.toList[2]? = some 'b'

theorem isBlockHead_lines (isEntry : Bool) (b : Block) :
    isBlockHead (b.headLine isEntry) = true ∧ ∀ l ∈ b.bodyLines, isBlockHead l = false := by
  refine ⟨by simp [isBlockHead, Block.headLine], fun l hl => ?_⟩
  rcases List.mem_append.1 hl with hl | hl
  · obtain ⟨i, -, rfl⟩ := List.mem_map.1 hl
    simp [isBlockHead]
  · rw [List.mem_singleton.1 hl]
    simp [isBlockHead]

theorem blocks_of_lines (hfn : fn.Legible) (hfn' : fn'.Legible) (hadmitted : fn.Admitted)
    (hadmitted' : fn'.Admitted) (hlines : fn.lines = fn'.lines) :
    List.Forall₂ (fun b b' => b.Matches b' ∧
      decide (b.id = fn.entryId) = decide (b'.id = fn'.entryId)) fn.blocks fn'.blocks := by
  have hrest := (List.cons.inj hlines).2
  refine forall₂_of_groups isBlockHead (fun b _ => isBlockHead_lines _ b)
    (fun b _ => isBlockHead_lines _ b) (fun b hb b' hb' hhead hbody => ?_)
    (List.append_inj_left' hrest rfl)
  have hshape := (hadmitted (isExternal_of_mem hb)).shape
  have hshape' := (hadmitted' (isExternal_of_mem hb')).shape
  exact Block.matches_of_lines (hfn.2.2.2 b hb) (hfn'.2.2.2 b' hb')
    (fun i hi => hshape.typed i (mem_instrs.2 ⟨b, hb, hi⟩))
    (fun i hi => hshape'.typed i (mem_instrs.2 ⟨b', hb', hi⟩)) (hshape.has_term b hb)
    (hshape'.has_term b' hb') hhead hbody

/-- **The lines of a function** say all of its canonical form but what is not printed. -/
theorem canonical_of_lines (hfn : fn.Legible) (hfn' : fn'.Legible) (hadmitted : fn.Admitted)
    (hadmitted' : fn'.Admitted) (hlines : fn.lines = fn'.lines)
    (hunprinted : fn.unprinted = fn'.unprinted) : fn.canonical = fn'.canonical := by
  obtain ⟨hname, hparams, hthrow, hunchecked, hcritical⟩ :=
    headLine_inj hfn hfn' (List.cons.inj hlines).1
  have hmatches := blocks_of_lines hfn hfn' hadmitted hadmitted' hlines
  simp only [unprinted, Prod.mk.injEq] at hunprinted
  obtain ⟨hret, hvalue, hblock, htypes⟩ := hunprinted
  have hblocks : fn.blocks.map Block.canonical = fn'.blocks.map Block.canonical :=
    Block.canonical_eq (hmatches.imp fun _ _ h => h.1) htypes
  have hentry : fn.explicitEntry = fn'.explicitEntry := by
    have hexternal : fn.isExternal = fn'.isExternal := by
      rw [← isExternal_canonical, ← fn'.isExternal_canonical, isExternal, isExternal, canonical,
        hblocks]
      rfl
    cases hext' : fn'.isExternal with
    | true => rw [explicitEntry, explicitEntry, hexternal, hext', if_pos rfl, if_pos rfl]
    | false =>
      rw [(hadmitted.entryId_mem (hexternal.trans hext')).2, (hadmitted'.entryId_mem hext').2]
      obtain ⟨b', hb', hid'⟩ := mem_blockIds.1 (hadmitted'.entryId_mem hext').1
      obtain ⟨b, hb, hmatch, hmark⟩ := forall₂_exists_left hmatches hb'
      have hid : b.id = fn.entryId := by simpa [hid'] using hmark
      rw [← hid, ← hid', hmatch.id_eq]
  rw [canonical, canonical, hname, hparams, hret, hblocks, hentry, hthrow, hunchecked, hcritical,
    hvalue, hblock]

theorem newline_notMem_lines (hfn : fn.Legible) : ∀ l ∈ fn.lines, '\n' ∉ l.toList := by
  intro l hl
  rcases List.mem_cons.1 hl with rfl | hl
  · exact newline_notMem_headLine hfn
  rcases List.mem_append.1 hl with hl | hl
  · obtain ⟨b, hb, hl⟩ := List.mem_flatMap.1 hl
    have hlegible := hfn.2.2.2 b hb
    rcases List.mem_cons.1 hl with rfl | hl
    · exact Block.newline_notMem_headLine hlegible.1
    rcases List.mem_append.1 hl with hl | hl
    · obtain ⟨i, hi, rfl⟩ := List.mem_map.1 hl
      simpa using (hlegible.2 i hi).newline_notMem_render
    · rw [List.mem_singleton.1 hl]
      cases b.term with
      | none => simp
      | some t => simpa using t.newline_notMem_render
  · rw [List.mem_singleton.1 hl]
    simp

end Function

/-! ## Modules -/

namespace Module

variable {m m' : Module}

theorem newline_notMem_lines (hm : m.Legible) : ∀ l ∈ m.lines, '\n' ∉ l.toList := by
  intro l hl
  rcases List.mem_cons.1 hl with rfl | hl
  · unfold printedName
    split
    · simp
    · simpa using hm.1
  · obtain ⟨fn, hfn, hl⟩ := List.mem_flatMap.1 hl
    rcases List.mem_cons.1 hl with rfl | hl
    · simp
    · exact Function.newline_notMem_lines (hm.2 fn hfn) l hl

theorem ne_empty_of_mem_lines {fn : Function} : ∀ l ∈ fn.lines, l ≠ "" := by
  have hfront : ∀ {s t : String}, s ≠ "" → s ++ t ≠ "" := fun hs h =>
    hs (String.append_eq_empty_iff.1 h).1
  intro l hl
  rcases List.mem_cons.1 hl with rfl | hl
  · exact hfront (by decide)
  rcases List.mem_append.1 hl with hl | hl
  · obtain ⟨b, -, hl⟩ := List.mem_flatMap.1 hl
    rcases List.mem_cons.1 hl with rfl | hl
    · exact hfront (by decide)
    rcases List.mem_append.1 hl with hl | hl
    · obtain ⟨i, -, rfl⟩ := List.mem_map.1 hl
      exact hfront (by decide)
    · rw [List.mem_singleton.1 hl]
      exact hfront (by decide)
  · rw [List.mem_singleton.1 hl]
    decide

/-- **The text of a module** says all of its canonical form but what is not printed, if the module
verifies and its names are legible. -/
theorem canonical_of_render (hm : moduleErr? (some m) = none) (hm' : moduleErr? (some m') = none)
    (hlegible : m.Legible) (hlegible' : m'.Legible) (hrender : m.render = m'.render)
    (hunprinted : m.unprinted = m'.unprinted) : m.canonical = m'.canonical := by
  rw [render_eq, render_eq] at hrender
  have hlines :=
    unlines_inj (newline_notMem_lines hlegible) (newline_notMem_lines hlegible') hrender
  obtain ⟨hname, hfunctions⟩ := List.cons.inj hlines
  have hsame : List.Forall₂ (fun fn fn' : Function => fn.unprinted = fn'.unprinted →
      fn.canonical = fn'.canonical) m.functions m'.functions := by
    refine forall₂_of_groups (fun l => decide (l = ""))
      (fun fn _ => ⟨rfl, fun l hl => decide_eq_false (ne_empty_of_mem_lines l hl)⟩)
      (fun fn _ => ⟨rfl, fun l hl => decide_eq_false (ne_empty_of_mem_lines l hl)⟩)
      (fun fn hfn fn' hfn' _ hlines => ?_) hfunctions
    exact Function.canonical_of_lines (hlegible.2 fn hfn) (hlegible'.2 fn' hfn')
      ((verified_iff.1 hm).2 fn hfn) ((verified_iff.1 hm').2 fn' hfn') hlines
  have hcanonical : m.functions.map Function.canonical = m'.functions.map Function.canonical := by
    unfold unprinted at hunprinted
    generalize m.functions = fns at hsame hunprinted
    generalize m'.functions = fns' at hsame hunprinted
    induction hsame with
    | nil => rfl
    | cons hfn _ ih =>
      obtain ⟨hfirst, hrest⟩ := List.cons.inj hunprinted
      rw [List.map_cons, List.map_cons, hfn hfirst, ih hrest]
  rw [canonical, canonical, String.append_right_inj _ |>.1 hname, hcanonical]

end Module

end SsaOpt
