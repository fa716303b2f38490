import SsaOpt.Pass.Splice
import SsaOpt.Proofs.Counters
import SsaOpt.Proofs.WellFormed

/-!
# The numbers of a copy

The copy of a function asks the counters of another one for numbers: one for each block and, after
it, one for each value that the block defines (`requests`). `addBlocks_eq` is the renaming that is
made of these numbers. Where the counters are above the numbers in use and there are enough numbers
left (`Fits`), they are consecutive ones (`numbered`).
-/

namespace SsaOpt

/-- Consecutive numbers from `k` on for some keys. -/
def numbered (k : Nat) (ids : List UInt32) : List (UInt32 × UInt32) :=
  (ids.zipIdx k).map fun e => (e.1, UInt32.ofNat e.2)

section Numbered

variable {k : Nat} {ids : List UInt32}

@[simp] theorem numbered_nil : numbered k [] = [] := rfl

@[simp] theorem numbered_cons (id : UInt32) :
    numbered k (id :: ids) = (id, UInt32.ofNat k) :: numbered (k + 1) ids := by
  simp [numbered, List.zipIdx_cons]

@[simp] theorem numbered_fst : (numbered k ids).map Prod.fst = ids := by
  simp [numbered, Function.comp_def]

theorem mem_numbered {e : UInt32 × UInt32} :
    e ∈ numbered k ids ↔ ∃ i, ids[i]? = some e.1 ∧ e.2 = UInt32.ofNat (k + i) := by
  induction ids generalizing k with
  | nil => simp
  | cons id ids ih =>
    rw [numbered_cons, List.mem_cons, ih]
    constructor
    · rintro (rfl | ⟨i, hi, he⟩)
      · exact ⟨0, by simp, by simp⟩
      · exact ⟨i + 1, by simpa using hi, by rw [he, Nat.add_right_comm, Nat.add_assoc]⟩
    · rintro ⟨i, hi, he⟩
      cases i with
      | zero => exact Or.inl (Prod.ext (by simpa using hi.symm) (by simpa using he))
      | succ i => exact Or.inr ⟨i, by simpa using hi, by rw [he, Nat.add_right_comm, Nat.add_assoc]⟩

theorem numbered_eq_zip :
    numbered k ids = ids.zip ((List.range' k ids.length).map UInt32.ofNat) := by
  induction ids generalizing k with
  | nil => rfl
  | cons id ids ih =>
    rw [numbered_cons, ih, List.length_cons, List.range'_succ, List.map_cons, List.zip_cons_cons]

/-- Consecutive numbers below 2 ^ 32 are not below the first one. -/
theorem le_toNat_of_mem_numbered (hk : k + ids.length ≤ UInt32.size) {e : UInt32 × UInt32}
    (he : e ∈ numbered k ids) : k ≤ e.2.toNat ∧ e.2.toNat < k + ids.length := by
  obtain ⟨i, hi, he⟩ := mem_numbered.1 he
  have hlt : i < ids.length := (List.getElem?_eq_some_iff.1 hi).1
  rw [he, toNat_ofNat (by omega)]
  omega

/-- Different keys have different numbers. -/
theorem eq_of_mem_numbered (hk : k + ids.length ≤ UInt32.size) {a b n : UInt32}
    (ha : (a, n) ∈ numbered k ids) (hb : (b, n) ∈ numbered k ids) : a = b := by
  obtain ⟨i, hi, hni⟩ := mem_numbered.1 ha
  obtain ⟨j, hj, hnj⟩ := mem_numbered.1 hb
  have hlti : i < ids.length := (List.getElem?_eq_some_iff.1 hi).1
  have hltj : j < ids.length := (List.getElem?_eq_some_iff.1 hj).1
  have heq : (UInt32.ofNat (k + i)).toNat = (UInt32.ofNat (k + j)).toNat := by
    rw [← hni, ← hnj]
  rw [toNat_ofNat (by omega), toNat_ofNat (by omega)] at heq
  have hij : i = j := by omega
  rw [hij, hj] at hi
  exact (Option.some.inj hi).symm

end Numbered

namespace Function

/-- The values that some instructions define. -/
def resultsOf (is : List Instr) : List ValueId := (is.map Instr.result).filter (· ≠ 0)

/-- The values that the instructions of a function define. -/
def results (fn : Function) : List ValueId := resultsOf fn.instrs

/-! ## Values in use -/

theorem resultsOf_cons (i : Instr) (is : List Instr) :
    resultsOf (i :: is) = if i.result = 0 then resultsOf is else i.result :: resultsOf is := by
  by_cases h : i.result = 0 <;> simp [resultsOf, h]

theorem resultsOf_append (l l' : List Instr) :
    resultsOf (l ++ l') = resultsOf l ++ resultsOf l' := by
  simp [resultsOf]

theorem mem_results {fn : Function} {v : ValueId} :
    v ∈ fn.results ↔ v ≠ 0 ∧ ∃ i ∈ fn.instrs, i.result = v := by
  simp [results, resultsOf, and_comm]

theorem definedIds_filter {fn : Function} (h : ∀ p ∈ fn.params, p.id ≠ 0) :
    fn.definedIds.filter (· ≠ 0) = fn.params.map Param.id ++ fn.results := by
  rw [definedIds, List.filter_append, paramIds_filter h]
  rfl

theorem defined_iff {fn : Function} (h : ∀ p ∈ fn.params, p.id ≠ 0) {v : ValueId} :
    fn.Defined v ↔ v ∈ fn.params.map Param.id ∨ v ∈ fn.results := by
  rw [← List.mem_append, ← definedIds_filter h, List.mem_filter, Defined, and_comm]
  simp

/-! ## Requests -/

/-- What copies of some blocks ask for. -/
def requests (blocks : List Block) : List Counter :=
  blocks.flatMap fun b => .block :: List.replicate (resultsOf b.instrs).length .value

theorem requests_cons (b : Block) (blocks : List Block) :
    requests (b :: blocks) =
      .block :: (List.replicate (resultsOf b.instrs).length .value ++ requests blocks) := rfl

@[simp] theorem count_value_requests (blocks : List Block) :
    (requests blocks).count .value = (resultsOf (blocks.flatMap Block.instrs)).length := by
  induction blocks with
  | nil => rfl
  | cons b blocks ih =>
    rw [requests_cons, List.count_cons_of_ne (by decide), List.count_append,
      List.count_replicate_self, ih, List.flatMap_cons, resultsOf_append, List.length_append]

@[simp] theorem count_block_requests (blocks : List Block) :
    (requests blocks).count .block = blocks.length := by
  induction blocks with
  | nil => rfl
  | cons b blocks ih =>
    rw [requests_cons, List.count_cons_self, List.count_append, ih, List.length_cons]
    simp [List.count_replicate]

variable {fn : Function}

theorem addResults_eq (is : List Instr) (r : Renaming) (fn : Function) :
    Renaming.addResults is r fn =
      ({ r with
          values := ((resultsOf is).zip (fn.drawn .value
            (List.replicate (resultsOf is).length .value))).reverse ++ r.values },
        fn.after (List.replicate (resultsOf is).length .value)) := by
  induction is generalizing r fn with
  | nil => rfl
  | cons i is ih =>
    rw [Renaming.addResults, resultsOf_cons]
    by_cases h0 : i.result = 0
    · rw [if_pos h0, if_pos h0]
      exact ih r fn
    · rw [if_neg h0, if_neg h0]
      dsimp only
      rw [ih, List.length_cons, List.replicate_succ, drawn_cons_self, List.zip_cons_cons,
        List.reverse_cons, after]
      simp [draw]

/-- **The renaming for some blocks.** -/
theorem addBlocks_eq (blocks : List Block) (r : Renaming) (fn : Function) :
    Renaming.addBlocks blocks r fn =
      ({ values := ((resultsOf (blocks.flatMap Block.instrs)).zip
            (fn.drawn .value (requests blocks))).reverse ++ r.values
         blocks := ((blocks.map Block.id).zip
            (fn.drawn .block (requests blocks))).reverse ++ r.blocks },
        fn.after (requests blocks)) := by
  induction blocks generalizing r fn with
  | nil => rfl
  | cons b blocks ih =>
    have hvalues : ∀ fn : Function, (fn.drawn .value
        (List.replicate (resultsOf b.instrs).length .value)).length =
          (resultsOf b.instrs).length := fun fn => by
      rw [length_drawn, List.count_replicate_self]
    have hblocks : ∀ fn : Function, fn.drawn .block
        (List.replicate (resultsOf b.instrs).length .value) = [] := fun fn => by
      rw [← List.length_eq_zero_iff, length_drawn]
      simp [List.count_replicate]
    rw [Renaming.addBlocks, requests_cons, drawn_cons_of_ne (by decide), drawn_cons_self,
      drawn_append, drawn_append, hblocks, after, after_append, List.flatMap_cons,
      resultsOf_append, List.zip_append (hvalues _).symm]
    dsimp only
    rw [addResults_eq, ih]
    simp [draw]

/-! ## Enough numbers -/

/-- A copy of `callee` in `fn` does not run out of numbers. -/
structure Fits (fn callee : Function) : Prop where
  values : fn.valueMark + callee.results.length ≤ UInt32.size
  blocks : fn.blockMark + (callee.blocks.length + 1) ≤ UInt32.size

instance (fn callee : Function) : Decidable (fn.Fits callee) :=
  decidable_of_iff (fn.valueMark + callee.results.length ≤ UInt32.size ∧
      fn.blockMark + (callee.blocks.length + 1) ≤ UInt32.size)
    ⟨fun h => ⟨h.1, h.2⟩, fun h => ⟨h.values, h.blocks⟩⟩

/-- **The numbers of a copy are consecutive**, as long as they last. -/
theorem zip_drawn {c : Counter} {cs : List Counter} {ids : List UInt32} (h : fn.CountersAbove)
    (hcount : cs.count c = ids.length) (hle : fn.mark c + ids.length ≤ UInt32.size) :
    ids.zip (fn.drawn c cs) = numbered (fn.mark c) ids := by
  rw [drawn_eq_range (h.lastUsed_lt c) (hcount ▸ hle), hcount, numbered_eq_zip]

/-- Counters that are not `0` are above all numbers in use, and the counter of values is not `0`
alone, unless there are no more numbers. A counter that is `0` is computed from the numbers in use
when it is first asked. A replacement first asks for a block and then cuts the call's block in two;
a value counter that is `0` at that moment does not see what is behind the call
(`halfCounted_redefines`). -/
structure Counted (fn : Function) : Prop extends fn.CountersAbove where
  together : fn.nextValue = 0 → fn.nextBlock ≠ 0 → fn.valueMark = UInt32.size

namespace Counted

/-- Counters that have not been set are above all numbers. -/
theorem of_zero (hv : fn.nextValue = 0) (hb : fn.nextBlock = 0) : fn.Counted :=
  ⟨⟨fun h => absurd hv h, fun h => absurd hb h⟩, fun _ h => absurd hb h⟩

/-- **The first fresh block** sets both counters going. -/
theorem freshBlock_eq (h : fn.Counted) :
    fn.freshBlock.2 =
      { fn with
        nextValue := UInt32.ofNat fn.valueMark
        nextBlock := UInt32.ofNat (fn.blockMark + 1) } := by
  obtain ⟨v, n, heq⟩ := fn.freshBlock_counters
  have hblock : n = UInt32.ofNat (fn.blockMark + 1) := by
    have hreading := fn.reading_draw_self .block
    rwa [draw, heq] at hreading
  have hvalue : v = UInt32.ofNat fn.valueMark := by
    have hreading : (fn.draw .block).2.reading .value = (fn.ready .block).reading .value :=
      reading_draw_of_ne (by decide)
    rw [draw, heq, ready] at hreading
    refine hreading.trans ?_
    split
    · exact h.reading_raiseCounters .value
    · next h0 =>
      by_cases hv : fn.nextValue = 0
      · rw [h.together hv h0]
        exact hv
      · exact (UInt32.ofNat_toNat.symm.trans
          (congrArg UInt32.ofNat (mark_of_reading_ne_zero (c := .value) hv).symm))
  rw [heq, hblock, hvalue]

end Counted

/-- A function that returns a bit. -/
def returnsBit : Function where
  name := "g"
  ret := some .bool
  blocks :=
    [{ id := 1, instrs := [.const ⟨1, some .bool, "true"⟩], term := some (.ret 1 true) }]

/-- A function that calls it twice. The block counter is above the block, and that of values has not
been set. -/
def halfCounted : Function where
  name := "f"
  params := [⟨1, "a", some .bool⟩]
  ret := some .bool
  blocks :=
    [{ id := 1
       instrs := [.call ⟨2, "g", [], some .bool, .pure, false⟩,
         .binary ⟨3, .xor, 1, 1, some .bool⟩,
         .call ⟨4, "g", [], some .bool, .pure, false⟩,
         .binary ⟨5, .xor, 3, 4, some .bool⟩]
       term := some (.ret 5 true) }]
  nextBlock := 2

theorem countersAbove_halfCounted : halfCounted.CountersAbove := by
  refine ⟨fun h => absurd rfl h, fun _ id hid => ?_⟩
  obtain rfl := List.mem_singleton.1 hid
  decide

/-- **Counters above the numbers in use are not enough**: the copy gets the number that the call
defines. -/
theorem halfCounted_redefines :
    ¬ halfCounted.Counted ∧ halfCounted.defects = [] ∧
      (halfCounted.splice 0 0 ⟨2, "g", [], some .bool, .pure, false⟩ returnsBit).1.defects =
        [⟨"f", 2, .redefined 2⟩] := by
  refine ⟨fun h => ?_, by decide +kernel, by decide +kernel⟩
  exact absurd (h.together rfl (by decide)) (by decide +kernel)

end Function

end SsaOpt
