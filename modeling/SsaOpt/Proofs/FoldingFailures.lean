import SsaOpt.Proofs.FoldingFixpoint
import SsaOpt.Proofs.CriticalInstrs

/-!
# When constant folding fails

What an instruction evaluates to is always a constant that the standard checker accepts
(`constantErr?_of_foldInstr`), and instructions that evaluate to something are not critical. So the
only replacement that is refused is one of another type than the instruction declares, and that is
the fault of the instruction (`Mistyped`): arithmetic that does not declare the type of its
operands, or a comparison that does not declare a truth value. A conversion evaluates to a constant
of the type that it declares.

A run over a function fails at the first instruction, in the order of visit, that is mistyped and
evaluates to a constant at what is known then (`ConstFold.Misfold`,
`ConstFold.run_failure_cases`), and a run over a module at the first function with such an
instruction.
-/

namespace SsaOpt

/-! ## What instructions evaluate to -/

section Evaluated

variable {consts : Consts} {i : Instr} {c : Const}

theorem constantErr?_of_value? {x : ConstValue} (h : c.value? = some x) :
    constantErr? c = none := by
  have hkind := (Const.legal_of_value? h).kind
  obtain ⟨ty, hty, hx⟩ := Option.bind_eq_some_iff.1 h
  split at hx
  · next bits hbits =>
    obtain rfl := Option.some.inj hx
    rcases hkind with rfl | ⟨t, rfl⟩ <;> simp [constantErr?, hty, hbits, Ty.isInteger]
  · cases hx

/-- **The checker accepts what an instruction evaluates to.** -/
theorem constantErr?_of_foldInstr (h : foldInstr consts i = some c) : constantErr? c = none := by
  obtain ⟨-, _, x, -, -, hvalue⟩ := foldInstr_meaning h
  exact constantErr?_of_value? hvalue

theorem isCritical_of_foldInstr (h : foldInstr consts i = some c) : i.isCritical = false := by
  cases i with
  | binary b =>
    simp only [Instr.isCritical, Instr.effect]
    split <;> rfl
  | compare | cast => rfl
  | _ => cases h

theorem Module.isCritical_of_foldInstr (m : Module) (h : foldInstr consts i = some c) :
    m.isCritical i = false := by
  have hcritical := SsaOpt.isCritical_of_foldInstr h
  cases i with
  | call => cases h
  | _ => exact (Bool.or_false _).trans hcritical

/-- Arithmetic that declares another type than its operands have, or a comparison that does not
declare a truth value. -/
inductive Mistyped (consts : Consts) : Instr → Prop where
  | binary {b : Binary} {ty : Ty} {l r : UInt64} (hl : consts.value? b.left = some ⟨ty, l⟩)
      (hr : consts.value? b.right = some ⟨ty, r⟩) (hty : b.ty ≠ some ty) :
      Mistyped consts (.binary b)
  | compare {p : Compare} (hty : p.ty ≠ some .bool) : Mistyped consts (.compare p)

/-- Only mistyped instructions evaluate to a constant of another type than they declare. -/
theorem resultType_ne_iff (h : foldInstr consts i = some c) :
    i.resultType ≠ c.ty ↔ Mistyped consts i := by
  cases i with
  | binary b =>
    obtain ⟨ty, l, r, bits, hl, hr, -, rfl⟩ := Consts.foldInstr_binary_iff.1 h
    refine ⟨fun hty => .binary hl hr hty, fun hmis => ?_⟩
    cases hmis with
    | binary hl' hr' hty =>
      obtain ⟨rfl, -⟩ := ConstValue.mk.inj (Option.some.inj (hl.symm.trans hl'))
      exact hty
  | compare p =>
    obtain ⟨ty, l, r, b, -, -, -, rfl⟩ := Consts.foldInstr_compare_iff.1 h
    refine ⟨fun hty => .compare hty, fun hmis => ?_⟩
    cases hmis with
    | compare hty => exact hty
  | cast k =>
    obtain ⟨x, ty, -, hty, -, rfl⟩ := Consts.foldInstr_cast_iff.1 h
    exact ⟨fun hne => absurd hty hne, nofun⟩
  | _ => cases h

end Evaluated

namespace ConstFold

/-! ## What is refused -/

/-- The failure to replace an instruction by a constant of another type than it declares. -/
def mismatch (function : String) (i : Instr) (c : Const) : PassFailure where
  kind := .typeMismatch
  pass := passName
  function := function
  detail :=
    let shown := Text.quote i.render
    s!"{shown} declares {shownType i.resultType} but folds to a {shownType c.ty} constant"

section Refusal

variable {consts : Consts} {function : String} {i : Instr} {c : Const}

theorem refusal_of_mistyped (h : foldInstr consts i = some c) (hmis : Mistyped consts i) :
    refusal (some .standard) function i c = some (.error (.failed (mismatch function i c))) := by
  have hcritical := isCritical_of_foldInstr h
  have hne := (resultType_ne_iff h).2 hmis
  simp [refusal, hcritical, hne, mismatch]

/-- **All but mistyped instructions may be replaced.** -/
theorem refusal_of_not_mistyped (h : foldInstr consts i = some c) (hmis : ¬ Mistyped consts i) :
    refusal (some .standard) function i c = none := by
  have hcritical := isCritical_of_foldInstr h
  have heq : i.resultType = c.ty := not_not.1 (mt (resultType_ne_iff h).1 hmis)
  obtain ⟨-, _, x, -, -, hvalue⟩ := foldInstr_meaning h
  obtain ⟨ty, hty, -⟩ := Option.bind_eq_some_iff.1 hvalue
  simp [refusal, hcritical, heq, hty, Checker.standard, constantErr?_of_foldInstr h]

end Refusal

/-! ## The first refusal -/

section First

variable {refuse : Instr → Const → Option Failure} {consts : Consts} {fn : Function} {f : Failure}

/-- The refusal of a planned replacement, if there is one. -/
def refused (refuse : Instr → Const → Option Failure) (e : Instr × Option Const) :
    Option Failure :=
  e.2.bind (refuse e.1)

/-- Replacements are made up to the first that is refused. -/
theorem commit_firstRefused (planned : List (Instr × Option Const)) :
    (commit refuse planned).failure = planned.findSome? (refused refuse) := by
  induction planned with
  | nil => rfl
  | cons e planned ih =>
    obtain ⟨i, new⟩ := e
    cases new with
    | none => exact ih
    | some c =>
      rw [commit, List.findSome?_cons, refused, Option.bind_some]
      cases hrefuse : refuse i c with
      | some f => rfl
      | none => exact ih

/-- **A run fails at the first replacement that is refused** in the code that it visits, as if that
were one block. -/
theorem foldBlocks_firstRefused {positions : List Nat} (hnodup : positions.Nodup) :
    (foldBlocks refuse positions consts fn).failure =
      (plan consts (code fn positions)).1.findSome? (refused refuse) := by
  induction positions generalizing consts fn with
  | nil => rfl
  | cons p rest ih =>
    obtain ⟨hp, hnodup⟩ := List.nodup_cons.1 hnodup
    rw [code, List.flatMap_cons, plan_append, List.findSome?_append, ← commit_firstRefused]
    have hcode : (fn.blocks[p]?.map Block.instrs).getD [] = codeAt fn p := rfl
    simp only [foldBlocks, hcode]
    cases hf : (commit refuse (plan consts (codeAt fn p)).1).failure with
    | some f => rfl
    | none =>
      have hrest := @ih (plan consts (codeAt fn p)).2 (foldedAt consts p fn) hnodup
      rw [code_foldedAt_of_notMem hp, foldedAt, ← commit_replaced hf] at hrest
      exact hrest

/-- The replacement of an instruction is planned at what is known after those before it. -/
theorem mem_plan_of_split (is js : List Instr) (i : Instr) :
    (i, foldInstr (plan consts is).2 i) ∈ (plan consts (is ++ i :: js)).1 := by
  rw [plan_append]
  exact List.mem_append_right _ (List.mem_cons_self ..)

theorem split_of_firstRefused {is : List Instr}
    (h : (plan consts is).1.findSome? (refused refuse) = some f) :
    ∃ is₁ i is₂ c, is = is₁ ++ i :: is₂ ∧ foldInstr (plan consts is₁).2 i = some c ∧
      refuse i c = some f ∧ ∀ e ∈ (plan consts is₁).1, refused refuse e = none := by
  induction is generalizing consts with
  | nil => simp [plan] at h
  | cons j is ih =>
    rw [plan, List.findSome?_cons] at h
    cases hj : refused refuse (j, foldInstr consts j) with
    | some f' =>
      simp only [hj, Option.some.injEq] at h
      subst h
      obtain ⟨c, hc, hrefuse⟩ := Option.bind_eq_some_iff.1 hj
      exact ⟨[], j, is, c, rfl, hc, hrefuse, by simp [plan]⟩
    | none =>
      simp only [hj] at h
      obtain ⟨is₁, i, is₂, c, rfl, hc, hrefuse, hbefore⟩ := ih h
      refine ⟨j :: is₁, i, is₂, c, rfl, hc, hrefuse, fun e he => ?_⟩
      rcases List.mem_cons.1 he with rfl | he
      · exact hj
      · exact hbefore e he

end First

/-! ## Runs that fail -/

/-- An instruction that is mistyped and evaluates to a constant at what is known after the
instructions that are visited before it. -/
structure Misfold (fn : Function) (before : List Instr) (i : Instr) (c : Const) : Prop where
  visited : before ++ [i] <+: code fn (visitOrder fn)
  folds : foldInstr (plan (initialConsts fn) before).2 i = some c
  mistyped : Mistyped (plan (initialConsts fn) before).2 i

/-- A function with such an instruction. -/
def Misfolds (fn : Function) : Prop := ∃ before i c, Misfold fn before i c

/-- The first such instruction of a function. -/
structure FirstMisfold (fn : Function) (before : List Instr) (i : Instr) (c : Const) : Prop
    extends Misfold fn before i c where
  first : ∀ before' i' c', Misfold fn before' i' c' → before <+: before'

section Run

variable {fn : Function}

theorem Misfold.refused {before : List Instr} {i : Instr} {c : Const} (h : Misfold fn before i c) :
    refusal (some .standard) fn.name i c = some (.error (.failed (mismatch fn.name i c))) :=
  refusal_of_mistyped h.folds h.mistyped

theorem Misfold.mem_plan {before is : List Instr} {i : Instr} {c : Const}
    (h : Misfold fn before i c) (hstarts : before ++ [i] <+: is) :
    (i, some c) ∈ (plan (initialConsts fn) is).1 := by
  obtain ⟨js, rfl⟩ := hstarts
  rw [← h.folds, List.append_assoc]
  exact mem_plan_of_split before js i

theorem not_misfolds_of_isExternal (h : fn.isExternal = true) : ¬ Misfolds fn := by
  rintro ⟨before, i, c, hvisited, -, -⟩
  have hblocks : fn.blocks = [] := List.isEmpty_iff.1 h
  have hmem : i ∈ fn.instrs := mem_instrs_of_code (hvisited.subset (by simp))
  simp [Function.instrs, hblocks] at hmem

/-- **A run over a function fails** at the first instruction that is mistyped and evaluates to a
constant, and only there. -/
theorem run_failure_cases (hnodup : fn.blockIds.Nodup) :
    ((run (some .standard) fn).failure = none ∧ ¬ Misfolds fn) ∨
      ∃ before i c, FirstMisfold fn before i c ∧
        (run (some .standard) fn).failure = some (.error (.failed (mismatch fn.name i c))) := by
  have hrun : (run (some .standard) fn).failure = _ :=
    foldBlocks_firstRefused (visitOrder_nodup hnodup)
  cases hfirst : (plan (initialConsts fn) (code fn (visitOrder fn))).1.findSome?
      (refused (refusal (some .standard) fn.name)) with
  | none =>
    refine Or.inl ⟨hrun.trans hfirst, ?_⟩
    rintro ⟨before, i, c, h⟩
    have hnone := List.findSome?_eq_none_iff.1 hfirst _ (h.mem_plan h.visited)
    simp [refused, h.refused] at hnone
  | some f =>
    obtain ⟨is, i, js, c, hcode, hfold, hrefuse, hbefore⟩ := split_of_firstRefused hfirst
    have hmis : Mistyped (plan (initialConsts fn) is).2 i := by
      by_contra hmis
      simp [refusal_of_not_mistyped hfold hmis] at hrefuse
    have hvisited : is ++ [i] <+: code fn (visitOrder fn) := ⟨js, by simp [hcode]⟩
    have h : Misfold fn is i c := ⟨hvisited, hfold, hmis⟩
    refine Or.inr ⟨is, i, c, ⟨h, ?_⟩, ?_⟩
    · -- an earlier one would have been refused before
      intro before i' c' h'
      have hpre : before <+: code fn (visitOrder fn) :=
        (List.prefix_append _ _).trans h'.visited
      have hpre' : is <+: code fn (visitOrder fn) := (List.prefix_append _ _).trans hvisited
      refine List.prefix_of_prefix_length_le hpre' hpre (Nat.not_lt.1 fun hlt => ?_)
      have hin : before ++ [i'] <+: is :=
        List.prefix_of_prefix_length_le h'.visited hpre' (by simp; omega)
      have hnone := hbefore _ (h'.mem_plan hin)
      simp [refused, h'.refused] at hnone
    · rw [hrun, hfirst, ← hrefuse, h.refused]

theorem run_failure_ne_none_iff (hnodup : fn.blockIds.Nodup) :
    (run (some .standard) fn).failure ≠ none ↔ Misfolds fn := by
  rcases run_failure_cases hnodup with ⟨hnone, hnot⟩ | ⟨before, i, c, h, hsome⟩
  · exact iff_of_false (fun hne => hne hnone) hnot
  · exact iff_of_true (by simp [hsome]) ⟨before, i, c, h.toMisfold⟩

theorem run_of_isExternal (h : fn.isExternal = true) :
    (run (some .standard) fn).function = fn ∧ (run (some .standard) fn).failure = none := by
  have hblocks : fn.blocks = [] := List.isEmpty_iff.1 h
  refine ⟨?_, ?_⟩
  · obtain ⟨blocks, hfunction, hfolded⟩ := run_folded (some .standard) fn
    rw [hblocks] at hfolded
    rw [hfunction, List.forall₂_nil_left_iff.1 hfolded, ← hblocks]
  · refine not_not.1 (mt (run_failure_ne_none_iff ?_).1 (not_misfolds_of_isExternal h))
    simp [Function.blockIds, hblocks]

end Run

end ConstFold

namespace Transform

variable {σ : Type} {env : PassEnv} {r : Run σ} {m : Module}

theorem constFold_firstFailure (henv : env.checker = some .standard)
    (hr : r.listing = .ofModule m) :
    m.FirstFailure (fun fn => (ConstFold.run (some .standard) fn).function)
      (fun fn => (ConstFold.run (some .standard) fn).failure)
      (constFold.pass.onModule env r).1.failure (constFold.pass.onModule env r).2.listing := by
  refine Run.allFunctions_firstFailure (fun fn => ConstFold.run_of_isExternal) ?_ hr
  intro k r' m' fn hr' _ hfn _
  exact henv ▸ constFold_onFunction hr' hfn

/-- **When constant folding fails.** All that instructions evaluate to is accepted by the checker,
and no such instruction is critical. A run over a verified module fails if and only if some
instruction is mistyped and evaluates to a constant at what is known when it is visited. The error
is then about the first of these in the first function that has one, and of no other kind than a
mismatch of types. -/
theorem constFold_fails_at_first_mismatch (henv : env.checker = some .standard)
    (hr : r.listing = .ofModule m) (hm : moduleErr? (some m) = none) :
    (∀ consts i c, foldInstr consts i = some c →
      Checker.standard.verifyConstant c = none ∧ m.isCritical i = false ∧
        (i.resultType ≠ c.ty ↔ Mistyped consts i)) ∧
    ((constFold.pass.onModule env r).1.failure ≠ none ↔
      ∃ fn ∈ m.functions, ConstFold.Misfolds fn) ∧
    ∀ f, (constFold.pass.onModule env r).1.failure = some f →
      ∃ (k : Nat) (fn : Function) (before : List Instr) (i : Instr) (c : Const),
        m.functions[k]? = some fn ∧
        (∀ j g, j < k → m.functions[j]? = some g → ¬ ConstFold.Misfolds g) ∧
        ConstFold.FirstMisfold fn before i c ∧
        f = .error (.failed (ConstFold.mismatch fn.name i c)) := by
  have hrun := constFold_firstFailure henv hr
  have hmisfolds {fn : Function} (hfn : fn ∈ m.functions) :=
    ConstFold.run_failure_ne_none_iff (Module.blockIds_nodup hm hfn)
  refine ⟨fun consts i c h => ?_, ?_, fun f hf => ?_⟩
  · exact ⟨constantErr?_of_foldInstr h, m.isCritical_of_foldInstr h, resultType_ne_iff h⟩
  · rw [hrun.ne_none_iff]
    exact exists_congr fun fn => and_congr_right fun hfn => hmisfolds hfn
  · rcases hrun with ⟨hnone, -⟩ | ⟨k, fn, f', -, hfn, hf', hfirst, hfailure, -⟩
    · simp [hnone] at hf
    · have hmem := List.mem_of_getElem? hfn
      rcases ConstFold.run_failure_cases (Module.blockIds_nodup hm hmem) with
        ⟨hnone, -⟩ | ⟨before, i, c, hmis, hsome⟩
      · simp [hnone] at hf'
      · obtain rfl := Option.some.inj (hf'.symm.trans hsome)
        obtain rfl := Option.some.inj (hf.symm.trans hfailure)
        refine ⟨k, fn, before, i, c, hfn, fun j g hj hg hmis' => ?_, hmis,
          Failure.inFunction_failed _⟩
        exact (hmisfolds (List.mem_of_getElem? hg)).2 hmis' (hfirst j g hj hg)

/-- Numbers that wrap around and are converted. -/
def converted : Function where
  name := "f"
  ret := some (.int ⟨true, .w32⟩)
  blocks :=
    [{ id := 1
       instrs := [.const ⟨1, some (.int ⟨true, .w8⟩), "-128"⟩,
         .binary ⟨2, .sub, 1, 1, some (.int ⟨true, .w8⟩)⟩,
         .binary ⟨3, .sub, 2, 1, some (.int ⟨true, .w8⟩)⟩,
         .cast ⟨4, 3, some (.int ⟨true, .w32⟩)⟩]
       term := some (.ret 4 true) }]

/-- The last block is visited before the second one, which compares its sum as if that gave a
number. -/
def miscompared : Function where
  name := "g"
  ret := some (.int ⟨true, .w32⟩)
  blocks :=
    [{ id := 1
       instrs := [.const ⟨1, some (.int ⟨true, .w32⟩), "7"⟩]
       term := some (.br 3) },
     { id := 2
       instrs := [.compare ⟨3, .lt, 1, 2, some (.int ⟨true, .w32⟩)⟩]
       term := some (.ret 3 true) },
     { id := 3
       instrs := [.binary ⟨2, .add, 1, 1, some (.int ⟨true, .w32⟩)⟩]
       term := some (.br 2) }]

theorem misfold_miscompared : ConstFold.Misfold miscompared
    [.const ⟨1, some (.int ⟨true, .w32⟩), "7"⟩,
      .binary ⟨2, .add, 1, 1, some (.int ⟨true, .w32⟩)⟩]
    (.compare ⟨3, .lt, 1, 2, some (.int ⟨true, .w32⟩)⟩) ⟨3, some .bool, "true"⟩ where
  visited := by decide +kernel
  folds := by decide +kernel
  mistyped := .compare (by decide)

theorem miscompared_fails_at_first_mismatch :
    let env : PassEnv := ⟨some .standard, "constfold"⟩
    let start (fns : List Function) : Run Unit := { listing := .ofModule ⟨"m", fns⟩, world := () }
    (moduleErr? (some ⟨"m", [converted]⟩) = none ∧
      (constFold.pass.onModule env (start [converted])).1.failure = none ∧
      ¬ ConstFold.Misfolds converted) ∧
    moduleErr? (some ⟨"m", [converted, miscompared]⟩) = none ∧
      ∃ before i c, ConstFold.FirstMisfold miscompared before i c ∧
        (constFold.pass.onModule env (start [converted, miscompared])).1.failure =
          some (.error (.failed (ConstFold.mismatch "g" i c))) := by
  intro env start
  have hm : moduleErr? (some ⟨"m", [converted]⟩) = none := by decide
  have hm' : moduleErr? (some ⟨"m", [converted, miscompared]⟩) = none := by decide
  have hnone : (constFold.pass.onModule env (start [converted])).1.failure = none := by
    decide +kernel
  obtain ⟨-, hiff, -⟩ := @constFold_fails_at_first_mismatch _ env (start [converted]) _ rfl rfl hm
  obtain ⟨-, hiff', hfirst⟩ :=
    @constFold_fails_at_first_mismatch _ env (start [converted, miscompared]) _ rfl rfl hm'
  have hconverted : ¬ ConstFold.Misfolds converted := fun h =>
    hiff.2 ⟨converted, by simp, h⟩ hnone
  obtain ⟨f, hf⟩ := Option.ne_none_iff_exists'.1
    (hiff'.2 ⟨miscompared, by simp, _, _, _, misfold_miscompared⟩)
  obtain ⟨k, fn, before, i, c, hfn, -, hmis, rfl⟩ := hfirst f hf
  refine ⟨⟨hm, hnone, hconverted⟩, hm', before, i, c, ?_⟩
  have hmem := List.mem_of_getElem? hfn
  simp only [List.mem_cons, List.not_mem_nil, or_false] at hmem
  rcases hmem with rfl | rfl
  · exact absurd ⟨before, i, c, hmis.toMisfold⟩ hconverted
  · exact ⟨hmis, hf⟩

end Transform

end SsaOpt
