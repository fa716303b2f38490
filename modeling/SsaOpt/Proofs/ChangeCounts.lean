import SsaOpt.Proofs.FoldingFailures
import SsaOpt.Proofs.InlineScan
import SsaOpt.Proofs.PassEffects
import SsaOpt.Proofs.RoundLimit

/-!
# What the transformations count

Each transformation counts what it does to a function. The counts can be trusted, whether or not it
fails: they are zero exactly if the function is as it was (`CountsChanges`). Nothing is undone on
the way, since each change moves a measure of the blocks in one direction. Folding leaves fewer
operations, dead code elimination leaves fewer instructions and blocks, and inlining leaves more
blocks.

`Transform.onFunction_reports` says what this means for a step: its tally moves exactly if the
function changes, and a step that does not fail reports a change exactly if there is one.
-/

namespace SsaOpt

/-- A number that tells whether `fn'` is `fn` still. Where it is not, the blocks differ. -/
structure CountsChanges (count : Nat) (fn fn' : Function) : Prop where
  same : count = 0 → fn' = fn
  counted : fn'.blocks = fn.blocks → count = 0

namespace CountsChanges

variable {count : Nat} {fn fn' : Function}

theorem eq_iff (h : CountsChanges count fn fn') : fn' = fn ↔ count = 0 :=
  ⟨fun heq => h.counted (congrArg Function.blocks heq), h.same⟩

theorem eq_of_blocks (h : CountsChanges count fn fn') (hblocks : fn'.blocks = fn.blocks) :
    fn' = fn :=
  h.same (h.counted hblocks)

end CountsChanges

/-! ## Constant folding -/

namespace ConstFold

variable {refuse : Instr → Const → Option Failure}

/-- Every replacement leaves one operation less. -/
theorem commit_operations {planned : List (Instr × Option Const)}
    (h : ∀ e ∈ planned, ∀ c, e.2 = some c → e.1.isOperation = true) :
    (commit refuse planned).instrs.countP Instr.isOperation + (commit refuse planned).folded =
      (planned.map Prod.fst).countP Instr.isOperation := by
  induction planned with
  | nil => rfl
  | cons e planned ih =>
    obtain ⟨i, new⟩ := e
    have hrest := ih fun e he => h e (List.mem_cons_of_mem _ he)
    cases new with
    | none =>
      simp only [commit, List.map_cons, List.countP_cons]
      omega
    | some c =>
      have hi : i.isOperation = true := h _ List.mem_cons_self c rfl
      have hc : (Instr.const c).isOperation = false := rfl
      rw [commit]
      cases hrefuse : refuse i c with
      | some f => simp
      | none =>
        simp only [List.map_cons, List.countP_cons, hi, hc, if_true]
        simp only [Bool.false_eq_true, if_false]
        omega

theorem operations_modify {is : List Instr} {count : Nat} (blocks : List Block) (k : Nat)
    (h : is.countP Instr.isOperation + count =
      ((blocks[k]?.map Block.instrs).getD []).countP Instr.isOperation) :
    ((blocks.modify k fun b => { b with instrs := is }).flatMap Block.instrs).countP
        Instr.isOperation + count =
      (blocks.flatMap Block.instrs).countP Instr.isOperation := by
  induction blocks generalizing k with
  | nil =>
    simp only [List.getElem?_nil, Option.map_none, Option.getD_none, List.countP_nil] at h
    simp only [List.modify_nil, List.flatMap_nil, List.countP_nil]
    omega
  | cons b blocks ih =>
    cases k with
    | zero =>
      simp only [List.getElem?_cons_zero, Option.map_some, Option.getD_some] at h
      simp only [List.modify_zero_cons, List.flatMap_cons, List.countP_append]
      omega
    | succ k =>
      have hrest := ih k (by simpa using h)
      simp only [List.modify_succ_cons, List.flatMap_cons, List.countP_append]
      omega

theorem foldBlocks_operations (positions : List Nat) (consts : Consts) (fn : Function) :
    (foldBlocks refuse positions consts fn).function.instrs.countP Instr.isOperation +
        (foldBlocks refuse positions consts fn).folded =
      fn.instrs.countP Instr.isOperation := by
  induction positions generalizing consts fn with
  | nil => rfl
  | cons k rest ih =>
    have hcommit := @commit_operations refuse
      (plan consts ((fn.blocks[k]?.map Block.instrs).getD [])).1 fun e he c hc => by
        obtain ⟨i, -, rfl, hfold⟩ := forall₂_exists_left (plan_forall₂ consts _) he
        obtain ⟨known, hknown⟩ := hfold c hc
        exact isOperation_of_foldInstr hknown
    rw [planned_fst] at hcommit
    rw [foldBlocks]
    dsimp only
    generalize commit refuse (plan consts ((fn.blocks[k]?.map Block.instrs).getD [])).1 = done
      at hcommit ⊢
    have hstep : (fn.modifyBlock (fun b => { b with instrs := done.instrs }) k).instrs.countP
        Instr.isOperation + done.folded = fn.instrs.countP Instr.isOperation :=
      operations_modify fn.blocks k hcommit
    split
    · exact hstep
    · have hrest := ih (plan consts ((fn.blocks[k]?.map Block.instrs).getD [])).2
        (fn.modifyBlock (fun b => { b with instrs := done.instrs }) k)
      dsimp only
      omega

theorem run_counts (checker : Option Checker) (fn : Function) :
    CountsChanges (run checker fn).folded fn (run checker fn).function where
  same := foldBlocks_of_zero
  counted hblocks := by
    have hcount := @foldBlocks_operations (refusal checker fn.name) (visitOrder fn)
      (initialConsts fn) fn
    have hsame : (run checker fn).function.instrs = fn.instrs := congrArg (List.flatMap _) hblocks
    rw [run] at hsame ⊢
    rw [hsame] at hcount
    omega

end ConstFold

/-! ## Dead code elimination -/

namespace DeadCode

variable {rules : Rules}

theorem sweepInstrs_counts (dead : Instr → Bool) (refuse : Instr → Option Failure)
    (is : List Instr) :
    (sweepInstrs dead refuse is).instrs.length + (sweepInstrs dead refuse is).removed = is.length ∧
      ((sweepInstrs dead refuse is).removed = 0 → (sweepInstrs dead refuse is).instrs = is) := by
  induction is with
  | nil => exact ⟨rfl, fun _ => rfl⟩
  | cons i rest ih =>
    obtain ⟨hlength, hsame⟩ := ih
    rw [sweepInstrs]
    split
    · cases refuse i with
      | some f => exact ⟨rfl, fun _ => rfl⟩
      | none => exact ⟨congrArg Nat.succ hlength, fun hzero => absurd hzero (Nat.succ_ne_zero _)⟩
    · refine ⟨?_, fun hzero => congrArg (i :: ·) (hsame hzero)⟩
      simp only [List.length_cons]
      omega

theorem sweepBlocks_counts (dead : Instr → Bool) (refuse : Instr → Option Failure)
    (blocks : List Block) :
    ((sweepBlocks dead refuse blocks).blocks.flatMap Block.instrs).length +
        (sweepBlocks dead refuse blocks).removed = (blocks.flatMap Block.instrs).length ∧
      (sweepBlocks dead refuse blocks).blocks.length = blocks.length ∧
      ((sweepBlocks dead refuse blocks).removed = 0 →
        (sweepBlocks dead refuse blocks).blocks = blocks) := by
  induction blocks with
  | nil => exact ⟨rfl, rfl, fun _ => rfl⟩
  | cons b rest ih =>
    obtain ⟨hsize, hlength, hsame⟩ := ih
    obtain ⟨hsizeb, hsameb⟩ := sweepInstrs_counts dead refuse b.instrs
    rw [sweepBlocks]
    dsimp only
    split
    · refine ⟨?_, rfl, fun hzero => by rw [hsameb hzero]⟩
      simp only [List.flatMap_cons, List.length_append]
      omega
    · refine ⟨?_, congrArg Nat.succ hlength, fun hzero => ?_⟩
      · simp only [List.flatMap_cons, List.length_append]
        omega
      · dsimp only at hzero ⊢
        rw [hsameb (by omega), hsame (by omega)]

/-- **What a round counts** is gone from the function. -/
theorem round_counts (rules : Rules) (fn : Function) :
    (round rules fn).function.size + (round rules fn).function.blocks.length +
        ((round rules fn).instrs + (round rules fn).blocks) ≤ fn.size + fn.blocks.length ∧
      ((round rules fn).instrs + (round rules fn).blocks = 0 →
        (round rules fn).function = fn) := by
  obtain ⟨hsize, hlength, hsame⟩ := sweepBlocks_counts
    (isDead rules.critical (UseDef.build fn)) rules.refuseInstr fn.blocks
  unfold round
  dsimp only
  generalize sweepBlocks (isDead rules.critical (UseDef.build fn)) rules.refuseInstr fn.blocks =
    sweep at hsize hlength hsame ⊢
  obtain ⟨blocks, removed, failure⟩ := sweep
  dsimp only at hsize hlength hsame ⊢
  have hswept : ({ fn with blocks } : Function).size + blocks.length + removed =
      fn.size + fn.blocks.length := by
    simp only [Function.size, Function.instrs]
    omega
  have hself : removed = 0 → ({ fn with blocks } : Function) = fn := fun hzero => by
    rw [hsame hzero]
  cases failure with
  | some f => exact ⟨hswept.le, hself⟩
  | none =>
    dsimp only
    split
    · exact ⟨hswept.le, hself⟩
    · next hempty =>
      split
      · exact ⟨hswept.le, hself⟩
      · generalize ({ fn with blocks } : Function).reach = reach at hempty ⊢
        have hkept : ({ fn with blocks := keepBlocks reach blocks } : Function).size ≤
            ({ fn with blocks } : Function).size := by
          rw [show ({ fn with blocks := keepBlocks reach blocks } : Function) =
            { ({ fn with blocks } : Function) with
              blocks := keepBlocks reach ({ fn with blocks } : Function).blocks } from rfl,
            keepBlocks_eq]
          exact size_restrict_le _ _ _
        have hparts : (keepBlocks reach blocks).length +
            (blocks.filter fun b => !reach.contains b.id).length = blocks.length := by
          have hcount := List.length_eq_countP_add_countP
            (fun b : Block => reach.contains b.id) (l := blocks)
          simpa [keepBlocks, List.countP_eq_length_filter] using hcount.symm
        have hpos : 0 < (blocks.filter fun b => !reach.contains b.id).length := by
          rw [List.length_pos_iff]
          simpa using hempty
        dsimp only
        exact ⟨by omega, fun hzero => by omega⟩

/-- **What a run counts** is gone from the function, and a run that does not fail reports a change
exactly if it counts one. -/
theorem rounds_counts (fuel : Nat) : ∀ (left : Option Nat) (fn : Function),
    (rounds rules fuel left fn).function.size + (rounds rules fuel left fn).function.blocks.length +
        ((rounds rules fuel left fn).instrs + (rounds rules fuel left fn).blocks) ≤
      fn.size + fn.blocks.length ∧
    ((rounds rules fuel left fn).instrs + (rounds rules fuel left fn).blocks = 0 →
      (rounds rules fuel left fn).function = fn) ∧
    ((rounds rules fuel left fn).failure = none →
      ((rounds rules fuel left fn).modified = true ↔
        (rounds rules fuel left fn).instrs + (rounds rules fuel left fn).blocks ≠ 0)) := by
  induction fuel with
  | zero => exact fun left fn => ⟨le_rfl, fun _ => rfl, fun _ => by simp [rounds]⟩
  | succ fuel ih =>
    intro left fn
    obtain ⟨hround, hself⟩ := round_counts rules fn
    rw [rounds]
    split
    · exact ⟨le_rfl, fun _ => rfl, fun _ => by simp⟩
    · dsimp only
      split
      · exact ⟨hround, hself, by simp⟩
      · split
        · next hzero =>
          have hsame := hself (by omega)
          rw [hsame]
          exact ⟨le_rfl, fun _ => rfl, fun _ => by simp⟩
        · next hne =>
          obtain ⟨hrest, -, -⟩ := ih (left.map fun n => n - 1) (round rules fn).function
          dsimp only
          exact ⟨by omega, fun hzero => absurd hzero (by omega), fun _ => by simp; omega⟩

theorem run_counts (checker : Option Checker) (m : Module) (n : Int) (fn : Function) :
    CountsChanges ((run checker m n fn).instrs + (run checker m n fn).blocks) fn
      (run checker m n fn).function := by
  obtain ⟨hsize, hsame, -⟩ := @rounds_counts (rulesFor checker m fn.name) (enoughRounds fn)
    (roundLimit n) fn
  refine ⟨hsame, fun hblocks => ?_⟩
  have hinstrs : (run checker m n fn).function.size = fn.size :=
    congrArg (fun bs : List Block => (bs.flatMap Block.instrs).length) hblocks
  rw [← run, hblocks, hinstrs] at hsize
  omega

end DeadCode

/-! ## Inlining -/

theorem Function.length_insertAfter (fn : Function) (id : BlockId) (new : List Block) :
    (fn.insertAfter id new).blocks.length = fn.blocks.length + new.length := by
  unfold insertAfter
  split
  · next i _ =>
    have hlength := congrArg List.length (List.take_append_drop (i + 1) fn.blocks)
    simp only [List.length_append] at hlength ⊢
    omega
  · exact List.length_append

/-- A replacement leaves more blocks. -/
theorem Function.length_splice (fn : Function) (position place : Nat) (call : Call)
    (callee : Function) :
    fn.blocks.length < (fn.splice position place call callee).1.blocks.length := by
  obtain ⟨fn', id, new, ⟨bs, v, n, rfl, hsub⟩, hnew, heq⟩ :=
    fn.splice_insertAfter position place call callee
  have hlength := hsub.length_le
  have hpos := List.length_pos_iff.2 hnew
  simp only [Function.length_blockIds, List.length_map] at hlength
  rw [heq, length_insertAfter]
  dsimp only
  omega

namespace Inline

theorem replaceCalls_counts {judge : Call → Verdict} (fuel : Nat) (live : List BlockId)
    (position : Nat) (fn : Function) :
    fn.blocks.length + (replaceCalls judge fuel live position fn).inlined ≤
      (replaceCalls judge fuel live position fn).function.blocks.length := by
  induction fuel generalizing live position fn with
  | zero => exact le_rfl
  | succ fuel ih =>
    rw [replaceCalls]
    dsimp only
    split
    · exact le_rfl
    · exact le_rfl
    · next block place call callee _ =>
      have hsplice := fn.length_splice block place call callee
      have hrest := ih ((fn.splice block place call callee).2 :: live)
        (((fn.splice block place call callee).1.blockIndex?
          (fn.splice block place call callee).2).getD
            (fn.splice block place call callee).1.blocks.length)
        (fn.splice block place call callee).1
      dsimp only
      omega

theorem run_counts (p : Policy) (checker : Option Checker) (m : Module) (g : CallGraph)
    (t : DomTree) (self : Nat) (fn : Function) :
    CountsChanges (run p checker m g t self fn).inlined fn (run p checker m g t self fn).function
    where
  same := replaceCalls_of_zero
  counted hblocks := by
    have hlength := @replaceCalls_counts (judge p checker m g self fn.name) (callCount fn + 1)
      (liveBlocks t fn) 0 fn
    rw [← run, hblocks] at hlength
    omega

end Inline

/-! ## Steps -/

attribute [ext] Tally

variable {σ : Type}

/-- What can be relied on after a step on the function `fn` at position `k` of `m`, which becomes
`fn'`. A step that fails reports nothing that could be relied on, but its tally can. -/
structure Run.Reports (m : Module) (k : Nat) (fn : Function) (r : Run σ) (result : Outcome × Run σ)
    (fn' : Function) : Prop where
  listing_eq : result.2.listing = .ofModule { m with functions := m.functions.set k fn' }
  tally_eq_iff : result.2.tally = r.tally ↔ fn' = fn
  eq_of_blocks : fn'.blocks = fn.blocks → fn' = fn
  flag : result.1.failure = none → (result.1.modified = true ↔ fn' ≠ fn)

namespace Transform

variable {env : PassEnv} {r : Run σ} {m : Module} {fn : Function} {k : Nat}

theorem constFold_reports (hr : r.listing = .ofModule m) (hfn : m.functions[k]? = some fn) :
    Run.Reports m k fn r (constFold.onFunction env k r)
      (ConstFold.run env.checker fn).function := by
  have hcounts := ConstFold.run_counts env.checker fn
  have hplace : r.listing.function? k = some fn := by rw [hr, Listing.function?_ofModule, hfn]
  refine ⟨(constFold_onFunction hr hfn).2, ?_, hcounts.eq_of_blocks, fun _ => ?_⟩
  · rw [hcounts.eq_iff]
    simp [onFunction, hplace, foldFunction, Run.setFunction, Tally.ext_iff]
  · rw [Ne, hcounts.eq_iff]
    simp [onFunction, hplace, foldFunction, Nat.pos_iff_ne_zero]

theorem deadCode_reports (n : Int) (hr : r.listing = .ofModule m)
    (hfn : m.functions[k]? = some fn) :
    Run.Reports m k fn r ((deadCode n).onFunction env k r)
      (DeadCode.run env.checker m n fn).function := by
  have hcounts := DeadCode.run_counts env.checker m n fn
  rw [deadCode_onFunction_eq hr hfn rfl]
  refine ⟨rfl, ?_, hcounts.eq_of_blocks, fun hnone => ?_⟩
  · rw [hcounts.eq_iff]
    simp [Tally.ext_iff]
  · rw [Ne, hcounts.eq_iff]
    exact (DeadCode.rounds_counts _ _ fn).2.2 hnone

theorem inline_reports (p : Inline.Policy) (hr : r.listing = .ofModule m)
    (hfn : m.functions[k]? = some fn) :
    ∃ fn', Run.Reports m k fn r ((inline p).onFunction env k r) fn' := by
  obtain ⟨g, r', hcalls, hr'⟩ := Run.callGraph?_ofModule hr
  obtain ⟨cache, rfl, -⟩ := Run.callGraph?_cache hcalls
  obtain ⟨cache', hcache'⟩ := Run.domTree_cache (r := { r with cache }) fn
  have hplace : r.listing.function? k = some fn := by rw [hr, Listing.function?_ofModule, hfn]
  have hfront : r.listing.front = m := by rw [hr, Listing.front_ofModule]
  have hcounts := Inline.run_counts p env.checker m g (({ r with cache } : Run σ).domTree fn).1 k fn
  refine ⟨_, ?_, ?_, hcounts.eq_of_blocks, fun _ => ?_⟩
  · simp only [onFunction, hplace, inlineFunction, hcalls, warnings_eq, hcache', Run.setFunction,
      hfront]
    simp [hr]
  · rw [hcounts.eq_iff]
    simp [onFunction, hplace, inlineFunction, hcalls, warnings_eq, hcache', Run.setFunction, hfront,
      Tally.ext_iff]
  · rw [Ne, hcounts.eq_iff]
    simp [onFunction, hplace, inlineFunction, hcalls, hcache', hfront, Nat.pos_iff_ne_zero]

/-- **What a step reports.** -/
theorem onFunction_reports (t : Transform) (hr : r.listing = .ofModule m)
    (hfn : m.functions[k]? = some fn) : ∃ fn', Run.Reports m k fn r (t.onFunction env k r) fn' := by
  cases t with
  | constFold => exact ⟨_, constFold_reports hr hfn⟩
  | deadCode n => exact ⟨_, deadCode_reports n hr hfn⟩
  | inline p => exact inline_reports p hr hfn

end Transform

end SsaOpt
