import SsaOpt.Pass.Builtin
import SsaOpt.Proofs.Canonical
import SsaOpt.Proofs.Search

/-!
# Passes on canonical forms

A pass that runs on the canonical form of a function does what it does on the function: it leaves
the canonical form of what it leaves there, and it fails in the same way. So what the canonical form
replaces is nothing that a pass looks at.
-/

namespace SsaOpt

/-! ## Changes of blocks -/

theorem map_modify_of_comm {α β : Type} {f : α → α} {g : β → β} {c : α → β}
    (h : ∀ x, c (f x) = g (c x)) (l : List α) (i : Nat) :
    (l.modify i f).map c = (l.map c).modify i g := by
  induction l generalizing i with
  | nil => simp
  | cons x l ih => cases i <;> simp [h, ih]

namespace Function

variable {fn : Function}

theorem canonical_withBlocks {blocks : List Block}
    (h : ({ fn with blocks } : Function).explicitEntry = fn.explicitEntry) :
    ({ fn with blocks } : Function).canonical =
      { fn.canonical with blocks := blocks.map Block.canonical } := by
  rw [canonical, h]
  rfl

/-- Other blocks that start with the same number. -/
theorem explicitEntry_withBlocks {blocks : List Block}
    (h : blocks.head?.map Block.id = fn.blocks.head?.map Block.id) :
    ({ fn with blocks } : Function).explicitEntry = fn.explicitEntry := by
  have hempty : blocks.isEmpty = fn.blocks.isEmpty := by
    cases blocks <;> cases hb : fn.blocks <;> simp_all
  rw [explicitEntry, explicitEntry, isExternal, isExternal, firstId, firstId, hempty, h]

theorem modifyBlock_canonical {f g : Block → Block} (h : ∀ b, (f b).canonical = g b.canonical)
    (hid : ∀ b, (f b).id = b.id) (i : Nat) :
    (fn.modifyBlock f i).canonical = fn.canonical.modifyBlock g i := by
  have hhead : (fn.blocks.modify i f).head?.map Block.id = fn.blocks.head?.map Block.id := by
    cases fn.blocks <;> cases i <;> simp [hid]
  rw [modifyBlock, canonical_withBlocks (explicitEntry_withBlocks hhead), map_modify_of_comm h]
  rfl

end Function

theorem FlowGraph.build_canonical (fn : Function) :
    FlowGraph.build fn.canonical = FlowGraph.build fn := by
  have hedges : (fn.canonical.blocks.map fun b => (b.id, b.successors)) =
      fn.blocks.map fun b => (b.id, b.successors) := by
    simp [Function.canonical, Function.comp_def]
  unfold build
  dsimp only
  rw [hedges, Function.entryBlock?_canonical]
  cases fn.entryBlock? <;> rfl

/-! ## Folding -/

namespace ConstFold

theorem foldInstr_canonical (consts : Consts) (i : Instr) :
    foldInstr consts i.canonical = foldInstr consts i := by
  cases i <;> rfl

/-- An instruction that folds is its own canonical form. -/
theorem canonical_of_foldInstr {consts : Consts} {i : Instr} {c : Const}
    (h : foldInstr consts i = some c) : i.canonical = i := by
  cases i with
  | alloca a => simp [foldInstr] at h
  | call c => simp [foldInstr] at h
  | _ => rfl

/-- A planned replacement, for the canonical form. -/
def onCanonical (e : Instr × Option Const) : Instr × Option Const := (e.1.canonical, e.2)

theorem plan_canonical (is : List Instr) (consts : Consts) :
    plan consts (is.map Instr.canonical) =
      ((plan consts is).1.map onCanonical, (plan consts is).2) := by
  induction is generalizing consts with
  | nil => rfl
  | cons i is ih =>
    rw [List.map_cons, plan, plan, foldInstr_canonical]
    dsimp only
    rw [ih]
    rfl

theorem canonical_of_mem_plan (is : List Instr) (consts : Consts) :
    ∀ e ∈ (plan consts is).1, e.2 ≠ none → e.1.canonical = e.1 := by
  induction is generalizing consts with
  | nil => simp [plan]
  | cons i is ih =>
    rw [plan]
    intro e he hne
    rcases List.mem_cons.1 he with rfl | he
    · obtain ⟨c, hc⟩ := Option.ne_none_iff_exists'.1 hne
      exact canonical_of_foldInstr hc
    · exact ih _ e he hne

theorem commit_canonical (refuse : Instr → Const → Option Failure)
    (planned : List (Instr × Option Const))
    (h : ∀ e ∈ planned, e.2 ≠ none → e.1.canonical = e.1) :
    commit refuse (planned.map onCanonical) =
      { commit refuse planned with
        instrs := (commit refuse planned).instrs.map Instr.canonical } := by
  induction planned with
  | nil => rfl
  | cons e rest ih =>
    have hrest := ih fun e he => h e (by simp [he])
    obtain ⟨i, _ | c⟩ := e
    · rw [List.map_cons, onCanonical, commit, commit, hrest]
      rfl
    · have hi : i.canonical = i := h (i, some c) (by simp) (by simp)
      rw [List.map_cons, onCanonical, hi, commit, commit, hrest]
      cases refuse i c with
      | none => rfl
      | some f => simp [hi, onCanonical, Function.comp_def]

theorem foldBlocks_canonical (refuse : Instr → Const → Option Failure) (places : List Nat)
    (consts : Consts) (fn : Function) :
    foldBlocks refuse places consts fn.canonical =
      { foldBlocks refuse places consts fn with
        function := (foldBlocks refuse places consts fn).function.canonical } := by
  induction places generalizing consts fn with
  | nil => rfl
  | cons k rest ih =>
    have hinstrs : (fn.canonical.blocks[k]?.map Block.instrs).getD [] =
        ((fn.blocks[k]?.map Block.instrs).getD []).map Instr.canonical := by
      rw [Function.canonical, List.getElem?_map]
      cases fn.blocks[k]? <;> rfl
    rw [foldBlocks, foldBlocks, hinstrs, plan_canonical]
    dsimp only
    rw [commit_canonical refuse _ (canonical_of_mem_plan _ _)]
    dsimp only
    generalize commit refuse (plan consts ((fn.blocks[k]?.map Block.instrs).getD [])).1 = done
    have hmodify : (fn.modifyBlock (fun b => { b with instrs := done.instrs }) k).canonical =
        fn.canonical.modifyBlock
          (fun b => { b with instrs := done.instrs.map Instr.canonical }) k :=
      Function.modifyBlock_canonical (f := fun b => { b with instrs := done.instrs })
        (g := fun b => { b with instrs := done.instrs.map Instr.canonical }) (fun _ => rfl)
        (fun _ => rfl) k
    rw [← hmodify, ih]
    cases done.failure <;> rfl

theorem run_canonical (checker : Option Checker) (fn : Function) :
    run checker fn.canonical =
      { run checker fn with function := (run checker fn).function.canonical } := by
  have horder : visitOrder fn.canonical = visitOrder fn := by
    have hlast : ∀ g : FlowGraph, (List.range fn.canonical.blocks.length).filter
        (fun i => fn.canonical.blocks[i]?.any fun b => !g.reachable b.id) =
        (List.range fn.blocks.length).filter
          fun i => fn.blocks[i]?.any fun b => !g.reachable b.id := by
      intro g
      simp [Function.canonical, Option.any_map]
    unfold visitOrder
    dsimp only
    rw [FlowGraph.build_canonical, hlast, funext fn.blockIndex?_canonical]
  have hconsts : initialConsts fn.canonical = initialConsts fn := by
    unfold initialConsts
    rw [Function.instrs_canonical, List.filterMap_map]
    congr 2
    funext i
    cases i <;> rfl
  rw [run, horder, hconsts, foldBlocks_canonical]
  rfl

end ConstFold

/-! ## Dead code -/

namespace Function

variable {fn : Function}

theorem succsOf_canonical : fn.canonical.succsOf = fn.succsOf := by
  funext id
  have hfind : (fn.canonical.blocks.reverse.find? fun b => b.id = id) =
      (fn.blocks.reverse.find? fun b => b.id = id).map Block.canonical := by
    rw [canonical, ← List.map_reverse]
    exact find?_canonical (fun b => decide (b = id)) fn.blocks.reverse
  rw [succsOf, succsOf, hfind, Option.map_map]
  exact congrArg (fun f => (Option.map f _).getD []) (funext Block.successors_canonical)

theorem reach_canonical : fn.canonical.reach = fn.reach := by
  have htargets : fn.canonical.blocks.flatMap Block.successors =
      fn.blocks.flatMap Block.successors := by
    rw [canonical, List.flatMap_map]
    exact congrArg (fun f => fn.blocks.flatMap f) (funext Block.successors_canonical)
  unfold reach
  rw [entryBlock?_canonical, succsOf_canonical, htargets]
  cases fn.entryBlock? <;> rfl

/-- There is a block to start with. -/
def HasEntry (fn : Function) : Prop := fn.entryBlock? ≠ none

theorem hasEntry_iff : fn.HasEntry ↔
    fn.isExternal = false ∧ (fn.entry ≠ 0 → fn.entry ∈ fn.blockIds) := by
  unfold HasEntry entryBlock?
  by_cases h0 : fn.entry = 0
  · cases hb : fn.blocks <;> simp [h0, isExternal, hb]
  · rw [if_neg h0]
    constructor
    · intro h
      obtain ⟨b, hb⟩ := Option.ne_none_iff_exists'.1 h
      obtain ⟨hmem, hid⟩ := mem_of_block? hb
      exact ⟨isExternal_of_mem hmem, fun _ => mem_blockIds.2 ⟨b, hmem, hid⟩⟩
    · rintro ⟨-, h⟩ hnone
      obtain ⟨b, hb, hid⟩ := mem_blockIds.1 (h h0)
      simpa [hid] using List.find?_eq_none.1 hnone b hb

end Function

namespace DeadCode

variable {dead dead' : Instr → Bool} {refuse refuse' : Instr → Option Failure}

theorem sweepInstrs_canonical (hdead : ∀ i, dead' i.canonical = dead i)
    (hrefuse : ∀ i, refuse' i.canonical = refuse i) (is : List Instr) :
    sweepInstrs dead' refuse' (is.map Instr.canonical) =
      { sweepInstrs dead refuse is with
        instrs := (sweepInstrs dead refuse is).instrs.map Instr.canonical } := by
  induction is with
  | nil => rfl
  | cons i is ih =>
    rw [List.map_cons, sweepInstrs, sweepInstrs, hdead, hrefuse, ih]
    cases dead i with
    | false => rfl
    | true => cases refuse i <;> rfl

theorem sweepBlocks_canonical (hdead : ∀ i, dead' i.canonical = dead i)
    (hrefuse : ∀ i, refuse' i.canonical = refuse i) (bs : List Block) :
    sweepBlocks dead' refuse' (bs.map Block.canonical) =
      { sweepBlocks dead refuse bs with
        blocks := (sweepBlocks dead refuse bs).blocks.map Block.canonical } := by
  induction bs with
  | nil => rfl
  | cons b bs ih =>
    have hb := sweepInstrs_canonical hdead hrefuse b.instrs
    rw [List.map_cons, sweepBlocks, sweepBlocks, ih]
    dsimp only [Block.canonical]
    rw [hb]
    cases (sweepInstrs dead refuse b.instrs).failure <;> rfl

theorem blockIds_sweepBlocks (bs : List Block) :
    (sweepBlocks dead refuse bs).blocks.map Block.id = bs.map Block.id := by
  induction bs with
  | nil => rfl
  | cons b bs ih =>
    rw [sweepBlocks]
    dsimp only
    split
    · rfl
    · simp [ih]

theorem keepBlocks_canonical (reach : List BlockId) (bs : List Block) :
    keepBlocks reach (bs.map Block.canonical) = (keepBlocks reach bs).map Block.canonical := by
  have hfilter : ∀ p : BlockId → Bool, (bs.map Block.canonical).filter (fun b => p b.id) =
      (bs.filter fun b => p b.id).map Block.canonical := by
    intro p
    rw [List.filter_map]
    rfl
  have hids : ((bs.map Block.canonical).filter fun b => !reach.contains b.id).map Block.id =
      (bs.filter fun b => !reach.contains b.id).map Block.id := by
    rw [hfilter fun id => !reach.contains id, List.map_map]
    rfl
  unfold keepBlocks
  dsimp only
  rw [hids, hfilter fun id => reach.contains id, List.map_map, List.map_map]
  refine List.map_congr_left fun b _ => ?_
  simp [Block.mapInstrs, Block.canonical, stripIncoming, Instr.mapIncoming_canonical,
    Function.comp_def]

theorem used_canonical (fn : Function) :
    (UseDef.build fn.canonical).used = (UseDef.build fn).used := by
  have huses : ∀ b : Block, UseDef.blockUses b.canonical = UseDef.blockUses b := by
    intro b
    have hterm : (b.term.map Term.canonical).map Term.operands = b.term.map Term.operands := by
      rw [Option.map_map]
      exact congrArg (b.term.map ·) (funext Term.operands_canonical)
    simp [UseDef.blockUses, Block.canonical, List.flatMap_map, hterm]
  simp [UseDef.build, Function.canonical, List.flatMap_map, huses]

/-- Rules for canonical forms that say what other rules say. -/
structure Rules.Agree (rules rules' : Rules) : Prop where
  critical : ∀ i, rules'.critical i.canonical = rules.critical i
  refuseInstr : ∀ i, rules'.refuseInstr i.canonical = rules.refuseInstr i
  refuseInBlock : ∀ b i, rules'.refuseInBlock b i.canonical = rules.refuseInBlock b i

variable {rules rules' : Rules} {fn : Function}

theorem isDead_canonical (h : rules.Agree rules') (i : Instr) :
    isDead rules'.critical (UseDef.build fn.canonical) i.canonical =
      isDead rules.critical (UseDef.build fn) i := by
  have hnop : decide (i.canonical = .nop) = decide (i = .nop) :=
    decide_eq_decide.2 i.canonical_eq_nop_iff
  unfold isDead UseDef.hasUsers UseDef.uses
  rw [h.critical, hnop, Instr.result_canonical, used_canonical]

theorem blockRefusal_canonical (h : rules.Agree rules') (bs : List Block) :
    blockRefusal rules' (bs.map Block.canonical) = blockRefusal rules bs := by
  unfold blockRefusal
  rw [List.findSome?_map]
  congr 1
  funext b
  simp only [Function.comp_apply, Block.canonical, List.findSome?_map]
  congr 1
  funext i
  exact h.refuseInBlock b.id i

/-- The block to start with stays. -/
theorem keepBlocks_reach (h : fn.HasEntry) :
    ({ fn with blocks := keepBlocks fn.reach fn.blocks } : Function).HasEntry ∧
      ({ fn with blocks := keepBlocks fn.reach fn.blocks } : Function).explicitEntry =
        fn.explicitEntry := by
  obtain ⟨e, he⟩ := Option.ne_none_iff_exists'.1 h
  have hreach := Function.entry_mem_reach he
  have hids : (keepBlocks fn.reach fn.blocks).map Block.id =
      (fn.blocks.filter fun b => fn.reach.contains b.id).map Block.id := by
    rw [keepBlocks, List.map_map]
    rfl
  by_cases h0 : fn.entry = 0
  · rw [Function.entryBlock?, if_pos h0] at he
    have hhead : (keepBlocks fn.reach fn.blocks).head?.map Block.id =
        fn.blocks.head?.map Block.id := by
      cases hblocks : fn.blocks with
      | nil => rfl
      | cons b rest =>
        obtain rfl : b = e := by simpa [hblocks] using he
        rw [hblocks] at hids
        rw [← List.head?_map, hids, List.filter_cons_of_pos (by simpa using hreach)]
        rfl
    refine ⟨fun hnone => ?_, Function.explicitEntry_withBlocks hhead⟩
    rw [Function.entryBlock?, if_pos h0] at hnone
    rw [hnone, he] at hhead
    cases hhead
  · obtain ⟨hmem, hid⟩ := Function.mem_of_block? (by rwa [Function.entryBlock?, if_neg h0] at he)
    have hkept : fn.entry ∈ (keepBlocks fn.reach fn.blocks).map Block.id := by
      rw [hids]
      exact List.mem_map.2 ⟨e, List.mem_filter.2 ⟨hmem, by simpa using hreach⟩, hid⟩
    obtain ⟨c, hc, -⟩ := List.mem_map.1 hkept
    have hbody : ({ fn with blocks := keepBlocks fn.reach fn.blocks } : Function).isExternal =
      false := Function.isExternal_of_mem hc
    refine ⟨Function.hasEntry_iff.2 ⟨hbody, fun _ => hkept⟩, ?_⟩
    rw [Function.explicitEntry, Function.explicitEntry, hbody, Function.isExternal_of_mem hmem]
    simp [h0]

/-- The first half of a round. -/
def sweep (rules : Rules) (fn : Function) : SweptBlocks :=
  sweepBlocks (isDead rules.critical (UseDef.build fn)) rules.refuseInstr fn.blocks

/-- The second half of a round, after some instructions have been removed. -/
def cut (rules : Rules) (instrs : Nat) (fn : Function) : Round :=
  let unreached := fn.blocks.filter fun b => !fn.reach.contains b.id
  if unreached.isEmpty then { function := fn, instrs }
  else
    match blockRefusal rules unreached with
    | some failure => { function := fn, instrs, failure }
    | none =>
      { function := { fn with blocks := keepBlocks fn.reach fn.blocks }
        instrs
        blocks := unreached.length }

theorem round_of_swept (h : (sweep rules fn).failure = none) :
    round rules fn =
      cut rules (sweep rules fn).removed { fn with blocks := (sweep rules fn).blocks } := by
  unfold sweep at h
  unfold round
  simp only [h]
  rfl

theorem round_of_refused {failure : Failure} (h : (sweep rules fn).failure = some failure) :
    round rules fn = { function := { fn with blocks := (sweep rules fn).blocks }
                       instrs := (sweep rules fn).removed, failure := some failure } := by
  unfold sweep at h
  unfold round sweep
  simp only [h]

theorem cut_canonical (h : rules.Agree rules') (hentry : fn.HasEntry) (n : Nat) :
    cut rules' n fn.canonical =
        { cut rules n fn with function := (cut rules n fn).function.canonical } ∧
      (cut rules n fn).function.HasEntry := by
  have hunreached : (fn.canonical.blocks.filter fun b => !fn.reach.contains b.id) =
      (fn.blocks.filter fun b => !fn.reach.contains b.id).map Block.canonical := by
    rw [Function.canonical, List.filter_map]
    rfl
  obtain ⟨hkept, hexplicit⟩ := keepBlocks_reach hentry
  unfold cut
  dsimp only
  rw [Function.reach_canonical, hunreached, List.isEmpty_map, blockRefusal_canonical h]
  split
  · exact ⟨rfl, hentry⟩
  · split
    · exact ⟨rfl, hentry⟩
    · refine ⟨?_, hkept⟩
      dsimp only
      rw [Function.canonical_withBlocks hexplicit, ← keepBlocks_canonical, List.length_map]
      rfl

/-- A round on the canonical form. -/
theorem round_canonical (h : rules.Agree rules') (hentry : fn.HasEntry) :
    round rules' fn.canonical =
        { round rules fn with function := (round rules fn).function.canonical } ∧
      (round rules fn).function.HasEntry := by
  have hsweep : sweep rules' fn.canonical =
      { sweep rules fn with blocks := (sweep rules fn).blocks.map Block.canonical } :=
    sweepBlocks_canonical (isDead_canonical h) h.refuseInstr fn.blocks
  have hids : (sweep rules fn).blocks.map Block.id = fn.blocks.map Block.id :=
    blockIds_sweepBlocks fn.blocks
  have hhead : (sweep rules fn).blocks.head?.map Block.id = fn.blocks.head?.map Block.id := by
    rw [← List.head?_map, hids, List.head?_map]
  have hcanonical := Function.canonical_withBlocks (Function.explicitEntry_withBlocks hhead)
  obtain ⟨hbody, hmem⟩ := Function.hasEntry_iff.1 hentry
  have hentry₁ : ({ fn with blocks := (sweep rules fn).blocks } : Function).HasEntry := by
    refine Function.hasEntry_iff.2 ⟨?_, fun h0 => ?_⟩
    · have hlength := congrArg List.length hids
      cases hb : (sweep rules fn).blocks <;> cases hb' : fn.blocks <;>
        simp_all [Function.isExternal]
    · rw [Function.blockIds, hids]
      exact hmem h0
  cases hfailure : (sweep rules fn).failure with
  | some failure =>
    rw [round_of_refused hfailure, round_of_refused (by rw [hsweep]; exact hfailure), hsweep]
    exact ⟨by rw [hcanonical], hentry₁⟩
  | none =>
    rw [round_of_swept hfailure, round_of_swept (by rw [hsweep]; exact hfailure), hsweep]
    dsimp only
    rw [← hcanonical]
    exact cut_canonical h hentry₁ _

theorem rounds_canonical (h : rules.Agree rules') (hentry : fn.HasEntry) (fuel : Nat)
    (left : Option Nat) :
    rounds rules' fuel left fn.canonical =
        { rounds rules fuel left fn with
          function := (rounds rules fuel left fn).function.canonical } ∧
      (rounds rules fuel left fn).function.HasEntry := by
  induction fuel generalizing fn left with
  | zero => exact ⟨rfl, hentry⟩
  | succ fuel ih =>
    obtain ⟨hround, hentry₁⟩ := round_canonical h hentry
    rw [rounds, rounds]
    split
    · exact ⟨rfl, hentry⟩
    dsimp only
    rw [hround]
    generalize round rules fn = r at hentry₁
    dsimp only
    cases r.failure with
    | some failure => exact ⟨rfl, hentry₁⟩
    | none =>
      dsimp only
      split
      · exact ⟨rfl, hentry₁⟩
      · obtain ⟨hlater, hentry₂⟩ := ih hentry₁ (left.map fun n => n - 1)
        rw [hlater]
        exact ⟨rfl, hentry₂⟩

theorem rulesFor_agree (checker : Checker) (hchecker : ∀ m i,
    checker.verifyRemoval m.canonical i.canonical = checker.verifyRemoval m i) (m : Module)
    (name : String) :
    (rulesFor (some checker) m name).Agree (rulesFor (some checker) m.canonical name) where
  critical i := Module.isCritical_canonical i
  refuseInstr i := by
    simp only [rulesFor, checkerRefusal, Module.isCritical_canonical, Instr.render_canonical,
      hchecker]
  refuseInBlock b i := by
    simp only [rulesFor, checkerRefusal, Module.isCritical_canonical, Instr.render_canonical,
      hchecker]

/-- Dead code elimination on the canonical form. -/
theorem run_canonical (m : Module) (limit : Int) (hentry : fn.HasEntry) :
    run (some .standard) m.canonical limit fn.canonical =
        { run (some .standard) m limit fn with
          function := (run (some .standard) m limit fn).function.canonical } ∧
      (run (some .standard) m limit fn).function.HasEntry := by
  have hremoval : ∀ (m : Module) (i : Instr),
      Checker.standard.verifyRemoval m.canonical i.canonical =
        Checker.standard.verifyRemoval m i := by
    intro m i
    have hcritical := Module.isCritical_canonical (m := m) i
    change removalErr? (some m.canonical) i.canonical = removalErr? (some m) i
    unfold removalErr?
    rw [Instr.isCritical_canonical, Instr.render_canonical]
    cases i with
    | call c =>
      simp only [Instr.canonical, Call.target_canonical] at hcritical ⊢
      rw [hcritical]
    | _ => rfl
  have hfuel : enoughRounds fn.canonical = enoughRounds fn := by
    rw [enoughRounds, enoughRounds, Function.size_canonical]
    simp [Function.canonical]
  rw [run, hfuel]
  exact rounds_canonical (rulesFor_agree .standard hremoval m fn.name) hentry _ _

end DeadCode

end SsaOpt
