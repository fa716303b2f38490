import SsaOpt.Proofs.CanonicalPasses
import SsaOpt.Proofs.CoupledRuns
import SsaOpt.Proofs.InlineDefects

/-!
# Inlining on canonical forms

Splicing the canonical form of a callee into the canonical form of a caller gives the canonical form
of what splicing the callee into the caller gives, if the callee follows the rules
(`Function.splice_canonical`). The verdicts on calls are the same, up to the words in which a callee
with defects is refused. So inlining does the same on canonical forms: `Inline.run_canonical`.
-/

namespace SsaOpt

/-! ## Fresh numbers -/

namespace Function

variable {fn : Function}

theorem raiseCounters_canonical : fn.canonical.raiseCounters = fn.raiseCounters.canonical := by
  have hids := fn.blockIds_canonical
  unfold blockIds at hids
  unfold raiseCounters
  dsimp only
  rw [definedIds_canonical, hids]
  rfl

theorem freshValue_canonical :
    fn.canonical.freshValue = (fn.freshValue.1, fn.freshValue.2.canonical) := by
  have hnext : fn.canonical.nextValue = fn.nextValue := rfl
  unfold freshValue
  rw [hnext, raiseCounters_canonical]
  split <;> rfl

theorem freshBlock_canonical :
    fn.canonical.freshBlock = (fn.freshBlock.1, fn.freshBlock.2.canonical) := by
  have hnext : fn.canonical.nextBlock = fn.nextBlock := rfl
  unfold freshBlock
  rw [hnext, raiseCounters_canonical]
  split <;> rfl

end Function

namespace Renaming

theorem addResults_canonical (is : List Instr) (r : Renaming) (fn : Function) :
    addResults (is.map Instr.canonical) r fn.canonical =
      ((addResults is r fn).1, (addResults is r fn).2.canonical) := by
  induction is generalizing r fn with
  | nil => rfl
  | cons i is ih =>
    rw [List.map_cons, addResults, addResults, Instr.result_canonical]
    split
    · exact ih r fn
    · rw [Function.freshValue_canonical]
      exact ih _ _

theorem addBlocks_canonical (bs : List Block) (r : Renaming) (fn : Function) :
    addBlocks (bs.map Block.canonical) r fn.canonical =
      ((addBlocks bs r fn).1, (addBlocks bs r fn).2.canonical) := by
  induction bs generalizing r fn with
  | nil => rfl
  | cons b bs ih =>
    rw [List.map_cons, addBlocks, addBlocks, Function.freshBlock_canonical]
    dsimp only [Block.canonical]
    rw [addResults_canonical]
    exact ih _ _

/-! ## Renaming -/

/-- No value stays no value. -/
def KeepsNone (r : Renaming) : Prop := ∀ e ∈ r.values, e.1 ≠ 0

theorem KeepsNone.value_zero {r : Renaming} (h : r.KeepsNone) : r.value 0 = 0 := by
  have hnone : r.values.lookup 0 = none :=
    List.lookup_eq_none_iff.2 fun e he => by simpa using (h e he).symm
  rw [value, hnone]
  rfl

theorem KeepsNone.addResults {r : Renaming} (h : r.KeepsNone) (is : List Instr) (fn : Function) :
    (Renaming.addResults is r fn).1.KeepsNone := by
  induction is generalizing r fn with
  | nil => exact h
  | cons i is ih =>
    rw [Renaming.addResults]
    split
    · exact ih h fn
    · next h0 =>
      refine ih (fun e he => ?_) _
      rcases List.mem_cons.1 he with rfl | he
      · exact h0
      · exact h e he

theorem KeepsNone.addBlocks {r : Renaming} (h : r.KeepsNone) (bs : List Block) (fn : Function) :
    (Renaming.addBlocks bs r fn).1.KeepsNone := by
  induction bs generalizing r fn with
  | nil => exact h
  | cons b bs ih => exact ih (KeepsNone.addResults (by exact h) b.instrs _) _

theorem keepsNone_ofArgs {params : List Param} (h : ∀ p ∈ params, p.id ≠ 0)
    (args : List ValueId) : (ofArgs params args).KeepsNone := by
  intro e he
  obtain ⟨p, hp, hid⟩ := List.mem_map.1 (List.of_mem_zip (List.mem_reverse.1 he)).1
  exact hid ▸ h p hp

theorem instr_canonical {r : Renaming} (h : r.KeepsNone) {i : Instr} (hi : i.Typed) :
    r.instr i.canonical = (r.instr i).canonical := by
  cases i with
  | call c =>
    by_cases h0 : c.result = 0
    · simp [instr, Instr.canonical, Call.canonical, Instr.setResult, Instr.mapOperands,
        Instr.mapPreds, Instr.mapIncoming, Instr.result, h0, h.value_zero]
    · have hty : c.ty ≠ none := hi.type_ne_none h0
      simp [instr, Instr.canonical, Call.canonical, Instr.setResult, Instr.mapOperands,
        Instr.mapPreds, Instr.mapIncoming, Instr.result, h0, printedType_eq_self hty]
  | _ => rfl

end Renaming

/-! ## Splicing -/

namespace Splice

theorem copyBlock_canonical {r : Renaming} (h : r.KeepsNone) (callee : String)
    (handler exit : BlockId) {b : Block} (hb : ∀ i ∈ b.instrs, i.Typed) :
    copyBlock r callee handler exit b.canonical =
      (copyBlock r callee handler exit b).canonical := by
  have hinstrs : b.canonical.instrs.map r.instr = (b.instrs.map r.instr).map Instr.canonical := by
    simp only [Block.canonical, List.map_map]
    exact List.map_congr_left fun i hi => Renaming.instr_canonical h (hb i hi)
  unfold copyBlock
  dsimp only
  rw [hinstrs]
  obtain ⟨id, name, instrs, _ | t, _⟩ := b
  · rfl
  · rcases t with ⟨v, _ | _⟩ | _ | _ | _ <;> rfl

theorem returned_canonical (r : Renaming) (b : Block) : returned r b.canonical = returned r b := by
  obtain ⟨id, name, instrs, _ | t, handler⟩ := b
  · rfl
  · rcases t with ⟨v, _ | _⟩ | _ | _ | _ <;> rfl

theorem copies_canonical {r : Renaming} (h : r.KeepsNone) {callee : Function}
    (hcallee : callee.Shape) (name : String) (handler exit : BlockId) :
    (callee.blocks.map Block.canonical).map (copyBlock r name handler exit) =
      (callee.blocks.map (copyBlock r name handler exit)).map Block.canonical := by
  rw [List.map_map, List.map_map]
  exact List.map_congr_left fun b hb => copyBlock_canonical h _ _ _
    fun i hi => hcallee.typed i (List.mem_flatMap.2 ⟨b, hb, hi⟩)

theorem merge_canonical (r : Renaming) (call : Call) (bs : List Block) :
    (if call.canonical.result = 0 then [] else [Instr.phi ⟨call.canonical.result,
      call.canonical.ty, (bs.map Block.canonical).filterMap (returned r)⟩]) =
      (if call.result = 0 then [] else [Instr.phi ⟨call.result, call.ty,
        bs.filterMap (returned r)⟩]).map Instr.canonical := by
  have hreturned : (bs.map Block.canonical).filterMap (returned r) =
      bs.filterMap (returned r) := by
    rw [List.filterMap_map]
    exact congrArg (List.filterMap · bs) (funext (returned_canonical r))
  rw [Call.result_canonical, hreturned]
  split
  · rfl
  · next h0 =>
    rw [call.ty_canonical h0]
    rfl

theorem enterFrom_canonical (old exit : BlockId) (fn : Function) (id : BlockId) :
    enterFrom old exit fn.canonical id = (enterFrom old exit fn id).canonical := by
  unfold enterFrom
  rw [Function.blockIndex?_canonical]
  cases fn.blockIndex? id with
  | none => rfl
  | some i =>
    refine (Function.modifyBlock_canonical (fun b => ?_) (fun _ => by rfl) i).symm
    simp [Block.mapInstrs, Block.canonical, Instr.mapPreds, Instr.mapIncoming_canonical,
      Function.comp_def]

theorem foldl_enterFrom_canonical (old exit : BlockId) (ts : List BlockId) (fn : Function) :
    ts.foldl (enterFrom old exit) fn.canonical =
      (ts.foldl (enterFrom old exit) fn).canonical := by
  induction ts generalizing fn with
  | nil => rfl
  | cons t ts ih =>
    rw [List.foldl_cons, List.foldl_cons, enterFrom_canonical, ih]

end Splice

namespace Function

variable {fn fn' callee : Function}

theorem Grows.isExternal (h : Grows fn fn') (hbody : fn.isExternal = false) :
    fn'.isExternal = false := by
  obtain ⟨bs, v, n, rfl, hsub⟩ := h
  cases hb : fn.blocks with
  | nil => simp [Function.isExternal, hb] at hbody
  | cons b rest =>
    cases bs with
    | nil => simp [blockIds, hb] at hsub
    | cons c rest' => rfl

theorem Grows.hasEntry (h : Grows fn fn') (hentry : fn.HasEntry) : fn'.HasEntry := by
  obtain ⟨hbody, hmem⟩ := hasEntry_iff.1 hentry
  refine hasEntry_iff.2 ⟨h.isExternal hbody, ?_⟩
  obtain ⟨bs, v, n, rfl, hsub⟩ := h
  exact fun h0 => hsub.subset (hmem h0)

theorem insertAfter_canonical (hbody : fn.isExternal = false) (id : BlockId) (new : List Block) :
    fn.canonical.insertAfter id (new.map Block.canonical) = (fn.insertAfter id new).canonical := by
  have hhead : ∀ i, (fn.blocks.take (i + 1) ++ new ++ fn.blocks.drop (i + 1)).head?.map Block.id =
      fn.blocks.head?.map Block.id := by
    intro i
    cases hb : fn.blocks with
    | nil => simp [isExternal, hb] at hbody
    | cons b rest => rfl
  have hlast : (fn.blocks ++ new).head?.map Block.id = fn.blocks.head?.map Block.id := by
    cases hb : fn.blocks with
    | nil => simp [isExternal, hb] at hbody
    | cons b rest => rfl
  unfold insertAfter
  rw [blockIndex?_canonical]
  cases fn.blockIndex? id with
  | none =>
    dsimp only
    rw [canonical_withBlocks (explicitEntry_withBlocks hlast), List.map_append]
    rfl
  | some i =>
    dsimp only
    rw [canonical_withBlocks (explicitEntry_withBlocks (hhead i)), List.map_append,
      List.map_append, List.map_take, List.map_drop]
    rfl

/-- **Splicing canonical forms** gives the canonical form. -/
theorem splice_canonical (hbody : fn.isExternal = false) (hcallee : callee.Shape)
    (position place : Nat) (call : Call) :
    fn.canonical.splice position place call.canonical callee.canonical =
      ((fn.splice position place call callee).1.canonical,
        (fn.splice position place call callee).2) := by
  have hblock : fn.canonical.blocks.getD position { id := 0 } =
      (fn.blocks.getD position { id := 0 }).canonical := by
    simp only [canonical, List.getD_eq_getElem?_getD, List.getElem?_map]
    cases fn.blocks[position]? <;> rfl
  have hargs : Renaming.ofArgs callee.canonical.params call.canonical.args =
      Renaming.ofArgs callee.params call.args := by
    rw [Renaming.ofArgs, paramIds_canonical, Call.args_canonical]
    rfl
  have htake : ∀ f : Function, f.canonical.modifyBlock
      (fun b => { b with instrs := b.instrs.take place }) position =
        (f.modifyBlock (fun b => { b with instrs := b.instrs.take place }) position).canonical :=
    fun f => (modifyBlock_canonical (fun b => by simp [Block.canonical]) (fun _ => by rfl) _).symm
  have hjump : ∀ (f : Function) (entry : BlockId), f.canonical.modifyBlock
      (fun b => { b with term := some (.br entry) }) position =
        (f.modifyBlock (fun b => { b with term := some (.br entry) }) position).canonical :=
    fun f entry => (modifyBlock_canonical (fun b => by rfl) (fun _ => by rfl) _).symm
  have hkeeps : ∀ f, (Renaming.addBlocks callee.blocks
      (Renaming.ofArgs callee.params call.args) f).1.KeepsNone :=
    (Renaming.keepsNone_ofArgs hcallee.param_ne_zero call.args).addBlocks callee.blocks
  have hcopies := fun f => Splice.copies_canonical (hkeeps f) hcallee
  unfold splice
  dsimp only
  rw [hblock, freshBlock_canonical, hargs, show callee.canonical.blocks =
    callee.blocks.map Block.canonical from rfl]
  dsimp only
  rw [htake, Renaming.addBlocks_canonical]
  dsimp only
  rw [Block.targets_canonical, Splice.foldl_enterFrom_canonical, entryId_canonical, hjump,
    Splice.merge_canonical]
  refine Prod.ext ?_ rfl
  refine Eq.trans ?_ (insertAfter_canonical ?_ _ _)
  · simp only [List.map_append, List.map_cons, List.map_nil, ← hcopies, Block.canonical,
      List.map_drop]
    rfl
  · refine Grows.isExternal (Grows.orThrows ?_ callee.mayThrow) hbody
    refine Grows.trans ?_ (modifyBlock_grows (fun _ => by rfl) _ _)
    refine Grows.trans ?_ (foldl_enterFrom_grows _ _ _ _)
    refine Grows.trans ?_ (addBlocks_counters _ _ _).grows
    exact fn.freshBlock_counters.grows.trans (modifyBlock_grows (fun _ => by rfl) _ _)

end Function

/-! ## Verdicts -/

/-- Two errors of the same kind, or of none. -/
def Err.SameKind (e e' : Err) : Prop := e'.kind? = e.kind?

/-- Two failures of the same kind, or none. -/
abbrev SameFailure : Option Failure → Option Failure → Prop :=
  Option.Rel (Failure.Alike Err.SameKind)

theorem SameFailure.refl (f : Option Failure) : SameFailure f f :=
  Manager.rel_refl (E := Err.SameKind) (fun _ => Eq.refl _) f

/-- Two failures that are alike one and the same. -/
theorem SameFailure.of_common {f f' g : Option Failure} (h : SameFailure f g)
    (h' : SameFailure f' g) : SameFailure f f' := by
  cases h with
  | none =>
    cases h'
    exact .none
  | some h =>
    cases h' with
    | some h' =>
      cases h with
      | error he =>
        cases h' with
        | error he' => exact .some (.error (he'.symm.trans he))
      | fault =>
        cases h'
        exact .some .fault

namespace Inline

variable {p : Policy} {m : Module} {g : CallGraph} {self : Nat} {function : String}

theorem compatible_canonical (call : Call) (callee : Function) :
    compatible call.canonical callee.canonical = compatible call callee := by
  have hparams : callee.canonical.params.length = callee.params.length := by
    simp [Function.canonical]
  have hret : callee.canonical.ret = callee.ret := rfl
  unfold compatible
  rw [Call.args_canonical, Call.result_canonical, hparams, hret]
  by_cases h0 : call.result = 0
  · simp [h0]
  · rw [call.ty_canonical h0]

theorem ineligible?_canonical (callee : Function) :
    p.ineligible? g callee.canonical = p.ineligible? g callee := by
  have hunchecked : performsUnchecked callee.canonical = performsUnchecked callee := by
    unfold performsUnchecked
    rw [Function.instrs_canonical, List.any_map]
    exact congrArg (callee.unchecked || callee.instrs.any ·) (funext Instr.isUnchecked_canonical)
  unfold Policy.ineligible?
  rw [Function.isExternal_canonical, Function.size_canonical, hunchecked]
  rfl

/-- A callee that is refused for its defects has other defects in its canonical form, but it has
some. -/
theorem refusal_canonical (callee : Function) :
    SameFailure (refusal p (some .standard) function callee)
      (refusal p (some .standard) function callee.canonical) := by
  have hnone : inliningErr? callee.canonical = none ↔ inliningErr? callee = none := by
    rw [Function.inliningErr?_eq_none_iff, Function.inliningErr?_eq_none_iff,
      Function.isExternal_canonical]
    exact and_congr_right Function.sound_canonical_iff
  have hcritical : callee.canonical.critical = callee.critical := rfl
  have hthrow : callee.canonical.mayThrow = callee.mayThrow := rfl
  unfold refusal
  dsimp only
  rw [hcritical, hthrow]
  split
  · exact .some (.error rfl)
  · split
    · exact .some (.error rfl)
    · change SameFailure ((inliningErr? callee).map _) ((inliningErr? callee.canonical).map _)
      cases h : inliningErr? callee with
      | none =>
        rw [hnone.2 h]
        exact .none
      | some e =>
        cases h' : inliningErr? callee.canonical with
        | none => simp [hnone.1 h'] at h
        | some e' => exact .some (.error rfl)

/-- Verdicts on a call and on its canonical form. -/
inductive Verdict.Alike : Verdict → Verdict → Prop
  | pass : Alike .pass .pass
  | warn (callee : String) (reason : Ineligible) : Alike (.warn callee reason) (.warn callee reason)
  | fail {f f' : Failure} (h : Failure.Alike Err.SameKind f f') : Alike (.fail f) (.fail f')
  | splice {callee : Function} (h : callee.Shape) :
    Alike (.splice callee) (.splice callee.canonical)

theorem judge_canonical (call : Call) :
    (judge p (some .standard) m g self function call).Alike
      (judge p (some .standard) m.canonical g self function call.canonical) := by
  unfold judge
  rw [Call.target_canonical, Module.lookup?_canonical]
  cases m.lookup? call.target with
  | none => exact .pass
  | some e =>
    obtain ⟨i, callee⟩ := e
    simp only [Option.map_some]
    rw [compatible_canonical, Function.isExternal_canonical, ineligible?_canonical]
    split
    · exact .pass
    cases p.ineligible? g callee with
    | some reason => exact .warn callee.name reason
    | none =>
      have hrefusal := @refusal_canonical p function callee
      dsimp only
      cases hx : refusal p (some .standard) function callee with
      | some f =>
        rw [hx] at hrefusal
        generalize refusal p (some .standard) function callee.canonical = y at hrefusal
        cases hrefusal with
        | some hf => exact .fail hf
      | none =>
        rw [hx] at hrefusal
        generalize refusal p (some .standard) function callee.canonical = y at hrefusal
        cases hrefusal with
        | none => exact .splice (sound_of_refusal hx).shape

/-! ## Scans -/

/-- Scans that stop at the same place. -/
inductive Stop.Alike : Stop → Stop → Prop
  | failed {f f' : Failure} (h : Failure.Alike Err.SameKind f f') : Alike (.failed f) (.failed f')
  | site {callee : Function} (h : callee.Shape) (position place : Nat) (call : Call) :
    Alike (.site position place call callee)
      (.site position place call.canonical callee.canonical)

/-- Scans with the same warnings that stop at the same place. -/
structure Scan.Alike (s s' : Scan) : Prop where
  warnings_eq : s'.warnings = s.warnings
  stop : Option.Rel Stop.Alike s.stop s'.stop

variable {judge judge' : Call → Verdict}

theorem scanInstrs_canonical (hjudge : ∀ call, (judge call).Alike (judge' call.canonical))
    (position place : Nat) (is : List Instr) :
    (scanInstrs judge position place is).Alike
      (scanInstrs judge' position place (is.map Instr.canonical)) := by
  induction is generalizing place with
  | nil => exact ⟨rfl, .none⟩
  | cons i is ih =>
    cases i with
    | call call =>
      have hcall := hjudge call
      simp only [List.map_cons, Instr.canonical, scanInstrs]
      generalize judge call = v at hcall
      generalize judge' call.canonical = v' at hcall
      cases hcall with
      | pass => exact ih (place + 1)
      | warn callee reason =>
        obtain ⟨hwarnings, hstop⟩ := ih (place + 1)
        exact ⟨congrArg (_ :: ·) hwarnings, hstop⟩
      | fail h => exact ⟨rfl, .some (.failed h)⟩
      | splice h => exact ⟨rfl, .some (.site h position place call)⟩
    | _ => exact ih (place + 1)

theorem scanBlocks_canonical (hjudge : ∀ call, (judge call).Alike (judge' call.canonical))
    (live : List BlockId) (position : Nat) (bs : List Block) :
    (scanBlocks judge live position bs).Alike
      (scanBlocks judge' live position (bs.map Block.canonical)) := by
  induction bs generalizing position with
  | nil => exact ⟨rfl, .none⟩
  | cons b bs ih =>
    rw [List.map_cons, scanBlocks, scanBlocks, Block.id_canonical]
    split
    · have hb := scanInstrs_canonical hjudge position 0 b.instrs
      change Scan.Alike _ (scanInstrs judge' position 0 b.canonical.instrs) at hb
      dsimp only
      generalize scanInstrs judge position 0 b.instrs = s at hb
      generalize scanInstrs judge' position 0 b.canonical.instrs = s' at hb
      obtain ⟨warnings, stop⟩ := s
      obtain ⟨warnings', stop'⟩ := s'
      obtain ⟨hwarnings, hstop⟩ := hb
      obtain rfl : warnings' = warnings := hwarnings
      cases hstop with
      | some h => exact ⟨rfl, .some h⟩
      | none =>
        obtain ⟨hlater, hstop⟩ := ih (position + 1)
        exact ⟨congrArg (warnings' ++ ·) hlater, hstop⟩
    · exact ih (position + 1)

/-! ## Runs -/

/-- What becomes of a function and of its canonical form. -/
structure Result.Alike (r r' : Result) : Prop where
  function_eq : r'.function = r.function.canonical
  inlined_eq : r'.inlined = r.inlined
  warnings_eq : r'.warnings = r.warnings
  failure : SameFailure r.failure r'.failure
  hasEntry : r.function.HasEntry

theorem replaceCalls_canonical (hjudge : ∀ call, (judge call).Alike (judge' call.canonical))
    (fuel : Nat) (live : List BlockId) (position : Nat) {fn : Function} (hentry : fn.HasEntry) :
    (replaceCalls judge fuel live position fn).Alike
      (replaceCalls judge' fuel live position fn.canonical) := by
  induction fuel generalizing live position fn with
  | zero => exact ⟨rfl, rfl, rfl, .none, hentry⟩
  | succ fuel ih =>
    have hscan := scanBlocks_canonical hjudge live position (fn.blocks.drop position)
    rw [List.map_drop] at hscan
    change Scan.Alike _ (scanBlocks judge' live position (fn.canonical.blocks.drop position))
      at hscan
    rw [replaceCalls, replaceCalls]
    dsimp only
    generalize scanBlocks judge live position (fn.blocks.drop position) = s at hscan
    generalize scanBlocks judge' live position (fn.canonical.blocks.drop position) = s' at hscan
    obtain ⟨warnings, stop⟩ := s
    obtain ⟨warnings', stop'⟩ := s'
    obtain ⟨hwarnings, hstop⟩ := hscan
    obtain rfl : warnings' = warnings := hwarnings
    cases hstop with
    | none => exact ⟨rfl, rfl, rfl, .none, hentry⟩
    | some hstop =>
      cases hstop with
      | failed h => exact ⟨rfl, rfl, rfl, .some h, hentry⟩
      | @site callee hcallee block place call =>
        have hbody := (Function.hasEntry_iff.1 hentry).1
        have hgrown : (fn.splice block place call callee).1.HasEntry :=
          (fn.splice_grows block place call callee).hasEntry (by exact hentry)
        dsimp only
        rw [Function.splice_canonical hbody hcallee]
        generalize fn.splice block place call callee = x at hgrown
        obtain ⟨fn₁, exit⟩ := x
        have hlength : fn₁.canonical.blocks.length = fn₁.blocks.length := by
          simp [Function.canonical]
        dsimp only at hgrown ⊢
        rw [Function.blockIndex?_canonical, hlength]
        obtain ⟨hfunction, hinlined, hlater, hfailure, hentry₁⟩ :=
          ih (exit :: live) ((fn₁.blockIndex? exit).getD fn₁.blocks.length) hgrown
        exact ⟨hfunction, congrArg (· + 1) hinlined, congrArg (warnings' ++ ·) hlater, hfailure,
          hentry₁⟩

theorem callTargets_canonical (fn : Function) :
    CallGraph.callTargets fn.canonical = CallGraph.callTargets fn := by
  unfold CallGraph.callTargets
  rw [Function.instrs_canonical, List.filterMap_map]
  congr 1
  funext i
  cases i <;> simp [Instr.canonical]

/-- **Inlining on the canonical form.** -/
theorem run_canonical (p : Policy) (m : Module) (g : CallGraph) (t : DomTree) (self : Nat)
    {fn : Function} (hentry : fn.HasEntry) :
    (run p (some .standard) m g t self fn).Alike
      (run p (some .standard) m.canonical g t self fn.canonical) := by
  have hlive : liveBlocks t fn.canonical = liveBlocks t fn := by
    have hids := fn.blockIds_canonical
    unfold Function.blockIds at hids
    rw [liveBlocks, liveBlocks, hids, Function.entryId_canonical]
  rw [run, run, callCount, callCount, callTargets_canonical, hlive]
  exact replaceCalls_canonical judge_canonical _ _ _ hentry

end Inline

end SsaOpt
