import SsaOpt.Pipeline.Basic
import SsaOpt.Proofs.BuiltinRuns

/-!
# What becomes of critical instructions

Folding and dead code elimination leave every critical instruction where it is. Inlining asks for
the flags of the function that is called and not for the effect of the call, so it replaces calls
that are critical themselves. `Inline.Policy.mayReplace` says which calls these can be, from what no
pass ever changes of a function (`Function.SameHead`). All other critical instructions are still in
their functions after a run, as they were and in their order: `Pipeline.run_retains_critical`.
-/

namespace SsaOpt

/-! ## Instructions that stay -/

/-- The instructions that `K` asks for are all there afterwards, and in the same order. -/
def Retains (K : Instr → Bool) (is is' : List Instr) : Prop := (is.filter K).Sublist is'

namespace Retains

variable {K : Instr → Bool} {is is' is'' js js' : List Instr}

theorem refl (K : Instr → Bool) (is : List Instr) : Retains K is is := List.filter_sublist

theorem trans (h : Retains K is is') (h' : Retains K is' is'') : Retains K is is'' := by
  have hkept := List.Sublist.filter K h
  rw [List.filter_filter] at hkept
  simp only [Bool.and_self] at hkept
  exact hkept.trans h'

theorem append (h : Retains K is is') (h' : Retains K js js') :
    Retains K (is ++ js) (is' ++ js') := by
  rw [Retains, List.filter_append]
  exact List.Sublist.append h h'

theorem after (h : Retains K is is') (new : List Instr) : Retains K is (new ++ is') :=
  List.Sublist.trans h (List.sublist_append_right _ _)

theorem skip {i : Instr} (h : Retains K is is') (hi : K i = false) : Retains K (i :: is) is' := by
  rw [Retains, List.filter_cons_of_neg (by simp [hi])]
  exact h

theorem of_forall₂ (h : List.Forall₂ (fun i j => K i = true → j = i) is is') :
    Retains K is is' := by
  induction h with
  | nil => exact refl K []
  | @cons i j _ _ hij _ ih =>
    cases hi : K i with
    | false => exact (ih.skip hi).after [j]
    | true =>
      rw [hij hi]
      exact (refl K [i]).append ih

theorem map {f : Instr → Instr} (hf : ∀ i, K i = true → f i = i) (is : List Instr) :
    Retains K is (is.map f) :=
  of_forall₂ (List.forall₂_map_right_iff.2 (List.forall₂_same.2 fun i _ => hf i))

/-- Other phi entries. -/
theorem mapIncoming (hphi : ∀ i, K i = true → i.isPhi = false)
    (f : List Incoming → List Incoming) (is : List Instr) :
    Retains K is (is.map (Instr.mapIncoming f)) := by
  refine map (fun i hi => ?_) is
  cases i with
  | phi p => cases hphi _ hi
  | _ => rfl

theorem flatMap {bs bs' : List Block}
    (h : List.Forall₂ (fun b b' => Retains K b.instrs b'.instrs) bs bs') :
    Retains K (bs.flatMap Block.instrs) (bs'.flatMap Block.instrs) := by
  induction h with
  | nil => exact refl K []
  | cons hb _ ih => exact hb.append ih

end Retains

/-! ## Functions -/

namespace Function

/-- What passes leave of a function, its blocks apart: the head is the same, but the function may
come to throw. -/
structure SameHead (fn fn' : Function) : Prop where
  name_eq : fn'.name = fn.name
  params_eq : fn'.params = fn.params
  ret_eq : fn'.ret = fn.ret
  critical_eq : fn'.critical = fn.critical
  unchecked_eq : fn'.unchecked = fn.unchecked
  throws : fn.mayThrow = true → fn'.mayThrow = true
  bodiless : fn.isExternal = true → fn'.isExternal = true

theorem SameHead.refl (fn : Function) : SameHead fn fn := ⟨rfl, rfl, rfl, rfl, rfl, id, id⟩

theorem SameHead.trans {fn fn' fn'' : Function} (h : SameHead fn fn') (h' : SameHead fn' fn'') :
    SameHead fn fn'' where
  name_eq := h'.name_eq.trans h.name_eq
  params_eq := h'.params_eq.trans h.params_eq
  ret_eq := h'.ret_eq.trans h.ret_eq
  critical_eq := h'.critical_eq.trans h.critical_eq
  unchecked_eq := h'.unchecked_eq.trans h.unchecked_eq
  throws := h'.throws ∘ h.throws
  bodiless := h'.bodiless ∘ h.bodiless

/-- A function after passes, with all the instructions that `K` asks for in a function of its
name. -/
structure Retained (K : String → Instr → Bool) (fn fn' : Function) : Prop extends
    SameHead fn fn' where
  instrs : Retains (K fn.name) fn.instrs fn'.instrs

variable {K : String → Instr → Bool} {fn fn' fn'' : Function}

theorem Retained.refl (K : String → Instr → Bool) (fn : Function) : Retained K fn fn :=
  ⟨.refl fn, .refl _ _⟩

theorem Retained.trans (h : Retained K fn fn') (h' : Retained K fn' fn'') :
    Retained K fn fn'' := by
  refine ⟨h.toSameHead.trans h'.toSameHead, h.instrs.trans ?_⟩
  rw [← h.name_eq]
  exact h'.instrs

/-- What stays when some blocks and some instructions go. -/
theorem retains_restrict {K : Instr → Bool} {live : BlockId → Bool} {keep : Instr → Bool}
    (hphi : ∀ i, K i = true → i.isPhi = false)
    (hlive : ∀ b ∈ fn.blocks, live b.id = false → ∀ i ∈ b.instrs, K i = false)
    (hkeep : ∀ i, K i = true → keep i = true) :
    Retains K fn.instrs (fn.restrict live keep).instrs := by
  have hblock : ∀ b : Block, Retains K b.instrs (b.restrict live keep).instrs := by
    intro b
    have hfilter : Retains K b.instrs (b.instrs.filter keep) :=
      List.monotone_filter_right b.instrs hkeep
    exact hfilter.trans (.mapIncoming hphi _ _)
  unfold Function.instrs restrict
  dsimp only
  generalize fn.blocks = blocks at hlive
  induction blocks with
  | nil => exact .refl K []
  | cons b rest ih =>
    have hrest := ih fun c hc => hlive c (by simp [hc])
    cases hb : live b.id with
    | true =>
      rw [List.filter_cons_of_pos (by exact hb)]
      exact (hblock b).append hrest
    | false =>
      rw [List.filter_cons_of_neg (by simp [hb]), List.flatMap_cons]
      have hgone : b.instrs.filter K = [] :=
        List.filter_eq_nil_iff.2 fun i hi => by simp [hlive b (by simp) hb i hi]
      rw [Retains, List.filter_append, hgone]
      exact hrest

end Function

/-! ### A splice -/

theorem Inline.Spliced.sameHead {judge : Call → Verdict} {fn fn' : Function}
    {rs : List Replacement} (h : Spliced judge fn rs fn') :
    fn.SameHead fn' ∧ fn.blockIds.Sublist fn'.blockIds := by
  induction h with
  | nil fn => exact ⟨.refl fn, .refl _⟩
  | @cons r rs fn' b hblock _ _ _ ih =>
    refine ⟨.trans ?_ ih.1, (r.caller.blockIds_splice _ _ _ _).trans ih.2⟩
    obtain ⟨bs, v, n, heq, -⟩ := r.caller.splice_grows r.position r.place r.call r.callee
    rw [Replacement.result, heq]
    refine ⟨rfl, rfl, rfl, rfl, rfl, fun h => by simp [h], fun hext => ?_⟩
    rw [List.isEmpty_iff.1 hext] at hblock
    cases hblock

section Splice

variable {K : Instr → Bool} (hphi : ∀ i, K i = true → i.isPhi = false)

include hphi

/-- What stays when a call is replaced that nobody asks for. -/
theorem Function.retains_splice {fn : Function} (hids : fn.blockIds.Nodup) {position place : Nat}
    {b : Block} (hb : fn.blocks[position]? = some b) {call : Call}
    (hcall : b.instrs[place]? = some (.call call)) (hK : K (.call call) = false)
    (callee : Function) :
    Retains K fn.instrs (fn.splice position place call callee).1.instrs := by
  obtain ⟨hblocks, hposition⟩ := eq_take_cons_drop hb
  obtain ⟨f, copies, merge, hf, hinstrs⟩ := splice_instrs hids hblocks place call callee
  have hother : ∀ c, Retains K c.instrs (f c).instrs := by
    intro c
    obtain h | ⟨g, h⟩ := hf c
    · rw [h]
      exact .refl K _
    · rw [h]
      exact .mapIncoming hphi _ _
  have hothers : ∀ bs : List Block, Retains K (bs.flatMap Block.instrs)
      ((bs.map f).flatMap Block.instrs) := fun bs =>
    .flatMap (List.forall₂_map_right_iff.2 (List.forall₂_same.2 fun c _ => hother c))
  have hsource : fn.instrs = (fn.blocks.take position).flatMap Block.instrs ++
      (b.instrs.take place ++ .call call :: (b.instrs.drop (place + 1) ++
        (fn.blocks.drop (position + 1)).flatMap Block.instrs)) := by
    conv_lhs => rw [Function.instrs, hblocks, List.flatMap_append, List.flatMap_cons,
      (eq_take_cons_drop hcall).1, List.append_assoc, List.cons_append]
  rw [hposition] at hinstrs
  rw [hinstrs, hsource]
  refine (hothers _).append ((hother { b with instrs := b.instrs.take place }).append ?_)
  exact ((((Retains.refl K _).append (hothers _)).after merge).after copies).skip hK

/-- What stays when calls are replaced one after the other, if all blocks have numbers of their own
in the end. A splice takes no number away, so they have them on the way. -/
theorem Inline.Spliced.retains {judge : Call → Verdict} {fn fn' : Function}
    {rs : List Replacement} (h : Spliced judge fn rs fn') (hids : fn'.blockIds.Nodup)
    (hK : ∀ c callee, judge c = .splice callee → K (.call c) = false) :
    Retains K fn.instrs fn'.instrs := by
  induction h with
  | nil fn => exact .refl K _
  | @cons r rs fn' b hblock hcall hjudge hrest ih =>
    have hsub := (r.caller.blockIds_splice _ _ _ _).trans hrest.sameHead.2
    exact (r.caller.retains_splice hphi (hids.sublist hsub) hblock hcall (hK _ _ hjudge) _).trans
      (ih hids)

end Splice

/-! ## Transformations -/

variable {K : String → Instr → Bool} {m : Module} {fn fn' : Function}

namespace Module

/-- A phi is never critical. -/
theorem not_isPhi_of_isCritical {i : Instr} (h : m.isCritical i = true) : i.isPhi = false := by
  cases i with
  | phi p => cases h
  | _ => rfl

theorem isCritical_or_isCall {i : Instr} (h : m.isCritical i = true) :
    i.isCritical = true ∨ i.isCall = true := by
  cases i with
  | call c => exact Or.inr rfl
  | _ => exact Or.inl (by simpa [isCritical] using h)

end Module

theorem ConstFold.Folded.retained (h : Folded fn fn')
    (hK : ∀ i, K fn.name i = true → m.isCritical i = true) : fn.Retained K fn' := by
  refine ⟨?_, .of_forall₂ (h.instrs.imp fun i j hij hi => ?_)⟩
  · have hext := h.isExternal_eq
    obtain ⟨bs, rfl, -⟩ := h
    exact ⟨rfl, rfl, rfl, rfl, rfl, id, hext.trans⟩
  · exact hij.eq_of_critical (Module.isCritical_or_isCall (hK i hi))

namespace DeadCode

variable {checker : Option Checker} {name : String}

/-- What is dead is not critical, and blocks with critical instructions do not go. -/
theorem round_retains {K : Instr → Bool} (hK : ∀ i, K i = true → m.isCritical i = true)
    (h : (round (rulesFor checker m name) fn).failure = none) :
    Retains K fn.instrs (round (rulesFor checker m name) fn).function.instrs := by
  have hphi : ∀ i, K i = true → i.isPhi = false := fun i hi =>
    Module.not_isPhi_of_isCritical (hK i hi)
  rw [(round_of_none h).1]
  refine (Function.retains_restrict hphi (fun _ _ hlive => by cases hlive) fun i hi => ?_).trans
    (Function.retains_restrict hphi (fun b hb hlive i hi => ?_) fun _ _ => rfl)
  · simp [isDead, rulesFor, hK i hi]
  · have hnone := refuseInBlock_of_round h hb (by simpa using hlive) hi
    by_contra hi'
    simp [rulesFor, hK i (by simpa using hi')] at hnone

theorem rounds_retains {K : Instr → Bool} (hK : ∀ i, K i = true → m.isCritical i = true)
    (fuel : Nat) (limit : Option Nat) (fn : Function)
    (h : (rounds (rulesFor checker m name) fuel limit fn).failure = none) :
    Retains K fn.instrs (rounds (rulesFor checker m name) fuel limit fn).function.instrs := by
  induction fuel generalizing limit fn with
  | zero => exact .refl K _
  | succ fuel ih =>
    rw [rounds] at h ⊢
    split at h
    · next hlimit =>
      rw [if_pos hlimit]
      exact .refl K _
    · next hlimit =>
      rw [if_neg hlimit]
      dsimp only at h ⊢
      cases hf : (round (rulesFor checker m name) fn).failure with
      | some f => simp [hf] at h
      | none =>
        simp only [hf] at h ⊢
        split at h
        · next hzero =>
          rw [if_pos hzero]
          exact round_retains hK hf
        · next hzero =>
          rw [if_neg hzero]
          exact (round_retains hK hf).trans (ih _ _ h)

theorem run_retained {n : Int} (hids : fn.blockIds.Nodup) (hbody : fn.isExternal = false)
    (hK : ∀ i, K fn.name i = true → m.isCritical i = true)
    (h : (run checker m n fn).failure = none) : fn.Retained K (run checker m n fn).function := by
  refine ⟨?_, rounds_retains hK _ _ fn h⟩
  obtain ⟨live, keep, -, -, hfunction⟩ := run_kept hids h
  rw [hfunction]
  exact ⟨rfl, rfl, rfl, rfl, rfl, id, fun hext => by simp [hext] at hbody⟩

end DeadCode

namespace Inline

variable {p : Policy} {checker : Option Checker}

/-- Whether inlining may come to replace an instruction of a function, by what no pass changes. It
is a call that fits another function, and that function has a body, is neither critical nor
unchecked, and does not throw where exceptions are disabled. -/
def Policy.mayReplace (p : Policy) (m : Module) (caller : String) : Instr → Bool
  | .call c => c.target ≠ caller && (m.function? c.target).any fun callee =>
      compatible c callee && !callee.isExternal && !callee.critical && !callee.unchecked &&
        (p.exceptions || !callee.mayThrow)
  | _ => false

theorem of_refusal {function : String} {callee : Function}
    (h : refusal p checker function callee = none) :
    callee.critical = false ∧ (p.exceptions || !callee.mayThrow) = true := by
  unfold refusal at h
  dsimp only at h
  split at h
  · cases h
  · next hcritical =>
    split at h
    · cases h
    · next hthrows =>
      refine ⟨by simpa using hcritical, ?_⟩
      revert hthrows
      cases callee.mayThrow <;> cases p.exceptions <;> decide

/-- A call that is replaced is one that may be. -/
theorem mayReplace_of_judge {g : CallGraph} {k : Nat} {c : Call} {callee : Function}
    (hnames : m.DistinctNames) (hfn : m.functions[k]? = some fn)
    (h : judge p checker m g k fn.name c = .splice callee) :
    p.mayReplace m fn.name (.call c) = true := by
  obtain ⟨⟨j, hj, hlookup⟩, hcompatible, hbody, hsafe, hunchecked⟩ := judge_splice h
  obtain ⟨hcritical, hthrows⟩ := of_refusal hsafe
  obtain ⟨hfunction, hget⟩ := Module.function?_of_lookup? hlookup
  have htarget : c.target ≠ fn.name := by
    intro htarget
    have hname : callee.name = c.target := by simpa using List.find?_some hfunction
    have hlt : j < (m.functions.map Function.name).length := by
      simpa using (List.getElem?_eq_some_iff.1 hget).1
    refine hj ((List.getElem?_inj hlt hnames.2).1 ?_)
    rw [List.getElem?_map, List.getElem?_map, hget, hfn, Option.map_some, Option.map_some, hname,
      htarget]
  rw [performsUnchecked, Bool.or_eq_false_iff] at hunchecked
  simp [Policy.mayReplace, htarget, hfunction, hcompatible, hbody, hcritical, hunchecked.1, hthrows]

/-- What may be replaced after some passes might have been before. -/
theorem mayReplace_of_sameHead {m' : Module} {caller : String} {i : Instr}
    (hhead : List.Forall₂ Function.SameHead m.functions m'.functions)
    (h : p.mayReplace m' caller i = true) : p.mayReplace m caller i = true := by
  cases i with
  | call c =>
    simp only [Policy.mayReplace, Bool.and_eq_true, decide_eq_true_eq, Option.any_eq_true] at h ⊢
    obtain ⟨htarget, callee', hfunction, hcallee⟩ := h
    obtain ⟨⟨⟨⟨hcompatible, hbody⟩, hcritical⟩, hunchecked⟩, hthrows⟩ := hcallee
    obtain ⟨callee, hfound, hsame⟩ := forall₂_find? (R := flip Function.SameHead)
      (q := fun fn => fn.name = c.target) (fun _ _ h => by rw [h.name_eq])
      (List.Forall₂.flip (R := flip Function.SameHead) hhead) hfunction
    refine ⟨htarget, callee, hfound, ⟨⟨⟨?_, ?_⟩, ?_⟩, ?_⟩, ?_⟩
    · rw [compatible, ← hsame.params_eq, ← hsame.ret_eq]
      exact hcompatible
    · cases hexternal : callee.isExternal with
      | false => rfl
      | true => simp [hsame.bodiless hexternal] at hbody
    · rw [← hsame.critical_eq]
      exact hcritical
    · rw [← hsame.unchecked_eq]
      exact hunchecked
    · cases hthrow : callee.mayThrow with
      | false => simp
      | true => simpa [hsame.throws hthrow] using hthrows
  | _ => cases h

end Inline

/-- The blocks of a verified module have numbers of their own. -/
theorem Module.blockIds_nodup (hm : moduleErr? (some m) = none) (hfn : fn ∈ m.functions) :
    fn.blockIds.Nodup := by
  cases hext : fn.isExternal with
  | true =>
    rw [Function.blockIds, List.isEmpty_iff.1 hext]
    exact List.nodup_nil
  | false => exact (wellFormed_of_verified hm hfn hext).1.ids_nodup

namespace Transform

variable {σ : Type} {env : PassEnv} {r : Run σ} {m' : Module}

theorem deadCode_retained {n : Int} (hr : r.listing = .ofModule m)
    (hm : moduleErr? (some m) = none) (hK : ∀ f i, K f i = true → m.isCritical i = true)
    (hnone : ((deadCode n).pass.onModule env r).1.failure = none) :
    ∃ fns, ((deadCode n).pass.onModule env r).2.listing = .ofModule { m with functions := fns } ∧
      List.Forall₂ (Function.Retained K) m.functions fns := by
  refine Run.allFunctions_changed hr (fun fn _ => .refl K fn)
    (fun k r' m' fn hr' h hfn hmem hbody hnone => ?_) hnone
  obtain ⟨hfailure, hlisting⟩ := deadCode_onFunction n hr' hfn
  have hcritical : m'.isCritical = m.isCritical :=
    Module.isCritical_congr (h.map_eq fun _ _ hfn => by rw [hfn.name_eq, hfn.critical_eq])
  refine ⟨_, hlisting, DeadCode.run_retained (Module.blockIds_nodup hm hmem) hbody ?_
    (hfailure ▸ hnone)⟩
  rw [hcritical]
  exact hK fn.name

theorem inline_retained {p : Inline.Policy} (hr : r.listing = .ofModule m)
    (hm : moduleErr? (some m) = none) (hK : ∀ f i, K f i = true → m.isCritical i = true)
    (hreplace : ∀ f i, p.mayReplace m f i = true → K f i = false)
    (hnone : ((inline p).pass.onModule env r).1.failure = none)
    (hafter : ((inline p).pass.onModule env r).2.listing = .ofModule m')
    (hm' : moduleErr? (some m') = none) :
    List.Forall₂ (Function.Retained K) m.functions m'.functions := by
  have hphi : ∀ f i, K f i = true → i.isPhi = false := fun f i hi =>
    Module.not_isPhi_of_isCritical (hK f i hi)
  obtain ⟨fns, hlisting, hfns⟩ := Run.allFunctions_changed
    (R := fun fn fn' => fn.SameHead fn' ∧
      (fn'.blockIds.Nodup → Retains (K fn.name) fn.instrs fn'.instrs))
    hr (fun fn _ => ⟨.refl fn, fun _ => .refl _ _⟩)
    (fun k r' m₁ fn hr' h hfn _ _ _ => by
      obtain ⟨g, fn', hlisting, hspliced⟩ := inline_onFunction_spliced p env hr' hfn
      refine ⟨fn', hlisting, hspliced.sameHead.1, fun hids =>
        hspliced.retains (hphi fn.name) hids fun c callee hjudge => ?_⟩
      have hnames : m₁.DistinctNames := (Module.verified_iff.1 hm).1.congr
        (h.map_eq fun _ _ hfn => hfn.1.name_eq)
      have hk : k ≤ m.functions.length :=
        h.length_eq ▸ Nat.le_of_lt (List.getElem?_eq_some_iff.1 hfn).1
      have hheads := (h.mono (fun fn => ⟨.refl fn, fun _ => .refl _ _⟩) hk).forall₂.imp
        fun _ _ hfn => hfn.1
      exact hreplace _ _
        (Inline.mayReplace_of_sameHead hheads (Inline.mayReplace_of_judge hnames hfn hjudge)))
    hnone
  obtain rfl := Listing.ofModule_injective (hafter.symm.trans hlisting)
  exact forall₂_imp_of_mem hfns fun fn fn' hfn' h =>
    ⟨h.1, h.2 (Module.blockIds_nodup hm' hfn')⟩

/-- **What a transformation retains** if it does not fail and its result is verified. -/
theorem onModule_retained (t : Transform) (hr : r.listing = .ofModule m)
    (hm : moduleErr? (some m) = none) (hK : ∀ f i, K f i = true → m.isCritical i = true)
    (hreplace : ∀ p, t = inline p → ∀ f i, p.mayReplace m f i = true → K f i = false)
    (hnone : (t.pass.onModule env r).1.failure = none)
    (hafter : (t.pass.onModule env r).2.listing = .ofModule m')
    (hm' : moduleErr? (some m') = none) :
    List.Forall₂ (Function.Retained K) m.functions m'.functions := by
  cases t with
  | constFold =>
    obtain ⟨fns, hlisting, hfns⟩ := constFold_folded hr
    obtain rfl := Listing.ofModule_injective (hafter.symm.trans hlisting)
    exact hfns.imp fun fn fn' h => h.retained (hK fn.name)
  | deadCode n =>
    obtain ⟨fns, hlisting, hfns⟩ := deadCode_retained hr hm hK hnone
    obtain rfl := Listing.ofModule_injective (hafter.symm.trans hlisting)
    exact hfns
  | inline p => exact inline_retained hr hm hK (hreplace p rfl) hnone hafter hm'

end Transform

/-! ## Runs -/

/-- **What a run retains.** All critical instructions of the module stay, but for those that one of
the transformations may replace by inlining. -/
theorem Manager.run_retained {σ : Type} {mgr : Manager σ} {ts : List Transform}
    (hpasses : ∀ q ∈ mgr.passes, (∃ a : Analysis, q = a.pass) ∨ ∃ t ∈ ts, q = t.pass)
    (hchecker : mgr.checker = .standard) (hm : moduleErr? (some m) = none)
    (hK : ∀ f i, K f i = true → m.isCritical i = true)
    (hreplace : ∀ p, .inline p ∈ ts → ∀ f i, p.mayReplace m f i = true → K f i = false)
    (hrun : (mgr.run (.ofModule m)).1 = none) :
    ∃ m', (mgr.run (.ofModule m)).2.listing = .ofModule m' ∧
      List.Forall₂ (Function.Retained K) m.functions m'.functions := by
  have hbuiltin : ∀ q ∈ mgr.passes, q.IsBuiltin := fun q hq =>
    (hpasses q hq).imp id fun ⟨t, _, ht⟩ => ⟨t, ht⟩
  have hstep : ∀ (c : Invocation σ) (t : Transform) m₁ m₂, t.pass ∈ mgr.passes →
      c.Accepted t m₁ m₂ → List.Forall₂ (Function.Retained K) m.functions m₁.functions →
      List.Forall₂ (Function.Retained K) m.functions m₂.functions := by
    rintro ⟨pass, env, before⟩ t m₁ m₂ ht hc h
    have hheads := h.imp fun _ _ hfn => hfn.toSameHead
    have hcritical : m₁.isCritical = m.isCritical := Module.isCritical_congr
      (forall₂_map_eq hheads fun _ _ hfn => by rw [hfn.name_eq, hfn.critical_eq])
    refine forall₂_trans (fun _ _ _ => .trans) h ?_
    rcases hpasses _ ht with ⟨a, ha⟩ | ⟨t', ht', heq⟩
    · cases congrArg Pass.isAnalysis ha
    · have hpass : pass = t'.pass := hc.pass_eq.trans heq
      subst hpass
      exact t'.onModule_retained hc.before_eq hc.verified (hcritical ▸ hK)
        (fun p hp f i hi => hreplace p (hp ▸ ht') f i (Inline.mayReplace_of_sameHead hheads hi))
        hc.failure_eq hc.after_eq hc.verified'
  obtain ⟨m', hlisting, -, hretained⟩ := (builtin_induct
    (P := fun m' _ => List.Forall₂ (Function.Retained K) m.functions m'.functions) hbuiltin hchecker
    hm (List.forall₂_same.2 fun fn _ => .refl K fn) (fun _ _ _ _ _ _ h => h) hstep).2 hrun
  exact ⟨m', hlisting, hretained⟩

/-! ## Pipelines -/

/-- The critical instructions of a function of `m` that no configured pass may take out of it. -/
def Config.retains (c : Config) (m : Module) (caller : String) (i : Instr) : Bool :=
  m.isCritical i && !(c.passes.contains Inline.passName &&
    Inline.Policy.mayReplace ⟨c.sizeThreshold, c.exceptionsEnabled⟩ m caller i)

theorem Config.inline_mem_transforms {c : Config} {ts : List Transform} {p : Inline.Policy}
    (h : c.transforms = .ok ts) (hp : .inline p ∈ ts) :
    Inline.passName ∈ c.passes ∧ p = ⟨c.sizeThreshold, c.exceptionsEnabled⟩ := by
  obtain ⟨name, hname, htransform⟩ := forall₂_exists_left (forall₂_of_mapM_eq_ok h) hp
  have hsome : c.transform? name = some (.inline p) := by
    generalize c.transform? name = t? at htransform
    cases t? with
    | none => cases htransform
    | some t => exact congrArg some (Except.ok.inj htransform)
  unfold transform? at hsome
  split at hsome
  · cases hsome
  · split at hsome
    · cases hsome
    · split at hsome
      · next heq =>
        obtain rfl := Transform.inline.inj (Option.some.inj hsome)
        exact ⟨heq ▸ hname, rfl⟩
      · cases hsome

namespace Pipeline

/-- The pipeline after some runs. -/
def afterRuns (p : Pipeline) (history : List (Option Listing)) : Pipeline :=
  history.foldl (fun p l => (p.run l).pipeline) p

theorem new_eq_ok {config : Option Config} {debug : Bool} {p : Pipeline}
    (h : Pipeline.new config debug = .ok p) :
    p.manager.checker = .standard ∧ ∃ ts, p.config.transforms = .ok ts ∧
      p.manager.passes = Analysis.all.map Analysis.pass ++ ts.map Transform.pass := by
  unfold Pipeline.new at h
  dsimp only at h
  split at h
  · cases h
  · obtain ⟨ts, hts, h⟩ := exists_of_bind_eq_ok h
    obtain ⟨mgr, hmgr, h⟩ := exists_of_bind_eq_ok h
    obtain rfl := Except.ok.inj h
    obtain ⟨rfl, -⟩ := Manager.addPasses_eq_ok hmgr
    exact ⟨rfl, ts, hts, rfl⟩

theorem optimize_setup (p : Pipeline) (l : Listing) :
    Manager.SameSetup p.manager (p.optimize l).pipeline.manager := by
  unfold optimize
  have hsetup := p.manager.run_setup l
  generalize p.manager.run l = result at hsetup ⊢
  obtain ⟨failure, work⟩ := result
  match failure with
  | some (.error e) => exact ⟨hsetup.passes_eq, hsetup.checker_eq, hsetup.verifyModified_eq⟩
  | some .fault => exact hsetup
  | none => exact hsetup

theorem run_setup (p : Pipeline) (l : Option Listing) :
    Manager.SameSetup p.manager (p.run l).pipeline.manager := by
  unfold run
  dsimp only
  split
  · exact ⟨rfl, rfl, rfl⟩
  · exact ⟨rfl, rfl, rfl⟩
  · exact ⟨rfl, rfl, rfl⟩
  · next l _ =>
    have hload : Manager.SameSetup p.manager (p.load (some l)).manager := ⟨rfl, rfl, rfl⟩
    exact hload.trans (optimize_setup { p.load (some l) with phase := .verified } l)

theorem afterRuns_setup (p : Pipeline) (history : List (Option Listing)) :
    Manager.SameSetup p.manager (p.afterRuns history).manager := by
  induction history generalizing p with
  | nil => exact .refl p.manager
  | cons l history ih => exact (p.run_setup l).trans (ih _)

/-- A run that does not fail is one of the manager, with nothing to report at the start. -/
theorem run_of_none {p : Pipeline} {l : Listing} (h : (p.run (some l)).failure = none) :
    ((p.load (some l)).manager.run l).1 = none ∧
      (p.run (some l)).module = some ((p.load (some l)).manager.run l).2.listing := by
  unfold run at h ⊢
  dsimp only at h ⊢
  split at h
  · cases h
  · cases h
  · next heq => cases heq
  · next hverify heq =>
    obtain rfl := Option.some.inj heq
    unfold optimize at h ⊢
    dsimp only at h ⊢
    cases hrun : ((p.load (some l)).manager.run l).1 with
    | some f => simp [hrun] at h
    | none => exact ⟨rfl, rfl⟩

/-- **Critical instructions.** A run of a pipeline over a verified module, after any earlier runs,
leaves the critical instructions of each function in this function, as they are and in their order,
if it succeeds; only calls that inlining may replace can be missing. -/
theorem run_retains_critical {config : Option Config} {debug : Bool} {p : Pipeline}
    (hp : Pipeline.new config debug = .ok p) (history : List (Option Listing)) {m : Module}
    (hm : moduleErr? (some m) = none)
    (hrun : ((p.afterRuns history).run (some (.ofModule m))).failure = none) :
    ∃ m', ((p.afterRuns history).run (some (.ofModule m))).module = some (.ofModule m') ∧
      List.Forall₂ (fun fn fn' => fn'.name = fn.name ∧
        (fn.instrs.filter (p.config.retains m fn.name)).Sublist fn'.instrs)
        m.functions m'.functions := by
  obtain ⟨hchecker, ts, hts, hpasses⟩ := new_eq_ok hp
  obtain ⟨hnone, hmodule⟩ := run_of_none hrun
  have hsetup : Manager.SameSetup p.manager
      ((p.afterRuns history).load (some (.ofModule m))).manager :=
    (p.afterRuns_setup history).trans ⟨rfl, rfl, rfl⟩
  have hbuiltin : ∀ q ∈ ((p.afterRuns history).load (some (.ofModule m))).manager.passes,
      (∃ a : Analysis, q = a.pass) ∨ ∃ t ∈ ts, q = t.pass := by
    intro q hq
    rw [hsetup.passes_eq, hpasses] at hq
    rcases List.mem_append.1 hq with hq | hq
    · obtain ⟨a, -, rfl⟩ := List.mem_map.1 hq
      exact Or.inl ⟨a, rfl⟩
    · obtain ⟨t, ht, rfl⟩ := List.mem_map.1 hq
      exact Or.inr ⟨t, ht, rfl⟩
  have hreplace : ∀ policy, .inline policy ∈ ts → ∀ f i, policy.mayReplace m f i = true →
      p.config.retains m f i = false := by
    intro policy hpolicy f i hi
    obtain ⟨hname, rfl⟩ := Config.inline_mem_transforms hts hpolicy
    simp [Config.retains, hname, hi]
  have hcritical : ∀ f i, p.config.retains m f i = true → m.isCritical i = true := fun f i hi =>
    (Bool.and_eq_true_iff.1 hi).1
  obtain ⟨m', hlisting, hretained⟩ := Manager.run_retained hbuiltin
    (hsetup.checker_eq.trans hchecker) hm hcritical hreplace hnone
  refine ⟨m', ?_, hretained.imp fun fn fn' h => ⟨h.name_eq, h.instrs⟩⟩
  rw [hmodule, hlisting]

end Pipeline

/-- All transformations, inlining first. -/
def Config.inlineFirst : Config where
  passes := ["inline", "constfold", "dce"]
  sizeThreshold := 10

/-- The pipeline of this configuration. -/
def Pipeline.inlineFirst : Pipeline where
  config := .inlineFirst
  manager :=
    { passes := Analysis.all.map Analysis.pass ++
        [Transform.inline ⟨10, false⟩, .constFold, .deadCode 0].map Transform.pass
      world := () }

/-- A function that makes a critical call of a function with a body, writes a volatile, and calls a
function that is critical. -/
def Module.criticalCalls : Module where
  name := "m"
  functions :=
    [{ name := "g", blocks := [{ id := 1, term := some (.ret 0 false) }] },
      { name := "log", critical := true },
      { name := "f"
        blocks :=
          [{ id := 1
             instrs := [.alloca ⟨1, some .bool⟩, .const ⟨2, some .bool, "true"⟩,
               .call ⟨0, "g", [], none, .critical, false⟩, .store ⟨1, 2, true, false⟩,
               .call ⟨0, "log", [], none, .side, false⟩]
             term := some (.ret 0 false) }] }]

/-- Of the three critical instructions the run keeps two: the critical call is replaced by what it
calls. -/
theorem Pipeline.inlineFirst_loses_criticalCall :
    Pipeline.new (some .inlineFirst) false = .ok .inlineFirst ∧
      moduleErr? (some Module.criticalCalls) = none ∧
      (inlineFirst.run (some (.ofModule .criticalCalls))).failure = none ∧
      (Module.criticalCalls.functions.map fun fn =>
          fn.instrs.filter Module.criticalCalls.isCritical) =
        [[], [], [.call ⟨0, "g", [], none, .critical, false⟩, .store ⟨1, 2, true, false⟩,
          .call ⟨0, "log", [], none, .side, false⟩]] ∧
      ∃ m', (inlineFirst.run (some (.ofModule .criticalCalls))).module = some (.ofModule m') ∧
        (m'.functions.map fun fn => fn.instrs.filter Module.criticalCalls.isCritical) =
          [[], [], [.store ⟨1, 2, true, false⟩, .call ⟨0, "log", [], none, .side, false⟩]] ∧
        List.Forall₂ (fun fn fn' => fn'.name = fn.name ∧
          (fn.instrs.filter (Config.inlineFirst.retains .criticalCalls fn.name)).Sublist fn'.instrs)
          Module.criticalCalls.functions m'.functions := by
  have hp : Pipeline.new (some .inlineFirst) false = .ok .inlineFirst := rfl
  have hm : moduleErr? (some Module.criticalCalls) = none := by decide +kernel
  have hrun : (inlineFirst.run (some (.ofModule .criticalCalls))).failure = none := by
    decide +kernel
  have hleft : (inlineFirst.run (some (.ofModule .criticalCalls))).module.map
      (fun l => l.front.functions.map fun fn =>
        fn.instrs.filter Module.criticalCalls.isCritical) =
      some [[], [], [.store ⟨1, 2, true, false⟩, .call ⟨0, "log", [], none, .side, false⟩]] := by
    decide +kernel
  obtain ⟨m', hafter, hretained⟩ := run_retains_critical hp [] hm hrun
  have hmodule : (inlineFirst.run (some (.ofModule .criticalCalls))).module =
    some (.ofModule m') := hafter
  refine ⟨hp, hm, hrun, by decide +kernel, m', hmodule, ?_, hretained⟩
  rw [hmodule, Option.map_some, Listing.front_ofModule] at hleft
  exact Option.some.inj hleft

end SsaOpt
