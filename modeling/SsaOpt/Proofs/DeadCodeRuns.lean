import SsaOpt.Proofs.FunctionRuns
import SsaOpt.Proofs.LostReads

/-!
# Dead code elimination keeps runs

A run of a function and a run of what dead code elimination leaves of it go in step. The two agree
on the values that are still read somewhere (`Env.AgreesOn`). An instruction that has been deleted
defines a value that is no longer read, if it defines one, and it is not critical, so it leaves the
world as it is if the meaning of instructions is a quiet one (`Interp.Quiet`).
-/

namespace SsaOpt

variable {V W : Type}

/-- An instruction of `m` that is not critical leaves the world as it is if it defines a value or
does nothing. -/
def Interp.Quiet (I : Interp V W) (m : Module) : Prop :=
  ∀ fn ∈ m.functions, ∀ i ∈ fn.instrs, i.isPhi = false → m.isCritical i = false →
    i.result ≠ 0 ∨ i = .nop → ∀ xs w x w', I.exec i.anonymous xs w = some (x, w') → w' = w

namespace Env

/-- The two give the same values to the numbers of `U`. -/
def AgreesOn (U : ValueId → Prop) (env env' : Env V) : Prop := ∀ v, U v → env' v = env v

namespace AgreesOn

variable {U : ValueId → Prop} {env env' : Env V}

theorem set (h : AgreesOn U env env') (d : ValueId) (x : Option V) :
    AgreesOn U (env.set d x) (env'.set d x) := by
  intro v hv
  by_cases hd : v = d
  · subst hd
    by_cases h0 : v = 0
    · subst h0
      rw [set_zero, set_zero]
      exact h 0 hv
    · rw [set_self h0, set_self h0]
  · rw [set_of_ne hd, set_of_ne hd]
    exact h v hv

/-- Writing a number that is not in `U`. -/
theorem set_left (h : AgreesOn U env env') {d : ValueId} (hd : d ≠ 0 → ¬ U d) (x : Option V) :
    AgreesOn U (env.set d x) env' := by
  by_cases h0 : d = 0
  · subst h0
    rw [set_zero]
    exact h
  · intro v hv
    have hne : v ≠ d := by
      rintro rfl
      exact hd h0 hv
    rw [set_of_ne hne]
    exact h v hv

theorem mapM_eq (h : AgreesOn U env env') {vs : List ValueId} (hvs : ∀ v ∈ vs, U v) :
    vs.mapM env' = vs.mapM env := by
  induction vs with
  | nil => rfl
  | cons v vs ih =>
    rw [List.mapM_cons, List.mapM_cons, h v (hvs v (by simp)), ih fun u hu => hvs u (by simp [hu])]

/-- A phi takes the same after the entries of other edges have been dropped. -/
theorem take_eq (h : AgreesOn U env env') {live : BlockId → Bool} {pred : Option BlockId}
    (hpred : ∀ q, pred = some q → live q = true) {p : Phi}
    (hread : ∀ e ∈ p.incoming, live e.pred = true → U e.value) :
    env'.take pred { p with incoming := p.incoming.filter fun e => live e.pred } =
      env.take pred p := by
  have hfind : (p.incoming.filter fun e => live e.pred).find? (fun e => some e.pred = pred) =
      p.incoming.find? fun e => some e.pred = pred := by
    rw [List.find?_filter]
    refine List.find?_congr fun e _ => ?_
    by_cases he : some e.pred = pred
    · simp [he, hpred e.pred he.symm]
    · simp [he]
  unfold take
  rw [hfind]
  cases hentry : p.incoming.find? fun e => some e.pred = pred with
  | none => rfl
  | some e =>
    have hedge : some e.pred = pred := by simpa using List.find?_some hentry
    have hlive := hpred e.pred hedge.symm
    simp only [h e.value (hread e (List.mem_of_find?_eq_some hentry) hlive)]

end AgreesOn

end Env

namespace DeadCode

variable {I : Interp V W} {m : Module} {fn : Function} {live : BlockId → Bool}
  {keep : Instr → Bool} {U : ValueId → Prop} {is : List Instr}

/-! ## Lists of instructions -/

/-- Instructions some of which can be deleted where only the values of `U` are read: those that stay
read values of `U`, and those that go define no such value and leave the world as it is. -/
structure Spares (I : Interp V W) (live : BlockId → Bool) (keep : Instr → Bool)
    (U : ValueId → Prop) (is : List Instr) : Prop where
  reads : ∀ i ∈ is, keep i = true → ∀ v, i.ReadsFrom (fun id => live id = true) v → U v
  unread : ∀ i ∈ is, keep i = false → i.result ≠ 0 → ¬ U i.result
  quiet : ∀ i ∈ is, keep i = false → i.isPhi = false → ∀ xs w x w',
    I.exec i.anonymous xs w = some (x, w') → w' = w

/-- What is left of some instructions. -/
def left (live : BlockId → Bool) (keep : Instr → Bool) (is : List Instr) : List Instr :=
  (is.filter keep).map (Instr.prune live)

theorem left_cons_of_keep {i : Instr} (h : keep i = true) :
    left live keep (i :: is) = i.prune live :: left live keep is := by
  rw [left, List.filter_cons_of_pos h]
  rfl

theorem left_cons_of_not_keep {i : Instr} (h : keep i = false) :
    left live keep (i :: is) = left live keep is := by
  rw [left, List.filter_cons_of_neg (by simp [h])]
  rfl

theorem not_isPhi_of_mem_left (h : ∀ i ∈ is, i.isPhi = false) :
    ∀ i ∈ left live keep is, i.isPhi = false := by
  intro j hj
  obtain ⟨i, hi, rfl⟩ := List.mem_map.1 hj
  rw [Instr.isPhi_prune]
  exact h i (List.mem_filter.1 hi).1

theorem dropWhile_of_not_isPhi (h : ∀ i ∈ is, i.isPhi = false) :
    is.dropWhile Instr.isPhi = is := by
  cases is with
  | nil => rfl
  | cons i is => exact List.dropWhile_cons_of_neg (by simp [h i (by simp)])

/-- Nothing behind an instruction that is no phi is a phi. -/
theorem not_isPhi_of_phisFirst {i : Instr} (hfirst : Function.PhisFirst (i :: is))
    (hi : i.isPhi = false) : ∀ j ∈ i :: is, j.isPhi = false := by
  intro j hj
  rcases List.mem_cons.1 hj with rfl | hj
  · exact hi
  · cases hphi : j.isPhi with
    | false => rfl
    | true =>
      have hbefore := (List.pairwise_cons.1 hfirst).1 j hj hphi
      rw [hi] at hbefore
      cases hbefore

/-- The phis in front come off before or after the deletion. -/
theorem dropWhile_left (h : Function.PhisFirst is) :
    (left live keep is).dropWhile Instr.isPhi =
      left live keep (is.dropWhile Instr.isPhi) := by
  induction is with
  | nil => rfl
  | cons i is ih =>
    have hrest := ih (List.pairwise_cons.1 h).2
    cases hphi : i.isPhi with
    | true =>
      rw [List.dropWhile_cons_of_pos hphi, ← hrest]
      cases hkeep : keep i with
      | true => rw [left_cons_of_keep hkeep, List.dropWhile_cons_of_pos (by simp [hphi])]
      | false => rw [left_cons_of_not_keep hkeep]
    | false =>
      have hno := not_isPhi_of_phisFirst h hphi
      rw [dropWhile_of_not_isPhi hno, dropWhile_of_not_isPhi (not_isPhi_of_mem_left hno)]

namespace Spares

theorem tail {i : Instr} (h : Spares I live keep U (i :: is)) : Spares I live keep U is where
  reads j hj := h.reads j (by simp [hj])
  unread j hj := h.unread j (by simp [hj])
  quiet j hj := h.quiet j (by simp [hj])

theorem sublist {is' : List Instr} (h : Spares I live keep U is) (hsub : is'.Sublist is) :
    Spares I live keep U is' where
  reads j hj := h.reads j (hsub.mem hj)
  unread j hj := h.unread j (hsub.mem hj)
  quiet j hj := h.quiet j (hsub.mem hj)

/-- The phis in front of a block. -/
theorem enterPhis {env env' : Env V} {pred : Option BlockId} (h : Spares I live keep U is)
    (hfirst : Function.PhisFirst is) (hpred : ∀ q, pred = some q → live q = true)
    (henv : env.AgreesOn U env') :
    ∀ new new' env₁, new.AgreesOn U new' → env.enterPhis pred is new = some env₁ →
      ∃ env₁', env'.enterPhis pred (left live keep is) new' = some env₁' ∧
        env₁.AgreesOn U env₁' := by
  induction is with
  | nil =>
    intro new new' env₁ hnew h₁
    obtain rfl := Option.some.inj h₁
    exact ⟨new', rfl, hnew⟩
  | cons i is ih =>
    intro new new' env₁ hnew h₁
    cases hphi : i.isPhi with
    | false =>
      have hno := not_isPhi_of_phisFirst hfirst hphi
      rw [env.enterPhis_of_not_isPhi pred hno] at h₁
      obtain rfl := Option.some.inj h₁
      exact ⟨new', env'.enterPhis_of_not_isPhi pred (not_isPhi_of_mem_left hno) new', hnew⟩
    | true =>
      cases i with
      | phi p =>
        obtain ⟨x, hx, h₁⟩ := Option.bind_eq_some_iff.1 h₁
        have hrest := ih h.tail (List.pairwise_cons.1 hfirst).2
        cases hkeep : keep (.phi p) with
        | true =>
          have hread : ∀ e ∈ p.incoming, live e.pred = true → U e.value := fun e he hl =>
            h.reads (.phi p) (by simp) hkeep e.value ⟨e, he, hl, rfl⟩
          obtain ⟨env₁', h₁', hagree⟩ := hrest _ _ env₁ (hnew.set p.result x) h₁
          refine ⟨env₁', ?_, hagree⟩
          rw [left_cons_of_keep hkeep]
          refine Option.bind_eq_some_iff.2 ⟨x, ?_, h₁'⟩
          rw [henv.take_eq hpred hread]
          exact hx
        | false =>
          rw [left_cons_of_not_keep hkeep]
          exact hrest _ new' env₁ (hnew.set_left (h.unread (.phi p) (by simp) hkeep) x) h₁
      | _ => cases hphi

/-- An instruction that stays. -/
theorem perform_kept {env env' env₁ : Env V} {w w₁ : W} {i : Instr}
    (h : Spares I live keep U (i :: is)) (hphi : i.isPhi = false) (hkeep : keep i = true)
    (henv : env.AgreesOn U env') (h₁ : I.perform (env, w) i = some (env₁, w₁)) :
    ∃ env₁', I.perform (env', w) (i.prune live) = some (env₁', w₁) ∧ env₁.AgreesOn U env₁' := by
  obtain ⟨xs, x, w', hxs, hexec, heq⟩ := Interp.perform_eq_some.1 h₁
  obtain ⟨rfl, rfl⟩ := Prod.mk.inj heq
  have hprune : i.prune live = i := by
    cases i with
    | phi p => cases hphi
    | _ => rfl
  have hread : ∀ v ∈ i.operands, U v := by
    intro v hv
    refine h.reads i (by simp) hkeep v (Instr.mem_operands_prune.1 ?_)
    rw [hprune]
    exact hv
  refine ⟨env'.set i.result x, ?_, henv.set i.result x⟩
  rw [hprune]
  exact Interp.perform_eq_some.2 ⟨xs, x, w₁, (henv.mapM_eq hread).trans hxs, hexec, rfl⟩

/-- The instructions behind the phis. -/
theorem perform {I : Interp V W} (h : Spares I live keep U is) (hphi : ∀ i ∈ is, i.isPhi = false) :
    ∀ env env' w env₁ w₁, env.AgreesOn U env' →
      is.foldlM I.perform (env, w) = some (env₁, w₁) →
      ∃ env₁', (left live keep is).foldlM I.perform (env', w) = some (env₁', w₁) ∧
        env₁.AgreesOn U env₁' := by
  induction is with
  | nil =>
    intro env env' w env₁ w₁ henv h₁
    obtain ⟨rfl, rfl⟩ := Prod.mk.inj (Option.some.inj h₁)
    exact ⟨env', rfl, henv⟩
  | cons i is ih =>
    intro env env' w env₁ w₁ henv h₁
    rw [List.foldlM_cons] at h₁
    obtain ⟨⟨env₂, w₂⟩, h₂, h₁⟩ := Option.bind_eq_some_iff.1 h₁
    have hrest := ih h.tail fun j hj => hphi j (by simp [hj])
    cases hkeep : keep i with
    | true =>
      obtain ⟨env₂', h₂', henv₂⟩ := h.perform_kept (hphi i (by simp)) hkeep henv h₂
      obtain ⟨env₁', h₁', henv₁⟩ := hrest env₂ env₂' w₂ env₁ w₁ henv₂ h₁
      refine ⟨env₁', ?_, henv₁⟩
      rw [left_cons_of_keep hkeep, List.foldlM_cons, h₂']
      exact h₁'
    | false =>
      obtain ⟨xs, x, w', hxs, hexec, heq⟩ := Interp.perform_eq_some.1 h₂
      obtain ⟨rfl, rfl⟩ := Prod.mk.inj heq
      have hworld : w₂ = w := h.quiet i (by simp) hkeep (hphi i (by simp)) xs w x w₂ hexec
      subst hworld
      rw [left_cons_of_not_keep hkeep]
      exact hrest _ env' w₂ env₁ w₁ (henv.set_left (h.unread i (by simp) hkeep) x) h₁

/-- **What a block does**, the rest of it does as well. -/
theorem runBlock {b : Block} (h : Spares I live keep U b.instrs)
    (hfirst : Function.PhisFirst b.instrs) {pred : Option BlockId}
    (hpred : ∀ q, pred = some q → live q = true) {env env' env₁ : Env V} {w w₁ : W}
    (henv : env.AgreesOn U env') (h₁ : I.runBlock pred b (env, w) = some (env₁, w₁)) :
    ∃ env₁', I.runBlock pred (b.restrict live keep) (env', w) = some (env₁', w₁) ∧
      env₁.AgreesOn U env₁' := by
  obtain ⟨env₂, h₂, h₁⟩ := Option.bind_eq_some_iff.1 h₁
  obtain ⟨env₂', h₂', henv₂⟩ := h.enterPhis hfirst hpred henv env env' env₂ henv h₂
  have hrest := h.sublist (List.dropWhile_sublist Instr.isPhi)
  obtain ⟨env₁', h₁', henv₁⟩ := hrest.perform
    (fun i => not_isPhi_of_mem_dropWhile hfirst) env₂ env₂' w env₁ w₁ henv₂ h₁
  refine ⟨env₁', Option.bind_eq_some_iff.2 ⟨env₂', h₂', ?_⟩, henv₁⟩
  change ((left live keep b.instrs).dropWhile Instr.isPhi).foldlM I.perform (env₂', w) = _
  rw [dropWhile_left hfirst]
  exact h₁'

end Spares

/-! ## Functions -/

namespace Kept

/-- An instruction that is deleted from a block that can be reached is not critical, and it defines
a value or does nothing; for by itself it would support itself otherwise. -/
theorem of_not_keep (h : Kept m fn live keep) {b : Block} (hb : b ∈ fn.blocks)
    (hreach : fn.Reachable b.id) {i : Instr} (hi : i ∈ b.instrs) (hkeep : keep i = false) :
    m.isCritical i = false ∧ (i.result ≠ 0 ∨ i = .nop) := by
  have hnot : ¬ (m.isCritical i = true ∨ (i ≠ .nop ∧ i.result = 0)) := by
    intro hneeded
    have hsupported : Supported m fn {i} := by
      refine ⟨?_, ?_⟩
      · rintro j rfl
        exact ⟨b, hb, hreach, hi⟩
      · rintro j rfl
        exact hneeded.imp_right Or.inl
    rw [h.supported {i} hsupported i rfl] at hkeep
    cases hkeep
  obtain ⟨hcritical, hnop⟩ := not_or.1 hnot
  refine ⟨by simpa using hcritical, ?_⟩
  by_cases h0 : i.result = 0
  · exact Or.inr (Classical.not_not.1 fun hne => hnop ⟨hne, h0⟩)
  · exact Or.inl h0

variable (h : Kept m fn live keep)
  (honly : ∀ id ∈ fn.blockIds, live id = true → fn.Reachable id)
include h honly

/-- Where the values that are read are those that are read in what is left. -/
theorem spares (hmem : fn ∈ m.functions) (hI : I.Quiet m) {b : Block} (hb : b ∈ fn.blocks)
    (hlive : live b.id = true) :
    Spares I live keep (fun v => (UseDef.build (fn.restrict live keep)).hasUsers v = true)
      b.instrs where
  reads i hi hkeep v hv := hasUsers_restrict_iff.2 ⟨b, hb, hlive, Or.inl ⟨i, hi, hkeep, hv⟩⟩
  unread i hi hkeep h0 := by simp [h.unread b hb hlive i hi hkeep h0]
  quiet i hi hkeep hphi := by
    have hreach := honly b.id (List.mem_map_of_mem hb) hlive
    obtain ⟨hcritical, hresult⟩ := h.of_not_keep hb hreach hi hkeep
    exact hI fn hmem i (Function.mem_instrs.2 ⟨b, hb, hi⟩) hphi hcritical hresult

/-- **A function and what is left of it go in step.** -/
theorem inStep (hmem : fn ∈ m.functions) (hshape : fn.Shape) (hI : I.Quiet m) :
    I.InStep fn (fn.restrict live keep)
      (fun b b' => b ∈ fn.blocks ∧ live b.id = true ∧ b' = b.restrict live keep)
      (Env.AgreesOn fun v => (UseDef.build (fn.restrict live keep)).hasUsers v = true) where
  id_eq := by
    rintro b _ ⟨-, -, rfl⟩
    rfl
  term_eq := by
    rintro b _ ⟨-, -, rfl⟩
    rfl
  block := by
    rintro b _ ⟨hb, hlive, rfl⟩ pred hpred env env' w env₁ w₁ henv h₁
    refine (h.spares honly hmem hI hb hlive).runBlock (hshape.phis_first b hb) ?_ henv h₁
    intro q hq
    obtain ⟨c, -, ⟨-, hc, -⟩, rfl⟩ := hpred q hq
    exact hc
  reads := by
    rintro b _ ⟨hb, hlive, rfl⟩ t ht v hv env env' henv
    exact henv v (hasUsers_restrict_iff.2 ⟨b, hb, hlive, Or.inr ⟨t, ht, hv⟩⟩)
  entry b hb := by
    have hlive : ∀ e, fn.entryBlock? = some e → live e.id = true :=
      fun e he => h.reachable e.id ⟨e, he, .refl⟩
    refine ⟨_, ?_, Function.entryBlock?_mem hb, hlive b hb, rfl⟩
    rw [Function.entryBlock?_restrict hlive, hb]
    rfl
  next := by
    rintro b _ ⟨hb, hlive, rfl⟩ t ht c hc
    obtain ⟨hcmem, rfl⟩ := Function.mem_of_block? hc
    have hflows : fn.Flows b.id c.id := ⟨⟨b, hb, rfl, ht⟩, List.mem_map_of_mem hcmem⟩
    have hclive := h.reachable c.id ((honly b.id (List.mem_map_of_mem hb) hlive).step hflows)
    have hids : (fn.restrict live keep).blockIds.Nodup := by
      rw [Function.blockIds_restrict]
      exact hshape.ids_nodup.filter live
    refine ⟨c.restrict live keep, ?_, hcmem, hclive, rfl⟩
    exact Function.block?_of_mem hids (Function.mem_restrict.2 ⟨c, hcmem, hclive, rfl⟩)

end Kept

/-- What a run of `fn` returns, a run of `fn'` returns too, by way of the same blocks; and the name
and the flag are the same. -/
structure KeepsRuns (I : Interp V W) (fn fn' : Function) : Prop where
  flags_eq : (fn'.name, fn'.critical) = (fn.name, fn.critical)
  run : ∀ start w k result, fn.run I start w k = some result → fn'.run I start w k = some result

theorem run_keepsRuns {checker : Option Checker} {m' : Module} {n : Int}
    (hcritical : m'.isCritical = m.isCritical) (hmem : fn ∈ m.functions) (hshape : fn.Shape)
    (hI : I.Quiet m) (hnone : (run checker m' n fn).failure = none) :
    KeepsRuns I fn (run checker m' n fn).function := by
  obtain ⟨live, keep, hkept, honly, hfunction⟩ := run_kept hshape.ids_nodup hnone
  have hkept' : Kept m fn live keep := by
    refine ⟨hkept.reachable, fun S hS => hkept.supported S ⟨hS.placed, ?_⟩, hkept.unread⟩
    rw [hcritical]
    exact hS.needed
  rw [hfunction]
  refine ⟨rfl, fun start w k result hrun => ?_⟩
  exact (hkept'.inStep honly hmem hshape hI).run (fun _ _ => rfl) hrun

end DeadCode

open DeadCode in
/-- **Dead code elimination keeps runs.** If it does not fail, whatever the limit on its rounds,
then each function that is left returns what the former one returns, with the same world and by way
of the same blocks, for every quiet meaning of instructions. -/
theorem Transform.deadCode_keeps_runs {σ : Type} {env : PassEnv} {r : Run σ} {m : Module} {n : Int}
    {I : Interp V W} (hr : r.listing = .ofModule m) (hm : moduleErr? (some m) = none)
    (hI : I.Quiet m) (hnone : ((deadCode n).pass.onModule env r).1.failure = none) :
    ∃ fns, ((deadCode n).pass.onModule env r).2.listing = .ofModule { m with functions := fns } ∧
      List.Forall₂ (KeepsRuns I) m.functions fns := by
  refine Run.allFunctions_changed hr (fun fn _ => ⟨rfl, fun _ _ _ _ h => h⟩)
    (fun k r' m' fn hr' h hfn hmem hext hnone => ?_) hnone
  obtain ⟨hfailure, hlisting⟩ := Transform.deadCode_onFunction n hr' hfn
  have hshape := (Module.wellFormed_of_verified hm hmem hext).1
  have hcritical := Module.isCritical_congr (h.map_eq fun _ _ => KeepsRuns.flags_eq)
  exact ⟨_, hlisting, run_keepsRuns hcritical hmem hshape hI (hfailure ▸ hnone)⟩

/-- A meaning with numbers for values, where the world counts the critical calls. -/
def Interp.counting : Interp Nat Nat where
  exec
    | .call c, _, w => if c.effect = .critical then some (some w, w + 1) else some (some 0, w)
    | .binary _, xs, w => some (some (xs.foldl (· + ·) 1), w)
    | _, _, w => some (some 0, w)
  truth x := x < 2

theorem Interp.counting_quiet (m : Module) : Interp.counting.Quiet m := by
  intro fn _ i _ _ hcritical _ xs w x w' h
  cases i with
  | call c =>
    have heffect : c.effect ≠ .critical := by
      intro heq
      simp [Module.isCritical, Instr.isCritical, Instr.effect, heq] at hcritical
    have hexec : some (some 0, w) = some (x, w') := by
      simpa [counting, Instr.anonymous, Instr.setResult, Instr.mapOperands, heffect] using h
    exact (Prod.mk.inj (Option.some.inj hexec)).2.symm
  | _ => exact (Prod.mk.inj (Option.some.inj h)).2.symm

/-- A loop that is left when a count is reached, with values that are not read, a call that has no
effect, and a block that cannot be reached but has phi entries. -/
def DeadCode.countdown : Function where
  name := "countdown"
  ret := some .ptr
  blocks :=
    [{ id := 1
       instrs := [.nop, .call ⟨1, "tick", [], some .ptr, .critical, false⟩,
         .call ⟨2, "peek", [1], some .ptr, .side, false⟩]
       term := some (.br 2) },
     { id := 2
       instrs := [.phi ⟨3, some .ptr, [⟨4, 8⟩, ⟨1, 1⟩, ⟨2, 6⟩]⟩,
         .phi ⟨4, some .ptr, [⟨1, 1⟩, ⟨2, 6⟩, ⟨4, 8⟩]⟩, .binary ⟨5, .add, 4, 3, some .ptr⟩,
         .call ⟨6, "tick", [], some .ptr, .critical, false⟩]
       term := some (.brIf 6 2 3) },
     { id := 3, instrs := [.binary ⟨7, .add, 3, 6, some .ptr⟩], term := some (.ret 7 true) },
     { id := 4, instrs := [.const ⟨8, some .ptr, "1"⟩], term := some (.br 2) }]

/-- What one round leaves of it. -/
def DeadCode.countdownLeft : Function where
  name := "countdown"
  ret := some .ptr
  blocks :=
    [{ id := 1
       instrs := [.call ⟨1, "tick", [], some .ptr, .critical, false⟩]
       term := some (.br 2) },
     { id := 2
       instrs := [.phi ⟨3, some .ptr, [⟨1, 1⟩, ⟨2, 6⟩]⟩, .phi ⟨4, some .ptr, [⟨1, 1⟩, ⟨2, 6⟩]⟩,
         .call ⟨6, "tick", [], some .ptr, .critical, false⟩]
       term := some (.brIf 6 2 3) },
     { id := 3, instrs := [.binary ⟨7, .add, 3, 6, some .ptr⟩], term := some (.ret 7 true) }]

open DeadCode in
theorem Transform.deadCode_countdown :
    moduleErr? (some ⟨"m", [countdown]⟩) = none ∧
      countdown.run .counting (fun _ => none) 0 4 = some ⟨some 4, 3, [1, 2, 2, 3]⟩ ∧
      KeepsRuns .counting countdown countdownLeft := by
  have hm : moduleErr? (some ⟨"m", [countdown]⟩) = none := by decide
  have hrun : countdown.run .counting (fun _ => none) 0 4 = some ⟨some 4, 3, [1, 2, 2, 3]⟩ := by
    decide
  let r : Run Unit := { listing := .ofModule ⟨"m", [countdown]⟩, world := () }
  have hnone : ((deadCode 1).pass.onModule ⟨some .standard, "dce"⟩ r).1.failure = none := by
    decide
  obtain ⟨fns, hlisting, hfns⟩ :=
    deadCode_keeps_runs rfl hm (Interp.counting_quiet ⟨"m", [countdown]⟩) hnone
  have hresult : ((deadCode 1).pass.onModule ⟨some .standard, "dce"⟩ r).2.listing =
      .ofModule ⟨"m", [countdownLeft]⟩ := by
    decide
  obtain rfl : fns = [countdownLeft] := by
    have heq := congrArg Listing.front (hlisting.symm.trans hresult)
    simpa using heq
  exact ⟨hm, hrun, (List.forall₂_cons.1 hfns).1⟩

end SsaOpt
