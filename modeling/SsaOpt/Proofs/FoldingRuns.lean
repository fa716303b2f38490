import SsaOpt.Proofs.Arithmetic
import SsaOpt.Proofs.FunctionRuns
import SsaOpt.Proofs.Refusals

/-!
# Constant folding keeps runs

A run of a function and a run of the folded function go in step with the same values. Folding knows
what a value is without running anything: `ConstFold.Yields` says that an instruction has a value
for the values that its operands are known to have. A run respects that (`ConstFold.Respects`): a
value that is defined is the one that is known. The constants that folding knows are known in this
sense (`ConstFold.Justified`), whatever the order of the blocks, so each constant has the value of
what it replaces (`ConstFold.StandsFor`).
-/

namespace SsaOpt

variable {W : Type}

/-- A meaning of instructions that is the exact one where that is fixed. -/
def Interp.Exact (I : Interp ConstValue W) : Prop :=
  ∀ (i : Instr) xs r, i.meaning? xs = some r → ∀ w,
    I.exec i.anonymous xs w = r.map fun x => (some x, w)

theorem Instr.meaning?_anonymous (i : Instr) (xs : List ConstValue) :
    i.anonymous.meaning? xs = i.meaning? xs := by
  cases i <;> rcases xs with _ | ⟨x, _ | ⟨y, _ | ⟨z, zs⟩⟩⟩ <;> rfl

/-- A value is defined by one instruction only. -/
theorem Function.Shape.eq_of_result_eq {fn : Function} (h : fn.Shape) {i j : Instr}
    (hi : i ∈ fn.instrs) (hj : j ∈ fn.instrs) (h0 : i.result ≠ 0) (heq : j.result = i.result) :
    j = i := by
  have hnodup : ((fn.instrs.filter fun i => i.result ≠ 0).map Instr.result).Nodup := by
    have hsub : ((fn.instrs.map Instr.result).filter (· ≠ 0)).Nodup := by
      refine List.Nodup.sublist (List.Sublist.filter _ ?_) h.defined_nodup
      exact List.sublist_append_right _ _
    rw [List.filter_map] at hsub
    exact hsub
  refine List.inj_on_of_nodup_map hnodup ?_ ?_ heq
  · exact List.mem_filter.2 ⟨hj, by simpa [heq] using h0⟩
  · exact List.mem_filter.2 ⟨hi, by simpa using h0⟩

namespace ConstFold

variable {fn : Function} {env : Env ConstValue} {I : Interp ConstValue W}

theorem isPhi_of_meaning? {i : Instr} {xs : List ConstValue} {r : Option ConstValue}
    (h : i.meaning? xs = some r) : i.isPhi = false := by
  cases i with
  | phi p => cases h
  | _ => rfl

/-! ## Values that are known -/

/-- A value that can be known without a run: the instruction that defines it has it for known values
of its operands. -/
inductive Yields (fn : Function) : ValueId → ConstValue → Prop
  | intro {i : Instr} {xs : List ConstValue} {x : ConstValue} (hi : i ∈ fn.instrs)
    (h0 : i.result ≠ 0) (hops : List.Forall₂ (Yields fn) i.operands xs)
    (hx : i.meaning? xs = some (some x)) : Yields fn i.result x

/-- What is defined and known is defined as what is known. -/
def Respects (fn : Function) (env : Env ConstValue) : Prop :=
  ∀ v x y, Yields fn v x → env v = some y → y = x

namespace Respects

theorem mapM_eq (h : Respects fn env) {vs : List ValueId} {xs ys : List ConstValue}
    (hxs : List.Forall₂ (Yields fn) vs xs) (hys : vs.mapM env = some ys) : ys = xs := by
  induction hxs generalizing ys with
  | nil =>
    obtain rfl := Option.some.inj hys
    rfl
  | @cons v x vs xs hv _ ih =>
    rw [List.mapM_cons] at hys
    obtain ⟨y, hy, hys⟩ := Option.bind_eq_some_iff.1 hys
    obtain ⟨ys', hys', hys⟩ := Option.bind_eq_some_iff.1 hys
    obtain rfl := Option.some.inj hys
    rw [h v x y hv hy, ih hys']

/-- A value is defined by an instruction that cannot be known to yield another one. -/
theorem set (h : Respects fn env) (hshape : fn.Shape) {i : Instr} (hi : i ∈ fn.instrs)
    {x : Option ConstValue}
    (hx : ∀ xs y, List.Forall₂ (Yields fn) i.operands xs → i.meaning? xs = some (some y) →
      x = some y) : Respects fn (env.set i.result x) := by
  intro v y z hy hz
  by_cases hv : v = i.result
  · by_cases h0 : i.result = 0
    · rw [h0, Env.set_zero] at hz
      exact h v y z hy hz
    · cases hy with
      | @intro j xs _ hj _ hops hmeaning =>
        obtain rfl := hshape.eq_of_result_eq hi hj h0 hv
        rw [Env.set_self h0, hx xs y hops hmeaning] at hz
        exact (Option.some.inj hz).symm
  · rw [Env.set_of_ne hv] at hz
    exact h v y z hy hz

/-- Nothing is known of what a phi defines. -/
theorem set_phi (h : Respects fn env) (hshape : fn.Shape) {p : Phi} (hp : .phi p ∈ fn.instrs)
    (x : Option ConstValue) : Respects fn (env.set p.result x) := by
  apply h.set hshape hp
  intro xs y _ hy
  cases hy

theorem enterPhis (hshape : fn.Shape) {env : Env ConstValue} {pred : Option BlockId}
    {is : List Instr} (his : ∀ i ∈ is, i ∈ fn.instrs) :
    ∀ new env₁, Respects fn new → env.enterPhis pred is new = some env₁ → Respects fn env₁ := by
  induction is with
  | nil =>
    intro new env₁ hnew h₁
    obtain rfl := Option.some.inj h₁
    exact hnew
  | cons i is ih =>
    intro new env₁ hnew h₁
    cases i with
    | phi p =>
      obtain ⟨x, -, h₁⟩ := Option.bind_eq_some_iff.1 h₁
      apply ih (fun j hj => his j (by simp [hj])) _ env₁ _ h₁
      exact hnew.set_phi hshape (his (.phi p) (by simp)) x
    | _ =>
      obtain rfl := Option.some.inj h₁
      exact hnew

end Respects

/-! ## Instructions in the place of others -/

/-- An instruction in the place of another one: itself, or a constant of the value that the other
one is known to have. -/
inductive StandsFor (fn : Function) : Instr → Instr → Prop
  | same (i : Instr) : StandsFor fn i i
  | const {i : Instr} {c : Const} {xs : List ConstValue} {x : ConstValue}
    (hresult : c.result = i.result) (hops : List.Forall₂ (Yields fn) i.operands xs)
    (hx : i.meaning? xs = some (some x)) (hc : c.value? = some x) : StandsFor fn i (.const c)

namespace StandsFor

variable {i j k : Instr}

theorem trans (h : StandsFor fn i j) (h' : StandsFor fn j k) : StandsFor fn i k := by
  cases h' with
  | same => exact h
  | @const c' xs' x' hresult' hops' hx' hc' =>
    cases h with
    | same => exact .const hresult' hops' hx' hc'
    | @const c xs x hresult hops hx hc =>
      cases hops'
      have heq : x' = x := by simpa [Instr.meaning?, hc, eq_comm] using hx'
      exact .const (hresult'.trans hresult) hops hx (heq ▸ hc')

theorem isPhi_eq (h : StandsFor fn i j) : j.isPhi = i.isPhi := by
  cases h with
  | same => rfl
  | const _ _ hx _ => exact (isPhi_of_meaning? hx).symm

theorem eq_of_isPhi (h : StandsFor fn i j) (hi : i.isPhi = true) : j = i := by
  cases h with
  | same => rfl
  | const _ _ hx _ =>
    rw [isPhi_of_meaning? hx] at hi
    cases hi

/-- Either has the same effect, in a run that respects what is known. -/
theorem perform (h : StandsFor fn i j) (hI : I.Exact) (hshape : fn.Shape) (hi : i ∈ fn.instrs)
    (henv : Respects fn env) {w w₁ : W} {env₁ : Env ConstValue}
    (h₁ : I.perform (env, w) i = some (env₁, w₁)) :
    I.perform (env, w) j = some (env₁, w₁) ∧ Respects fn env₁ := by
  obtain ⟨ys, y, w', hys, hexec, heq⟩ := Interp.perform_eq_some.1 h₁
  obtain ⟨rfl, rfl⟩ := Prod.mk.inj heq
  -- where the meaning is fixed for the known values, the run has met these values
  have hexact : ∀ xs x, List.Forall₂ (Yields fn) i.operands xs → i.meaning? xs = some (some x) →
      y = some x ∧ w₁ = w := by
    intro xs x hops hx
    rw [henv.mapM_eq hops hys, hI i xs (some x) hx w] at hexec
    obtain ⟨rfl, rfl⟩ := Prod.mk.inj (Option.some.inj hexec)
    exact ⟨rfl, rfl⟩
  refine ⟨?_, henv.set hshape hi fun xs x hops hx => (hexact xs x hops hx).1⟩
  cases h with
  | same => exact h₁
  | @const c xs x hresult hops hx hc =>
    obtain ⟨rfl, rfl⟩ := hexact xs x hops hx
    have hmeaning : (Instr.const c).meaning? [] = some (some x) := by
      simp [Instr.meaning?, hc]
    refine Interp.perform_eq_some.2 ⟨[], some x, w₁, rfl, ?_, ?_⟩
    · exact hI (.const c) [] (some x) hmeaning w₁
    · rw [← hresult]
      rfl

end StandsFor

/-- The phis in front of two lists of instructions, the one in the place of the other. -/
theorem enterPhis_eq {pred : Option BlockId} {is is' : List Instr}
    (h : List.Forall₂ (StandsFor fn) is is') (new : Env ConstValue) :
    env.enterPhis pred is' new = env.enterPhis pred is new := by
  induction h generalizing new with
  | nil => rfl
  | @cons i j is is' hij _ ih =>
    cases hphi : i.isPhi with
    | true =>
      obtain rfl := hij.eq_of_isPhi hphi
      cases j with
      | phi p =>
        rw [Env.enterPhis, Env.enterPhis]
        congr 1
        funext x
        exact ih _
      | _ => rfl
    | false =>
      have hphi' := hij.isPhi_eq.trans hphi
      cases i with
      | phi p => cases hphi
      | _ =>
        cases j with
        | phi p => cases hphi'
        | _ => rfl

theorem forall₂_dropWhile {is is' : List Instr} (h : List.Forall₂ (StandsFor fn) is is') :
    List.Forall₂ (StandsFor fn) (is.dropWhile Instr.isPhi) (is'.dropWhile Instr.isPhi) := by
  induction h with
  | nil => exact .nil
  | @cons i j is is' hij hrest ih =>
    rw [List.dropWhile_cons, List.dropWhile_cons, hij.isPhi_eq]
    split
    · exact ih
    · exact .cons hij hrest

theorem foldlM_perform (hI : I.Exact) (hshape : fn.Shape) {is is' : List Instr}
    (h : List.Forall₂ (StandsFor fn) is is') (his : ∀ i ∈ is, i ∈ fn.instrs) :
    ∀ env w env₁ w₁, Respects fn env → is.foldlM I.perform (env, w) = some (env₁, w₁) →
      is'.foldlM I.perform (env, w) = some (env₁, w₁) ∧ Respects fn env₁ := by
  induction h with
  | nil =>
    intro env w env₁ w₁ henv h₁
    obtain ⟨rfl, rfl⟩ := Prod.mk.inj (Option.some.inj h₁)
    exact ⟨rfl, henv⟩
  | @cons i j is is' hij _ ih =>
    intro env w env₁ w₁ henv h₁
    rw [List.foldlM_cons] at h₁ ⊢
    obtain ⟨⟨env₂, w₂⟩, h₂, h₁⟩ := Option.bind_eq_some_iff.1 h₁
    obtain ⟨h₂', henv₂⟩ := hij.perform hI hshape (his i (by simp)) henv h₂
    rw [h₂']
    exact ih (fun k hk => his k (by simp [hk])) env₂ w₂ env₁ w₁ henv₂ h₁

/-! ## Blocks and functions -/

/-- A block with constants in the place of some instructions. -/
def StandsForBlock (fn : Function) (b b' : Block) : Prop :=
  ∃ is, b' = { b with instrs := is } ∧ List.Forall₂ (StandsFor fn) b.instrs is

/-- The function with constants in the place of some instructions. -/
def StandsForFunction (fn fn' : Function) : Prop :=
  ∃ bs, fn' = { fn with blocks := bs } ∧ List.Forall₂ (StandsForBlock fn) fn.blocks bs

theorem StandsForBlock.refl (b : Block) : StandsForBlock fn b b :=
  ⟨b.instrs, rfl, List.forall₂_same.2 fun i _ => .same i⟩

theorem StandsForBlock.id_eq (t : BlockId) (b b' : Block) (h : StandsForBlock fn b b') :
    decide (b'.id = t) = decide (b.id = t) := by
  obtain ⟨is, rfl, -⟩ := h
  rfl

/-- **A function and the folded one go in step.** -/
theorem StandsForFunction.inStep {fn' : Function} (h : StandsForFunction fn fn') (hI : I.Exact)
    (hshape : fn.Shape) :
    I.InStep fn fn' (fun b b' => b ∈ fn.blocks ∧ StandsForBlock fn b b')
      fun env env' => env' = env ∧ Respects fn env where
  id_eq := by
    rintro b _ ⟨-, is, rfl, -⟩
    rfl
  term_eq := by
    rintro b _ ⟨-, is, rfl, -⟩
    rfl
  block := by
    rintro b _ ⟨hb, is, rfl, his⟩ pred - env _ w env₁ w₁ ⟨rfl, henv⟩ h₁
    obtain ⟨env₂, h₂, h₁⟩ := Option.bind_eq_some_iff.1 h₁
    have hmem : ∀ i ∈ b.instrs, i ∈ fn.instrs := fun i hi => Function.mem_instrs.2 ⟨b, hb, hi⟩
    have henv₂ := Respects.enterPhis hshape hmem _ env₂ henv h₂
    obtain ⟨h₁', henv₁⟩ := foldlM_perform hI hshape (forall₂_dropWhile his)
      (fun i hi => hmem i ((List.dropWhile_sublist _).mem hi)) env₂ w env₁ w₁ henv₂ h₁
    refine ⟨env₁, Option.bind_eq_some_iff.2 ⟨env₂, ?_, h₁'⟩, rfl, henv₁⟩
    rw [← h₂]
    exact enterPhis_eq his _
  reads := by
    rintro b _ - t - v - env _ ⟨rfl, -⟩
    rfl
  entry b hb := by
    obtain ⟨bs, rfl, hbs⟩ := h
    have hmem := Function.entryBlock?_mem hb
    have hhead : ∀ l : List Block, l.head? = l.find? fun _ => true := by
      intro l
      cases l <;> rfl
    unfold Function.entryBlock? Function.block? at hb ⊢
    rw [hhead] at hb ⊢
    split at hb
    · next h0 =>
      obtain ⟨b', hb', hbb'⟩ := forall₂_find? (fun _ _ _ => rfl) hbs hb
      exact ⟨b', (if_pos h0).trans hb', hmem, hbb'⟩
    · next h0 =>
      obtain ⟨b', hb', hbb'⟩ := forall₂_find? (StandsForBlock.id_eq fn.entry) hbs hb
      exact ⟨b', (if_neg h0).trans hb', hmem, hbb'⟩
  next := by
    rintro b _ - t - c hc
    obtain ⟨bs, rfl, hbs⟩ := h
    obtain ⟨c', hc', hcc'⟩ := forall₂_find? (StandsForBlock.id_eq t) hbs hc
    exact ⟨c', hc', (Function.mem_of_block? hc).1, hcc'⟩

/-! ## What folding knows -/

/-- All constants in a list have values that are known. -/
def Justified (fn : Function) (consts : Consts) : Prop :=
  ∀ v x, v ≠ 0 → consts.value? v = some x → Yields fn v x

theorem mem_initialConsts {v : ValueId} {c : Const} :
    (v, c) ∈ initialConsts fn ↔ .const c ∈ fn.instrs ∧ c.result = v := by
  rw [initialConsts, List.mem_reverse, List.mem_filterMap]
  constructor
  · rintro ⟨i, hi, hic⟩
    cases i with
    | const c' =>
      obtain ⟨rfl, rfl⟩ := Prod.mk.inj (Option.some.inj hic)
      exact ⟨hi, rfl⟩
    | _ => cases hic
  · rintro ⟨hc, rfl⟩
    exact ⟨.const c, hc, rfl⟩

theorem initialConsts_justified (fn : Function) : Justified fn (initialConsts fn) := by
  intro v x h0 hx
  rw [Consts.value?_eq] at hx
  obtain ⟨c, hc, hvalue⟩ := Option.bind_eq_some_iff.1 hx
  obtain ⟨hi, rfl⟩ := mem_initialConsts.1 (mem_of_lookup_eq_some hc)
  refine .intro (i := .const c) hi h0 .nil ?_
  simp [Instr.meaning?, hvalue]

namespace Justified

variable {consts : Consts}

theorem mapM_yields (h : Justified fn consts) {vs : List ValueId} (hvs : ∀ v ∈ vs, v ≠ 0)
    {xs : List ConstValue} (hxs : vs.mapM consts.value? = some xs) :
    List.Forall₂ (Yields fn) vs xs := by
  induction vs generalizing xs with
  | nil =>
    obtain rfl := Option.some.inj hxs
    exact .nil
  | cons v vs ih =>
    rw [List.mapM_cons] at hxs
    obtain ⟨x, hx, hxs⟩ := Option.bind_eq_some_iff.1 hxs
    obtain ⟨xs', hxs', hxs⟩ := Option.bind_eq_some_iff.1 hxs
    obtain rfl := Option.some.inj hxs
    exact .cons (h v x (hvs v (by simp)) hx) (ih (fun u hu => hvs u (by simp [hu])) hxs')

/-- The constant that an instruction evaluates to. -/
theorem foldInstr (h : Justified fn consts) (hclosed : fn.Closed) {i : Instr} (hi : i ∈ fn.instrs)
    {c : Const} (hc : SsaOpt.foldInstr consts i = some c) :
    StandsFor fn i (.const c) ∧ Justified fn ((c.result, c) :: consts) := by
  obtain ⟨hresult, xs, x, hxs, hx, hvalue⟩ := foldInstr_meaning hc
  have hops : List.Forall₂ (Yields fn) i.operands xs := by
    obtain ⟨b, hb, hib⟩ := Function.mem_instrs.1 hi
    exact h.mapM_yields (fun v hv => (hclosed.operand b hb i hib v hv).1) hxs
  refine ⟨.const hresult hops hx hvalue, fun v y h0 hy => ?_⟩
  rw [Consts.value?_eq, List.lookup_cons] at hy
  split at hy
  · next heq =>
    obtain rfl := eq_of_beq heq
    rw [Option.bind_some, hvalue] at hy
    obtain rfl := Option.some.inj hy
    rw [hresult] at h0 ⊢
    exact .intro hi h0 hops hx
  · rw [← Consts.value?_eq] at hy
    exact h v y h0 hy

/-- **A block.** Instructions that are constants already are left alone. -/
theorem plan (h : Justified fn consts) (hclosed : fn.Closed) {is : List Instr}
    (his : ∀ i ∈ is, i ∈ fn.instrs ∨ ∃ c, i = .const c) :
    (∀ e ∈ (ConstFold.plan consts is).1, ∀ c, e.2 = some c → StandsFor fn e.1 (.const c)) ∧
      Justified fn (ConstFold.plan consts is).2 := by
  induction is generalizing consts with
  | nil => exact ⟨by simp [ConstFold.plan], h⟩
  | cons i is ih =>
    have hrest : ∀ j ∈ is, j ∈ fn.instrs ∨ ∃ c, j = .const c := fun j hj => his j (by simp [hj])
    rw [ConstFold.plan]
    cases hnew : SsaOpt.foldInstr consts i with
    | none =>
      obtain ⟨hstands, hjust⟩ := ih h hrest
      refine ⟨fun e he c hc => ?_, hjust⟩
      rcases List.mem_cons.1 he with rfl | he
      · cases hc
      · exact hstands e he c hc
    | some c =>
      have hi : i ∈ fn.instrs := by
        rcases his i (by simp) with hi | ⟨c', rfl⟩
        · exact hi
        · cases hnew
      obtain ⟨hstand, hjust⟩ := h.foldInstr hclosed hi hnew
      obtain ⟨hstands, hjust'⟩ := ih hjust hrest
      refine ⟨fun e he c' hc' => ?_, hjust'⟩
      rcases List.mem_cons.1 he with rfl | he
      · obtain rfl := Option.some.inj hc'
        exact hstand
      · exact hstands e he c' hc'

end Justified

theorem forall₂_modify {α β : Type} {R : α → β → Prop} {l : List α} {l' : List β}
    (h : List.Forall₂ R l l') {k : Nat} {f : β → β}
    (hf : ∀ x y, x ∈ l → l'[k]? = some y → R x y → R x (f y)) :
    List.Forall₂ R l (l'.modify k f) := by
  induction h generalizing k with
  | nil => simp
  | @cons a b l l' hab hrest ih =>
    cases k with
    | zero => exact .cons (hf a b (by simp) (by simp) hab) hrest
    | succ k =>
      refine .cons hab (ih fun x y hx hy hxy => ?_)
      exact hf x y (by simp [hx]) (by simpa using hy) hxy

/-- An instruction of a folded block is one of the function, or a constant. -/
theorem StandsForBlock.mem_or {b b' : Block} (h : StandsForBlock fn b b') (hb : b ∈ fn.blocks)
    {i : Instr} (hi : i ∈ b'.instrs) : i ∈ fn.instrs ∨ ∃ c, i = .const c := by
  obtain ⟨is, rfl, his⟩ := h
  obtain ⟨j, hj, hstands⟩ := forall₂_exists_left his hi
  cases hstands with
  | same => exact Or.inl (Function.mem_instrs.2 ⟨b, hb, hj⟩)
  | const => exact Or.inr ⟨_, rfl⟩

/-- The replacements of a block. -/
theorem StandsForBlock.commit {refuse : Instr → Const → Option Failure} {b b' : Block}
    (h : StandsForBlock fn b b') {consts : Consts}
    (hplan : ∀ e ∈ (plan consts b'.instrs).1, ∀ c, e.2 = some c → StandsFor fn e.1 (.const c)) :
    StandsForBlock fn b
      { b' with instrs := (ConstFold.commit refuse (plan consts b'.instrs).1).instrs } := by
  have hcommit : List.Forall₂ (StandsFor fn) ((plan consts b'.instrs).1.map Prod.fst)
      (ConstFold.commit refuse (plan consts b'.instrs).1).instrs :=
    commit_forall₂ .same fun e he c hc _ => hplan e he c hc
  rw [planned_fst] at hcommit
  obtain ⟨is, rfl, his⟩ := h
  exact ⟨_, rfl, forall₂_trans (R := StandsFor fn) (fun _ _ _ => .trans) his hcommit⟩

/-- **What a run makes of a function**, whether or not it is refused in the end. -/
theorem foldBlocks_standsFor {refuse : Instr → Const → Option Failure} (hclosed : fn.Closed)
    (positions : List Nat) :
    ∀ consts cur, Justified fn consts → StandsForFunction fn cur →
      StandsForFunction fn (foldBlocks refuse positions consts cur).function := by
  induction positions with
  | nil => exact fun consts cur _ hcur => hcur
  | cons k rest ih =>
    intro consts cur hjust hcur
    obtain ⟨bs, rfl, hbs⟩ := hcur
    rw [foldBlocks]
    dsimp only
    cases hk : bs[k]? with
    | none =>
      -- there is no such block, so nothing changes
      have hself : bs.modify k (fun b => { b with instrs :=
          (ConstFold.commit refuse (plan consts ([] : List Instr)).1).instrs }) = bs :=
        List.modify_eq_self (by simpa using hk)
      have hsame : StandsForFunction fn { fn with blocks := bs } := ⟨bs, rfl, hbs⟩
      simp only [Function.modifyBlock, Option.map_none, Option.getD_none, hself]
      exact ih consts _ hjust hsame
    | some b' =>
      obtain ⟨b, hb, hbb'⟩ := forall₂_exists_left hbs (List.mem_of_getElem? hk)
      obtain ⟨hplan, hjust'⟩ := hjust.plan hclosed fun i hi => hbb'.mem_or hb hi
      have hstep : StandsForFunction fn (Function.modifyBlock (fun b => { b with instrs :=
          (ConstFold.commit refuse (plan consts b'.instrs).1).instrs }) k
            { fn with blocks := bs }) := by
        refine ⟨_, rfl, forall₂_modify hbs fun c c' _ hc' hcc' => ?_⟩
        obtain rfl : b' = c' := Option.some.inj (hk.symm.trans hc')
        exact hcc'.commit hplan
      simp only [Option.map_some, Option.getD_some]
      split
      · exact hstep
      · exact ih _ _ hjust' hstep

theorem run_standsFor (checker : Option Checker) (hclosed : fn.Closed) :
    StandsForFunction fn (run checker fn).function := by
  apply foldBlocks_standsFor hclosed
  · exact initialConsts_justified fn
  · exact ⟨fn.blocks, rfl, List.forall₂_same.2 fun b _ => .refl b⟩

end ConstFold

/-- At the start of a call nothing that is known is defined. -/
theorem ConstFold.Respects.of_canStart {fn : Function} {start : Env ConstValue}
    (h : fn.CanStart start) : Respects fn start := by
  intro v x y hx hy
  cases hx with
  | intro hi h0 =>
    rw [h _ hi h0] at hy
    cases hy

/-- What a run of `fn` returns, a run of `fn'` returns too, by way of the same blocks, if both start
with values of which none is known to be another one (`ConstFold.Respects`), such as arguments of a
call; and the name is the same. -/
structure Function.RefinedBy (I : Interp ConstValue W) (fn fn' : Function) : Prop where
  name_eq : fn'.name = fn.name
  run : ∀ start, ConstFold.Respects fn start → ∀ w k result, fn.run I start w k = some result →
    fn'.run I start w k = some result

theorem ConstFold.run_refinedBy {fn : Function} {I : Interp ConstValue W}
    (checker : Option Checker) (hI : I.Exact) (hshape : fn.Shape) (hclosed : fn.Closed) :
    fn.RefinedBy I (run checker fn).function := by
  have hstands := run_standsFor checker hclosed
  refine ⟨(run_folded checker fn).name_eq, fun start hstart w k result hrun => ?_⟩
  exact (hstands.inStep hI hshape).run ⟨rfl, hstart⟩ hrun

/-- **Constant folding keeps runs.** Whether or not the pass fails, each function that is left
returns what the former one returns, with the same world and by way of the same blocks, for every
meaning of instructions that is exact for constants, operations, comparisons and conversions, and
for every start that sets no value to anything else than what the constants of the function make it
(`ConstFold.Respects`). -/
theorem Transform.constFold_keeps_runs {σ : Type} {env : PassEnv} {r : Run σ} {m : Module}
    {I : Interp ConstValue W} (hr : r.listing = .ofModule m) (hm : moduleErr? (some m) = none)
    (hI : I.Exact) :
    ∃ fns, (constFold.pass.onModule env r).2.listing = .ofModule { m with functions := fns } ∧
      List.Forall₂ (Function.RefinedBy I) m.functions fns := by
  refine Run.allFunctions_refined hr (fun fn => ⟨rfl, fun _ _ _ _ _ h => h⟩)
    fun k r' m' fn hr' hfn hmem hext => ?_
  obtain ⟨-, hlisting⟩ := Transform.constFold_onFunction hr' hfn
  obtain ⟨hshape, -, hclosed⟩ := Module.wellFormed_of_verified hm hmem hext
  exact ⟨_, hlisting, ConstFold.run_refinedBy env.checker hI hshape hclosed⟩

/-- Arguments are values that a run can start with. -/
theorem Function.Shape.canStart_ofArgs {fn : Function} (h : fn.Shape)
    (args : List (Option ConstValue)) : fn.CanStart (Env.ofArgs fn.params args) := by
  intro i hi h0
  have hnot : i.result ∉ fn.params.map Param.id := by
    intro hparam
    have hnodup := h.defined_nodup
    rw [definedIds, List.filter_append] at hnodup
    refine List.disjoint_of_nodup_append hnodup (a := i.result) ?_ ?_
    · exact List.mem_filter.2 ⟨hparam, by simpa using h0⟩
    · exact List.mem_filter.2 ⟨List.mem_map_of_mem hi, by simpa using h0⟩
  have hnone : ((fn.params.map Param.id).zip args).lookup i.result = none := by
    rw [List.lookup_eq_none_iff]
    rintro ⟨v, x⟩ hmem
    have hv := (List.of_mem_zip hmem).1
    simp only [bne_iff_ne, ne_eq]
    rintro rfl
    exact hnot hv
  rw [Env.ofArgs, hnone]
  rfl

/-- A meaning that is exact, where the world counts the other instructions. -/
def Interp.exactly : Interp ConstValue Nat where
  exec i xs w :=
    match i.meaning? xs with
    | some r => r.map fun x => (some x, w)
    | none => some (none, w + 1)
  truth x := x.bits = 1

theorem Interp.exactly_exact : Interp.exactly.Exact := by
  intro i xs r h w
  simp only [exactly, Instr.meaning?_anonymous, h]

/-- Arithmetic at the ends of the range of eight bits, a division that traps in a block that is not
run, and a product that declares another type than its operands have. -/
def ConstFold.edges : Function where
  name := "edges"
  params := [⟨1, "n", some (.int ⟨true, .w32⟩)⟩]
  ret := some (.int ⟨true, .w32⟩)
  blocks :=
    [{ id := 1
       instrs := [.const ⟨2, some (.int ⟨true, .w8⟩), "-128"⟩,
         .const ⟨3, some (.int ⟨true, .w8⟩), "-1"⟩,
         .binary ⟨4, .add, 2, 3, some (.int ⟨true, .w8⟩)⟩, .compare ⟨5, .lt, 2, 3, some .bool⟩,
         .cast ⟨6, 4, some (.int ⟨true, .w32⟩)⟩]
       term := some (.brIf 5 2 3) },
     { id := 2
       instrs := [.binary ⟨7, .sub, 1, 6, some (.int ⟨true, .w32⟩)⟩,
         .binary ⟨8, .mul, 6, 6, some (.int ⟨true, .w8⟩)⟩]
       term := some (.ret 7 true) },
     { id := 3
       instrs := [.binary ⟨9, .div, 2, 3, some (.int ⟨true, .w8⟩)⟩]
       term := some (.ret 1 true) }]

/-- What folding leaves of it, which stops at the product. -/
def ConstFold.edgesFolded : Function :=
  { edges with
    blocks := edges.blocks.modify 0 fun b =>
      { b with
        instrs := [.const ⟨2, some (.int ⟨true, .w8⟩), "-128"⟩,
          .const ⟨3, some (.int ⟨true, .w8⟩), "-1"⟩, .const ⟨4, some (.int ⟨true, .w8⟩), "127"⟩,
          .const ⟨5, some .bool, "true"⟩, .const ⟨6, some (.int ⟨true, .w32⟩), "127"⟩] } }

open ConstFold in
theorem Transform.constFold_edges :
    moduleErr? (some ⟨"m", [edges]⟩) = none ∧
      (constFold.pass.onModule ⟨some .standard, "constfold"⟩
        { listing := .ofModule ⟨"m", [edges]⟩, world := () }).1.failure ≠ none ∧
      edges.RefinedBy .exactly edgesFolded ∧
      edgesFolded.run .exactly (Env.ofArgs edges.params [some ⟨.int ⟨true, .w32⟩, 5⟩]) 0 2 =
        some ⟨some ⟨.int ⟨true, .w32⟩, 4294967174⟩, 0, [1, 2]⟩ := by
  have hm : moduleErr? (some ⟨"m", [edges]⟩) = none := by decide
  let r : Run Unit := { listing := .ofModule ⟨"m", [edges]⟩, world := () }
  have hfails : (constFold.pass.onModule ⟨some .standard, "constfold"⟩ r).1.failure ≠ none := by
    decide +kernel
  obtain ⟨fns, hlisting, hfns⟩ :=
    constFold_keeps_runs (r := r) rfl hm Interp.exactly_exact
  have hresult : (constFold.pass.onModule ⟨some .standard, "constfold"⟩ r).2.listing =
      .ofModule ⟨"m", [edgesFolded]⟩ := by
    decide +kernel
  obtain rfl : fns = [edgesFolded] := by
    have heq := congrArg Listing.front (hlisting.symm.trans hresult)
    simpa using heq
  have hrefined : edges.RefinedBy .exactly edgesFolded := (List.forall₂_cons.1 hfns).1
  have hshape := (Module.wellFormed_of_verified hm (List.mem_singleton_self edges) rfl).1
  refine ⟨hm, hfails, hrefined, hrefined.run _ ?_ 0 2 _ (by decide +kernel)⟩
  exact .of_canStart (hshape.canStart_ofArgs _)

/-- A sum of a value that only a block defines to which control does not come. -/
def ConstFold.unreached : Function where
  name := "f"
  ret := some (.int ⟨true, .w32⟩)
  blocks :=
    [{ id := 1
       instrs := [.binary ⟨3, .add, 2, 2, some (.int ⟨true, .w32⟩)⟩]
       term := some (.ret 3 true) },
     { id := 2
       instrs := [.const ⟨2, some (.int ⟨true, .w32⟩), "5"⟩]
       term := some (.ret 2 true) }]

/-- What folding leaves of it. -/
def ConstFold.unreachedFolded : Function :=
  { unreached with
    blocks := unreached.blocks.modify 0 fun b =>
      { b with instrs := [.const ⟨3, some (.int ⟨true, .w32⟩), "10"⟩] } }

open ConstFold in
/-- A start that sets the value to something else is not respected. -/
theorem Transform.constFold_unreached :
    let start : Env ConstValue := fun v => if v = 2 then some ⟨.int ⟨true, .w32⟩, 7⟩ else none
    let r : Run Unit := { listing := .ofModule ⟨"m", [unreached]⟩, world := () }
    Interp.exactly.Exact ∧ moduleErr? (some ⟨"m", [unreached]⟩) = none ∧
      (constFold.pass.onModule ⟨some .standard, "constfold"⟩ r).1.failure = none ∧
      (constFold.pass.onModule ⟨some .standard, "constfold"⟩ r).2.listing =
        .ofModule ⟨"m", [unreachedFolded]⟩ ∧
      unreached.run .exactly start 0 1 = some ⟨some ⟨.int ⟨true, .w32⟩, 14⟩, 0, [1]⟩ ∧
      unreachedFolded.run .exactly start 0 1 = some ⟨some ⟨.int ⟨true, .w32⟩, 10⟩, 0, [1]⟩ := by
  exact ⟨Interp.exactly_exact, by decide +kernel⟩

end SsaOpt
