import Mathlib.Data.List.Find
import Mathlib.Data.List.Forall2
import SsaOpt.Proofs.CallSite
import SsaOpt.Proofs.Execution

/-!
# Replacing a call keeps the meaning

Runs of a module and of the module in which one call is replaced go in step. A frame of the second
one stands for one frame of the first (`Mirrors.plain`), or for two if control is in the copy of the
callee: the callee's and the waiting one of the caller (`Mirrors.copied`). What the first run has
defined, the second has defined too, under the numbers of the copy in the second case
(`Env.Agrees`). The other direction fails: a copy that is run again still has the values of the time
before.
-/

namespace SsaOpt

variable {V W : Type}

/-! ## Values -/

namespace Env

variable {r : Renaming} {D : ValueId → Prop} {env env' new new' : Env V}

/-- What is defined is in `D`, and is defined under the new numbers too. -/
def Agrees (r : Renaming) (D : ValueId → Prop) (env env' : Env V) : Prop :=
  ∀ v x, env v = some x → D v ∧ env' (r.value v) = some x

/-- Writing `d` changes no other value. -/
structure Writes (r : Renaming) (D : ValueId → Prop) (d : ValueId) : Prop where
  zero_iff : r.value d = 0 ↔ d = 0
  mem : d ≠ 0 → D d
  ne : d ≠ 0 → ∀ v, D v → v ≠ d → r.value v ≠ r.value d

/-- What is defined on the left is the same on the right. -/
def Below (x y : Option V) : Prop := ∀ a, x = some a → y = some a

theorem Agrees.set (h : Agrees r D env env') {d : ValueId} (hd : Writes r D d) {x y : Option V}
    (hxy : Below x y) : Agrees r D (env.set d x) (env'.set (r.value d) y) := by
  by_cases h0 : d = 0
  · rw [hd.zero_iff.2 h0, h0, set_zero, set_zero]
    exact h
  · intro v a hv
    by_cases hvd : v = d
    · subst hvd
      rw [set_self h0] at hv
      rw [set_self fun hr => h0 (hd.zero_iff.1 hr)]
      exact ⟨hd.mem h0, hxy a hv⟩
    · rw [set_of_ne hvd] at hv
      obtain ⟨hD, hv'⟩ := h v a hv
      rw [set_of_ne (hd.ne h0 v hD hvd)]
      exact ⟨hD, hv'⟩

/-- Writing a number that stands for nothing. -/
theorem Agrees.set_right (h : Agrees r D env env') {d : ValueId} (hd : ∀ v, D v → r.value v ≠ d)
    (y : Option V) : Agrees r D env (env'.set d y) := by
  intro v a hv
  obtain ⟨hD, hv'⟩ := h v a hv
  rw [set_of_ne (hd v hD)]
  exact ⟨hD, hv'⟩

theorem Agrees.below (h : Agrees r D env env') (v : ValueId) :
    Below (env v) (env' (r.value v)) := fun a ha => (h v a ha).2

theorem Agrees.mapM (h : Agrees r D env env') {vs : List ValueId} {xs : List V}
    (hxs : vs.mapM env = some xs) : (vs.map r.value).mapM env' = some xs := by
  induction vs generalizing xs with
  | nil => simpa using hxs
  | cons v vs ih =>
    rw [List.mapM_cons] at hxs
    obtain ⟨a, ha, hxs⟩ := Option.bind_eq_some_iff.1 hxs
    obtain ⟨as, has, hxs⟩ := Option.bind_eq_some_iff.1 hxs
    rw [List.map_cons, List.mapM_cons, (h v a ha).2, ih has]
    exact hxs

theorem Agrees.args (h : Agrees r D env env') (vs : List ValueId) :
    List.Forall₂ Below (vs.map env) ((vs.map r.value).map env') := by
  induction vs with
  | nil => exact .nil
  | cons v vs ih => exact .cons (h.below v) ih

/-- The phis of a block and those of the block that stands for it. -/
theorem Agrees.takePhis (h : Agrees r D new new') {pred pred' : Option BlockId} {F : Instr → Instr}
    {is : List Instr} (hF : ∀ i, (F i).isPhi = i.isPhi)
    (hphi : ∀ p, .phi p ∈ is → ∀ p', F (.phi p) = .phi p' → p'.result = r.value p.result ∧
      Below (env.read pred p) (env'.read pred' p'))
    (hwrites : ∀ i ∈ is, Writes r D i.result) :
    Agrees r D (env.takePhis pred is new) (env'.takePhis pred' (is.map F) new') := by
  induction is generalizing new new' with
  | nil => exact h
  | cons i is ih =>
    have hi := hF i
    cases i with
    | phi p =>
      rw [List.map_cons]
      cases hFi : F (.phi p) with
      | phi p' =>
        obtain ⟨hresult, hread⟩ := hphi p (by simp) p' hFi
        rw [Env.takePhis, Env.takePhis, hresult]
        exact ih (h.set (hwrites (.phi p) (by simp)) hread)
          (fun p hp => hphi p (by simp [hp])) fun i hi => hwrites i (by simp [hi])
      | _ => simp [hFi, Instr.isPhi] at hi
    | _ =>
      rw [List.map_cons]
      cases hFi : F _ with
      | phi p' => simp [hFi, Instr.isPhi] at hi
      | _ => exact h

/-- Phis that write numbers that stand for nothing. -/
theorem Agrees.takePhis_right (h : Agrees r D env new') {pred : Option BlockId} {is : List Instr}
    (his : ∀ i ∈ is, ∀ v, D v → r.value v ≠ i.result) :
    Agrees r D env (env'.takePhis pred is new') := by
  induction is generalizing new' with
  | nil => exact h
  | cons i is ih =>
    cases i with
    | phi p =>
      rw [Env.takePhis]
      exact ih (h.set_right (his (.phi p) (by simp)) _) fun i hi => his i (by simp [hi])
    | _ => exact h

/-- A phi whose predecessors are renamed, at an edge that is renamed in the same way. -/
theorem Agrees.read (h : Agrees r D env env') {p p' : Phi} {q : BlockId} (τ : BlockId → BlockId)
    (hp : p'.incoming = p.incoming.map fun e => ⟨τ e.pred, r.value e.value⟩)
    (hτ : ∀ e ∈ p.incoming, τ e.pred = τ q → e.pred = q) :
    Below (env.read (some q) p) (env'.read (some (τ q)) p') := by
  intro x hx
  obtain ⟨e, he, hx⟩ := Option.bind_eq_some_iff.1 (by simpa [Env.read] using hx)
  have hfind : p'.incoming.find? (fun e => e.pred = τ q) = some ⟨τ e.pred, r.value e.value⟩ := by
    have hsame : ∀ e' ∈ p.incoming, decide (τ e'.pred = τ q) = decide (e'.pred = q) :=
      fun e' he' => decide_eq_decide.2 ⟨hτ e' he', congrArg τ⟩
    rw [hp, List.find?_map]
    exact congrArg (Option.map _) ((List.find?_congr hsame).trans he)
  simp [Env.read, hfind, (h _ x hx).2]

end Env

/-! ## Instructions and terminators -/

@[simp] theorem Renaming.value_empty (v : ValueId) : ({} : Renaming).value v = v := rfl

theorem Renaming.instr_empty (i : Instr) : ({} : Renaming).instr i = i := by
  have hblock : ({} : Renaming).block = id := rfl
  have hvalue : ({} : Renaming).value = id := rfl
  rw [Renaming.instr, hblock, hvalue, Instr.mapPreds_id]
  cases i <;> simp [Instr.setResult, Instr.mapOperands, Instr.result]

theorem Renaming.anonymous_instr (r : Renaming) {i : Instr} (h : i.isPhi = false) :
    (r.instr i).anonymous = i.anonymous := by
  cases i <;> simp [Renaming.instr, Instr.anonymous, Instr.setResult, Instr.mapOperands,
    Instr.mapPreds, Instr.mapIncoming, Instr.isPhi, Function.comp_def] at h ⊢

namespace CallSite

open CallPlace

variable {fn callee : Function} (s : CallSite fn callee)

/-- The function that stands for one in the module with the call replaced. -/
def Stands (g g' : Function) : Prop := g' = g ∨ (g = fn ∧ g' = s.result)

/-- The functions of a module, and those of the module with the call replaced. -/
structure Replaces (find find' : String → Option Function) : Prop where
  find_none : ∀ t, find t = none → find' t = none
  find_some : ∀ t g, find t = some g → ∃ g', find' t = some g' ∧ s.Stands g g'
  shape : ∀ t g, find t = some g → g.Shape
  target : find s.call.target = some callee
  closed : fn.Closed

/-- The same is done, with a function that stands for the one that is entered. -/
inductive Acts : Act V W → Act V W → Prop
  | yields (x : Option V) (w : W) : Acts (.yields x w) (.yields x w)
  | enters {g g' : Function} {args args' : List (Option V)} (hg : s.Stands g g') (hshape : g.Shape)
      (hargs : List.Forall₂ Env.Below args args') : Acts (.enters g args) (.enters g' args')

variable {s} {find find' : String → Option Function} {I : Interp V W} {r : Renaming}
  {D : ValueId → Prop} {env env' : Env V}

theorem execute_instr (ha : Env.Agrees r D env env') {w : W} {i : Instr} (hi : i.isPhi = false)
    {a : Act V W} (h : I.execute env w i = some a) :
    I.execute env' w (r.instr i) = some a ∧ s.Acts a a := by
  unfold Interp.execute at h ⊢
  obtain ⟨xs, hxs, h⟩ := Option.bind_eq_some_iff.1 h
  rw [Renaming.operands_instr, ha.mapM hxs, r.anonymous_instr hi]
  refine ⟨h, ?_⟩
  obtain ⟨e, -, rfl⟩ := Option.map_eq_some_iff.1 h
  exact .yields e.1 e.2

/-- **A renamed instruction does the same.** -/
theorem act_instr (hfind : s.Replaces find find') (ha : Env.Agrees r D env env') {w : W} {i : Instr}
    {a : Act V W} (h : I.act find env w i = some a) :
    ∃ a', I.act find' env' w (r.instr i) = some a' ∧ s.Acts a a' := by
  cases i with
  | phi p => simp [Interp.act] at h
  | nop =>
    obtain rfl := Option.some.inj h
    exact ⟨_, rfl, .yields none w⟩
  | hole =>
    obtain rfl := Option.some.inj h
    exact ⟨_, rfl, .yields none w⟩
  | call c =>
    have hinstr : r.instr (.call c) =
        .call { c with result := r.value c.result, args := c.args.map r.value } := rfl
    rw [Interp.act] at h
    cases hc : find c.target with
    | none =>
      rw [hc] at h
      obtain ⟨h', hacts⟩ := execute_instr (s := s) ha rfl h
      refine ⟨a, ?_, hacts⟩
      rw [hinstr] at h' ⊢
      simp only [Interp.act, hfind.find_none _ hc]
      exact h'
    | some g =>
      rw [hc] at h
      obtain rfl := Option.some.inj h
      obtain ⟨g', hg', hstands⟩ := hfind.find_some _ g hc
      refine ⟨.enters g' ((c.args.map r.value).map env'), ?_,
        .enters hstands (hfind.shape _ g hc) (ha.args c.args)⟩
      simp only [hinstr, Interp.act, hg']
  | _ =>
    obtain ⟨h', hacts⟩ := execute_instr (s := s) ha rfl h
    exact ⟨a, h', hacts⟩

end CallSite

/-! ## Points -/

/-- The instructions that are left are instructions of the function, and no phis. -/
structure Point.Sound (p : Point) : Prop where
  mem : ∀ i ∈ p.rest, i ∈ p.fn.instrs
  no_phi : ∀ i ∈ p.rest, i.isPhi = false

theorem Point.Sound.advance {p : Point} (h : p.Sound) {i : Instr} {rest : List Instr}
    (hrest : p.rest = i :: rest) : Point.Sound { p with rest } where
  mem j hj := h.mem j (by simp [hrest, hj])
  no_phi j hj := h.no_phi j (by simp [hrest, hj])

theorem Frame.enter_sound {fn : Function} (hfn : fn.Shape) {b : Block} (hb : b ∈ fn.blocks)
    (pred : Option BlockId) (env : Env V) : (Frame.enter fn b pred env).point.Sound where
  mem _ hi := Function.mem_instrs.2 ⟨b, hb, (List.dropWhile_sublist _).mem hi⟩
  no_phi _ hi := not_isPhi_of_mem_dropWhile (hfn.phis_first b hb) hi

theorem dropWhile_append_cons {is rest : List Instr} {i : Instr} (hi : i.isPhi = false) :
    (is ++ i :: rest).dropWhile Instr.isPhi = is.dropWhile Instr.isPhi ++ i :: rest := by
  induction is with
  | nil => simp [hi]
  | cons j is ih =>
    rw [List.cons_append, List.dropWhile_cons, List.dropWhile_cons, ih]
    split <;> rfl

theorem Env.takePhis_append_cons (env : Env V) (pred : Option BlockId) {is rest : List Instr}
    {i : Instr} (hi : i.isPhi = false) (new : Env V) :
    env.takePhis pred (is ++ i :: rest) new = env.takePhis pred is new := by
  induction is generalizing new with
  | nil =>
    cases i with
    | phi p => simp [Instr.isPhi] at hi
    | _ => rfl
  | cons j is ih =>
    cases j with
    | phi p =>
      rw [List.cons_append, takePhis, takePhis]
      exact ih _
    | _ => rfl

/-- Without phis there is nothing to take. -/
theorem Env.takePhis_of_no_phi (env : Env V) (pred : Option BlockId) {is : List Instr}
    (h : ∀ i ∈ is, i.isPhi = false) (new : Env V) :
    env.takePhis pred is new = new ∧ is.dropWhile Instr.isPhi = is := by
  cases is with
  | nil => exact ⟨rfl, rfl⟩
  | cons i is =>
    have hi := h i (by simp)
    refine ⟨?_, by simp [hi]⟩
    cases i with
    | phi p => simp [Instr.isPhi] at hi
    | _ => rfl

theorem map_mapPreds_dropWhile {f : BlockId → BlockId} {is : List Instr}
    (h : Function.PhisFirst is) :
    (is.map (Instr.mapPreds f)).dropWhile Instr.isPhi = is.dropWhile Instr.isPhi := by
  have hphi : Instr.isPhi ∘ Instr.mapPreds f = Instr.isPhi := by
    funext i
    simp
  rw [List.dropWhile_map, hphi]
  conv_rhs => rw [← List.map_id (is.dropWhile Instr.isPhi)]
  refine List.map_congr_left fun i hi => ?_
  have := not_isPhi_of_mem_dropWhile h hi
  cases i <;> simp [Instr.mapPreds, Instr.mapIncoming, Instr.isPhi] at this ⊢

namespace CallSite

open CallPlace

variable {fn callee : Function} (s : CallSite fn callee)

/-- Where the caller waits for the callee. -/
def waiting : Point := ⟨fn, s.block.id, s.block.instrs.drop (s.place + 1), s.block.term⟩

/-- Points outside the copy. -/
inductive Plain : Point → Point → Prop
  | same {p : Point} (hp : p.fn.Shape) : Plain p p
  | other {c : Block} (hc : c ∈ fn.blocks) (hne : c.id ≠ s.block.id) (rest : List Instr) :
    Plain ⟨fn, c.id, rest, c.term⟩ ⟨s.result, c.id, rest, c.term⟩
  | head (rest : List Instr) :
    Plain ⟨fn, s.block.id, rest ++ .call s.call :: s.block.instrs.drop (s.place + 1), s.block.term⟩
      ⟨s.result, s.block.id, rest, s.head.term⟩
  | exit (rest : List Instr) :
    Plain ⟨fn, s.block.id, rest, s.block.term⟩ ⟨s.result, s.exitId, rest, s.block.term⟩

/-- Points in the callee and in its copy. -/
inductive Copied : Point → Point → Prop
  | mk {c : Block} (hc : c ∈ callee.blocks) (rest : List Instr) :
    Copied ⟨callee, c.id, rest, c.term⟩
      ⟨s.result, s.numbers.block c.id, rest.map s.numbers.instr, (s.copy c).term⟩

theorem Copied.fn_eq {p p' : Point} (h : s.Copied p p') : p.fn = callee := by
  cases h
  rfl

/-- The frame that stands for a frame, or for that of the callee and that of the waiting caller. -/
inductive Mirrors : Renaming → Frame V → List (Frame V × ValueId) → Frame V → Prop
  | plain {f f' : Frame V} (hp : s.Plain f.point f'.point) (hs : f.point.Sound)
    (ha : Env.Agrees {} f.point.fn.Defined f.env f'.env) : Mirrors {} f [] f'
  | copied {f g f' : Frame V} (hp : s.Copied f.point f'.point) (hs : f.point.Sound)
    (ha : Env.Agrees s.numbers callee.Defined f.env f'.env) (hg : g.point = s.waiting)
    (hga : Env.Agrees {} fn.Defined g.env f'.env) :
    Mirrors s.numbers f [(g, s.call.result)] f'

/-- The frames that stand for waiting ones. -/
inductive Waits : List (Frame V × ValueId) → List (Frame V × ValueId) → Prop
  | nil : Waits [] []
  | cons {r : Renaming} {f f' : Frame V} {fs l l' : List (Frame V × ValueId)} {d : ValueId}
    (h : s.Mirrors r f fs f') (hd : d = 0 ∨ d ∈ f.point.fn.results) (hl : Waits l l') :
    Waits ((f, d) :: (fs ++ l)) ((f', r.value d) :: l')

/-- The state that stands for a state. -/
inductive States : State V W → State V W → Prop
  | mk {r : Renaming} {f f' : Frame V} {fs l l' : List (Frame V × ValueId)} {w : W}
    (h : s.Mirrors r f fs f') (hl : s.Waits l l') : States ⟨f, fs ++ l, w⟩ ⟨f', l', w⟩

theorem States.plain {s : CallSite fn callee} {r : Renaming} {f f' : Frame V}
    {l l' : List (Frame V × ValueId)} {w : W} (h : s.Mirrors r f [] f') (hl : s.Waits l l') :
    s.States ⟨f, l, w⟩ ⟨f', l', w⟩ := .mk h hl

/-! ### What instructions write -/

theorem written {fn : Function} {i : Instr} (hi : i ∈ fn.instrs) :
    i.result = 0 ∨ i.result ∈ fn.results := by
  by_cases h0 : i.result = 0
  · exact Or.inl h0
  · exact Or.inr (Function.mem_results.2 ⟨h0, i, hi, rfl⟩)

theorem defined_of_mem_results {fn : Function} {v : ValueId} (hv : v ∈ fn.results) :
    fn.Defined v := by
  obtain ⟨h0, i, hi, rfl⟩ := Function.mem_results.1 hv
  exact ⟨h0, List.mem_append_right _ (List.mem_map_of_mem hi)⟩

theorem writes_empty {fn : Function} {d : ValueId} (hd : d = 0 ∨ d ∈ fn.results) :
    Env.Writes {} fn.Defined d where
  zero_iff := Iff.rfl
  mem h0 := defined_of_mem_results (hd.resolve_left h0)
  ne _ _ _ hne := hne

variable {s}

/-- What the copy writes is nothing that the caller defines. -/
theorem not_defined_result {v : ValueId} (hv : v ∈ callee.results) :
    ¬ fn.Defined (s.numbers.value v) := fun h => (s.fresh.result v hv).2 h.2

theorem writes_numbers (hfn : fn.Closed) {d : ValueId} (hd : d = 0 ∨ d ∈ callee.results) :
    Env.Writes s.numbers callee.Defined d where
  zero_iff := by
    rcases hd with rfl | hd
    · simp [s.value_zero]
    · exact iff_of_false (s.fresh.result d hd).1 (Function.mem_results.1 hd).1
  mem h0 := defined_of_mem_results (hd.resolve_left h0)
  ne h0 v hv hne heq := by
    have hd := hd.resolve_left h0
    rcases (Function.defined_iff s.called.param_ne_zero).1 hv with hv | hv
    · exact not_defined_result hd (heq ▸ s.defined_param hfn hv)
    · exact hne (s.fresh.result_inj v hv d hd heq)

/-- Writing in the copy does not touch the caller's values. -/
theorem ne_written {d : ValueId} (hd : d ∈ callee.results) :
    ∀ v, fn.Defined v → ({} : Renaming).value v ≠ s.numbers.value d := by
  intro v hv heq
  rw [Renaming.value_empty] at heq
  exact not_defined_result hd (heq ▸ hv)

variable {r : Renaming} {f f' : Frame V} {fs : List (Frame V × ValueId)}

/-- **Writing under a number and under the one that stands for it.** -/
theorem Mirrors.set (hfn : fn.Closed) (h : s.Mirrors r f fs f') {d : ValueId}
    (hd : d = 0 ∨ d ∈ f.point.fn.results) {x y : Option V} (hxy : Env.Below x y) :
    s.Mirrors r (f.set d x) fs (f'.set (r.value d) y) := by
  cases h with
  | plain hp hs ha => exact .plain hp hs (ha.set (writes_empty hd) hxy)
  | copied hp hs ha hg hga =>
    rw [hp.fn_eq] at hd
    refine .copied hp hs (ha.set (writes_numbers hfn hd) hxy) hg ?_
    rcases hd with rfl | hd
    · rw [Frame.set, s.value_zero, Env.set_zero]
      exact hga
    · exact hga.set_right (ne_written hd) y

/-- **The next instruction** is the renamed one, or the call that is replaced. -/
theorem Mirrors.next (h : s.Mirrors r f fs f') {i : Instr} {rest : List Instr}
    (hrest : f.point.rest = i :: rest) :
    (∃ rest', f'.point.rest = r.instr i :: rest' ∧
      s.Mirrors r (f.advance rest) fs (f'.advance rest')) ∨
    (i = .call s.call ∧ (f.advance rest).point = s.waiting ∧ fs = [] ∧
      f'.point = ⟨s.result, s.block.id, [], s.head.term⟩ ∧
      Env.Agrees {} fn.Defined f.env f'.env) := by
  obtain ⟨p, env⟩ := f
  obtain ⟨p', env'⟩ := f'
  cases h with
  | plain hp hs ha =>
    dsimp only at hp hs ha hrest
    rw [Renaming.instr_empty]
    cases hp with
    | same hshape =>
      exact Or.inl ⟨rest, hrest, .plain (.same hshape) (hs.advance hrest) ha⟩
    | other hc hne rest₀ =>
      exact Or.inl ⟨rest, hrest, .plain (.other hc hne rest) (hs.advance hrest) ha⟩
    | head rest₀ =>
      cases rest₀ with
      | nil =>
        obtain ⟨rfl, rfl⟩ := List.cons.inj hrest
        exact Or.inr ⟨rfl, rfl, rfl, rfl, ha⟩
      | cons j rest₀ =>
        obtain ⟨rfl, rfl⟩ := List.cons.inj hrest
        exact Or.inl ⟨rest₀, rfl, .plain (.head rest₀) (hs.advance rfl) ha⟩
    | exit rest₀ =>
      exact Or.inl ⟨rest, hrest, .plain (.exit rest) (hs.advance hrest) ha⟩
  | copied hp hs ha hg hga =>
    dsimp only at hp hs ha hrest hga
    cases hp with
    | mk hc rest₀ =>
      dsimp only at hrest
      subst hrest
      exact Or.inl ⟨_, rfl, .copied (.mk hc rest) (hs.advance rfl) ha hg hga⟩

/-! ### Entering blocks -/

variable {env env' : Env V}

/-- A block of a function that is the same on both sides. -/
theorem enter_same {g : Function} (hg : g.Shape) {c : Block} (hc : c ∈ g.blocks)
    (pred : Option BlockId) (ha : Env.Agrees {} g.Defined env env') :
    s.Mirrors {} (Frame.enter g c pred env) [] (Frame.enter g c pred env') := by
  refine .plain (.same hg) (Frame.enter_sound hg hc pred env) ?_
  have hphis : Env.Agrees {} g.Defined (env.takePhis pred c.instrs env)
      (env'.takePhis pred (c.instrs.map id) env') := by
    refine ha.takePhis (fun _ => rfl) (fun p _ p' hp' => ?_) fun i hi =>
      writes_empty (written (Function.mem_instrs.2 ⟨c, hc, hi⟩))
    obtain rfl := Instr.phi.inj hp'
    refine ⟨rfl, ?_⟩
    cases pred with
    | none => exact fun x hx => by simp [Env.read] at hx
    | some q => exact ha.read id (by simp) fun e _ h => h
  rwa [List.map_id] at hphis

theorem source_inj {id p q : BlockId} (hp : p ∈ fn.blockIds) (hq : q ∈ fn.blockIds)
    (h : s.source id p = s.source id q) : p = q := by
  have hexit : ∀ p ∈ fn.blockIds, p ≠ s.exitId := by
    rintro p hp rfl
    exact s.fresh.exit.2 hp
  unfold source at h
  split at h
  · next hp' =>
    split at h
    · next hq' => rw [hp'.1, hq'.1]
    · exact absurd h.symm (hexit q hq)
  · split at h
    · exact absurd h (hexit p hp)
    · exact h

/-- The phis of a block of the caller, with the predecessors that stand for theirs. -/
theorem takePhis_source {c : Block} (hc : c ∈ fn.blocks) {pred : Option BlockId}
    (hpred : ∀ q, pred = some q → q ∈ fn.blockIds) (ha : Env.Agrees {} fn.Defined env env')
    {is : List Instr} (his : ∀ i ∈ is, i ∈ c.instrs) :
    Env.Agrees {} fn.Defined (env.takePhis pred is env)
      (env'.takePhis (pred.map (s.source c.id)) (is.map (Instr.mapPreds (s.source c.id)))
        env') := by
  refine ha.takePhis (fun i => i.isPhi_mapPreds _) (fun p hp p' hp' => ?_) fun i hi =>
    writes_empty (written (Function.mem_instrs.2 ⟨c, hc, his i hi⟩))
  obtain rfl := Instr.phi.inj hp'
  refine ⟨rfl, ?_⟩
  cases pred with
  | none => exact fun x hx => by simp [Env.read] at hx
  | some q =>
    exact ha.read _ rfl fun e he heq =>
      source_inj (s.caller.pred_mem hc (his _ hp) he) (hpred q rfl) heq

/-- The block of the call. -/
theorem enter_head {pred : Option BlockId} (hpred : ∀ q, pred = some q → q ∈ fn.blockIds)
    (ha : Env.Agrees {} fn.Defined env env') :
    s.Mirrors {} (Frame.enter fn s.block pred env) []
      (Frame.enter s.result s.head (pred.map (s.source s.block.id)) env') := by
  have hcall : (Instr.call s.call).isPhi = false := rfl
  have htake : Function.PhisFirst (s.block.instrs.take s.place) :=
    (s.caller.phis_first _ s.block_mem).sublist (List.take_sublist _ _)
  have hrest : s.block.instrs.dropWhile Instr.isPhi =
      (s.block.instrs.take s.place).dropWhile Instr.isPhi ++
        .call s.call :: s.block.instrs.drop (s.place + 1) := by
    conv_lhs => rw [s.instrs_eq]
    exact dropWhile_append_cons hcall
  have hrest' : s.head.instrs.dropWhile Instr.isPhi =
      (s.block.instrs.take s.place).dropWhile Instr.isPhi := by
    rw [head_instrs, map_mapPreds_dropWhile htake]
  have hphis : env.takePhis pred s.block.instrs env =
      env.takePhis pred (s.block.instrs.take s.place) env := by
    conv_lhs => rw [s.instrs_eq]
    exact env.takePhis_append_cons pred hcall env
  refine .plain ?_ (Frame.enter_sound s.caller s.block_mem pred env) ?_
  · simp only [Frame.enter, hrest, hrest', head_id]
    exact .head _
  · simp only [Frame.enter, hphis, head_instrs]
    exact takePhis_source s.block_mem hpred ha fun i hi => List.mem_of_mem_take hi

/-- Another block of the caller. -/
theorem enter_other {c : Block} (hc : c ∈ fn.blocks) (hne : c.id ≠ s.block.id)
    {pred : Option BlockId} (hpred : ∀ q, pred = some q → q ∈ fn.blockIds)
    (ha : Env.Agrees {} fn.Defined env env') :
    s.Mirrors {} (Frame.enter fn c pred env) []
      (Frame.enter s.result (s.other c) (pred.map (s.source c.id)) env') := by
  have hphis := s.caller.phis_first c hc
  refine .plain ?_ (Frame.enter_sound s.caller hc pred env) ?_
  · simp only [Frame.enter, other_id, other_term, other_instrs, map_mapPreds_dropWhile hphis]
    exact .other hc hne _
  · simp only [Frame.enter, other_instrs]
    exact takePhis_source hc hpred ha fun i hi => hi

variable (s) in
/-- The block that stands for a block of the caller. -/
def image (c : Block) : Block := if c.id = s.block.id then s.head else s.other c

theorem enter_image {c : Block} (hc : c ∈ fn.blocks) {pred : Option BlockId}
    (hpred : ∀ q, pred = some q → q ∈ fn.blockIds) (ha : Env.Agrees {} fn.Defined env env') :
    s.Mirrors {} (Frame.enter fn c pred env) []
      (Frame.enter s.result (s.image c) (pred.map (s.source c.id)) env') := by
  unfold image
  split
  · next hid =>
    obtain rfl := Function.eq_of_id_eq s.caller.ids_nodup hc s.block_mem hid
    exact enter_head hpred ha
  · next hid => exact enter_other hc hid hpred ha

/-- A block of the callee and its copy. The entry of the callee is entered by no edge, and that of
the copy by one that no phi names. -/
theorem enter_copy (hfn : fn.Closed) {c : Block} (hc : c ∈ callee.blocks)
    {pred pred' : Option BlockId}
    (hpred : ∀ q, pred = some q → q ∈ callee.blockIds ∧ pred' = some (s.numbers.block q))
    (ha : Env.Agrees s.numbers callee.Defined env env') {g : Frame V} (hg : g.point = s.waiting)
    (hga : Env.Agrees {} fn.Defined g.env env') :
    s.Mirrors s.numbers (Frame.enter callee c pred env) [(g, s.call.result)]
      (Frame.enter s.result (s.copy c) pred' env') := by
  have hmem : ∀ i ∈ c.instrs, i ∈ callee.instrs :=
    fun i hi => Function.mem_instrs.2 ⟨c, hc, hi⟩
  have hpoint' : (Frame.enter s.result (s.copy c) pred' env').point =
      ⟨s.result, s.numbers.block c.id, (c.instrs.dropWhile Instr.isPhi).map s.numbers.instr,
        (s.copy c).term⟩ := by
    have hphi : Instr.isPhi ∘ s.numbers.instr = Instr.isPhi := by
      funext i
      simp
    simp only [Frame.enter, s.copy_id hc, copy_instrs, List.dropWhile_map, hphi]
  refine .copied (by rw [hpoint']; exact .mk hc _) (Frame.enter_sound s.called hc pred env) ?_ hg ?_
  · refine ha.takePhis s.numbers.isPhi_instr (fun p hp p' hp' => ?_) fun i hi =>
      writes_numbers hfn (written (hmem i hi))
    obtain ⟨p, heq, rfl⟩ := Renaming.instr_eq_phi hp'
    obtain rfl := Instr.phi.inj heq
    refine ⟨rfl, ?_⟩
    cases pred with
    | none => exact fun x hx => by simp [Env.read] at hx
    | some q =>
      obtain ⟨hq, rfl⟩ := hpred q rfl
      exact ha.read _ rfl fun e he heq =>
        s.fresh.block_inj _ (s.called.pred_mem hc hp he) q hq heq
  · refine hga.takePhis_right fun i hi v hv => ?_
    obtain ⟨j, hj, rfl⟩ := List.mem_map.1 hi
    rw [s.numbers.result_instr j s.value_zero]
    rcases written (hmem j hj) with h0 | hj'
    · rw [h0, s.value_zero]
      exact hv.1
    · exact ne_written hj' v hv

/-- What the collecting phi takes is what the callee returns. -/
theorem below_merge (ha : Env.Agrees s.numbers callee.Defined env env') {c : Block}
    (hc : c ∈ callee.blocks) {v : ValueId} (hv : c.term = some (.ret v true)) {p : Phi}
    (hp : p.incoming = callee.blocks.filterMap (Splice.returned s.numbers)) :
    Env.Below (env v) (env'.read (some (s.numbers.block c.id)) p) := by
  intro x hx
  have hentry : (⟨s.numbers.block c.id, s.numbers.value v⟩ : Incoming) ∈ p.incoming := by
    rw [hp, List.mem_filterMap]
    refine ⟨c, hc, ?_⟩
    rw [Splice.returned, hv, ← s.copy_id hc]
    rfl
  obtain ⟨e, he⟩ : ∃ e, p.incoming.find? (fun e => e.pred = s.numbers.block c.id) = some e := by
    rw [← Option.isSome_iff_exists, List.find?_isSome]
    exact ⟨_, hentry, by simp⟩
  -- no other entry names the same block
  obtain ⟨d, hd, v', hv', rfl⟩ := s.mem_returned (hp ▸ List.mem_of_find?_eq_some he)
  have hpred : s.numbers.block d.id = s.numbers.block c.id := by
    simpa using List.find?_some he
  obtain rfl := Function.eq_of_id_eq s.called.ids_nodup hd hc (s.fresh.block_inj _
    (Function.mem_blockIds.2 ⟨d, hd, rfl⟩) _ (Function.mem_blockIds.2 ⟨c, hc, rfl⟩) hpred)
  obtain ⟨rfl, -⟩ := Term.ret.inj (Option.some.inj (hv'.symm.trans hv))
  simp [Env.read, he, (ha v' x hx).2]

/-- The exit block. -/
theorem enter_exit {c : Block} (hc : c ∈ callee.blocks) {v : ValueId} {hasValue : Bool}
    (hterm : c.term = some (.ret v hasValue))
    (ha : Env.Agrees s.numbers callee.Defined env env') {g : Frame V} (hg : g.point = s.waiting)
    (hga : Env.Agrees {} fn.Defined g.env env') {x : Option V}
    (hx : ∀ a, x = some a → hasValue = true ∧ env v = some a) :
    s.Mirrors {} (g.set s.call.result x) []
      (Frame.enter s.result s.exit (some (s.numbers.block c.id)) env') := by
  have hsound : s.waiting.Sound := by
    refine ⟨fun i hi => ?_, fun i hi => s.not_isPhi_of_mem_drop hi⟩
    exact Function.mem_instrs.2 ⟨_, s.block_mem, List.mem_of_mem_drop hi⟩
  have hrest := fun new => env'.takePhis_of_no_phi (some (s.numbers.block c.id))
    (fun i hi => s.not_isPhi_of_mem_drop hi) new
  by_cases h0 : s.call.result = 0
  · have hinstrs : s.exit.instrs = s.block.instrs.drop (s.place + 1) := by
      simp [exit_instrs, Splice.merge, h0]
    refine .plain ?_ (by rw [Frame.set, hg]; exact hsound) ?_
    · rw [Frame.set, hg, Frame.enter, hinstrs, (hrest env').2]
      exact .exit _
    · rw [Frame.set, hg, Frame.enter, hinstrs, (hrest env').1, h0, Env.set_zero]
      exact hga
  · obtain ⟨p, hp, hresult, hincoming⟩ : ∃ p, s.exit.instrs =
        .phi p :: s.block.instrs.drop (s.place + 1) ∧ p.result = s.call.result ∧
          p.incoming = callee.blocks.filterMap (Splice.returned s.numbers) :=
      ⟨⟨s.call.result, s.call.ty, _⟩, by rw [exit_instrs, Splice.merge, if_neg h0]; rfl, rfl, rfl⟩
    refine .plain ?_ (by rw [Frame.set, hg]; exact hsound) ?_
    · rw [Frame.set, hg, Frame.enter, hp, List.dropWhile_cons_of_pos rfl, (hrest env').2]
      exact .exit _
    · have hcall : s.call.result ∈ fn.results :=
        Function.mem_results.2 ⟨h0, _, Function.mem_instrs.2 ⟨_, s.block_mem, s.call_mem⟩, rfl⟩
      rw [Frame.set, hg, Frame.enter, hp, Env.takePhis, (hrest _).1, hresult]
      refine hga.set (writes_empty (Or.inr hcall)) fun a hxa => ?_
      obtain ⟨rfl, hv⟩ := hx a hxa
      exact below_merge ha hc hterm hincoming a hv

/-! ### Finding blocks -/

theorem block?_result {c : Block} (hc : s.Part c) : s.result.block? c.id = some c :=
  Function.block?_of_mem s.shape.ids_nodup (s.mem_result.2 hc)

theorem part_image {c : Block} (hc : c ∈ fn.blocks) :
    s.Part (s.image c) ∧ (s.image c).id = c.id := by
  unfold image
  split
  · next hid => exact ⟨.head, s.head_id.trans hid.symm⟩
  · next hid => exact ⟨.other hc hid, s.other_id c⟩

theorem block?_image {id : BlockId} {c : Block} (h : fn.block? id = some c) :
    s.result.block? id = some (s.image c) := by
  obtain ⟨hc, rfl⟩ := Function.mem_of_block? h
  obtain ⟨hpart, hid⟩ := part_image (s := s) hc
  rw [← hid]
  exact block?_result hpart

theorem block?_copy {id : BlockId} {c : Block} (h : callee.block? id = some c) :
    s.result.block? (s.numbers.block id) = some (s.copy c) := by
  obtain ⟨hc, rfl⟩ := Function.mem_of_block? h
  rw [← s.copy_id hc]
  exact block?_result (.copy hc)

theorem entryBlock?_image {c : Block} (h : fn.entryBlock? = some c) :
    s.result.entryBlock? = some (s.image c) := by
  have hentry : s.result.entry = fn.entry := by rw [s.result_eq]
  unfold Function.entryBlock? at h ⊢
  rw [hentry]
  split at h
  · next h0 =>
    rw [if_pos h0, s.result_eq]
    rw [s.blocks_eq] at h
    cases hpre : s.pre with
    | nil =>
      rw [hpre] at h
      obtain rfl : s.block = c := by simpa using h
      simp [image]
    | cons d pre =>
      rw [hpre] at h
      obtain rfl : d = c := by simpa using h
      have hne := (s.mem_pre_or_post.1 (Or.inl (by simp [hpre] : d ∈ s.pre))).2
      simp [image, hne]
  · next h0 =>
    rw [if_neg h0]
    exact block?_image h

/-! ### Starting functions -/

theorem lookup_zip_below {ids : List ValueId} {args args' : List (Option V)}
    (h : List.Forall₂ Env.Below args args') {v : ValueId} {x : V}
    (hx : (ids.zip args).lookup v = some (some x)) : (ids.zip args').lookup v = some (some x) := by
  induction h generalizing ids with
  | nil => simp at hx
  | @cons a a' args args' ha _ ih =>
    cases ids with
    | nil => simp at hx
    | cons id ids =>
      rw [List.zip_cons_cons, List.lookup_cons] at hx ⊢
      cases hid : v == id with
      | true =>
        rw [hid] at hx
        exact congrArg some (ha x (Option.some.inj hx))
      | false =>
        rw [hid] at hx
        exact ih hx

theorem lookup_of_ofArgs {params : List Param} {args : List (Option V)} {v : ValueId} {x : V}
    (h : Env.ofArgs params args v = some x) :
    ((params.map Param.id).zip args).lookup v = some (some x) :=
  Option.join_eq_some_iff.1 h

theorem mem_zip_of_ofArgs {params : List Param} {args : List (Option V)} {v : ValueId} {x : V}
    (h : Env.ofArgs params args v = some x) : (v, some x) ∈ (params.map Param.id).zip args :=
  mem_of_lookup_eq_some (lookup_of_ofArgs h)

/-- A function that is called on both sides. -/
theorem start_stands {g g' : Function} (hg : s.Stands g g') (hshape : g.Shape)
    {args args' : List (Option V)} (hargs : List.Forall₂ Env.Below args args') {f : Frame V}
    (h : Frame.start g args = some f) :
    ∃ f', Frame.start g' args' = some f' ∧ s.Mirrors {} f [] f' := by
  obtain ⟨c, hc, rfl⟩ := Option.map_eq_some_iff.1 h
  have ha : Env.Agrees {} g.Defined (Env.ofArgs g.params args) (Env.ofArgs g.params args') := by
    intro v x hv
    obtain ⟨hmem, -⟩ := List.of_mem_zip (mem_zip_of_ofArgs hv)
    refine ⟨(Function.defined_iff hshape.param_ne_zero).2 (Or.inl hmem), ?_⟩
    exact Option.join_eq_some_iff.2 (lookup_zip_below hargs (lookup_of_ofArgs hv))
  have hmem := Function.entryBlock?_mem hc
  rcases hg with rfl | ⟨rfl, rfl⟩
  · exact ⟨_, by rw [Frame.start, hc]; rfl, enter_same hshape hmem none ha⟩
  · refine ⟨_, by rw [Frame.start, entryBlock?_image hc]; rfl, ?_⟩
    rw [params_result]
    exact enter_image hmem (by simp) ha

/-- The callee of the call that is replaced. -/
theorem start_copy (hfn : fn.Closed) {g : Frame V} (hg : g.point = s.waiting)
    (hga : Env.Agrees {} fn.Defined g.env env') {f : Frame V}
    (h : Frame.start callee (s.call.args.map g.env) = some f) :
    ∃ c, s.result.block? (s.numbers.block callee.entryId) = some c ∧
      s.Mirrors s.numbers f [(g, s.call.result)]
        (Frame.enter s.result c (some s.block.id) env') := by
  obtain ⟨c, hc, rfl⟩ := Option.map_eq_some_iff.1 h
  have hmem := Function.entryBlock?_mem hc
  have hid : callee.entryId = c.id := by rw [Function.entryId, hc]; rfl
  refine ⟨s.copy c, ?_, enter_copy hfn hmem (by simp) ?_ hg hga⟩
  · rw [hid, ← s.copy_id hmem]
    exact block?_result (.copy hmem)
  · intro v x hv
    have hzip := mem_zip_of_ofArgs hv
    rw [List.zip_map_right, List.mem_map] at hzip
    obtain ⟨⟨v', a⟩, hzip, heq⟩ := hzip
    obtain ⟨rfl, ha⟩ := Prod.mk.inj heq
    refine ⟨(Function.defined_iff s.called.param_ne_zero).2 (Or.inl (List.of_mem_zip hzip).1), ?_⟩
    have hparam : s.numbers.value v' = a := s.value_of_mem_zip hzip
    exact hparam.symm ▸ (hga a x ha).2

/-! ### Leaving blocks -/

variable {I : Interp V W}

theorem leave_agrees {D : ValueId → Prop} (ha : Env.Agrees {} D env env') {t : Term}
    {e : Interp.Exit V} (h : I.leave env t = some e) : I.leave env' t = some e := by
  cases t with
  | br id => exact h
  | unreachable => exact h
  | brIf c yes no =>
    obtain ⟨x, hx, h⟩ := Option.map_eq_some_iff.1 h
    exact Option.map_eq_some_iff.2 ⟨x, (ha c x hx).2, h⟩
  | ret v hasValue =>
    cases hasValue with
    | false => exact h
    | true =>
      obtain ⟨x, hx, h⟩ := Option.map_eq_some_iff.1 h
      exact Option.map_eq_some_iff.2 ⟨x, (ha v x hx).2, h⟩

/-- What the terminator of a copy does. -/
theorem leave_copy (ha : Env.Agrees s.numbers callee.Defined env env') {c : Block} {id : BlockId}
    (h : c.term.bind (I.leave env) = some (.jumps id)) :
    (s.copy c).term.bind (I.leave env') = some (.jumps (s.numbers.block id)) := by
  obtain ⟨t, ht, h⟩ := Option.bind_eq_some_iff.1 h
  cases t with
  | br id' =>
    obtain rfl : id' = id := by simpa [Interp.leave] using h
    rw [s.copy_term_br ht]
    rfl
  | unreachable => simp [Interp.leave] at h
  | ret v hasValue => cases hasValue <;> simp [Interp.leave] at h
  | brIf v yes no =>
    obtain ⟨x, hx, heq⟩ := Option.map_eq_some_iff.1 h
    rw [s.copy_term_brIf ht]
    refine Option.map_eq_some_iff.2 ⟨x, (ha v x hx).2, ?_⟩
    rw [Interp.Exit.jumps.injEq] at heq ⊢
    rw [← heq]
    split <;> rfl

/-- **A jump** within a function. -/
theorem Mirrors.jump (hfn : fn.Closed) (h : s.Mirrors r f fs f') (hrest : f.point.rest = [])
    {t : BlockId} (ht : f.point.term.bind (I.leave f.env) = some (.jumps t)) {g : Frame V}
    (hg : f.jump t = some g) :
    f'.point.rest = [] ∧ ∃ t' g', f'.point.term.bind (I.leave f'.env) = some (.jumps t') ∧
      f'.jump t' = some g' ∧ s.Mirrors r g fs g' := by
  obtain ⟨p, env⟩ := f
  obtain ⟨p', env'⟩ := f'
  obtain ⟨c, hc, rfl⟩ := Option.map_eq_some_iff.1 hg
  obtain ⟨hmem, rfl⟩ := Function.mem_of_block? hc
  cases h with
  | plain hp hs ha =>
    dsimp only at hp hs ha hrest ht hc hmem
    obtain ⟨u, hu, hleave⟩ := Option.bind_eq_some_iff.1 ht
    have hleave' := leave_agrees ha hleave
    cases hp with
    | same hshape =>
      refine ⟨hrest, c.id, _, Option.bind_eq_some_iff.2 ⟨u, hu, hleave'⟩, ?_,
        enter_same hshape hmem _ ha⟩
      rw [Frame.jump, hc]
      rfl
    | @other d hd hne rest =>
      refine ⟨hrest, c.id, _, Option.bind_eq_some_iff.2 ⟨u, hu, hleave'⟩, ?_,
        enter_image hmem (fun q hq => ?_) ha⟩
      · rw [Frame.jump, block?_image hc]
        simp [source, hne]
      · obtain rfl := Option.some.inj hq
        exact Function.mem_blockIds.2 ⟨d, hd, rfl⟩
    | head rest => simp at hrest
    | exit rest =>
      refine ⟨hrest, c.id, _, Option.bind_eq_some_iff.2 ⟨u, hu, hleave'⟩, ?_,
        enter_image hmem (fun q hq => ?_) ha⟩
      · have htarget : c.id ∈ (s.block.term.map Term.targets).getD [] := by
          dsimp only at hu
          rw [hu]
          exact Interp.mem_targets_of_leave hleave
        rw [Frame.jump, block?_image hc]
        simp [source, htarget]
      · obtain rfl := Option.some.inj hq
        exact Function.mem_blockIds.2 ⟨_, s.block_mem, rfl⟩
  | copied hp hs ha hg' hga =>
    dsimp only at hp hs ha hrest ht hc hmem hga
    cases hp with
    | @mk d hd rest =>
      refine ⟨by simpa using hrest, _,
        Frame.enter s.result (s.copy c) (some (s.numbers.block d.id)) env', leave_copy ha ht, ?_,
        enter_copy hfn hmem (fun q hq => ?_) ha hg' hga⟩
      · rw [Frame.jump, block?_copy hc]
        rfl
      · obtain rfl := Option.some.inj hq
        exact ⟨Function.mem_blockIds.2 ⟨d, hd, rfl⟩, rfl⟩

/-- **A return**: from a function that is called on both sides, or from the callee to the exit
block. -/
theorem Mirrors.leave (h : s.Mirrors r f fs f') (hrest : f.point.rest = []) {x : Option V}
    (hx : f.point.term.bind (I.leave f.env) = some (.returns x)) :
    f'.point.rest = [] ∧
      ((fs = [] ∧ f'.point.term.bind (I.leave f'.env) = some (.returns x)) ∨
        ∃ g t' g', fs = [(g, s.call.result)] ∧
          f'.point.term.bind (I.leave f'.env) = some (.jumps t') ∧ f'.jump t' = some g' ∧
          s.Mirrors {} (g.set s.call.result x) [] g') := by
  obtain ⟨p, env⟩ := f
  obtain ⟨p', env'⟩ := f'
  cases h with
  | plain hp hs ha =>
    dsimp only at hp hs ha hrest hx
    obtain ⟨u, hu, hleave⟩ := Option.bind_eq_some_iff.1 hx
    have hleave' := leave_agrees ha hleave
    cases hp with
    | head rest => simp at hrest
    | same hshape => exact ⟨hrest, Or.inl ⟨rfl, Option.bind_eq_some_iff.2 ⟨u, hu, hleave'⟩⟩⟩
    | other hd hne rest =>
      exact ⟨hrest, Or.inl ⟨rfl, Option.bind_eq_some_iff.2 ⟨u, hu, hleave'⟩⟩⟩
    | exit rest => exact ⟨hrest, Or.inl ⟨rfl, Option.bind_eq_some_iff.2 ⟨u, hu, hleave'⟩⟩⟩
  | @copied _ g _ hp hs ha hg hga =>
    dsimp only at hp hs ha hrest hx hga
    cases hp with
    | @mk d hd rest =>
      obtain ⟨u, hu, hleave⟩ := Option.bind_eq_some_iff.1 hx
      refine ⟨by simpa using hrest, Or.inr ⟨g, s.exitId,
        Frame.enter s.result s.exit (some (s.numbers.block d.id)) env', rfl, ?_⟩⟩
      cases u with
      | ret v hasValue =>
        refine ⟨by rw [s.copy_term_ret hu]; rfl, ?_, enter_exit hd hu ha hg hga fun a hxa => ?_⟩
        · have hexit : s.result.block? s.exitId = some s.exit := block?_result .exit
          rw [Frame.jump, hexit]
          rfl
        · subst hxa
          cases hasValue with
          | false => simp [Interp.leave] at hleave
          | true =>
            obtain ⟨y, hy, heq⟩ := Option.map_eq_some_iff.1 hleave
            rw [Interp.Exit.returns.injEq, Option.some.injEq] at heq
            exact ⟨rfl, heq ▸ hy⟩
      | br id => simp [Interp.leave] at hleave
      | brIf v yes no => simp [Interp.leave] at hleave
      | unreachable => simp [Interp.leave] at hleave

/-! ## Steps -/

variable {find find' : String → Option Function}

/-- A state that follows another one, unless that is stuck. -/
def Follows (s : CallSite fn callee) (p p' : Progress V W) : Prop :=
  match p with
  | .running t => ∃ t', p' = .running t' ∧ s.States t t'
  | .returned x w => p' = .returned x w
  | .stuck => True

theorem Mirrors.agrees (h : s.Mirrors r f fs f') : ∃ D, Env.Agrees r D f.env f'.env := by
  cases h with
  | plain _ _ ha => exact ⟨_, ha⟩
  | copied _ _ ha _ _ => exact ⟨_, ha⟩

theorem Mirrors.sound (h : s.Mirrors r f fs f') : f.point.Sound := by
  cases h with
  | plain _ hs _ => exact hs
  | copied _ hs _ _ _ => exact hs

variable {l l' : List (Frame V × ValueId)} {w : W}

/-- An instruction that both sides execute. -/
theorem step_instr (hfind : s.Replaces find find') (h : s.Mirrors r f fs f') (hl : s.Waits l l')
    {i : Instr} {rest rest' : List Instr} (hrest : f.point.rest = i :: rest)
    (hrest' : f'.point.rest = r.instr i :: rest')
    (hnext : s.Mirrors r (f.advance rest) fs (f'.advance rest')) :
    s.Follows (I.step find ⟨f, fs ++ l, w⟩) (I.step find' ⟨f', l', w⟩) := by
  have hwritten : i.result = 0 ∨ i.result ∈ f.point.fn.results :=
    written (h.sound.mem i (by simp [hrest]))
  have hresult : (r.instr i).result = r.value i.result := by
    refine r.result_instr i ?_
    cases h with
    | plain _ _ _ => rfl
    | copied _ _ _ _ _ => exact s.value_zero
  cases hact : I.act find f.env w i with
  | none => simp [Interp.step, hrest, hact, Follows]
  | some a =>
    obtain ⟨D, ha⟩ := h.agrees
    obtain ⟨a', hact', hacts⟩ := act_instr hfind ha hact
    cases hacts with
    | yields x w' =>
      simp only [Interp.step, hrest, hact, hrest', hact', Follows, hresult]
      exact ⟨_, rfl, .mk (hnext.set hfind.closed hwritten fun _ hx => hx) hl⟩
    | @enters g g' args args' hg hshape hargs =>
      simp only [Interp.step, hrest, hact, hrest', hact', hresult]
      cases hstart : Frame.start g args with
      | none => simp [Follows]
      | some fg =>
        obtain ⟨fg', hstart', hfg⟩ := start_stands hg hshape hargs hstart
        rw [hstart']
        exact ⟨_, rfl, .plain hfg (.cons hnext hwritten hl)⟩

/-- The call that is replaced: one side calls, the other one jumps to the copy. -/
theorem step_call (hfind : s.Replaces find find') (hl : s.Waits l l') {rest : List Instr}
    (hrest : f.point.rest = .call s.call :: rest) (hwaits : (f.advance rest).point = s.waiting)
    (hpoint : f'.point = ⟨s.result, s.block.id, [], s.head.term⟩)
    (ha : Env.Agrees {} fn.Defined f.env f'.env) :
    s.Follows (I.step find ⟨f, l, w⟩) (I.step find' ⟨f', l', w⟩) := by
  have hact : I.act find f.env w (.call s.call) =
      some (.enters callee (s.call.args.map f.env)) := by
    simp only [Interp.act, hfind.target]
  simp only [Interp.step, hrest, hact]
  cases hstart : Frame.start callee (s.call.args.map f.env) with
  | none => simp [Follows]
  | some fc =>
    obtain ⟨c, hc, hmirrors⟩ := start_copy (g := f.advance rest) hfind.closed hwaits ha hstart
    have hjump : f'.jump (s.numbers.block callee.entryId) =
        some (Frame.enter s.result c (some s.block.id) f'.env) := by
      rw [Frame.jump, hpoint, hc]
      rfl
    simp only [hpoint, s.head_term, Option.bind_some, Interp.leave, hjump]
    exact ⟨_, rfl, .mk hmirrors hl⟩

/-- The end of a block. -/
theorem step_term (hfind : s.Replaces find find') (h : s.Mirrors r f fs f') (hl : s.Waits l l')
    (hrest : f.point.rest = []) :
    s.Follows (I.step find ⟨f, fs ++ l, w⟩) (I.step find' ⟨f', l', w⟩) := by
  cases hterm : f.point.term.bind (I.leave f.env) with
  | none => simp [Interp.step, hrest, hterm, Follows]
  | some e =>
    cases e with
    | jumps t =>
      simp only [Interp.step, hrest, hterm]
      cases hjump : f.jump t with
      | none => simp [Follows]
      | some g =>
        obtain ⟨hrest', t', g', hterm', hjump', hg⟩ := h.jump hfind.closed hrest hterm hjump
        simp only [hrest', hterm', hjump']
        exact ⟨_, rfl, .mk hg hl⟩
    | returns x =>
      obtain ⟨hrest', ⟨rfl, hterm'⟩ | ⟨g, t', g', rfl, hterm', hjump', hg⟩⟩ := h.leave hrest hterm
      · simp only [Interp.step, hrest, hterm, hrest', hterm', List.nil_append]
        cases hl with
        | nil => rfl
        | cons hf hd hl => exact ⟨_, rfl, .mk (hf.set hfind.closed hd fun _ hx => hx) hl⟩
      · simp only [Interp.step, hrest, hterm, hrest', hterm', hjump']
        exact ⟨_, rfl, .plain hg hl⟩

/-- **One step.** -/
theorem step_follows (hfind : s.Replaces find find') {t t' : State V W} (h : s.States t t') :
    s.Follows (I.step find t) (I.step find' t') := by
  obtain ⟨h, hl⟩ := h
  next f f' fs l l' w =>
  cases hrest : f.point.rest with
  | nil => exact step_term hfind h hl hrest
  | cons i rest =>
    rcases h.next hrest with ⟨rest', hrest', hnext⟩ | ⟨rfl, hwaits, rfl, hpoint, ha⟩
    · exact step_instr hfind h hl hrest hrest' hnext
    · exact step_call hfind hl hrest hwaits hpoint ha

/-- **A run.** -/
theorem steps_follow (hfind : s.Replaces find find') (n : Nat) {t t' : State V W}
    (h : s.States t t') : s.Follows (I.steps find n t) (I.steps find' n t') := by
  induction n generalizing t t' with
  | zero => exact ⟨t', rfl, h⟩
  | succ n ih =>
    have hstep := step_follows (I := I) hfind h
    unfold Interp.steps
    cases hs : I.step find t with
    | running u =>
      rw [hs] at hstep
      obtain ⟨u', hu', hstates⟩ := hstep
      rw [hu']
      exact ih hstates
    | returned x w =>
      rw [hs] at hstep
      rw [hstep]
      rfl
    | stuck => trivial

end CallSite

end SsaOpt
