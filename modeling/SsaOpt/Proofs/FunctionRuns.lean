import SsaOpt.Proofs.Execution

/-!
# Runs of one function

What a function does by itself: here a call is an instruction like any other, with the meaning that
the `Interp` gives it, so that no second function is run. A run starts at the entry with some values
and a world. It reads the phis in front of a block from the edge just taken, performs the other
instructions in order, and goes where the terminator leads. It ends with what is returned, the
world, and the blocks that it came through. Reading a value that is not defined is stuck, for a phi
as well; a phi without an entry for the edge reads nothing and leaves its value undefined.

`Interp.InStep` says what two functions must have in common, block by block, for the one to return
whatever the other one returns (`Interp.InStep.run`).
-/

namespace SsaOpt

variable {V W : Type}

namespace Env

/-- What a phi takes for an edge; nothing if it would read a value that is not defined. -/
def take (env : Env V) (pred : Option BlockId) (p : Phi) : Option (Option V) :=
  match p.incoming.find? fun e => some e.pred = pred with
  | some e => (env e.value).map some
  | none => some none

/-- The phis in front of a block, all read from `env` and written to `new` in order. -/
def enterPhis (env : Env V) (pred : Option BlockId) : List Instr → Env V → Option (Env V)
  | .phi p :: rest, new =>
    (env.take pred p).bind fun x => enterPhis env pred rest (new.set p.result x)
  | _, new => some new

theorem enterPhis_of_not_isPhi (env : Env V) (pred : Option BlockId) {is : List Instr}
    (h : ∀ i ∈ is, i.isPhi = false) (new : Env V) : env.enterPhis pred is new = some new := by
  cases is with
  | nil => rfl
  | cons i is =>
    cases i with
    | phi p => simpa [Instr.isPhi] using h (.phi p)
    | _ => rfl

end Env

/-- What a run returns: a value, if there is one, the world, and the blocks it came through. -/
structure Returned (V W : Type) where
  value : Option V
  world : W
  visited : List BlockId
deriving DecidableEq

/-- A run that came through one block more. -/
def Returned.after (id : BlockId) (r : Returned V W) : Returned V W :=
  { r with visited := id :: r.visited }

namespace Interp

variable (I : Interp V W)

/-- Performs an instruction that is not a phi; nothing if it is stuck. -/
def perform (s : Env V × W) (i : Instr) : Option (Env V × W) :=
  (i.operands.mapM s.1).bind fun xs =>
    (I.exec i.anonymous xs s.2).map fun e => (s.1.set i.result e.1, e.2)

/-- Comes to a block from `pred` and performs its instructions. -/
def runBlock (pred : Option BlockId) (b : Block) (s : Env V × W) : Option (Env V × W) :=
  (s.1.enterPhis pred b.instrs s.1).bind fun env =>
    (b.instrs.dropWhile Instr.isPhi).foldlM I.perform (env, s.2)

/-- A run through at most `n` blocks, the first of which is `b`. -/
def runFrom (fn : Function) : Nat → Option BlockId → Block → Env V × W → Option (Returned V W)
  | 0, _, _, _ => none
  | n + 1, pred, b, s =>
    (I.runBlock pred b s).bind fun s =>
      (b.term.bind (I.leave s.1)).bind fun
        | .returns x => some ⟨x, s.2, [b.id]⟩
        | .jumps t =>
          (fn.block? t).bind fun c => (runFrom fn n (some b.id) c s).map (.after b.id)

end Interp

/-- What a run of a function returns if it ends after at most `n` blocks. It starts with the values
of `start`, those of the parameters among them, and the world `w`. -/
def Function.run (fn : Function) (I : Interp V W) (start : Env V) (w : W) (n : Nat) :
    Option (Returned V W) :=
  fn.entryBlock?.bind fun b => I.runFrom fn n none b (start, w)

/-- Values that a run can start with: none that an instruction of the function defines. -/
def Function.CanStart (fn : Function) (start : Env V) : Prop :=
  ∀ i ∈ fn.instrs, i.result ≠ 0 → start i.result = none

namespace Interp

variable {I : Interp V W}

theorem perform_eq_some {s s' : Env V × W} {i : Instr} : I.perform s i = some s' ↔
    ∃ xs x w, i.operands.mapM s.1 = some xs ∧ I.exec i.anonymous xs s.2 = some (x, w) ∧
      s' = (s.1.set i.result x, w) := by
  simp only [perform, Option.bind_eq_some_iff, Option.map_eq_some_iff, Prod.exists]
  constructor
  · rintro ⟨xs, hxs, x, w, hexec, rfl⟩
    exact ⟨xs, x, w, hxs, hexec, rfl⟩
  · rintro ⟨xs, x, w, hxs, hexec, rfl⟩
    exact ⟨xs, hxs, x, w, hexec, rfl⟩

/-- A terminator does the same where its operands have the same values. -/
theorem leave_congr {env env' : Env V} {t : Term} (h : ∀ v ∈ t.operands, env' v = env v) :
    I.leave env' t = I.leave env t := by
  cases t with
  | br id => rfl
  | unreachable => rfl
  | brIf c yes no =>
    have hc := h c (by simp [Term.operands])
    rw [leave, leave, hc]
  | ret v hasValue =>
    cases hasValue with
    | false => rfl
    | true =>
      have hv := h v (by simp [Term.operands])
      rw [leave, leave, hv]

/-! ## Runs that go in step -/

/-- Blocks of `fn` and blocks of `fn'` that stand for each other by `B`, and values that stand for
each other by `E`. What a block does to the values and the world, and where it leads, the other one
does as well. A block is entered at the start, or from one that has such a counterpart. -/
structure InStep (I : Interp V W) (fn fn' : Function) (B : Block → Block → Prop)
    (E : Env V → Env V → Prop) : Prop where
  id_eq : ∀ b b', B b b' → b'.id = b.id
  term_eq : ∀ b b', B b b' → b'.term = b.term
  block : ∀ b b', B b b' → ∀ pred, (∀ p, pred = some p → ∃ c c', B c c' ∧ c.id = p) →
    ∀ env env' w env₁ w₁, E env env' → I.runBlock pred b (env, w) = some (env₁, w₁) →
      ∃ env₁', I.runBlock pred b' (env', w) = some (env₁', w₁) ∧ E env₁ env₁'
  reads : ∀ b b', B b b' → ∀ t, b.term = some t → ∀ v ∈ t.operands, ∀ env env', E env env' →
    env' v = env v
  entry : ∀ b, fn.entryBlock? = some b → ∃ b', fn'.entryBlock? = some b' ∧ B b b'
  next : ∀ b b', B b b' → ∀ t ∈ b.successors, ∀ c, fn.block? t = some c →
    ∃ c', fn'.block? t = some c' ∧ B c c'

namespace InStep

variable {fn fn' : Function} {B : Block → Block → Prop} {E : Env V → Env V → Prop}

theorem runFrom (h : I.InStep fn fn' B E) (n : Nat) :
    ∀ pred b b' env env' w r, (∀ p, pred = some p → ∃ c c', B c c' ∧ c.id = p) → B b b' →
      E env env' → I.runFrom fn n pred b (env, w) = some r →
      I.runFrom fn' n pred b' (env', w) = some r := by
  induction n with
  | zero =>
    intro pred b b' env env' w r _ _ _ hr
    simp [Interp.runFrom] at hr
  | succ n ih =>
    intro pred b b' env env' w r hpred hb henv hr
    obtain ⟨⟨env₁, w₁⟩, hblock, hr⟩ := Option.bind_eq_some_iff.1 hr
    obtain ⟨exit, hexit, hr⟩ := Option.bind_eq_some_iff.1 hr
    obtain ⟨t, ht, hleave⟩ := Option.bind_eq_some_iff.1 hexit
    obtain ⟨env₁', hblock', henv₁⟩ := h.block b b' hb pred hpred env env' w env₁ w₁ henv hblock
    have hleave' : b'.term.bind (I.leave env₁') = some exit := by
      rw [h.term_eq b b' hb, ht, Option.bind_some,
        leave_congr fun v hv => h.reads b b' hb t ht v hv env₁ env₁' henv₁]
      exact hleave
    rw [Interp.runFrom, hblock', Option.bind_some, hleave', Option.bind_some, h.id_eq b b' hb]
    cases exit with
    | returns x => exact hr
    | jumps target =>
      obtain ⟨c, hc, hr⟩ := Option.bind_eq_some_iff.1 hr
      obtain ⟨r', hr', rfl⟩ := Option.map_eq_some_iff.1 hr
      have hsucc : target ∈ b.successors :=
        Block.mem_successors.2 (Or.inl ⟨t, ht, mem_targets_of_leave hleave⟩)
      obtain ⟨c', hc', hcc'⟩ := h.next b b' hb target hsucc c hc
      have hpred' : ∀ p, some b.id = some p → ∃ c c', B c c' ∧ c.id = p :=
        fun p hp => ⟨b, b', hb, Option.some.inj hp⟩
      have hnext := ih (some b.id) c c' env₁ env₁' w₁ r' hpred' hcc' henv₁ hr'
      exact Option.bind_eq_some_iff.2 ⟨c', hc', Option.map_eq_some_iff.2 ⟨r', hnext, rfl⟩⟩

/-- **Whatever the one function returns, the other one returns**, by way of the same blocks. -/
theorem run (h : I.InStep fn fn' B E) {start : Env V} (hstart : E start start) {w : W} {n : Nat}
    {r : Returned V W} (hr : fn.run I start w n = some r) : fn'.run I start w n = some r := by
  obtain ⟨b, hb, hr⟩ := Option.bind_eq_some_iff.1 hr
  obtain ⟨b', hb', hbb'⟩ := h.entry b hb
  refine Option.bind_eq_some_iff.2 ⟨b', hb', ?_⟩
  exact h.runFrom n none b b' start start w r (by simp) hbb' hstart hr

end InStep

end Interp

end SsaOpt
