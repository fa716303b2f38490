import Mathlib.Logic.Function.Basic
import SsaOpt.Proofs.WellFormed

/-!
# Execution

What a function of a module does when it is called. The meaning of the instructions that are not
about control is left open: an `Interp` says what each of them yields, from the values of its
operands and from the world, and never from the numbers of values and blocks.

A function starts with its parameters alone. The phis in front of a block are read at once, from the
edge just taken, and other instructions run in order. A value that is not defined may be passed on,
by a phi or as an argument of a call to a function with a body; reading it in any other way is
stuck, and so is an instruction that traps. Instructions do not throw, so handlers are not entered.

Everything here is a function, and `Module.outcome` is what a run has come to after some steps.
-/

namespace SsaOpt

variable {V W : Type}

/-- A meaning of instructions: what an instruction without its numbers yields for the values of its
operands, and the new world; or nothing, if it traps. -/
structure Interp (V W : Type) where
  exec : Instr → List V → W → Option (Option V × W)
  /-- Whether a condition holds. -/
  truth : V → Bool

/-- An instruction without the numbers of values. -/
def Instr.anonymous (i : Instr) : Instr := (i.setResult 0).mapOperands fun _ => 0

/-! ## Values -/

/-- The values of a running function; those that are not defined have none. -/
abbrev Env (V : Type) := ValueId → Option V

namespace Env

/-- Gives a value to a number, or takes it away. The number `0` names nothing. -/
def set (env : Env V) (id : ValueId) (x : Option V) : Env V :=
  if id = 0 then env else Function.update env id x

/-- Parameters with their arguments. -/
def ofArgs (params : List Param) (args : List (Option V)) : Env V :=
  fun v => (((params.map Param.id).zip args).lookup v).join

/-- The value that a phi takes for an edge; the entry of a function is entered by none. -/
def read (env : Env V) (pred : Option BlockId) (p : Phi) : Option V :=
  pred.bind fun q => (p.incoming.find? fun e => e.pred = q).bind fun e => env e.value

/-- The phis in front of a block, read at once from `env` and written to `new` in order. -/
def takePhis (env : Env V) (pred : Option BlockId) : List Instr → Env V → Env V
  | .phi p :: rest, new => takePhis env pred rest (new.set p.result (env.read pred p))
  | _, new => new

variable {env : Env V}

theorem set_of_ne {d v : ValueId} (h : v ≠ d) (x : Option V) : env.set d x v = env v := by
  unfold set
  split
  · rfl
  · exact Function.update_of_ne h x env

theorem set_self {d : ValueId} (h : d ≠ 0) (x : Option V) : env.set d x d = x := by
  rw [set, if_neg h, Function.update_self]

@[simp] theorem set_zero (x : Option V) : env.set 0 x = env := if_pos rfl

end Env

/-- What follows the phis in front of a block is no phi. -/
theorem not_isPhi_of_mem_dropWhile {is : List Instr} (h : Function.PhisFirst is) {i : Instr}
    (hi : i ∈ is.dropWhile Instr.isPhi) : i.isPhi = false := by
  induction is with
  | nil => simp at hi
  | cons j is ih =>
    rw [Function.PhisFirst, List.pairwise_cons] at h
    rw [List.dropWhile_cons] at hi
    split at hi
    · exact ih h.2 hi
    · next hj =>
      rcases List.mem_cons.1 hi with rfl | hi
      · simpa using hj
      · cases hphi : i.isPhi with
        | false => rfl
        | true => exact absurd (h.1 i hi hphi) hj

/-! ## States -/

/-- A point of a function: the block that is being run, the instructions of it that are left, and
how it ends. -/
structure Point where
  fn : Function
  block : BlockId
  rest : List Instr
  term : Option Term

/-- A function that is being run. -/
structure Frame (V : Type) where
  point : Point
  env : Env V

/-- The functions that are being run: the last one called, those that wait for it, each with the
number that it wants the returned value under, and the world. -/
structure State (V W : Type) where
  top : Frame V
  below : List (Frame V × ValueId) := []
  world : W

/-- What a run has come to. -/
inductive Progress (V W : Type) where
  | running (s : State V W)
  | returned (value : Option V) (world : W)
  | stuck

namespace Frame

/-- Enters a block. -/
def enter (fn : Function) (b : Block) (pred : Option BlockId) (env : Env V) : Frame V where
  point := ⟨fn, b.id, b.instrs.dropWhile Instr.isPhi, b.term⟩
  env := env.takePhis pred b.instrs env

/-- Goes to another block. -/
def jump (f : Frame V) (target : BlockId) : Option (Frame V) :=
  (f.point.fn.block? target).map fun b => enter f.point.fn b (some f.point.block) f.env

/-- Starts a function. -/
def start (fn : Function) (args : List (Option V)) : Option (Frame V) :=
  fn.entryBlock?.map fun b => enter fn b none (Env.ofArgs fn.params args)

/-- Goes on to the instructions that are left. -/
def advance (f : Frame V) (rest : List Instr) : Frame V := { f with point := { f.point with rest } }

/-- Gives a value to a number, or takes it away. -/
def set (f : Frame V) (id : ValueId) (x : Option V) : Frame V := { f with env := f.env.set id x }

end Frame

/-! ## Steps -/

/-- What an instruction does. -/
inductive Act (V W : Type) where
  /-- It yields a value, or none, and a new world. -/
  | yields (x : Option V) (w : W)
  /-- It runs another function. -/
  | enters (fn : Function) (args : List (Option V))

namespace Interp

variable (I : Interp V W) (find : String → Option Function)

/-- Executes an instruction that is not about control. -/
def execute (env : Env V) (w : W) (i : Instr) : Option (Act V W) :=
  (i.operands.mapM env).bind fun xs => (I.exec i.anonymous xs w).map fun e => .yields e.1 e.2

/-- What an instruction does; nothing if it is stuck. Functions that `find` knows are run. -/
def act (env : Env V) (w : W) (i : Instr) : Option (Act V W) :=
  match i with
  | .phi _ => none
  | .nop => some (.yields none w)
  | .hole => some (.yields none w)
  | .call c =>
    match find c.target with
    | some fn => some (.enters fn (c.args.map env))
    | none => I.execute env w i
  | i => I.execute env w i

/-- Where a terminator leads. -/
inductive Exit (V : Type) where
  | jumps (target : BlockId)
  | returns (x : Option V)

/-- What a terminator does; nothing if it is stuck. -/
def leave (env : Env V) : Term → Option (Exit V)
  | .br t => some (.jumps t)
  | .brIf c yes no => (env c).map fun x => .jumps (if I.truth x then yes else no)
  | .ret v true => (env v).map fun x => .returns (some x)
  | .ret _ false => some (.returns none)
  | .unreachable => none

theorem mem_targets_of_leave {I : Interp V W} {env : Env V} {t : Term} {id : BlockId}
    (h : I.leave env t = some (.jumps id)) : id ∈ t.targets := by
  cases t with
  | br id' => simpa [Interp.leave, Term.targets, eq_comm] using h
  | unreachable => simp [Interp.leave] at h
  | ret v hasValue => cases hasValue <;> simp [Interp.leave] at h
  | brIf c yes no =>
    obtain ⟨x, -, heq⟩ := Option.map_eq_some_iff.1 h
    rw [Interp.Exit.jumps.injEq] at heq
    rw [Term.mem_targets_brIf, ← heq]
    split
    · exact Or.inl rfl
    · exact Or.inr rfl

/-- One step of a run. -/
def step (s : State V W) : Progress V W :=
  match s.top.point.rest with
  | i :: rest =>
    match I.act find s.top.env s.world i with
    | some (.yields x w) =>
      .running { s with top := (s.top.advance rest).set i.result x, world := w }
    | some (.enters fn args) =>
      match Frame.start fn args with
      | some f => .running ⟨f, (s.top.advance rest, i.result) :: s.below, s.world⟩
      | none => .stuck
    | none => .stuck
  | [] =>
    match s.top.point.term.bind (I.leave s.top.env) with
    | some (.jumps t) =>
      match s.top.jump t with
      | some f => .running { s with top := f }
      | none => .stuck
    | some (.returns x) =>
      match s.below with
      | [] => .returned x s.world
      | (f, id) :: below => .running ⟨f.set id x, below, s.world⟩
    | none => .stuck

/-- What a run has come to after some steps. -/
def steps : Nat → State V W → Progress V W
  | 0, s => .running s
  | n + 1, s =>
    match I.step find s with
    | .running s => steps n s
    | done => done

end Interp

/-- What a run has come to, as far as it can be told from outside. -/
inductive Observed (V W : Type) where
  | running
  | returned (value : Option V) (world : W)
  | stuck
deriving DecidableEq

/-- Forgets the state of a run. -/
def Progress.observe : Progress V W → Observed V W
  | running _ => .running
  | returned v w => .returned v w
  | stuck => .stuck

namespace Module

/-- The function of a name, if it has a body. -/
def body? (m : Module) (name : String) : Option Function :=
  (m.function? name).filter fun fn => !fn.isExternal

/-- What a call of a function of `m` has come to after `n` steps. -/
def outcome (m : Module) (I : Interp V W) (f : String) (args : List V) (w : W) (n : Nat) :
    Observed V W :=
  match (m.body? f).bind fun fn => Frame.start fn (args.map some) with
  | some top => (I.steps m.body? n { top, world := w }).observe
  | none => .stuck

end Module

end SsaOpt
