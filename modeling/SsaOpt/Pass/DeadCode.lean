import SsaOpt.Flow.Graph
import SsaOpt.Flow.UseDef
import SsaOpt.Checker

/-!
# Dead code elimination

Removes instructions whose results nobody reads and blocks that cannot be reached. One round
(`round`) removes what is dead at its start; what that leaves dead is for the next one. Rounds
follow one another until one changes nothing, or until the limit is reached.
-/

namespace SsaOpt.DeadCode

/-- The name of the pass. -/
def passName : String := "dce"

/-- What passes on a function's way: what counts as critical, and who may refuse a removal. -/
structure Rules where
  critical : Instr → Bool
  /-- Refuses the removal of an instruction on its own. -/
  refuseInstr : Instr → Option Failure
  /-- Refuses the removal of an instruction together with its block. -/
  refuseInBlock : BlockId → Instr → Option Failure

/-! ## Dead instructions -/

/-- An instruction that can go: it is not critical, and it is a nop or defines a value that nobody
reads. -/
def isDead (critical : Instr → Bool) (ud : UseDef) (i : Instr) : Bool :=
  !critical i && (i = .nop || (i.result ≠ 0 && !ud.hasUsers i.result))

/-- What is left of some instructions. -/
structure SweptInstrs where
  instrs : List Instr := []
  removed : Nat := 0
  failure : Option Failure := none

/-- Removes the dead instructions one after the other, up to the first that is refused. -/
def sweepInstrs (dead : Instr → Bool) (refuse : Instr → Option Failure) :
    List Instr → SweptInstrs
  | [] => {}
  | i :: rest =>
    if dead i then
      match refuse i with
      | some failure => { instrs := i :: rest, failure }
      | none =>
        let swept := sweepInstrs dead refuse rest
        { swept with removed := swept.removed + 1 }
    else
      let swept := sweepInstrs dead refuse rest
      { swept with instrs := i :: swept.instrs }

/-- What is left of some blocks. -/
structure SweptBlocks where
  blocks : List Block := []
  removed : Nat := 0
  failure : Option Failure := none

/-- Removes the dead instructions of some blocks, up to the first that is refused. -/
def sweepBlocks (dead : Instr → Bool) (refuse : Instr → Option Failure) :
    List Block → SweptBlocks
  | [] => {}
  | b :: rest =>
    let swept := sweepInstrs dead refuse b.instrs
    let b := { b with instrs := swept.instrs }
    match swept.failure with
    | some failure => { blocks := b :: rest, removed := swept.removed, failure }
    | none =>
      let later := sweepBlocks dead refuse rest
      { later with blocks := b :: later.blocks, removed := swept.removed + later.removed }

/-! ## Unreachable blocks -/

/-- The first refusal to remove some blocks with their instructions. -/
def blockRefusal (rules : Rules) (blocks : List Block) : Option Failure :=
  blocks.findSome? fun b => b.instrs.findSome? (rules.refuseInBlock b.id)

/-- Drops the phi entries for some blocks. -/
def stripIncoming (removed : List BlockId) (i : Instr) : Instr :=
  i.mapIncoming fun entries => entries.filter fun e => !removed.contains e.pred

/-- Keeps the blocks of some numbers, and the phi entries for them. -/
def keepBlocks (reach : List BlockId) (blocks : List Block) : List Block :=
  let removed := (blocks.filter fun b => !reach.contains b.id).map Block.id
  (blocks.filter fun b => reach.contains b.id).map (Block.mapInstrs (stripIncoming removed))

/-! ## Rounds -/

/-- What a round did. -/
structure Round where
  function : Function
  instrs : Nat := 0
  blocks : Nat := 0
  failure : Option Failure := none

/-- One round: dead instructions first, then the blocks that cannot be reached. No block goes if one
of them is refused. -/
def round (rules : Rules) (fn : Function) : Round :=
  let dead := isDead rules.critical (UseDef.build fn)
  let swept := sweepBlocks dead rules.refuseInstr fn.blocks
  let fn := { fn with blocks := swept.blocks }
  match swept.failure with
  | some failure => { function := fn, instrs := swept.removed, failure }
  | none =>
    let reach := fn.reach
    let unreached := fn.blocks.filter fun b => !reach.contains b.id
    if unreached.isEmpty then { function := fn, instrs := swept.removed }
    else
      match blockRefusal rules unreached with
      | some failure => { function := fn, instrs := swept.removed, failure }
      | none =>
        { function := { fn with blocks := keepBlocks reach fn.blocks }
          instrs := swept.removed
          blocks := unreached.length }

/-- What became of a function. -/
structure Result where
  function : Function
  instrs : Nat := 0
  blocks : Nat := 0
  /-- Whether a whole round changed something. -/
  modified : Bool := false
  /-- Whether the limit was reached. -/
  limited : Bool := false
  failure : Option Failure := none

/-- Rounds until one changes nothing, or until `left` of them have been made. -/
def rounds (rules : Rules) : Nat → Option Nat → Function → Result
  | 0, _, fn => { function := fn }
  | fuel + 1, left, fn =>
    if left = some 0 then { function := fn, limited := true }
    else
      let r := round rules fn
      match r.failure with
      | some failure =>
        { function := r.function, instrs := r.instrs, blocks := r.blocks, failure }
      | none =>
        if r.instrs = 0 ∧ r.blocks = 0 then { function := r.function }
        else
          let later := rounds rules fuel (left.map fun n => n - 1) r.function
          { later with
            instrs := r.instrs + later.instrs
            blocks := r.blocks + later.blocks
            modified := true }

/-- The number of rounds that are always enough: each but the last removes something. -/
def enoughRounds (fn : Function) : Nat := fn.size + fn.blocks.length + 1

/-- A limit on the number of rounds; only a positive number is one. -/
def roundLimit (maxIterations : Int) : Option Nat :=
  if 0 < maxIterations then some maxIterations.toNat else none

/-- A refusal by the checker, classified. -/
def checkerRefusal (checker : Option Checker) (m : Module) (kind : Kind) (function : String)
    (i : Instr) : Option Failure :=
  match checker with
  | none => some .fault
  | some checker =>
    (checker.verifyRemoval m i).map fun cause =>
      .error (.failedBy { kind, pass := passName, function } cause)

/-- The rules for a function of a module. -/
def rulesFor (checker : Option Checker) (m : Module) (function : String) : Rules where
  critical := m.isCritical
  refuseInstr i :=
    if m.isCritical i then
      some (.error (.failed
        { kind := .unsafeElimination, pass := passName, function,
          detail := s!"{Text.quote i.render} has critical side effects" }))
    else checkerRefusal checker m .unsafeElimination function i
  refuseInBlock b i :=
    if m.isCritical i then
      let shown := Text.quote i.render
      let detail :=
        s!"unreachable block b{b.toNat} contains {shown}, which has critical side effects"
      some (.error (.failed
        { kind := .unsafeBlockElimination, pass := passName, function, detail }))
    else checkerRefusal checker m .unsafeBlockElimination function i

/-- Removes the dead code of a function of `m`. -/
def run (checker : Option Checker) (m : Module) (maxIterations : Int) (fn : Function) : Result :=
  rounds (rulesFor checker m fn.name) (enoughRounds fn) (roundLimit maxIterations) fn

end SsaOpt.DeadCode
