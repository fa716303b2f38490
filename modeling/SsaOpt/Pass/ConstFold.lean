import SsaOpt.Pass.ConstEval
import SsaOpt.Flow.Graph
import SsaOpt.Checker

/-!
# Constant folding

Replaces arithmetic, comparisons and conversions of constants by the constant they evaluate to. The
blocks are visited in reverse post-order, and then those that cannot be reached, so that a constant
that one replacement produces is known to everything it dominates. The replacement keeps the number
of the value, so nothing else changes.

Folding a block has two halves: `plan` finds the replacements, and `commit` makes them one after the
other, up to the first that is refused.
-/

namespace SsaOpt.ConstFold

/-- The name of the pass. -/
def passName : String := "constfold"

/-- What became of a function. -/
structure Result where
  function : Function
  /-- The number of instructions replaced. -/
  folded : Nat := 0
  failure : Option Failure := none

/-- The constants that a function defines, the last one first. -/
def initialConsts (fn : Function) : Consts :=
  (fn.instrs.filterMap fun i =>
    match i with
    | .const c => some (c.result, c)
    | _ => none).reverse

/-- The instructions of a block with their replacements. A replacement is known to all instructions
after it; the constants known in the end come back too. -/
def plan : Consts → List Instr → List (Instr × Option Const) × Consts
  | consts, [] => ([], consts)
  | consts, i :: rest =>
    let new := foldInstr consts i
    let known := match new with
      | some c => (c.result, c) :: consts
      | none => consts
    let (planned, consts) := plan known rest
    ((i, new) :: planned, consts)

/-- A block's instructions after some replacements. -/
structure Committed where
  instrs : List Instr := []
  folded : Nat := 0
  failure : Option Failure := none

/-- Makes the replacements one after the other, up to the first that `refuse` refuses. -/
def commit (refuse : Instr → Const → Option Failure) : List (Instr × Option Const) → Committed
  | [] => {}
  | (i, none) :: rest =>
    let done := commit refuse rest
    { done with instrs := i :: done.instrs }
  | (i, some c) :: rest =>
    match refuse i c with
    | some failure => { instrs := i :: rest.map Prod.fst, failure }
    | none =>
      let done := commit refuse rest
      { done with instrs := .const c :: done.instrs, folded := done.folded + 1 }

/-- The positions of the blocks in the order in which they are visited. -/
def visitOrder (fn : Function) : List Nat :=
  let g := FlowGraph.build fn
  g.rpo.filterMap fn.blockIndex? ++
    (List.range fn.blocks.length).filter fun i => fn.blocks[i]?.any fun b => !g.reachable b.id

/-- Folds the blocks at some positions in turn. -/
def foldBlocks (refuse : Instr → Const → Option Failure) :
    List Nat → Consts → Function → Result
  | [], _, fn => { function := fn }
  | i :: rest, consts, fn =>
    let (planned, known) := plan consts ((fn.blocks[i]?.map Block.instrs).getD [])
    let done := commit refuse planned
    let fn := fn.modifyBlock (fun b => { b with instrs := done.instrs }) i
    match done.failure with
    | some failure => { function := fn, folded := done.folded, failure }
    | none =>
      let later := foldBlocks refuse rest known fn
      { later with folded := done.folded + later.folded }

/-- A type that may be missing, in a message. -/
def shownType : Option Ty → String
  | some t => t.name
  | none => "%!s(<nil>)"

/-- Why an instruction may not be replaced by a constant: it is critical, it declares another type,
or the checker refuses the constant. -/
def refusal (checker : Option Checker) (function : String) (i : Instr) (c : Const) :
    Option Failure :=
  let failed := fun kind detail =>
    some (Failure.error (.failed { kind, pass := passName, function, detail }))
  if i.isCritical then
    failed .unsafeFolding s!"{Text.quote i.render} has critical side effects"
  else if i.resultType = none ∨ i.resultType ≠ c.ty then
    let shown := Text.quote i.render
    failed .typeMismatch
      s!"{shown} declares {shownType i.resultType} but folds to a {shownType c.ty} constant"
  else
    match checker with
    | none => some .fault
    | some checker =>
      (checker.verifyConstant c).map fun cause =>
        .error (.failedBy { kind := .unsafeFolding, pass := passName, function } cause)

/-- Folds the constants of a function. -/
def run (checker : Option Checker) (fn : Function) : Result :=
  foldBlocks (refusal checker fn.name) (visitOrder fn) (initialConsts fn) fn

end SsaOpt.ConstFold
