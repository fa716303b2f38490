import SsaOpt.Ir.Module

/-!
# Splicing a callee into a caller

A call is replaced by a copy of the callee's body. The block of the call is cut in two at the call:
the first part jumps to the copy of the callee's entry, the copies of the returns jump to the second
part, the exit block, and a phi in front of the exit block collects the returned values under the
number of the call's result.

All numbers of the copy are fresh numbers of the caller; parameters become the arguments of the
call.
-/

namespace SsaOpt

/-- How the numbers of a callee are mapped to those of the caller. The latest entry counts; a number
without an entry stays as it is. -/
structure Renaming where
  values : List (ValueId × ValueId) := []
  blocks : List (BlockId × BlockId) := []

namespace Renaming

/-- The caller's number of a value. -/
def value (r : Renaming) (id : ValueId) : ValueId := (r.values.lookup id).getD id

/-- The caller's number of a block. -/
def block (r : Renaming) (id : BlockId) : BlockId := (r.blocks.lookup id).getD id

/-- An instruction with the caller's numbers. -/
def instr (r : Renaming) (i : Instr) : Instr :=
  ((i.setResult (r.value i.result)).mapOperands r.value).mapPreds r.block

/-- A terminator with the caller's numbers. -/
def term (r : Renaming) (t : Term) : Term := (t.mapOperands r.value).mapTargets r.block

/-- Takes fresh values for the results of some instructions. -/
def addResults : List Instr → Renaming → Function → Renaming × Function
  | [], r, fn => (r, fn)
  | i :: rest, r, fn =>
    if i.result = 0 then addResults rest r fn
    else
      let (id, fn) := fn.freshValue
      addResults rest { r with values := (i.result, id) :: r.values } fn

/-- Takes fresh numbers for some blocks and for the results in them. -/
def addBlocks : List Block → Renaming → Function → Renaming × Function
  | [], r, fn => (r, fn)
  | b :: rest, r, fn =>
    let (id, fn) := fn.freshBlock
    let (r, fn) := addResults b.instrs { r with blocks := (b.id, id) :: r.blocks } fn
    addBlocks rest r fn

/-- Parameters become arguments. -/
def ofArgs (params : List Param) (args : List ValueId) : Renaming where
  values := ((params.map Param.id).zip args).reverse

end Renaming

namespace Splice

/-- The copy of a block. Returns become jumps to `exit`, and a block without a handler gets the
handler of the call's block. -/
def copyBlock (r : Renaming) (callee : String) (handler exit : BlockId) (b : Block) : Block :=
  let id := (r.blocks.lookup b.id).getD 0
  { id
    name := if b.name = "" then "" else s!"{callee}.{b.name}.{id.toNat}"
    handler := if b.handler = 0 then handler else r.block b.handler
    instrs := b.instrs.map r.instr
    term := b.term.map fun t =>
      match t with
      | .ret _ _ => .br exit
      | t => r.term t }

/-- The value that a block returns, from its copy. -/
def returned (r : Renaming) (b : Block) : Option Incoming :=
  match b.term with
  | some (.ret v true) => some ⟨(r.blocks.lookup b.id).getD 0, r.value v⟩
  | _ => none

/-- Makes the first block of a number take `exit` for the predecessor `old`. -/
def enterFrom (old exit : BlockId) (fn : Function) (id : BlockId) : Function :=
  match fn.blockIndex? id with
  | some i =>
    let entered := Instr.mapPreds fun p => if p = old then exit else p
    fn.modifyBlock (Block.mapInstrs entered) i
  | none => fn

end Splice

/-- Replaces the call at `place` in the block at `position` by a copy of the callee; the number of
the exit block comes back too. -/
def Function.splice (fn : Function) (position place : Nat) (call : Call) (callee : Function) :
    Function × BlockId :=
  let b := fn.blocks.getD position { id := 0 }
  let (exitId, fn) := fn.freshBlock
  let fn := fn.modifyBlock (fun b => { b with instrs := b.instrs.take place }) position
  let (r, fn) := Renaming.addBlocks callee.blocks (Renaming.ofArgs callee.params call.args) fn
  let copies := callee.blocks.map (Splice.copyBlock r callee.name b.handler exitId)
  let merge := if call.result = 0 then []
    else [Instr.phi ⟨call.result, call.ty, callee.blocks.filterMap (Splice.returned r)⟩]
  let exit : Block :=
    { id := exitId
      name := s!"{callee.name}.exit.{exitId.toNat}"
      instrs := merge ++ b.instrs.drop (place + 1)
      term := b.term
      handler := b.handler }
  let fn := ((b.term.map Term.targets).getD []).foldl (Splice.enterFrom b.id exitId) fn
  let entry := (r.blocks.lookup callee.entryId).getD 0
  let fn := fn.modifyBlock (fun b => { b with term := some (.br entry) }) position
  let fn := { fn with mayThrow := fn.mayThrow || callee.mayThrow }
  (fn.insertAfter b.id (copies ++ [exit]), exitId)

end SsaOpt
