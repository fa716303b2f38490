import SsaOpt.Ir.Instr

/-!
# Blocks, functions and modules

A module is a list of functions, a function a list of blocks, a block a list of instructions with a
terminator. The order of functions is the order of declaration and never changes. A function without
blocks is a declaration of something external.

Fresh numbers come from two counters of the function. A counter that is `0` is set from the numbers
in use the next time one is wanted; numbers wrap around at 2 ^ 32.
-/

namespace SsaOpt

/-- A formal parameter. -/
structure Param where
  id : ValueId
  name : String
  ty : Option Ty
deriving DecidableEq

/-- A basic block. Control goes to `handler`, if that is not `0`, when an instruction throws. -/
structure Block where
  id : BlockId
  name : String := ""
  instrs : List Instr := []
  term : Option Term := none
  handler : BlockId := 0
deriving DecidableEq

/-- A function. Entry `0` means the first block. -/
structure Function where
  name : String
  params : List Param := []
  ret : Option Ty := none
  blocks : List Block := []
  entry : BlockId := 0
  mayThrow : Bool := false
  unchecked : Bool := false
  critical : Bool := false
  nextValue : ValueId := 0
  nextBlock : BlockId := 0
deriving DecidableEq

/-- A module. -/
structure Module where
  name : String
  functions : List Function := []
deriving DecidableEq

/-! ## Blocks -/

namespace Block

/-- The blocks that control may go to: the targets of the terminator, then the handler. -/
def successors (b : Block) : List BlockId :=
  (b.term.map Term.targets).getD [] ++ if b.handler = 0 then [] else [b.handler]

/-- Applies `f` to every instruction. -/
def mapInstrs (f : Instr → Instr) (b : Block) : Block := { b with instrs := b.instrs.map f }

/-- The place of the `i`-th instruction of a block. Blanks of one kind are not told apart, so for a
blank it is the place of the first of its kind. -/
def placeOf (b : Block) (i : Nat) : Option Nat :=
  b.instrs[i]?.map fun instr => if instr.isBlank then b.instrs.idxOf instr else i

/-- Removes the instruction at the place of the `i`-th. -/
def removeInstr (b : Block) (i : Nat) : Option Block :=
  (b.placeOf i).map fun k => { b with instrs := b.instrs.eraseIdx k }

/-- Puts `instr` in the place of the `i`-th instruction. -/
def replaceInstr (b : Block) (i : Nat) (instr : Instr) : Option Block :=
  (b.placeOf i).map fun k => { b with instrs := b.instrs.set k instr }

end Block

/-! ## Functions -/

namespace Function

/-- The first block of a number. -/
def block? (fn : Function) (id : BlockId) : Option Block := fn.blocks.find? fun b => b.id = id

/-- The position of the first block of a number. -/
def blockIndex? (fn : Function) (id : BlockId) : Option Nat :=
  fn.blocks.findIdx? fun b => b.id = id

/-- The block that a call starts with. -/
def entryBlock? (fn : Function) : Option Block :=
  if fn.entry = 0 then fn.blocks.head? else fn.block? fn.entry

/-- The number of the entry block, `0` when there is none. -/
def entryId (fn : Function) : BlockId := (fn.entryBlock?.map Block.id).getD 0

/-- The position of the entry block. -/
def entryIndex? (fn : Function) : Option Nat :=
  if fn.entry = 0 then (if fn.blocks.isEmpty then none else some 0) else fn.blockIndex? fn.entry

/-- All instructions, block by block. -/
def instrs (fn : Function) : List Instr := fn.blocks.flatMap Block.instrs

/-- The number of instructions; terminators do not count. -/
def size (fn : Function) : Nat := fn.instrs.length

/-- A declaration of something external. -/
def isExternal (fn : Function) : Bool := fn.blocks.isEmpty

/-- The function returns no value. -/
def returnsNothing (fn : Function) : Bool := fn.ret = none || fn.ret = some .void

/-- Applies `f` to every block. -/
def mapBlocks (f : Block → Block) (fn : Function) : Function :=
  { fn with blocks := fn.blocks.map f }

/-- Applies `f` to the block at a position. -/
def modifyBlock (f : Block → Block) (i : Nat) (fn : Function) : Function :=
  { fn with blocks := fn.blocks.modify i f }

/-! ### Fresh numbers -/

/-- The numbers of values that a function defines. -/
def definedIds (fn : Function) : List ValueId :=
  fn.params.map Param.id ++ fn.instrs.map Instr.result

/-- The greatest of some numbers, `0` if there are none. -/
def greatest (ids : List UInt32) : UInt32 := ids.foldl max 0

/-- Raises both counters above the numbers in use, where they are not above them already. -/
def raiseCounters (fn : Function) : Function :=
  let lastValue := greatest fn.definedIds
  let lastBlock := greatest (fn.blocks.map Block.id)
  { fn with
    nextValue := if fn.nextValue ≤ lastValue then lastValue + 1 else fn.nextValue
    nextBlock := if fn.nextBlock ≤ lastBlock then lastBlock + 1 else fn.nextBlock }

/-- A fresh value number, and the function that has given it away. -/
def freshValue (fn : Function) : ValueId × Function :=
  let fn := if fn.nextValue = 0 then fn.raiseCounters else fn
  (fn.nextValue, { fn with nextValue := fn.nextValue + 1 })

/-- A fresh block number, and the function that has given it away. -/
def freshBlock (fn : Function) : BlockId × Function :=
  let fn := if fn.nextBlock = 0 then fn.raiseCounters else fn
  (fn.nextBlock, { fn with nextBlock := fn.nextBlock + 1 })

/-! ### Blocks of a function -/

/-- Inserts blocks after the first block of a number, or at the end if there is none. -/
def insertAfter (fn : Function) (id : BlockId) (new : List Block) : Function :=
  match fn.blockIndex? id with
  | some i => { fn with blocks := fn.blocks.take (i + 1) ++ new ++ fn.blocks.drop (i + 1) }
  | none => { fn with blocks := fn.blocks ++ new }

/-- Removes the first block of a number, if there is one. -/
def removeBlock? (fn : Function) (id : BlockId) : Option Function :=
  (fn.blockIndex? id).map fun i => { fn with blocks := fn.blocks.eraseIdx i }

end Function

/-! ## Modules -/

namespace Module

/-- The first function of a name, with its position. -/
def lookup? (m : Module) (name : String) : Option (Nat × Function) :=
  (m.functions.findIdx? fun fn => fn.name = name).bind fun i =>
    m.functions[i]?.map fun fn => (i, fn)

/-- The first function of a name. -/
def function? (m : Module) (name : String) : Option Function :=
  m.functions.find? fun fn => fn.name = name

/-- An instruction that must never be removed from a function of `m`: it is critical itself, or it
calls a function of `m` that is flagged as critical. -/
def isCritical (m : Module) (i : Instr) : Bool :=
  i.isCritical || match i with
    | .call c => (m.function? c.target).any Function.critical
    | _ => false

end Module

end SsaOpt
