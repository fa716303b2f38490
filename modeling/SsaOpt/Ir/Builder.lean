import SsaOpt.Ir.Module

/-!
# Building functions

A builder appends instructions to a function, block by block. Value-producing steps take a fresh
value first and then need a current block: without one the value is used up and the step has no
meaning.
-/

namespace SsaOpt

/-- A function being built, and the position of the block that instructions go to. -/
structure Builder where
  fn : Function
  current : Option Nat := none

namespace Builder

/-- Starts a function. -/
def new (name : String) (ret : Option Ty) : Builder :=
  { fn := { name, ret := some (ret.getD .void) } }

/-- A step of a builder: an answer or nothing, and the builder after it. -/
abbrev Step (α : Type) := Builder → Option α × Builder

/-- A fresh value. -/
def freshValue : Step ValueId := fun b =>
  let (id, fn) := b.fn.freshValue
  (some id, { b with fn })

/-- Appends a parameter. -/
def param (name : String) (ty : Option Ty) : Step ValueId := fun b =>
  let (id, fn) := b.fn.freshValue
  (some id, { b with fn := { fn with params := fn.params ++ [⟨id, name, ty⟩] } })

/-- Appends a block and makes it the current one. -/
def block (name : String) : Step BlockId := fun b =>
  let (id, fn) := b.fn.freshBlock
  (some id, ⟨{ fn with blocks := fn.blocks ++ [{ id, name }] }, some fn.blocks.length⟩)

/-- Makes the first block of a number the current one; if there is none, there is no current
block. -/
def setBlock (id : BlockId) : Step Unit := fun b =>
  (some (), { b with current := b.fn.blockIndex? id })

/-- The number of the current block. -/
def currentId? (b : Builder) : Option BlockId :=
  (b.current.bind fun i => b.fn.blocks[i]?).map Block.id

/-- Changes the current block. -/
def onCurrent (f : Block → Block) : Step Unit := fun b =>
  match b.current with
  | some i => (some (), { b with fn := b.fn.modifyBlock f i })
  | none => (none, b)

/-- Appends an instruction to the current block. -/
def emit (i : Instr) : Step Unit := onCurrent fun b => { b with instrs := b.instrs ++ [i] }

/-- Appends the instruction of a fresh value. -/
def emitValue (make : ValueId → Instr) : Step ValueId := fun b =>
  let (id, fn) := b.fn.freshValue
  let (done, b) := emit (make id) { b with fn }
  (done.map fun _ => id, b)

/-- Appends a call with an ordinary side effect. A call of type `void` gives no value. -/
def call (target : String) (ty : Option Ty) (args : List ValueId) : Step ValueId :=
  let make := fun id => Instr.call { result := id, target, args, ty, effect := .side }
  if ty = none ∨ ty = some .void then fun b =>
    let (done, b) := emit (make 0) b
    (done.map fun _ => 0, b)
  else emitValue make

/-- Sets the terminator of the current block. -/
def terminate (t : Term) : Step Unit := onCurrent fun b => { b with term := some t }

/-- A jump to an existing block. -/
def jump (target : BlockId) : Step Unit := fun b =>
  match b.fn.block? target with
  | some t => terminate (.br t.id) b
  | none => (none, b)

/-- A jump to one of two existing blocks. -/
def branch (cond : ValueId) (yes no : BlockId) : Step Unit := fun b =>
  match b.fn.block? yes, b.fn.block? no with
  | some t, some e => terminate (.brIf cond t.id e.id) b
  | _, _ => (none, b)

end Builder

end SsaOpt
