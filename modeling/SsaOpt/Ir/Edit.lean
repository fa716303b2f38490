import SsaOpt.Ir.Module

/-!
# Edits

Single changes to a function. An edit works on the current one of two functions: making a copy keeps
the former function aside, and the two can be exchanged. An edit that names a block or an
instruction that is not there has no meaning.
-/

namespace SsaOpt

/-- Which instruction of a block is meant. -/
inductive Place where
  | index (i : Nat)
  /-- An instruction that is in no block. -/
  | elsewhere

/-- A change to a function, or a question about it. -/
inductive Edit where
  | freshValue
  | freshBlock
  | insertAfter (id : BlockId) (blocks : List Block)
  | removeBlock (id : BlockId)
  | removeInstr (block : BlockId) (place : Place)
  | replaceInstr (block : BlockId) (place : Place) (new : Instr)
  | appendInstr (block : BlockId) (new : Instr)
  | setTerm (block : BlockId) (term : Option Term)
  | setEntry (entry : BlockId)
  | setResult (block : BlockId) (place : Place) (id : ValueId)
  | mapOperands (block : BlockId) (place : Place) (f : ValueId → ValueId)
  | mapTermOperands (block : BlockId) (f : ValueId → ValueId)
  | mapTargets (block : BlockId) (f : BlockId → BlockId)
  /-- Goes on with a copy of the function. -/
  | copy
  /-- Appends a copy of an instruction to its block. -/
  | copyInstr (block : BlockId) (place : Place)
  /-- Puts a copy of the terminator in its place. -/
  | copyTerm (block : BlockId)
  /-- Exchanges the current function and the one kept aside. -/
  | swap
  | entry
  | size
  | index (id : BlockId)

/-- What an edit answers. -/
inductive EditReply where
  | nothing
  | number (n : Int)
  | truth (b : Bool)

/-- The function being edited and the one kept aside, if there is another one. -/
structure Desk where
  current : Function
  aside : Option Function := none

namespace Edit

/-- The instruction that is in no block. -/
def strayConst : Instr := .const ⟨0, none, ""⟩

/-- Changes the first block of a number. -/
def onBlock (fn : Function) (id : BlockId) (f : Block → Option (EditReply × Block)) :
    Option (EditReply × Function) := do
  let i ← fn.blockIndex? id
  let b ← fn.blocks[i]?
  let (reply, b) ← f b
  some (reply, fn.modifyBlock (fun _ => b) i)

/-- Changes an instruction of a block in its place; an instruction that is in no block changes
without being seen. -/
def onInstr (fn : Function) (id : BlockId) (place : Place) (f : Instr → Instr) :
    Option (EditReply × Function) :=
  onBlock fn id fun b =>
    match place with
    | .elsewhere => some (.nothing, b)
    | .index i =>
      b.instrs[i]?.map fun instr => (.nothing, { b with instrs := b.instrs.set i (f instr) })

/-- Carries out an edit on a function. -/
def onFunction (fn : Function) : Edit → Option (EditReply × Function)
  | freshValue => let (id, fn) := fn.freshValue; some (.number id.toNat, fn)
  | freshBlock => let (id, fn) := fn.freshBlock; some (.number id.toNat, fn)
  | insertAfter id blocks => some (.nothing, fn.insertAfter id blocks)
  | removeBlock id =>
    match fn.removeBlock? id with
    | some fn => some (.truth true, fn)
    | none => some (.truth false, fn)
  | removeInstr id place =>
    onBlock fn id fun b =>
      match place with
      | .elsewhere => some (.truth false, b)
      | .index i => (b.removeInstr i).map fun b => (.truth true, b)
  | replaceInstr id place new =>
    onBlock fn id fun b =>
      match place with
      | .elsewhere => some (.truth false, b)
      | .index i => (b.replaceInstr i new).map fun b => (.truth true, b)
  | appendInstr id new =>
    onBlock fn id fun b => some (.nothing, { b with instrs := b.instrs ++ [new] })
  | setTerm id term => onBlock fn id fun b => some (.nothing, { b with term })
  | setEntry id => some (.nothing, { fn with entry := id })
  | setResult id place v => onInstr fn id place (Instr.setResult v)
  | mapOperands id place f => onInstr fn id place (Instr.mapOperands f)
  | mapTermOperands id f =>
    onBlock fn id fun b => some (.nothing, { b with term := b.term.map (Term.mapOperands f) })
  | mapTargets id f =>
    onBlock fn id fun b => some (.nothing, { b with term := b.term.map (Term.mapTargets f) })
  | copyInstr id place =>
    onBlock fn id fun b =>
      match place with
      | .elsewhere => some (.nothing, { b with instrs := b.instrs ++ [strayConst] })
      | .index i =>
        b.instrs[i]?.map fun instr => (.nothing, { b with instrs := b.instrs ++ [instr] })
  | copyTerm id => onBlock fn id fun b => some (.nothing, b)
  | entry => some (.number fn.entryId.toNat, fn)
  | size => some (.number fn.size, fn)
  | index id =>
    some (.number (match fn.blockIndex? id with
      | some i => (i : Int)
      | none => -1), fn)
  | copy => some (.nothing, fn)
  | swap => some (.nothing, fn)

/-- Carries out an edit; nothing comes back if it has no meaning. -/
def apply (desk : Desk) : Edit → Option (EditReply × Desk)
  | copy => some (.nothing, ⟨desk.current, some desk.current⟩)
  | swap =>
    match desk.aside with
    | some other => some (.nothing, ⟨other, some desk.current⟩)
    | none => some (.nothing, desk)
  | edit =>
    (edit.onFunction desk.current).map fun (reply, fn) => (reply, { desk with current := fn })

end Edit

end SsaOpt
