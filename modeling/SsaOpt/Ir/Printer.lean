import SsaOpt.Ir.Module

/-!
# The text of a module

Modules are printed in a readable form, one line for an instruction. The text is what fingerprints
are taken of, and single instructions are shown in messages.
-/

namespace SsaOpt

/-- A value as an operand. -/
def renderValue (id : ValueId) : String := if id = 0 then "%<invalid>" else s!"%t{id.toNat}"

/-- A block as a target. -/
def renderBlockId (id : BlockId) : String := if id = 0 then "b<invalid>" else s!"b{id.toNat}"

/-- Texts with commas between them. -/
def commaSeparated (parts : List String) : String := ", ".intercalate parts

/-- An instruction with its result in front, if it has one. -/
def renderAssign (result : ValueId) (body : String) : String :=
  if result = 0 then body else s!"{renderValue result} = {body}"

/-- The flags of a memory access. -/
def renderAccess (volatile unchecked : Bool) : String :=
  (if volatile then " volatile" else "") ++ if unchecked then " unsafe" else ""

/-- The entries of a phi. -/
def renderIncoming (entries : List Incoming) : String :=
  let parts := entries.map fun e => s!"{renderBlockId e.pred}: {renderValue e.value}"
  "[" ++ commaSeparated parts ++ "]"

/-- An instruction as text. -/
def Instr.render : Instr → String
  | const c => renderAssign c.result s!"const {typeName c.ty} {c.literal}"
  | binary b =>
    renderAssign b.result
      s!"{b.op.name} {typeName b.ty} {renderValue b.left}, {renderValue b.right}"
  | compare c =>
    renderAssign c.result s!"cmp {c.pred.name} {renderValue c.left}, {renderValue c.right}"
  | cast c => renderAssign c.result s!"cast {typeName c.ty} {renderValue c.operand}"
  | alloca a => renderAssign a.result s!"alloca {typeName a.elem}"
  | load l =>
    renderAssign l.result
      s!"load{renderAccess l.volatile l.unchecked} {typeName l.ty} {renderValue l.addr}"
  | store s =>
    s!"store{renderAccess s.volatile s.unchecked} {renderValue s.addr}, {renderValue s.value}"
  | call c =>
    let effect := if c.effect = .side then "" else " " ++ c.effect.name
    let flags := effect ++ if c.unchecked then " unsafe" else ""
    let args := commaSeparated (c.args.map renderValue)
    renderAssign c.result s!"call{flags} {c.target}({args}) : {typeName c.ty}"
  | phi p => renderAssign p.result s!"phi {typeName p.ty} {renderIncoming p.incoming}"
  | nop => "nop"
  | hole => "instr <unknown>"

/-- A terminator as text. -/
def Term.render : Term → String
  | ret v true => s!"ret {renderValue v}"
  | ret _ false => "ret"
  | br t => s!"br {renderBlockId t}"
  | brIf c t e => s!"br_if {renderValue c}, {renderBlockId t}, {renderBlockId e}"
  | unreachable => "unreachable"

/-- A terminator that may be missing, on its own. -/
def renderTerm : Option Term → String
  | some t => t.render
  | none => "term <unknown>"

/-- A block as text; `isEntry` marks the entry block. -/
def Block.render (isEntry : Bool) (b : Block) : String :=
  let name := if b.name = "" then "" else " " ++ b.name
  let entry := if isEntry then " (entry)" else ""
  let handler := if b.handler = 0 then "" else " handler " ++ renderBlockId b.handler
  let head := s!"  block {renderBlockId b.id}{name}{entry}{handler}:\n"
  let body := b.instrs.map fun i => s!"    {i.render}\n"
  let term := match b.term with
    | some t => t.render
    | none => "term <nil>"
  head ++ String.join body ++ s!"    {term}\n"

namespace Function

/-- The attributes of a function, with commas between them. -/
def renderAttributes (fn : Function) : String :=
  commaSeparated ((if fn.mayThrow then ["may_throw"] else []) ++
    (if fn.unchecked then ["unsafe"] else []) ++ if fn.critical then ["critical"] else [])

/-- A function as text. -/
def render (fn : Function) : String :=
  let params := fn.params.map fun p => s!"{renderValue p.id} {p.name}: {typeName p.ty}"
  let attributes := fn.renderAttributes
  let shown := if attributes = "" then "" else s!" [{attributes}]"
  let entry := fn.entryId
  let head := s!"fn {fn.name}({commaSeparated params}) -> {typeName fn.ret}{shown} "
  head ++ "\x7b\n" ++ String.join (fn.blocks.map fun b => b.render (b.id = entry)) ++ "\x7d\n"

end Function

namespace Module

/-- A module as text in which some functions may be missing; a missing one leaves a blank line. -/
def renderSlots (name : String) (slots : List (Option Function)) : String :=
  let title := if name = "" then "<unknown>" else name
  s!"module {title}\n" ++
    String.join (slots.map fun slot => "\n" ++ (slot.map Function.render).getD "")

/-- A module as text. -/
def render (m : Module) : String := renderSlots m.name (m.functions.map some)

end Module

/-- A module that may be missing, as text. -/
def renderModule : Option Module → String
  | some m => m.render
  | none => ""

end SsaOpt
