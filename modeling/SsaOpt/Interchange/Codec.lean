import SsaOpt.Interchange.Record
import SsaOpt.Error
import SsaOpt.Ir.Listing

/-!
# Modules as bytes

`Module.encode` writes a module in the interchange format and `Module.decode` reads one. Equal
modules have equal bytes, and reading takes more than writing produces. The two counters for fresh
numbers are not written.
-/

namespace SsaOpt

open Interchange

/-! ## What can go wrong -/

/-- What is wrong with a record. -/
inductive RecordFlaw where
  | unknownType (name : String)
  | unknownInstr (op : String)
  | unknownTerm (op : String)
  | operandCount (op : String) (wanted got : Nat)
  | incomingCount (preds values : Nat)
  | targetCount (op : String) (wanted got : Nat)
deriving DecidableEq

/-- The flaw in words. -/
def RecordFlaw.message : RecordFlaw → String
  | unknownType name => "unknown type " ++ Text.quote name
  | unknownInstr op => "unknown instruction " ++ Text.quote op
  | unknownTerm op => "unknown terminator " ++ Text.quote op
  | operandCount op wanted got => s!"{op} expects {wanted} operands, got {got}"
  | incomingCount preds values => s!"phi has {preds} predecessors but {values} values"
  | targetCount op wanted got =>
    let noun := if wanted = 1 then "target" else "targets"
    s!"{op} expects {wanted} {noun}, got {got}"

/-- Why bytes are no module. -/
inductive DecodeError where
  /-- They are no item. -/
  | unreadable (e : Cbor.ReadError)
  /-- The item is not made up of the records of a module. -/
  | mismatch
  /-- A record of a function is flawed; those of blocks come with the block. -/
  | flawed (function : String) (block : Option BlockId) (flaw : RecordFlaw)
deriving DecidableEq

/-- The error in words. -/
def DecodeError.message : DecodeError → String
  | unreadable e => "mir: unmarshal module: " ++ e.message
  | mismatch => "mir: unmarshal module: not the records of a module"
  | flawed function none flaw => s!"mir: fn {function}: {flaw.message}"
  | flawed function (some block) flaw => s!"mir: fn {function}: b{block.toNat}: {flaw.message}"

/-- Why a module cannot be written: an instruction is missing in a function. -/
structure EncodeError where
  function : String
deriving DecidableEq

/-- The error in words. -/
def EncodeError.message (e : EncodeError) : String :=
  s!"mir: fn {e.function}: cannot encode instruction <nil>"

/-! ## Writing -/

/-- The name of a type, empty if there is none. -/
def typeField (t : Option Ty) : String := (t.map Ty.name).getD ""

/-- The record of an instruction. -/
def Instr.toRecord? : Instr → Option InstrRecord
  | const c =>
    some { op := "const", result := c.result, type := typeField c.ty, value := c.literal }
  | binary b =>
    some { op := "binary", result := b.result, type := typeField b.ty, kind := b.op.name
           args := [b.left, b.right] }
  | compare c =>
    some { op := "compare", result := c.result, type := typeField c.ty, kind := c.pred.name
           args := [c.left, c.right] }
  | cast c => some { op := "cast", result := c.result, type := typeField c.ty, args := [c.operand] }
  | alloca a => some { op := "alloca", result := a.result, type := typeField a.elem }
  | load l =>
    some { op := "load", result := l.result, type := typeField l.ty, args := [l.addr]
           volatile := l.volatile, unchecked := l.unchecked }
  | store s =>
    some { op := "store", args := [s.addr, s.value], volatile := s.volatile
           unchecked := s.unchecked }
  | call c =>
    some { op := "call", result := c.result, type := typeField c.ty, target := c.target
           args := c.args, effect := c.effect.code, unchecked := c.unchecked }
  | phi p =>
    some { op := "phi", result := p.result, type := typeField p.ty
           preds := p.incoming.map Incoming.pred, args := p.incoming.map Incoming.value }
  | nop => some { op := "nop" }
  | hole => none

/-- The record of a terminator. -/
def Term.toRecord : Term → TermRecord
  | ret value hasValue => { op := "ret", value, hasValue }
  | br target => { op := "br", targets := [target] }
  | brIf cond yes no => { op := "br_if", value := cond, targets := [yes, no] }
  | unreachable => { op := "unreachable" }

/-- The record of a block. -/
def Block.toRecord? (b : Block) : Option BlockRecord := do
  let instrs ← b.instrs.mapM Instr.toRecord?
  return {
    id := b.id, name := b.name, handler := b.handler, instrs, term := b.term.map Term.toRecord }

/-- The record of a function. -/
def Function.toRecord? (fn : Function) : Option FunctionRecord := do
  let blocks ← fn.blocks.mapM Block.toRecord?
  return {
    name := fn.name, ret := typeField fn.ret, entry := fn.entry, mayThrow := fn.mayThrow
    unchecked := fn.unchecked, critical := fn.critical, blocks
    params := fn.params.map fun p => { id := p.id, name := p.name, type := typeField p.ty } }

/-- The record of a module; the first function with a missing instruction is the error. -/
def Module.toRecord (m : Module) : Except EncodeError ModuleRecord := do
  let functions ← m.functions.mapM fun fn =>
    match fn.toRecord? with
    | some r => .ok r
    | none => .error ⟨fn.name⟩
  return { name := m.name, functions }

/-- The bytes of a module. -/
def Module.encode (m : Module) : Except EncodeError (List UInt8) :=
  m.toRecord.map fun r => r.toItem.write

/-- The bytes of a listing. Its functions are written in order, so that a missing instruction comes
before a vacant place behind it. -/
def Listing.encode (l : Listing) : Except Failure (List UInt8) :=
  match l.front.encode with
  | .error e => .error (.error (.plain e.message))
  | .ok bytes => if l.isComplete then .ok bytes else .error .fault

/-! ## Reading -/

/-- The type of a name; the empty name is no type. -/
def readType (name : String) : Except RecordFlaw (Option Ty) :=
  if name = "" then .ok none
  else
    match Ty.scalar? name with
    | some t => .ok (some t)
    | none => .error (.unknownType name)

/-- The only operand of a record. -/
def Interchange.InstrRecord.operand (r : InstrRecord) : Except RecordFlaw ValueId :=
  match r.args with
  | [x] => .ok x
  | args => .error (.operandCount r.op 1 args.length)

/-- The two operands of a record. -/
def Interchange.InstrRecord.operands (r : InstrRecord) : Except RecordFlaw (ValueId × ValueId) :=
  match r.args with
  | [x, y] => .ok (x, y)
  | args => .error (.operandCount r.op 2 args.length)

/-- The instruction of a record. -/
def Instr.ofRecord (r : InstrRecord) : Except RecordFlaw Instr := do
  let t ← readType r.type
  match r.op with
  | "const" => .ok (.const ⟨r.result, t, r.value⟩)
  | "binary" => do
    let (left, right) ← r.operands
    .ok (.binary ⟨r.result, BinOp.ofName r.kind, left, right, t⟩)
  | "compare" => do
    let (left, right) ← r.operands
    .ok (.compare ⟨r.result, CmpPred.ofName r.kind, left, right, t⟩)
  | "cast" => do
    let operand ← r.operand
    .ok (.cast ⟨r.result, operand, t⟩)
  | "alloca" => .ok (.alloca ⟨r.result, t⟩)
  | "load" => do
    let addr ← r.operand
    .ok (.load ⟨r.result, addr, t, r.volatile, r.unchecked⟩)
  | "store" => do
    let (addr, value) ← r.operands
    .ok (.store ⟨addr, value, r.volatile, r.unchecked⟩)
  | "call" => .ok (.call ⟨r.result, r.target, r.args, t, Effect.ofCode r.effect, r.unchecked⟩)
  | "phi" =>
    if r.preds.length = r.args.length then
      .ok (.phi ⟨r.result, t, List.zipWith Incoming.mk r.preds r.args⟩)
    else .error (.incomingCount r.preds.length r.args.length)
  | "nop" => .ok .nop
  | op => .error (.unknownInstr op)

/-- The terminator of a record. -/
def Term.ofRecord (r : TermRecord) : Except RecordFlaw Term :=
  match r.op with
  | "ret" => .ok (.ret r.value r.hasValue)
  | "br" =>
    match r.targets with
    | [target] => .ok (.br target)
    | targets => .error (.targetCount r.op 1 targets.length)
  | "br_if" =>
    match r.targets with
    | [yes, no] => .ok (.brIf r.value yes no)
    | targets => .error (.targetCount r.op 2 targets.length)
  | "unreachable" => .ok .unreachable
  | op => .error (.unknownTerm op)

/-- The block of a record. -/
def Block.ofRecord (r : BlockRecord) : Except RecordFlaw Block := do
  let instrs ← r.instrs.mapM Instr.ofRecord
  let term ← match r.term with
    | some t => (Term.ofRecord t).map some
    | none => .ok none
  return { id := r.id, name := r.name, handler := r.handler, instrs, term }

/-- The parameter of a record. -/
def Param.ofRecord (r : ParamRecord) : Except RecordFlaw Param := do
  let t ← readType r.type
  return ⟨r.id, r.name, t⟩

/-- The function of a record. -/
def Function.ofRecord (r : FunctionRecord) : Except DecodeError Function := do
  let flawed := DecodeError.flawed r.name
  let ret ← (readType r.ret).mapError (flawed none)
  let params ← (r.params.mapM Param.ofRecord).mapError (flawed none)
  let blocks ← r.blocks.mapM fun b => (Block.ofRecord b).mapError (flawed (some b.id))
  return {
    name := r.name, ret, params, blocks, entry := r.entry, mayThrow := r.mayThrow
    unchecked := r.unchecked, critical := r.critical }

/-- The module of a record. -/
def Module.ofRecord (r : ModuleRecord) : Except DecodeError Module := do
  let functions ← r.functions.mapM Function.ofRecord
  return { name := r.name, functions }

/-- The module that some bytes are. -/
def Module.decode (bytes : List UInt8) : Except DecodeError Module :=
  match Cbor.Item.read bytes with
  | .error e => .error (.unreadable e)
  | .ok item =>
    match ModuleRecord.ofItem? item with
    | none => .error .mismatch
    | some r => Module.ofRecord r

end SsaOpt
