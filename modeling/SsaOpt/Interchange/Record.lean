import SsaOpt.Cbor.Access

/-!
# The records of the interchange format

A module is written as a record of records. All instructions share one record, and so do all
terminators; which fields count depends on the operation. Fields that are zero or empty are left
out, except the ones that every record of its kind has. The fields come in the canonical order: a
shorter name before a longer one, names of one length in alphabetical order.
-/

namespace SsaOpt.Interchange

open Cbor (Item)
open Cbor.Item (record ofText ofBool)

/-! ## Fields that may be left out -/

/-- A text, left out if empty. -/
def unlessEmpty (s : String) : Option Item := if s = "" then none else some (ofText s)

/-- A number as an item. -/
def ofId (id : UInt32) : Item := .unsigned id.toUInt64

/-- A number, left out if zero. -/
def unlessZero (id : UInt32) : Option Item := if id = 0 then none else some (ofId id)

/-- A truth value, left out if false. -/
def ifTrue (b : Bool) : Option Item := if b then some (ofBool true) else none

/-- A list, left out if empty. -/
def unlessNil (items : List Item) : Option Item :=
  if items.isEmpty then none else some (.array items)

/-! ## Records -/

/-- An instruction. -/
structure InstrRecord where
  op : String := ""
  args : List UInt32 := []
  kind : String := ""
  type : String := ""
  preds : List UInt32 := []
  value : String := ""
  effect : Int64 := 0
  result : UInt32 := 0
  target : String := ""
  unchecked : Bool := false
  volatile : Bool := false
deriving DecidableEq

/-- A terminator. -/
structure TermRecord where
  op : String := ""
  value : UInt32 := 0
  targets : List UInt32 := []
  hasValue : Bool := false
deriving DecidableEq

/-- A block. -/
structure BlockRecord where
  id : UInt32 := 0
  name : String := ""
  term : Option TermRecord := none
  instrs : List InstrRecord := []
  handler : UInt32 := 0
deriving DecidableEq

/-- A parameter. -/
structure ParamRecord where
  id : UInt32 := 0
  name : String := ""
  type : String := ""
deriving DecidableEq

/-- A function. -/
structure FunctionRecord where
  name : String := ""
  entry : UInt32 := 0
  blocks : List BlockRecord := []
  params : List ParamRecord := []
  ret : String := ""
  unchecked : Bool := false
  critical : Bool := false
  mayThrow : Bool := false
deriving DecidableEq

/-- A module. -/
structure ModuleRecord where
  name : String := ""
  functions : List FunctionRecord := []
deriving DecidableEq

/-! ## Records as items -/

/-- The item of an instruction. -/
def InstrRecord.toItem (r : InstrRecord) : Item :=
  record
    [("op", some (ofText r.op)), ("args", unlessNil (r.args.map ofId)),
      ("kind", unlessEmpty r.kind), ("type", unlessEmpty r.type),
      ("preds", unlessNil (r.preds.map ofId)), ("value", unlessEmpty r.value),
      ("effect", if r.effect = 0 then none else some (.ofInt64 r.effect)),
      ("result", unlessZero r.result), ("target", unlessEmpty r.target),
      ("unsafe", ifTrue r.unchecked), ("volatile", ifTrue r.volatile)]

/-- The item of a terminator. -/
def TermRecord.toItem (r : TermRecord) : Item :=
  record
    [("op", some (ofText r.op)), ("value", unlessZero r.value),
      ("targets", unlessNil (r.targets.map ofId)), ("has_value", ifTrue r.hasValue)]

/-- The item of a block. -/
def BlockRecord.toItem (r : BlockRecord) : Item :=
  record
    [("id", some (ofId r.id)), ("name", unlessEmpty r.name), ("term", r.term.map TermRecord.toItem),
      ("instrs", unlessNil (r.instrs.map InstrRecord.toItem)), ("handler", unlessZero r.handler)]

/-- The item of a parameter. -/
def ParamRecord.toItem (r : ParamRecord) : Item :=
  record [("id", some (ofId r.id)), ("name", some (ofText r.name)), ("type", some (ofText r.type))]

/-- The item of a function. -/
def FunctionRecord.toItem (r : FunctionRecord) : Item :=
  record
    [("name", some (ofText r.name)), ("entry", unlessZero r.entry),
      ("blocks", unlessNil (r.blocks.map BlockRecord.toItem)),
      ("params", unlessNil (r.params.map ParamRecord.toItem)), ("return", some (ofText r.ret)),
      ("unsafe", ifTrue r.unchecked), ("critical", ifTrue r.critical),
      ("may_throw", ifTrue r.mayThrow)]

/-- The item of a module; an empty list of functions is written as nothing. -/
def ModuleRecord.toItem (r : ModuleRecord) : Item :=
  let functions := r.functions.map FunctionRecord.toItem
  record [("name", some (ofText r.name)), ("functions", some ((unlessNil functions).getD .null))]

/-! ## Items as records -/

/-- The instruction that an item describes. -/
def InstrRecord.ofItem? (x : Item) : Option InstrRecord := do
  let f ← x.fields?
  return {
    op := ← (f.get "op").text?
    args := ← (f.get "args").list? Item.uint32?
    kind := ← (f.get "kind").text?
    type := ← (f.get "type").text?
    preds := ← (f.get "preds").list? Item.uint32?
    value := ← (f.get "value").text?
    effect := ← (f.get "effect").int64?
    result := ← (f.get "result").uint32?
    target := ← (f.get "target").text?
    unchecked := ← (f.get "unsafe").bool?
    volatile := ← (f.get "volatile").bool? }

/-- The terminator that an item describes. -/
def TermRecord.ofItem? (x : Item) : Option TermRecord := do
  let f ← x.fields?
  return {
    op := ← (f.get "op").text?
    value := ← (f.get "value").uint32?
    targets := ← (f.get "targets").list? Item.uint32?
    hasValue := ← (f.get "has_value").bool? }

/-- The block that an item describes. An item that stands for nothing is no terminator. -/
def BlockRecord.ofItem? (x : Item) : Option BlockRecord := do
  let f ← x.fields?
  let term := f.get "term"
  return {
    id := ← (f.get "id").uint32?
    name := ← (f.get "name").text?
    term := ← if term.isNull then some none else (TermRecord.ofItem? term).map some
    instrs := ← (f.get "instrs").list? InstrRecord.ofItem?
    handler := ← (f.get "handler").uint32? }

/-- The parameter that an item describes. -/
def ParamRecord.ofItem? (x : Item) : Option ParamRecord := do
  let f ← x.fields?
  return {
    id := ← (f.get "id").uint32?
    name := ← (f.get "name").text?
    type := ← (f.get "type").text? }

/-- The function that an item describes. -/
def FunctionRecord.ofItem? (x : Item) : Option FunctionRecord := do
  let f ← x.fields?
  return {
    name := ← (f.get "name").text?
    entry := ← (f.get "entry").uint32?
    blocks := ← (f.get "blocks").list? BlockRecord.ofItem?
    params := ← (f.get "params").list? ParamRecord.ofItem?
    ret := ← (f.get "return").text?
    unchecked := ← (f.get "unsafe").bool?
    critical := ← (f.get "critical").bool?
    mayThrow := ← (f.get "may_throw").bool? }

/-- The module that an item describes. -/
def ModuleRecord.ofItem? (x : Item) : Option ModuleRecord := do
  let f ← x.fields?
  return {
    name := ← (f.get "name").text?
    functions := ← (f.get "functions").list? FunctionRecord.ofItem? }

end SsaOpt.Interchange
