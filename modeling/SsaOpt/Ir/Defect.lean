import SsaOpt.Ir.Printer

/-!
# Defects

What can be wrong with a module, and the checks that find it. `Function.defects` lists the
structural defects of a function, `Function.memoryDefects` the loads and stores that go through
something else than a pointer. The order of a report is the order in which the checks are made:
block numbers and names, the entry, parameters, definitions, and then block by block the phis,
operands, terminators and targets.
-/

namespace SsaOpt

open Text

/-- What is wrong. -/
inductive Flaw where
  /-- A block with the number `0`. -/
  | invalidBlockId (name : String)
  | duplicateBlockId
  | duplicateBlockName (name : String)
  /-- The entry is the number of no block. -/
  | missingEntry (id : BlockId)
  /-- A parameter with the number `0`. -/
  | invalidParamId (name : String)
  | redefined (id : ValueId)
  /-- A typed instruction that defines nothing. -/
  | noResult (i : Instr)
  /-- An instruction that defines a value of no type. -/
  | noType (i : Instr)
  | unlistedEffect (target : String) (code : Int64)
  /-- A phi after another instruction. -/
  | latePhi (id : ValueId)
  /-- A phi entry for a block that is no predecessor. -/
  | strayIncoming (id : ValueId) (pred : BlockId)
  | undefinedOperand (i : Instr) (id : ValueId)
  | undefinedTermOperand (t : Term) (id : ValueId)
  | noTerminator
  | missingTarget (id : BlockId)
  | valueReturned
  | noValueReturned (ty : Option Ty)
  | unnamedFunction
  | duplicateFunction (name : String)
  /-- A load or store through a value of another type than `ptr`. -/
  | notPointer (i : Instr) (ty : Option Ty)
deriving DecidableEq

namespace Flaw

/-- The flaw in words. -/
def message : Flaw → String
  | invalidBlockId n => s!"block {quote n} has an invalid id"
  | duplicateBlockId => "duplicate block id"
  | duplicateBlockName n => s!"duplicate block name {quote n}"
  | missingEntry b => s!"entry block {renderBlockId b} does not exist"
  | invalidParamId n => s!"parameter {quote n} has an invalid id"
  | redefined v => s!"value {renderValue v} defined more than once"
  | noResult i => s!"{quote i.render} has no result"
  | noType i => s!"{quote i.render} has no type"
  | unlistedEffect t c => s!"call to {t} has invalid effect {c.toInt}"
  | latePhi v => s!"phi {renderValue v} is not at the start of the block"
  | strayIncoming v b =>
    s!"phi {renderValue v} has incoming from {renderBlockId b} which is not a predecessor"
  | undefinedOperand i v => s!"{quote i.render} uses undefined value {renderValue v}"
  | undefinedTermOperand t v => s!"{quote t.render} uses undefined value {renderValue v}"
  | noTerminator => "block has no terminator"
  | missingTarget b => s!"branch to missing block {renderBlockId b}"
  | valueReturned => "void function returns a value"
  | noValueReturned t => s!"missing return value of type {typeName t}"
  | unnamedFunction => "function without a name"
  | duplicateFunction n => s!"duplicate function {quote n}"
  | notPointer i t =>
    let shown := (t.map Ty.name).getD "%!s(<nil>)"
    s!"{quote i.render} accesses memory through non-pointer {shown}"

end Flaw

/-- A message about a place: a function, and a block of it unless that is `0`. -/
def locate (function : String) (block : BlockId) (message : String) : String :=
  if function = "" then message
  else if block = 0 then s!"fn {function}: {message}"
  else s!"fn {function}, {renderBlockId block}: {message}"

/-- A flaw and where it is. -/
structure Defect where
  function : String := ""
  block : BlockId := 0
  flaw : Flaw
deriving DecidableEq

/-- The defect in words. -/
def Defect.message (d : Defect) : String := locate d.function d.block d.flaw.message

/-- A list with one element if the condition holds. -/
def flawIf (condition : Bool) (flaw : Flaw) : List Flaw := if condition then [flaw] else []

namespace Function

/-- The flaws of block numbers and names, given those of earlier blocks. -/
def blockFlaws : List BlockId → List String → List Block → List (BlockId × Flaw)
  | _, _, [] => []
  | ids, names, b :: rest =>
    if b.id = 0 then (0, .invalidBlockId b.name) :: blockFlaws ids names rest
    else
      let flaws := flawIf (ids.contains b.id) .duplicateBlockId ++
        flawIf (b.name ≠ "" && names.contains b.name) (.duplicateBlockName b.name)
      flaws.map (b.id, ·) ++ blockFlaws (b.id :: ids) (b.name :: names) rest

/-- Whether a block has the number `id`, which is not `0`. -/
def hasBlock (fn : Function) (id : BlockId) : Bool := id ≠ 0 && fn.blocks.any fun b => b.id = id

/-- The flaw of the entry. -/
def entryFlaws (fn : Function) : List (BlockId × Flaw) :=
  (flawIf (fn.entry ≠ 0 && !fn.hasBlock fn.entry) (.missingEntry fn.entry)).map (0, ·)

/-- The flaw of defining `id` after `earlier`. -/
def redefinition (earlier : List ValueId) (id : ValueId) : List Flaw :=
  flawIf (id ≠ 0 && earlier.contains id) (.redefined id)

/-- The flaws of parameters, given the values defined before. -/
def paramFlaws : List ValueId → List Param → List (BlockId × Flaw)
  | _, [] => []
  | earlier, p :: rest =>
    (flawIf (p.id = 0) (.invalidParamId p.name) ++ redefinition earlier p.id).map (0, ·) ++
      paramFlaws (p.id :: earlier) rest

/-- The flaws of an instruction on its own. -/
def instrFlaws (i : Instr) : List Flaw :=
  let isCall := match i with
    | .call _ => true
    | _ => false
  flawIf (i.result = 0 && i.resultType ≠ none && !isCall) (.noResult i) ++
    flawIf (i.result ≠ 0 && i.resultType = none) (.noType i) ++
    match i with
    | .call c => flawIf (!c.effect.isListed) (.unlistedEffect c.target c.effect.code)
    | _ => []

/-- The flaws of the definitions of some instructions, given the values defined before. -/
def definitionFlaws : List ValueId → List (BlockId × Instr) → List (BlockId × Flaw)
  | _, [] => []
  | earlier, (b, i) :: rest =>
    (instrFlaws i ++ redefinition earlier i.result).map (b, ·) ++
      definitionFlaws (i.result :: earlier) rest

/-- All instructions with the number of their block. -/
def placedInstrs (fn : Function) : List (BlockId × Instr) :=
  fn.blocks.flatMap fun b => b.instrs.map (b.id, ·)

/-- Whether a parameter or an instruction defines the value. -/
def defines (fn : Function) (id : ValueId) : Bool := id ≠ 0 && fn.definedIds.contains id

/-- Whether control may go from a block numbered `p` to one numbered `q`. -/
def hasEdge (fn : Function) (p q : BlockId) : Bool :=
  fn.blocks.any fun b => b.id = p && b.successors.contains q

/-- The flaws of the uses in a list of instructions of block `b`; `late` says that something else
than a phi came before. -/
def useFlaws (fn : Function) (b : BlockId) : Bool → List Instr → List Flaw
  | _, [] => []
  | late, i :: rest =>
    let phiFlaws := match i with
      | .phi p => flawIf late (.latePhi p.result) ++
          (p.incoming.filter fun e => !fn.hasEdge e.pred b).map fun e =>
            .strayIncoming p.result e.pred
      | _ => []
    let isPhi := match i with
      | .phi _ => true
      | _ => false
    let missing := i.operands.filter fun v => !fn.defines v
    phiFlaws ++ missing.map (.undefinedOperand i ·) ++ useFlaws fn b (late || !isPhi) rest

/-- The flaws of the end of a block. -/
def endFlaws (fn : Function) (b : Block) : List Flaw :=
  match b.term with
  | none => [.noTerminator]
  | some t =>
    (t.operands.filter fun v => !fn.defines v).map (.undefinedTermOperand t ·) ++
      (b.successors.filter fun s => !fn.hasBlock s).map .missingTarget ++
      match t with
      | .ret _ hasValue =>
        flawIf (fn.returnsNothing && hasValue) .valueReturned ++
          flawIf (!fn.returnsNothing && !hasValue) (.noValueReturned fn.ret)
      | _ => []

/-- The structural defects of a function. A function without blocks has none. -/
def defects (fn : Function) : List Defect :=
  if fn.isExternal then []
  else
    let placed :=
      blockFlaws [] [] fn.blocks ++ fn.entryFlaws ++ paramFlaws [] fn.params ++
        definitionFlaws (fn.params.map Param.id) fn.placedInstrs ++
        fn.blocks.flatMap fun b =>
          (useFlaws fn b.id false b.instrs ++ fn.endFlaws b).map (b.id, ·)
    placed.map fun (b, flaw) => ⟨fn.name, b, flaw⟩

/-- The declared types of the values of a function: parameters, then results, the last one first. -/
def valueTypes (fn : Function) : List (ValueId × Option Ty) :=
  let results := (fn.instrs.filter fun i => i.result ≠ 0).map fun i => (i.result, i.resultType)
  (fn.params.map (fun p => (p.id, p.ty)) ++ results).reverse

/-- The declared type of a value, if the function defines it. The last definition counts. -/
def typeOf? (fn : Function) (id : ValueId) : Option (Option Ty) := fn.valueTypes.lookup id

/-- The address that a load or a store goes through. -/
def accessAddr? : Instr → Option ValueId
  | .load l => some l.addr
  | .store s => some s.addr
  | _ => none

/-- The flaw of a memory access, if it goes through a value that is no pointer. -/
def memoryFlaw? (fn : Function) (i : Instr) : Option Flaw :=
  (accessAddr? i).bind fun addr =>
    match fn.typeOf? addr with
    | some ty => if ty = some .ptr then none else some (.notPointer i ty)
    | none => none

/-- The loads and stores that go through something else than a pointer. -/
def memoryDefects (fn : Function) : List Defect :=
  fn.placedInstrs.filterMap fun (b, i) => (fn.memoryFlaw? i).map fun flaw => ⟨fn.name, b, flaw⟩

end Function

namespace Module

/-- The flaws of a function's name, given the names before. -/
def nameDefects (earlier : List String) (name : String) : List Defect :=
  if name = "" then [⟨"", 0, .unnamedFunction⟩]
  else if earlier.contains name then [⟨"", 0, .duplicateFunction name⟩]
  else []

/-- The structural defects of some functions, given the names before. -/
def functionDefects : List String → List Function → List Defect
  | _, [] => []
  | earlier, fn :: rest =>
    nameDefects earlier fn.name ++ fn.defects ++ functionDefects (fn.name :: earlier) rest

/-- The structural defects of a module. -/
def defects (m : Module) : List Defect := functionDefects [] m.functions

/-- All memory defects of a module. -/
def memoryDefects (m : Module) : List Defect := m.functions.flatMap Function.memoryDefects

end Module

end SsaOpt
