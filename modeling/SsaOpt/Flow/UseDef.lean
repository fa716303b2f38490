import SsaOpt.Ir.Module

/-!
# Use-def chains

Where each value of a function is defined and how often it is read. The chains can follow the
removal of instructions without being built again.
-/

namespace SsaOpt

/-- Where a value is defined. -/
inductive Definition where
  | param
  | instr (block : BlockId) (i : Instr)
deriving DecidableEq

/-- The chains of a function. -/
structure UseDef where
  /-- The definitions, the latest first. -/
  defs : List (ValueId × Definition) := []
  /-- The values read, one entry for every use. -/
  used : List ValueId := []

namespace UseDef

/-- The definitions in a block. -/
def blockDefs (b : Block) : List (ValueId × Definition) :=
  (b.instrs.filter fun i => i.result ≠ 0).map fun i => (i.result, .instr b.id i)

/-- The values read in a block. -/
def blockUses (b : Block) : List ValueId :=
  b.instrs.flatMap Instr.operands ++ (b.term.map Term.operands).getD []

/-- The chains of a function. -/
def build (fn : Function) : UseDef where
  defs := (fn.params.map (fun p => (p.id, Definition.param)) ++
    fn.blocks.flatMap blockDefs).reverse
  used := fn.blocks.flatMap blockUses

/-- The number of times a value is read. -/
def uses (ud : UseDef) (id : ValueId) : Nat := ud.used.count id

/-- Whether a value is read at all. -/
def hasUsers (ud : UseDef) (id : ValueId) : Bool := 0 < ud.uses id

/-- The definition of a value. -/
def def? (ud : UseDef) (id : ValueId) : Option Definition := ud.defs.lookup id

/-- Takes the uses and the definition of an instruction away. -/
def forget (ud : UseDef) (i : Instr) : UseDef where
  defs := if i.result = 0 then ud.defs else ud.defs.filter fun e => e.1 ≠ i.result
  used := i.operands.foldl List.erase ud.used

end UseDef

end SsaOpt
