import SsaOpt.Literal

/-!
# Instructions

The instructions of a basic block and the terminators that end one. Values and blocks are named by
numbers, `0` naming nothing. An operator, a predicate or an effect that the optimizer does not know
is kept as it is; its constructor carries a proof that it is none of the known ones.
-/

namespace SsaOpt

/-- The number of a value within a function; `0` is no value. -/
abbrev ValueId := UInt32

/-- The number of a block within a function; `0` is no block. -/
abbrev BlockId := UInt32

/-! ## Effects -/

/-- What executing an instruction does besides producing its result. -/
inductive Effect where
  /-- Nothing that can be observed. -/
  | pure
  /-- Something that may be dropped together with an unused result. -/
  | side
  /-- Something that must never be removed or duplicated. -/
  | critical
  /-- A code that stands for no effect. -/
  | unlisted (code : Int64) (isUnlisted : code ∉ [0, 1, 2])
deriving DecidableEq

namespace Effect

/-- The effect of a code. -/
def ofCode (code : Int64) : Effect :=
  if h : code ∈ [0, 1, 2] then
    if code = 0 then pure else if code = 1 then side else critical
  else unlisted code h

/-- The code of an effect. -/
def code : Effect → Int64
  | pure => 0
  | side => 1
  | critical => 2
  | unlisted c _ => c

/-- The name of an effect. -/
def name : Effect → String
  | pure => "pure"
  | side => "side"
  | critical => "critical"
  | unlisted _ _ => "unknown"

/-- Whether the effect is one of the three known ones. -/
def isListed : Effect → Bool
  | unlisted _ _ => false
  | _ => true

end Effect

/-! ## Operators and predicates -/

/-- The names of the known operators. -/
def binOpNames : List String := ["add", "sub", "mul", "div", "rem", "and", "or", "xor"]

/-- The operator of an arithmetic or bitwise instruction. -/
inductive BinOp where
  | add
  | sub
  | mul
  | div
  | rem
  | and
  | or
  | xor
  /-- A name that no known operator has. -/
  | other (name : String) (isOther : name ∉ binOpNames)
deriving DecidableEq

namespace BinOp

/-- The name of an operator. -/
def name : BinOp → String
  | add => "add"
  | sub => "sub"
  | mul => "mul"
  | div => "div"
  | rem => "rem"
  | and => "and"
  | or => "or"
  | xor => "xor"
  | other n _ => n

/-- The known operators, in the order of their names. -/
def listed : List BinOp := [add, sub, mul, div, rem, and, or, xor]

theorem map_name_listed : listed.map name = binOpNames := rfl

theorem not_mem_of_find?_listed {n : String} (h : listed.find? (fun o => o.name = n) = none) :
    n ∉ binOpNames := by
  rw [← map_name_listed, List.mem_map]
  rintro ⟨o, ho, rfl⟩
  simpa using List.find?_eq_none.1 h o ho

/-- The operator of a name. -/
def ofName (n : String) : BinOp :=
  match h : listed.find? fun o => o.name = n with
  | some o => o
  | none => other n (not_mem_of_find?_listed h)

end BinOp

/-- The names of the known predicates. -/
def cmpPredNames : List String := ["eq", "ne", "lt", "le", "gt", "ge"]

/-- The predicate of a comparison. -/
inductive CmpPred where
  | eq
  | ne
  | lt
  | le
  | gt
  | ge
  /-- A name that no known predicate has. -/
  | other (name : String) (isOther : name ∉ cmpPredNames)
deriving DecidableEq

namespace CmpPred

/-- The name of a predicate. -/
def name : CmpPred → String
  | eq => "eq"
  | ne => "ne"
  | lt => "lt"
  | le => "le"
  | gt => "gt"
  | ge => "ge"
  | other n _ => n

/-- The known predicates, in the order of their names. -/
def listed : List CmpPred := [eq, ne, lt, le, gt, ge]

theorem map_name_listed : listed.map name = cmpPredNames := rfl

theorem not_mem_of_find?_listed {n : String} (h : listed.find? (fun p => p.name = n) = none) :
    n ∉ cmpPredNames := by
  rw [← map_name_listed, List.mem_map]
  rintro ⟨p, hp, rfl⟩
  simpa using List.find?_eq_none.1 h p hp

/-- The predicate of a name. -/
def ofName (n : String) : CmpPred :=
  match h : listed.find? fun p => p.name = n with
  | some p => p
  | none => other n (not_mem_of_find?_listed h)

end CmpPred

/-! ## Instructions -/

/-- A typed constant, written as a literal. -/
structure Const where
  result : ValueId
  ty : Option Ty
  literal : String
deriving DecidableEq

/-- An arithmetic or bitwise operation. -/
structure Binary where
  result : ValueId
  op : BinOp
  left : ValueId
  right : ValueId
  ty : Option Ty
deriving DecidableEq

/-- A comparison of two values. -/
structure Compare where
  result : ValueId
  pred : CmpPred
  left : ValueId
  right : ValueId
  ty : Option Ty
deriving DecidableEq

/-- A conversion to another type. -/
structure Cast where
  result : ValueId
  operand : ValueId
  ty : Option Ty
deriving DecidableEq

/-- Storage for a value of type `elem`; the result is a pointer to it. -/
structure Alloca where
  result : ValueId
  elem : Option Ty
deriving DecidableEq

/-- A read through a pointer. -/
structure Load where
  result : ValueId
  addr : ValueId
  ty : Option Ty
  volatile : Bool := false
  unchecked : Bool := false
deriving DecidableEq

/-- A write through a pointer. -/
structure Store where
  addr : ValueId
  value : ValueId
  volatile : Bool := false
  unchecked : Bool := false
deriving DecidableEq

/-- A direct call. Its result is `0` when the value is discarded or there is none. -/
structure Call where
  result : ValueId
  target : String
  args : List ValueId
  ty : Option Ty
  effect : Effect
  unchecked : Bool := false
deriving DecidableEq

/-- One entry of a phi: the value taken when control arrives from block `pred`. -/
structure Incoming where
  pred : BlockId
  value : ValueId
deriving DecidableEq

/-- A merge of the values of several predecessors. -/
structure Phi where
  result : ValueId
  ty : Option Ty
  incoming : List Incoming
deriving DecidableEq

/-- An instruction of a basic block. -/
inductive Instr where
  | const (c : Const)
  | binary (b : Binary)
  | compare (c : Compare)
  | cast (c : Cast)
  | alloca (a : Alloca)
  | load (l : Load)
  | store (s : Store)
  | call (c : Call)
  | phi (p : Phi)
  /-- Does nothing. -/
  | nop
  /-- An empty place where an instruction is missing. -/
  | hole
deriving DecidableEq

namespace Instr

/-- The value an instruction defines, or `0`. -/
def result : Instr → ValueId
  | const c => c.result
  | binary b => b.result
  | compare c => c.result
  | cast c => c.result
  | alloca a => a.result
  | load l => l.result
  | store _ => 0
  | call c => c.result
  | phi p => p.result
  | nop => 0
  | hole => 0

/-- The declared type of the defined value. -/
def resultType : Instr → Option Ty
  | const c => c.ty
  | binary b => b.ty
  | compare c => c.ty
  | cast c => c.ty
  | alloca _ => some .ptr
  | load l => l.ty
  | store _ => none
  | call c => c.ty
  | phi p => p.ty
  | nop => none
  | hole => none

/-- The values an instruction reads, in order. -/
def operands : Instr → List ValueId
  | const _ => []
  | binary b => [b.left, b.right]
  | compare c => [c.left, c.right]
  | cast c => [c.operand]
  | alloca _ => []
  | load l => [l.addr]
  | store s => [s.addr, s.value]
  | call c => c.args
  | phi p => p.incoming.map Incoming.value
  | nop => []
  | hole => []

/-- The effect of executing an instruction. Division may trap, which can be observed. -/
def effect : Instr → Effect
  | binary b => if b.op = .div ∨ b.op = .rem then .side else .pure
  | load l => if l.volatile then .critical else .side
  | store s => if s.volatile then .critical else .side
  | call c => c.effect
  | _ => .pure

/-- An instruction that must never be removed. -/
def isCritical (i : Instr) : Bool := i.effect = .critical

/-- An instruction that performs an unchecked operation. -/
def isUnchecked : Instr → Bool
  | load l => l.unchecked
  | store s => s.unchecked
  | call c => c.unchecked
  | _ => false

/-- Two blanks of one kind cannot be told apart. -/
def isBlank : Instr → Bool
  | nop => true
  | hole => true
  | _ => false

/-- Applies `f` to every operand. -/
def mapOperands (f : ValueId → ValueId) : Instr → Instr
  | binary b => binary { b with left := f b.left, right := f b.right }
  | compare c => compare { c with left := f c.left, right := f c.right }
  | cast c => cast { c with operand := f c.operand }
  | load l => load { l with addr := f l.addr }
  | store s => store { s with addr := f s.addr, value := f s.value }
  | call c => call { c with args := c.args.map f }
  | phi p => phi { p with incoming := p.incoming.map fun e => { e with value := f e.value } }
  | i => i

/-- Changes the defined value; an instruction that defines none stays as it is. -/
def setResult (id : ValueId) : Instr → Instr
  | const c => const { c with result := id }
  | binary b => binary { b with result := id }
  | compare c => compare { c with result := id }
  | cast c => cast { c with result := id }
  | alloca a => alloca { a with result := id }
  | load l => load { l with result := id }
  | call c => call { c with result := id }
  | phi p => phi { p with result := id }
  | i => i

/-- Changes the incoming entries of a phi. -/
def mapIncoming (f : List Incoming → List Incoming) : Instr → Instr
  | phi p => phi { p with incoming := f p.incoming }
  | i => i

/-- Applies `f` to the predecessors a phi names. -/
def mapPreds (f : BlockId → BlockId) : Instr → Instr :=
  mapIncoming fun entries => entries.map fun e => { e with pred := f e.pred }

end Instr

/-! ## Terminators -/

/-- The end of a basic block. -/
inductive Term where
  /-- Leaves the function, with a value if `hasValue`. -/
  | ret (value : ValueId) (hasValue : Bool)
  /-- Jumps to a block. -/
  | br (target : BlockId)
  /-- Jumps to one of two blocks. -/
  | brIf (cond : ValueId) (yes no : BlockId)
  /-- Marks a place that control never reaches. -/
  | unreachable
deriving DecidableEq

namespace Term

/-- The values a terminator reads. -/
def operands : Term → List ValueId
  | ret v true => [v]
  | ret _ false => []
  | br _ => []
  | brIf c _ _ => [c]
  | unreachable => []

/-- The blocks a terminator jumps to, each once. -/
def targets : Term → List BlockId
  | br t => [t]
  | brIf _ t e => if e = t then [t] else [t, e]
  | _ => []

/-- Applies `f` to every operand. -/
def mapOperands (f : ValueId → ValueId) : Term → Term
  | ret v true => ret (f v) true
  | brIf c t e => brIf (f c) t e
  | t => t

/-- Applies `f` to every target. -/
def mapTargets (f : BlockId → BlockId) : Term → Term
  | br t => br (f t)
  | brIf c t e => brIf c (f t) (f e)
  | t => t

end Term

end SsaOpt
