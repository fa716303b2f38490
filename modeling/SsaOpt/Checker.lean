import SsaOpt.Error
import SsaOpt.Ir.Listing

/-!
# Checkers

The questions that passes ask before and after they change a module. The standard checker answers
them by the structural and memory rules; a checker can also be told to refuse.
-/

namespace SsaOpt

/-- What passes ask. An answer is an error, or nothing if all is well. -/
structure Checker where
  /-- Is the whole module well formed? The question has no answer if a place of it is vacant and
  has to be looked at. -/
  verifyModule : Option Listing → Option Failure
  /-- May the instruction be removed from a function of the module? -/
  verifyRemoval : Module → Instr → Option Err
  /-- May the function be copied into a caller? -/
  verifyInlining : Function → Option Err
  /-- May the constant stand in for an instruction? -/
  verifyConstant : Const → Option Err

/-- The structural defects of a module as an error. -/
def structureErr? : Option Module → Option Err
  | none => some (.plain "nil module")
  | some m => Err.ofList? (m.defects.map Defect.toErr)

/-- All defects of a module as an error: the structural ones together, then each memory defect. -/
def moduleErr? (m : Option Module) : Option Err :=
  let memory := (m.map Module.memoryDefects).getD []
  Err.join? (structureErr? m :: memory.map fun d => some d.toErr)

/-- The failure to verify a listing: the defects of the module that it is. -/
def listingFailure? : Option Listing → Option Failure
  | none => (moduleErr? none).map .error
  | some l =>
    match l.module? with
    | some m => (moduleErr? (some m)).map .error
    | none => some .fault

/-- The defects of a function that is to be copied as an error. -/
def inliningErr? (fn : Function) : Option Err :=
  if fn.isExternal then some (.plain s!"fn {fn.name} has no body")
  else if fn.defects.isEmpty then Err.ofList? (fn.memoryDefects.map Defect.toErr)
  else Err.ofList? (fn.defects.map Defect.toErr)

/-- What is wrong with removing an instruction. -/
def removalErr? (m : Option Module) (i : Instr) : Option Err :=
  if i.isCritical then some (.plain s!"{Text.quote i.render} has critical side effects")
  else
    match i, m with
    | .call c, some m =>
      if m.isCritical i then
        some (.plain
          s!"{Text.quote i.render} calls {c.target}, which has critical side effects")
      else none
    | _, _ => none

/-- What is wrong with a constant. -/
def constantErr? (c : Const) : Option Err :=
  match c.ty with
  | none => some (.plain "constant without a type")
  | some t =>
    if t.isInteger || t = .bool then
      match literalBits c.ty c.literal with
      | .ok _ => none
      | .error e => some (.plain e.message)
    else some (.plain s!"cannot materialize a {t.name} constant")

namespace Checker

/-- The checker that goes by the rules. -/
def standard : Checker where
  verifyModule := listingFailure?
  verifyRemoval m := removalErr? (some m)
  verifyInlining := inliningErr?
  verifyConstant := constantErr?

/-- What a checker refuses whatever the rules say. -/
structure Refusals where
  modules : Bool := false
  removals : Bool := false
  inlinings : Bool := false
  constants : Bool := false
  /-- Allows every function to be copied, unless `inlinings` refuses it. -/
  inliningAllowed : Bool := false

/-- The checker that refuses some things and goes by the rules otherwise. -/
def refusing (r : Refusals) : Checker where
  verifyModule l :=
    if r.modules then some (.error (.plain "denied all")) else standard.verifyModule l
  verifyRemoval m i :=
    if r.removals then some (.plain "denied removal") else standard.verifyRemoval m i
  verifyInlining fn :=
    if r.inlinings then some (.plain "denied inlining")
    else if r.inliningAllowed then none
    else standard.verifyInlining fn
  verifyConstant c :=
    if r.constants then some (.plain "denied constant") else standard.verifyConstant c

end Checker

end SsaOpt
