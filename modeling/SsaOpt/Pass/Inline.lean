import SsaOpt.Pass.Splice
import SsaOpt.Flow.CallGraph
import SsaOpt.Flow.Dominators
import SsaOpt.Checker

/-!
# Inlining

Replaces calls of small functions that are not recursive by copies of their bodies. The blocks that
can be reached are scanned in layout order. A call that fits its target but whose target may not be
copied is warned about; the first call whose target must not be copied ends the pass. After a
replacement the scan goes on with the exit block; the copied blocks are not scanned.
-/

namespace SsaOpt.Inline

/-- The name of the pass. -/
def passName : String := "inline"

/-- Which functions are copied. -/
structure Policy where
  /-- The largest size of a function that is copied. -/
  sizeThreshold : Int
  /-- Whether functions that may throw are copied. -/
  exceptions : Bool

/-- Why a function is not copied. -/
inductive Ineligible where
  | external
  | recursive
  | tooLarge (size : Nat) (threshold : Int)
  | unchecked
deriving DecidableEq

/-- The reason in words. -/
def Ineligible.message : Ineligible → String
  | external => "external declaration"
  | recursive => "recursive"
  | tooLarge size threshold => s!"size {size} exceeds threshold {threshold}"
  | unchecked => "unsafe operations"

/-- Whether a function performs unchecked operations. -/
def performsUnchecked (fn : Function) : Bool := fn.unchecked || fn.instrs.any Instr.isUnchecked

/-- Why a function is not copied, if it is not. -/
def Policy.ineligible? (p : Policy) (g : CallGraph) (callee : Function) : Option Ineligible :=
  if callee.isExternal then some .external
  else if g.isRecursive callee.name then some .recursive
  else if p.sizeThreshold < callee.size then some (.tooLarge callee.size p.sizeThreshold)
  else if performsUnchecked callee then some .unchecked
  else none

/-- Whether a function may be copied. -/
def Policy.shouldInline (p : Policy) (g : CallGraph) (callee : Function) : Bool :=
  (p.ineligible? g callee).isNone

/-- Whether a call fits its target: as many arguments as parameters, and the type of the returned
value if it is used. -/
def compatible (call : Call) (callee : Function) : Bool :=
  call.args.length = callee.params.length &&
    (call.result = 0 || (callee.ret.isSome && callee.ret = call.ty))

/-- Why a function must not be copied into `function`. -/
def refusal (p : Policy) (checker : Option Checker) (function : String) (callee : Function) :
    Option Failure :=
  let failed := fun kind detail =>
    some (Failure.error (.failed { kind, pass := passName, function, detail }))
  if callee.critical then
    failed .unsafeInlining s!"callee {callee.name} has critical side effects"
  else if callee.mayThrow && !p.exceptions then
    failed .unsafeExceptionHandling
      s!"callee {callee.name} may throw while exceptions are disabled"
  else
    match checker with
    | none => some .fault
    | some checker =>
      (checker.verifyInlining callee).map fun cause =>
        .error (.failedBy { kind := .unsafeInlining, pass := passName, function } cause)

/-- What is to be done about a call. -/
inductive Verdict where
  /-- Leave it without a word. -/
  | pass
  /-- Leave it with a warning. -/
  | warn (callee : String) (reason : Ineligible)
  /-- End the pass. -/
  | fail (failure : Failure)
  /-- Replace it. -/
  | splice (callee : Function)

/-- The verdict on a call in the function at position `self`. -/
def judge (p : Policy) (checker : Option Checker) (m : Module) (g : CallGraph) (self : Nat)
    (function : String) (call : Call) : Verdict :=
  match m.lookup? call.target with
  | none => .pass
  | some (i, callee) =>
    if i = self || !compatible call callee || callee.isExternal then .pass
    else
      match p.ineligible? g callee with
      | some reason => .warn callee.name reason
      | none =>
        match refusal p checker function callee with
        | some failure => .fail failure
        | none => .splice callee

/-- A warning about a call that is left. -/
structure Warning where
  callee : String
  reason : Ineligible

/-- Where a scan stops. -/
inductive Stop where
  | failed (failure : Failure)
  | site (position place : Nat) (call : Call) (callee : Function)

/-- What a scan finds: warnings, and the place where it stops. -/
structure Scan where
  warnings : List Warning := []
  stop : Option Stop := none

/-- Scans the instructions of the block at `position`, from place `place` on. -/
def scanInstrs (judge : Call → Verdict) (position : Nat) : Nat → List Instr → Scan
  | _, [] => {}
  | place, .call call :: rest =>
    match judge call with
    | .pass => scanInstrs judge position (place + 1) rest
    | .warn callee reason =>
      let scan := scanInstrs judge position (place + 1) rest
      { scan with warnings := ⟨callee, reason⟩ :: scan.warnings }
    | .fail failure => { stop := some (.failed failure) }
    | .splice callee => { stop := some (.site position place call callee) }
  | place, _ :: rest => scanInstrs judge position (place + 1) rest

/-- Scans the live ones of some blocks, the first of them at `position`. -/
def scanBlocks (judge : Call → Verdict) (live : List BlockId) : Nat → List Block → Scan
  | _, [] => {}
  | position, b :: rest =>
    if live.contains b.id then
      let scan := scanInstrs judge position 0 b.instrs
      match scan.stop with
      | some _ => scan
      | none =>
        let later := scanBlocks judge live (position + 1) rest
        { later with warnings := scan.warnings ++ later.warnings }
    else scanBlocks judge live (position + 1) rest

/-- What became of a function. -/
structure Result where
  function : Function
  /-- The number of calls replaced. -/
  inlined : Nat := 0
  warnings : List Warning := []
  failure : Option Failure := none

/-- Scans the blocks from `position` on and replaces calls, at most as many as the fuel. -/
def replaceCalls (judge : Call → Verdict) : Nat → List BlockId → Nat → Function → Result
  | 0, _, _, fn => { function := fn }
  | fuel + 1, live, position, fn =>
    let scan := scanBlocks judge live position (fn.blocks.drop position)
    match scan.stop with
    | none => { function := fn, warnings := scan.warnings }
    | some (.failed failure) => { function := fn, warnings := scan.warnings, failure }
    | some (.site block place call callee) =>
      let (fn, exit) := fn.splice block place call callee
      let next := (fn.blockIndex? exit).getD fn.blocks.length
      let later := replaceCalls judge fuel (exit :: live) next fn
      { later with
        inlined := later.inlined + 1
        warnings := scan.warnings ++ later.warnings }

/-- The number of calls in a function. -/
def callCount (fn : Function) : Nat := (CallGraph.callTargets fn).length

/-- The blocks of a function that its entry dominates. -/
def liveBlocks (t : DomTree) (fn : Function) : List BlockId :=
  (fn.blocks.map Block.id).filter (t.dominates fn.entryId)

/-- Replaces calls in the function `fn` at position `self` of `m`. -/
def run (p : Policy) (checker : Option Checker) (m : Module) (g : CallGraph) (t : DomTree)
    (self : Nat) (fn : Function) : Result :=
  replaceCalls (judge p checker m g self fn.name) (callCount fn + 1) (liveBlocks t fn) 0 fn

end SsaOpt.Inline
