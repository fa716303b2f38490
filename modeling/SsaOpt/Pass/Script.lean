import SsaOpt.Pass.Manager

/-!
# Scripted passes

Passes that are described by data: what they require, when they refuse or fail, and a small action.
They write a trace of what happens into their world, and serve to try out the manager.
-/

namespace SsaOpt

/-- The world of scripted passes. -/
structure ScriptWorld where
  /-- What has happened, the first thing first. -/
  trace : List String := []
  /-- Whether late requirements count. -/
  late : Bool := false
  /-- How often each pass has run on a module. -/
  runs : List (String × Nat) := []

/-- When a scripted pass refuses. -/
inductive RefusalTime where
  | always
  | onRegistration
  | onRun
deriving DecidableEq

/-- What a scripted pass does to a module. -/
inductive ScriptAction where
  | nothing
  /-- Reports a change without making one. -/
  | reportOnly
  /-- Appends a nop to the entry block of the first function. -/
  | appendNop
  /-- The same, without reporting it. -/
  | appendNopSilently
  /-- Takes the terminator of the entry block away. -/
  | breakEntry
  /-- Moves the terminator of the entry block to a new block after it. -/
  | splitEntry
  /-- Makes late requirements count. -/
  | turnLate
  /-- Writes the results of the analyses into the trace. -/
  | observe
deriving DecidableEq

/-- A scripted pass. -/
structure Script where
  name : String
  requires : List String := []
  lateRequires : Option (List String) := none
  invalidates : List String := []
  isAnalysis : Bool := false
  refusal : Option Err := none
  refusalTime : RefusalTime := .always
  action : ScriptAction := .nothing
  err : Option Err := none
  /-- The first run that fails. -/
  errFrom : Int := 0
  /-- The function whose turn fails. -/
  errFunction : String := ""
  perFunction : Bool := false
  /-- A warning: code, function and message. -/
  warning : Option (String × String × String) := none

namespace Script

/-- A list in brackets with spaces between the elements. -/
def bracketed (parts : List String) : String := "[" ++ " ".intercalate parts ++ "]"

/-- Adds to the trace. -/
def note (line : String) (r : Run ScriptWorld) : Run ScriptWorld :=
  { r with world := { r.world with trace := r.world.trace ++ [line] } }

/-- Changes the entry block of the function at a position; without one it is a fault. -/
def onEntry (i : Nat) (f : Block → Block) (r : Run ScriptWorld) : Option (Run ScriptWorld) := do
  let fn ← r.listing.function? i
  let k ← fn.entryIndex?
  some (r.setFunction i (fn.modifyBlock f k))

/-- Appends a nop to a block. -/
def withNop (b : Block) : Block := { b with instrs := b.instrs ++ [.nop] }

/-- Moves the terminator of the entry block to a new block after it. -/
def split (fn : Function) : Option Function := do
  let k ← fn.entryIndex?
  let entry ← fn.blocks[k]?
  let (id, fn) := fn.freshBlock
  let fn := fn.modifyBlock (fun b => { b with term := some (.br id) }) k
  some (fn.insertAfter entry.id [{ id, term := entry.term }])

/-- Writes reverse post-order and number of loops of a function and the components of the call graph
into the trace. -/
def observe (fn : Function) (r : Run ScriptWorld) : Outcome × Run ScriptWorld :=
  let (g, r) := r.flowGraph fn
  let (loops, r) := r.loopInfo fn
  match r.callGraph? with
  | none => ({ failure := some .fault }, r)
  | some (calls, r) =>
    let rpo := bracketed (g.rpo.map fun id => toString id.toNat)
    let sccs := bracketed (calls.componentNames.map bracketed)
    ({}, note s!"rpo={rpo} loops={loops.length} sccs={sccs}" r)

/-- A change that is reported as `modified`, or a fault if it is not possible. -/
def reported (modified : Bool) (r : Run ScriptWorld) (changed : Option (Run ScriptWorld)) :
    Outcome × Run ScriptWorld :=
  match changed with
  | some r => ({ modified }, r)
  | none => ({ failure := some .fault }, r)

/-- Carries out an action. -/
def act (action : ScriptAction) (r : Run ScriptWorld) : Outcome × Run ScriptWorld :=
  match action with
  | .nothing => ({}, r)
  | .reportOnly => ({ modified := true }, r)
  | .appendNop => reported true r (onEntry 0 withNop r)
  | .appendNopSilently => reported false r (onEntry 0 withNop r)
  | .breakEntry => reported true r (onEntry 0 (fun b => { b with term := none }) r)
  | .splitEntry =>
    reported true r ((r.listing.function? 0).bind split |>.map fun fn => r.setFunction 0 fn)
  | .turnLate => ({}, { r with world := { r.world with late := true } })
  | .observe =>
    match r.listing.function? 0 with
    | none => ({ failure := some .fault }, r)
    | some fn => observe fn r

/-- Runs on the function at a position. -/
def onFunction (s : Script) (i : Nat) (r : Run ScriptWorld) : Outcome × Run ScriptWorld :=
  match r.listing.function? i with
  | none => ({ failure := some .fault }, r)
  | some fn =>
    let r := note s!"{s.name}:{fn.name}" r
    match s.err with
    | some e =>
      if fn.name = s.errFunction then ({ failure := some (.error e) }, r) else turn r
    | none => turn r
where
  /-- The turn of a function that does not fail. -/
  turn (r : Run ScriptWorld) : Outcome × Run ScriptWorld :=
    if s.action = .appendNop then reported true r (onEntry i withNop r) else ({}, r)

/-- Runs on a module: counts the run, warns, and then goes over the functions, fails or acts. -/
def onModule (s : Script) (env : PassEnv) (r : Run ScriptWorld) : Outcome × Run ScriptWorld :=
  let count := (r.world.runs.lookup s.name).getD 0 + 1
  let runs := (s.name, count) :: r.world.runs.filter fun e => e.1 ≠ s.name
  let r := note s.name { r with world := { r.world with runs } }
  let r := match s.warning with
    | some (code, function, message) => r.warn env code function message
    | none => r
  if s.perFunction then r.allFunctions s.onFunction
  else
    match s.err with
    | some e =>
      if s.errFrom ≤ count then ({ failure := some (.error e) }, r) else act s.action r
    | none => act s.action r

/-- A scripted pass as a pass. -/
def pass (s : Script) : Pass ScriptWorld where
  name := s.name
  isAnalysis := s.isAnalysis
  requires world := if world.late then s.lateRequires.getD s.requires else s.requires
  invalidates := if s.isAnalysis then [] else s.invalidates
  registrationErr? _ := if s.refusalTime ≠ .onRun && !s.isAnalysis then s.refusal else none
  refusal? _ _ :=
    if s.refusalTime ≠ .onRegistration && !s.isAnalysis then s.refusal.map .error else none
  onModule := s.onModule
  onFunction _ := s.onFunction

end Script

end SsaOpt
