import SsaOpt.Config.Basic
import SsaOpt.Pass.Manager
import SsaOpt.Phase
import SsaOpt.Text.Color

/-!
# Pipelines

A pipeline checks a module and runs the configured passes over it. It can be used again: a run
starts with an empty list of diagnostics and in the first phase, and only statistics build up over
several runs.
-/

namespace SsaOpt

/-- The names of the passes that can be configured, sorted. -/
def knownPasses : List String := [ConstFold.passName, DeadCode.passName, Inline.passName]

/-- The transformation of a name with the configured parameters. -/
def Config.transform? (c : Config) (name : String) : Option Transform :=
  if name = ConstFold.passName then some .constFold
  else if name = DeadCode.passName then some (.deadCode c.maxIterations)
  else if name = Inline.passName then some (.inline ⟨c.sizeThreshold, c.exceptionsEnabled⟩)
  else none

/-- The configured transformations in their order; the error names the first pass that does not
exist. -/
def Config.transforms (c : Config) : Except Err (List Transform) :=
  c.passes.mapM fun name =>
    match c.transform? name with
    | some t => .ok t
    | none =>
      let known := ", ".intercalate knownPasses
      .error (.plain s!"unknown pass {Text.quote name} (known: {known})")

/-- A pipeline. -/
structure Pipeline where
  config : Config
  manager : Manager Unit
  /-- The module of the last run. -/
  module : Option Listing := none
  /-- How far the last run got. -/
  phase : Phase := .notStarted
  /-- Whether progress is printed. -/
  debug : Bool := false

/-- What comes of a run. -/
structure PipelineRun where
  failure : Option Failure := none
  /-- The module as the run leaves it. -/
  module : Option Listing
  /-- The pipeline after the run. -/
  pipeline : Pipeline
  /-- The progress that was printed. -/
  printed : String := ""

namespace Pipeline

/-- The pipeline of a configuration; without one it is the default configuration. -/
def new (config : Option Config) (debug : Bool) : Except Err Pipeline := do
  let config := config.getD .default
  match config.flawErr? with
  | some e => .error (.context "invalid configuration" e)
  | none => do
    let transforms ← config.transforms
    let start : Manager Unit := { verifyModified := config.verifyModified, world := () }
    let manager ← start.addPasses
      (Analysis.all.map Analysis.pass ++ transforms.map Transform.pass)
    .ok { config, manager, debug }

/-- The diagnostics of the last run. -/
def bag (p : Pipeline) : Bag := p.manager.bag

/-- Records an error among the diagnostics. -/
def addErr (p : Pipeline) (e : Err) : Pipeline :=
  { p with manager := { p.manager with bag := p.manager.bag.addErr e } }

/-- Records a failure among the diagnostics. -/
def addFailure (p : Pipeline) : Failure → Pipeline
  | .error e => p.addErr e
  | .fault => p

/-- The name of a module in messages. -/
def moduleName (m : Option Listing) : String :=
  match m with
  | some m => if m.name = "" then "<unknown>" else m.name
  | none => "<unknown>"

/-! ## Progress -/

/-- What is printed before the module is checked. -/
def verifyBanner : String := Text.Color.cyan.paint "\n[Phase 1] Verify\n"

/-- What is printed when the module has been checked, and the passes are about to run. -/
def optimizeBanner (m : Listing) : String :=
  let count := m.places.length
  Text.Color.purple.paint s!"  ✓ {moduleName (some m)} ({count} functions)\n" ++
    Text.Color.cyan.paint "\n[Phase 2] Optimize\n"

/-- What is printed when all passes have run. -/
def doneBanner (manager : Manager Unit) : String :=
  let line := fun (s : PassStats) =>
    Text.Color.purple.paint s!"  ✓ {s.name} ({s.modified} modified)\n"
  let count := manager.passes.length
  String.join (manager.statistics.map line) ++
    Text.Color.green.paint s!"\n✓ Optimization successful! ({count} passes)\n"

/-! ## Runs -/

/-- The pipeline at the start of a run over a module: nothing to report, and the module loaded. -/
def load (p : Pipeline) (m : Option Listing) : Pipeline :=
  { p with manager := { p.manager with bag := [] }, module := m, phase := .loaded }

/-- Runs the passes over a module that has been checked. -/
def optimize (p : Pipeline) (m : Listing) : PipelineRun :=
  let (failure, work) := p.manager.run m
  let p := { p with manager := work.manager, module := some work.listing }
  match failure with
  | some failure =>
    { failure := some failure, module := some work.listing, pipeline := p.addFailure failure }
  | none =>
    { module := some work.listing, pipeline := { p with phase := .optimized }
      printed := if p.debug then doneBanner p.manager else "" }

/-- Checks a module and runs the passes over it. A failure is also recorded among the
diagnostics. -/
def run (p : Pipeline) (m : Option Listing) : PipelineRun :=
  let p := p.load m
  let banner := if p.debug then verifyBanner else ""
  match p.manager.checker.verifyModule m, m with
  | some .fault, m => { failure := some .fault, module := m, pipeline := p, printed := banner }
  | some (.error cause), m =>
    let e := Err.failedBy { kind := .malformedIR } cause
    { failure := some (.error e), module := m, pipeline := p.addErr e, printed := banner }
  | none, none => { module := none, pipeline := p, printed := banner }
  | none, some m =>
    let done := { p with phase := .verified }.optimize m
    { done with
      printed := banner ++ (if p.debug then optimizeBanner m else "") ++ done.printed }

end Pipeline

end SsaOpt
