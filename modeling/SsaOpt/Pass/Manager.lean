import SsaOpt.Pass.Builtin
import SsaOpt.Pass.Registry
import SsaOpt.Ir.Fingerprint

/-!
# The pass manager

A manager holds passes in the order of registration and runs them over a module in an order that
respects their requirements. Registration keeps two rules: no name twice, and nothing required that
is not registered. A run starts with an empty cache, recomputes stale analyses before a pass that
needs them, and checks the module after every change. The first failure ends it.
-/

namespace SsaOpt

/-- What is counted for a pass. -/
structure PassStats where
  name : String
  runs : Nat := 0
  modified : Nat := 0
deriving DecidableEq

/-- A manager. -/
structure Manager (σ : Type) where
  /-- Whether a change that a pass does not report is a failure. -/
  verifyModified : Bool := false
  /-- The passes in the order of registration. -/
  passes : List (Pass σ) := []
  checker : Checker := Checker.standard
  cache : Cache Fact := {}
  /-- What passes have done, in the order of their first run. -/
  stats : List PassStats := []
  /-- How often a pass ended a run. -/
  failures : List (String × Nat) := []
  bag : Bag := []
  tally : Tally := {}
  /-- The number of runs started. -/
  runCount : Nat := 0
  world : σ

namespace Manager

variable {σ : Type}

/-- The registered pass of a name. -/
def find? (m : Manager σ) (name : String) : Option (Pass σ) :=
  m.passes.find? fun p => p.name = name

/-- Whether a name is registered. -/
def has (m : Manager σ) (name : String) : Bool := (m.find? name).isSome

/-- What a pass is told. -/
def envFor (m : Manager σ) (pass : String) : PassEnv := ⟨some m.checker, pass⟩

/-! ## Registration -/

/-- The registered passes with their index. -/
def registry (m : Manager σ) : Registry σ where
  passes := m.passes
  index := m.passes.map fun p => (p.name, p)

/-- Registers one pass, all of whose requirements must be registered already: what is wrong with it,
and the manager afterwards. -/
def tryAddPass (m : Manager σ) (p : Pass σ) : Option Err × Manager σ :=
  let (err, r) := m.registry.addOne m.checker m.world p
  (err, { m with passes := r.passes })

/-- Registers a batch: what is wrong with it, and the manager afterwards. -/
def tryAddPasses (m : Manager σ) (batch : List (Pass σ)) : Option Err × Manager σ :=
  let (err, r) := m.registry.addBatch m.checker m.world batch
  (err, { m with passes := r.passes })

/-- A manager, unless something went wrong. -/
def orError : Option Err × Manager σ → Except Err (Manager σ)
  | (some e, _) => .error e
  | (none, m) => .ok m

/-- The manager with one more pass. -/
def addPass (m : Manager σ) (p : Pass σ) : Except Err (Manager σ) := orError (m.tryAddPass p)

/-- The manager with a batch of passes. -/
def addPasses (m : Manager σ) (batch : List (Pass σ)) : Except Err (Manager σ) :=
  orError (m.tryAddPasses batch)

/-! ## The schedule -/

/-- The failure of a pass that requires itself. -/
def cyclicErr (name : String) : Err :=
  .failed { kind := .cyclicPassDependency, pass := name
            detail := s!"pass {Text.quote name} transitively requires itself" }

/-- Puts a pass into the schedule, after what it requires. `path` holds the passes whose
requirements are being scheduled; the fuel bounds its length. -/
def schedule (m : Manager σ) :
    Nat → List String → String → List (Pass σ) → String → Except Err (List (Pass σ))
  | 0, _, _, order, _ => .ok order
  | fuel + 1, path, requiredBy, order, name =>
    match m.find? name with
    | none => .error (missingErr requiredBy name)
    | some p =>
      if path.contains name then .error (cyclicErr name)
      else if order.any fun q => q.name = name then .ok order
      else do
        let order ← (p.requires m.world).foldlM (m.schedule fuel (name :: path) name) order
        .ok (order ++ [p])

/-- The passes in an order in which each comes after what it requires. Where that leaves a choice,
it is the order of registration. -/
def sortPasses (m : Manager σ) : Except Err (List (Pass σ)) :=
  (m.passes.map Pass.name).foldlM (m.schedule (m.passes.length + 1) [] "") []

/-! ## Statistics -/

/-- Counts a run of a pass. -/
def record (name : String) (modified : Bool) (m : Manager σ) : Manager σ :=
  let count := fun (s : PassStats) =>
    { s with runs := s.runs + 1, modified := s.modified + if modified then 1 else 0 }
  if m.stats.any fun s => s.name = name then
    { m with stats := m.stats.map fun s => if s.name = name then count s else s }
  else { m with stats := m.stats ++ [count { name }] }

/-- Counts a failure of a pass. -/
def recordFailure (name : String) (m : Manager σ) : Manager σ :=
  let count := (m.failures.lookup name).getD 0
  { m with failures := (name, count + 1) :: m.failures.filter fun e => e.1 ≠ name }

/-- What the registered passes have done, in the order of registration. -/
def statistics (m : Manager σ) : List PassStats :=
  m.passes.filterMap fun p => m.stats.find? fun s => s.name = p.name

/-- How often a pass changed the module. -/
def modifiedCount (m : Manager σ) (name : String) : Nat :=
  ((m.stats.find? fun s => s.name = name).map PassStats.modified).getD 0

/-! ## Runs -/

/-- A manager at work on a module. -/
structure Work (σ : Type) where
  manager : Manager σ
  listing : Listing

namespace Work

/-- The state that a pass sees. -/
def toRun (w : Work σ) : Run σ where
  listing := w.listing
  cache := w.manager.cache
  bag := w.manager.bag
  tally := w.manager.tally
  world := w.manager.world

/-- Takes over what a pass has changed. -/
def update (w : Work σ) (r : Run σ) : Work σ where
  manager := { w.manager with cache := r.cache, bag := r.bag, tally := r.tally, world := r.world }
  listing := r.listing

/-- Runs a pass on the module and counts it, unless it ends in a fault. -/
def runPass (w : Work σ) (p : Pass σ) (counted : Bool → Bool) : Outcome × Work σ :=
  let (out, r) := p.onModule (w.manager.envFor p.name) w.toRun
  let w := w.update r
  match out.failure with
  | some .fault => (out, w)
  | _ => (out, { w with manager := w.manager.record p.name (counted out.modified) })

/-- Marks an analysis as computed. -/
def markValid (w : Work σ) (name : String) : Work σ :=
  { w with manager := { w.manager with cache := w.manager.cache.markValid name } }

end Work

/-- A failure with the pass named in it. -/
def annotate (pass : String) : Failure → Failure
  | .error e => .error (e.annotate pass)
  | .fault => .fault

/-- Some steps in turn, up to the first that fails. -/
def inTurn {α : Type} (step : Work σ → α → Option Failure × Work σ) :
    List α → Work σ → Option Failure × Work σ
  | [], w => (none, w)
  | x :: rest, w =>
    match step w x with
    | (some failure, w) => (some failure, w)
    | (none, w) => inTurn step rest w

/-- Computes an analysis again if it is stale, after the analyses it requires. Transformations are
left alone: the schedule has put them in front. -/
def ensure : Nat → Work σ → String → Option Failure × Work σ
  | 0, w, _ => (none, w)
  | fuel + 1, w, name =>
    match w.manager.find? name with
    | none =>
      (some (.error (.failed { kind := .missingPassDependency
                               detail := s!"{Text.quote name} is not registered" })), w)
    | some p =>
      if !p.isAnalysis || w.manager.cache.isValid name then (none, w)
      else
        match inTurn (ensure fuel) (p.requires w.manager.world) w with
        | (some failure, w) => (some failure, w)
        | (none, w) =>
          match w.runPass p fun _ => false with
          | (⟨_, some failure⟩, w) => (some (annotate name failure), w)
          | (⟨_, none⟩, w) => (none, w.markValid name)

/-- What is checked after a pass has run: a change must be reported, and must leave the module well
formed. A change makes analyses stale. -/
def afterPass (p : Pass σ) (before : UInt64) (modified : Bool) (w : Work σ) :
    Option Failure × Work σ :=
  if modified then
    match w.manager.checker.verifyModule (some w.listing) with
    | some .fault => (some .fault, w)
    | some (.error cause) =>
      (some (.error (.failedBy { kind := .verificationFailed, pass := p.name } cause)), w)
    | none =>
      let cache := p.invalidates.foldl Cache.invalidate w.manager.cache
      (none, { w with manager := { w.manager with cache } })
  else if w.manager.verifyModified && w.listing.fingerprint ≠ before then
    (some (.error (.failed
      { kind := .unreportedModification, pass := p.name
        detail := "pass changed the module but reported no modification" })), w)
  else (none, w)

/-- Runs a pass with all that belongs to it. A valid analysis is not run again. -/
def runPass (w : Work σ) (p : Pass σ) : Option Failure × Work σ :=
  if p.isAnalysis && w.manager.cache.isValid p.name then (none, w)
  else
    match inTurn (ensure (w.manager.passes.length + 1)) (p.requires w.manager.world) w with
    | (some failure, w) => (some failure, w)
    | (none, w) =>
      match p.refusal? (w.manager.envFor p.name) w.listing with
      | some failure => (some (annotate p.name failure), w)
      | none =>
        let before := if w.manager.verifyModified then w.listing.fingerprint else 0
        match w.runPass p id with
        | (⟨_, some failure⟩, w) => (some (annotate p.name failure), w)
        | (⟨modified, none⟩, w) =>
          afterPass p before modified (if p.isAnalysis then w.markValid p.name else w)

/-- Runs a pass and counts its failure. -/
def runCounted (w : Work σ) (p : Pass σ) : Option Failure × Work σ :=
  match runPass w p with
  | (some (.error e), w) =>
    (some (.error e), { w with manager := w.manager.recordFailure p.name })
  | (failure, w) => (failure, w)

/-- Runs all passes over a module in the order of the schedule. -/
def run (m : Manager σ) (l : Listing) : Option Failure × Work σ :=
  match m.sortPasses with
  | .error e => (some (.error e), ⟨m, l⟩)
  | .ok order => inTurn runCounted order ⟨{ m with runCount := m.runCount + 1, cache := {} }, l⟩

/-- The failure to run over no module. -/
def noModule : Failure := .error (.failed { kind := .malformedIR, detail := "nil module" })

/-! ## Metrics -/

/-- One line of a metric. -/
def metricLine (metric pass : String) (count : Nat) : String :=
  metric ++ "\x7bpass=" ++ Text.quote pass ++ "\x7d " ++ toString count ++ "\n"

/-- The lines of a metric for the passes that have a count, sorted by the name in quotes. -/
def metricLines (metric : String) (counts : List (String × Nat)) : String :=
  let shown := counts.filter fun e => 0 < e.2
  let sorted := shown.mergeSort fun a b => !(Text.quote b.1 < Text.quote a.1)
  String.join (sorted.map fun e => metricLine metric e.1 e.2)

/-- The counts of a manager as text. -/
def metrics (m : Manager σ) : String :=
  let runs := m.stats.map fun s => (s.name, s.runs)
  metricLines "seoggi_pass_duration_seconds_count" runs ++
    metricLines "seoggi_pass_failures_total" m.failures ++
    metricLines "seoggi_pass_modifications_total" (m.stats.map fun s => (s.name, s.modified)) ++
    metricLines "seoggi_pass_runs_total" runs

end Manager

end SsaOpt
