import SsaOpt.Pass.Basic

/-!
# The built-in passes

The four analyses and the three transformations as passes.
-/

namespace SsaOpt

variable {σ : Type}

/-! ## Analyses -/

/-- The analyses. -/
inductive Analysis where
  | flow
  | dominators
  | loops
  | calls
deriving DecidableEq, Repr

namespace Analysis

/-- The name of an analysis. -/
def name : Analysis → String
  | flow => "cfg"
  | dominators => "domtree"
  | loops => "loops"
  | calls => "callgraph"

/-- All analyses in the order in which they are registered. -/
def all : List Analysis := [flow, dominators, loops, calls]

/-- The analyses that an analysis builds on. -/
def requires : Analysis → List String
  | flow => []
  | dominators => ["cfg"]
  | loops => ["cfg", "domtree"]
  | calls => []

/-- Computes the result for a function; the call graph is not about a single function. -/
def onFunction (a : Analysis) (i : Nat) (r : Run σ) : Outcome × Run σ :=
  match a, r.listing.function? i with
  | calls, _ => ({}, r)
  | _, none => ({ failure := some .fault }, r)
  | flow, some fn => ({}, (r.flowGraph fn).2)
  | dominators, some fn => ({}, (r.domTree fn).2)
  | loops, some fn => ({}, (r.loopInfo fn).2)

/-- Drops the former results and computes the analysis for the whole module. -/
def onModule (a : Analysis) (r : Run σ) : Outcome × Run σ :=
  let r := { r with cache := r.cache.invalidate a.name }
  match a with
  | calls =>
    match r.callGraph? with
    | some (_, r) => ({}, r)
    | none => ({ failure := some .fault }, r)
  | a => r.allFunctions a.onFunction

/-- An analysis as a pass. -/
def pass (a : Analysis) : Pass σ where
  name := a.name
  isAnalysis := true
  requires _ := a.requires
  onModule _ := a.onModule
  onFunction _ := a.onFunction

end Analysis

/-! ## Transformations -/

/-- The transformations with their parameters. -/
inductive Transform where
  | constFold
  | deadCode (maxIterations : Int)
  | inline (policy : Inline.Policy)

namespace Transform

/-- The name of a transformation. -/
def name : Transform → String
  | constFold => ConstFold.passName
  | deadCode _ => DeadCode.passName
  | inline _ => Inline.passName

/-- The passes that a transformation needs. -/
def requires : Transform → List String
  | inline _ => ["domtree", "callgraph"]
  | _ => []

/-- The analyses that a transformation makes stale. -/
def invalidates : Transform → List String
  | constFold => []
  | _ => ["cfg", "domtree", "loops", "callgraph"]

/-- What is wrong with the parameters. -/
def parameterErr? : Transform → Option Err
  | constFold => none
  | deadCode n =>
    if n < 0 then some (.plain s!"dce: max iterations must not be negative, got {n}") else none
  | inline p =>
    if p.sizeThreshold < 0 then
      some (.plain s!"inline: size threshold must not be negative, got {p.sizeThreshold}")
    else none

/-- Why a transformation refuses to be registered: nobody to ask, or a parameter out of range. -/
def registrationErr? (t : Transform) (env : PassEnv) : Option Err :=
  if env.checker.isNone then some (.plain s!"{t.name}: no safety checker") else t.parameterErr?

/-- Why a transformation refuses to run: what stands against its registration, or a module with
defects. -/
def refusal? (t : Transform) (env : PassEnv) (l : Listing) : Option Failure :=
  match t.registrationErr? env with
  | some e => some (.error e)
  | none =>
    match env.checker.bind fun checker => checker.verifyModule (some l) with
    | some (.error cause) =>
      some (.error (.failedBy { kind := .malformedIR, pass := t.name } cause))
    | failure => failure

/-- Folds the constants of a function. -/
def foldFunction (env : PassEnv) (i : Nat) (fn : Function) (r : Run σ) : Outcome × Run σ :=
  let done := ConstFold.run env.checker fn
  let r := r.setFunction i done.function
  ({ modified := 0 < done.folded, failure := done.failure },
    { r with tally := { r.tally with folded := r.tally.folded + done.folded } })

/-- Removes the dead code of a function; reaching the limit raises a warning. Every call is judged
before anything is removed, so one that cannot be judged is a fault at the start. -/
def cleanFunction (maxIterations : Int) (env : PassEnv) (i : Nat) (fn : Function) (r : Run σ) :
    Outcome × Run σ :=
  if !fn.blocks.all fun b => b.instrs.all r.listing.canJudge then ({ failure := some .fault }, r)
  else
    let done := DeadCode.run env.checker r.listing.front maxIterations fn
    let r := r.setFunction i done.function
    let tally := { r.tally with
      removedInstrs := r.tally.removedInstrs + done.instrs
      removedBlocks := r.tally.removedBlocks + done.blocks }
    let r := { r with tally }
    let r := if done.limited then
        r.warn env "W0002" fn.name s!"no fixed point after {maxIterations} iteration(s)"
      else r
    ({ modified := done.modified, failure := done.failure }, r)

/-- Replaces calls in a function; a call that is left raises a warning. -/
def inlineFunction (policy : Inline.Policy) (env : PassEnv) (i : Nat) (fn : Function) (r : Run σ) :
    Outcome × Run σ :=
  match r.callGraph? with
  | none => ({ failure := some .fault }, r)
  | some (g, r) =>
    let (t, r) := r.domTree fn
    let done := Inline.run policy env.checker r.listing.front g t i fn
    let r := r.setFunction i done.function
    let r := { r with tally := { r.tally with inlined := r.tally.inlined + done.inlined } }
    let r := done.warnings.foldl
      (fun r w => r.warn env "W0003" fn.name
        s!"not inlining call to {w.callee}: {w.reason.message}") r
    ({ modified := 0 < done.inlined, failure := done.failure }, r)

/-- Runs a transformation on the function at a position. -/
def onFunction (t : Transform) (env : PassEnv) (i : Nat) (r : Run σ) : Outcome × Run σ :=
  match r.listing.function? i with
  | none => ({ failure := some .fault }, r)
  | some fn =>
    match t with
    | constFold => foldFunction env i fn r
    | deadCode n => cleanFunction n env i fn r
    | inline p => inlineFunction p env i fn r

/-- A transformation as a pass. -/
def pass (t : Transform) : Pass σ where
  name := t.name
  requires _ := t.requires
  invalidates := t.invalidates
  registrationErr? := t.registrationErr?
  refusal? := t.refusal?
  onModule env r := r.allFunctions (t.onFunction env)
  onFunction := t.onFunction

end Transform

end SsaOpt
