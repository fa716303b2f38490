import SsaOpt.Pass.Cache
import SsaOpt.Pass.ConstFold
import SsaOpt.Pass.DeadCode
import SsaOpt.Pass.Inline
import SsaOpt.Diagnostic.Basic

/-!
# Passes

A pass looks at a module or changes it. It is known by its name, says which passes must have run
before it and which analyses it makes stale, and can refuse to run. What a pass may read and change
while it runs is a `Run`: the module, the cache, the diagnostics, the counts of what has been done,
and a world of its own that passes from outside may use.
-/

namespace SsaOpt

/-- How often the transformations have done their work. -/
structure Tally where
  folded : Nat := 0
  removedInstrs : Nat := 0
  removedBlocks : Nat := 0
  inlined : Nat := 0
deriving DecidableEq

/-- What a running pass may read and change. -/
structure Run (σ : Type) where
  listing : Listing
  cache : Cache Fact := {}
  bag : Bag := []
  tally : Tally := {}
  world : σ

/-- What a running pass may only read: who is asked for permission, and the name it runs under. -/
structure PassEnv where
  checker : Option Checker
  pass : String

/-- What a step of a pass reports: whether it changed something, and why it stopped early. -/
structure Outcome where
  modified : Bool := false
  failure : Option Failure := none

/-- A pass. Requirements may depend on the world. -/
structure Pass (σ : Type) where
  name : String
  /-- An analysis only computes facts, and is run again when they are stale. -/
  isAnalysis : Bool := false
  requires : σ → List String := fun _ => []
  /-- The analyses that are stale after a change. -/
  invalidates : List String := []
  /-- Why the pass refuses to be registered. -/
  registrationErr? : PassEnv → Option Err := fun _ => none
  /-- Why the pass refuses to run on a module. -/
  refusal? : PassEnv → Listing → Option Failure := fun _ _ => none
  onModule : PassEnv → Run σ → Outcome × Run σ
  /-- Runs on the function at a position. -/
  onFunction : PassEnv → Nat → Run σ → Outcome × Run σ

namespace Run

variable {σ : Type}

/-- Raises a warning about a function. -/
def warn (env : PassEnv) (code function message : String) (r : Run σ) : Run σ :=
  let d : Diagnostic := { Diagnostic.warning message with code, pass := env.pass }
  { r with bag := r.bag ++ [d.withPrimary ⟨function, ""⟩ ""] }

/-! ## Cached analyses -/

/-- The flow graph of a function, from the cache or computed. -/
def flowGraph (fn : Function) (r : Run σ) : FlowGraph × Run σ :=
  match r.cache.get? "cfg" fn.name with
  | some (.flow g) => (g, r)
  | _ =>
    let g := FlowGraph.build fn
    (g, { r with cache := r.cache.put "cfg" fn.name (.flow g) })

/-- The dominator tree of a function, from the cache or computed. -/
def domTree (fn : Function) (r : Run σ) : DomTree × Run σ :=
  match r.cache.get? "domtree" fn.name with
  | some (.dominators t) => (t, r)
  | _ =>
    let (g, r) := r.flowGraph fn
    let t := DomTree.build g
    (t, { r with cache := r.cache.put "domtree" fn.name (.dominators t) })

/-- The loops of a function, from the cache or computed. -/
def loopInfo (fn : Function) (r : Run σ) : LoopInfo × Run σ :=
  match r.cache.get? "loops" fn.name with
  | some (.loops l) => (l, r)
  | _ =>
    let (g, r) := r.flowGraph fn
    let (t, r) := r.domTree fn
    let l := LoopInfo.find g t
    (l, { r with cache := r.cache.put "loops" fn.name (.loops l) })

/-- The call graph of the module, from the cache or computed. With a vacant place there is none. -/
def callGraph? (r : Run σ) : Option (CallGraph × Run σ) :=
  match r.cache.get? "callgraph" "" with
  | some (.calls g) => some (g, r)
  | _ =>
    r.listing.module?.map fun m =>
      let g := CallGraph.build m
      (g, { r with cache := r.cache.put "callgraph" "" (.calls g) })

/-- Puts a function in its place. -/
def setFunction (i : Nat) (fn : Function) (r : Run σ) : Run σ :=
  { r with listing := r.listing.setFunction i fn }

/-- A step on functions, for the functions at some positions that have a body, in turn. The step
that fails ends it; what that step reports of changes does not count. A vacant place is a fault. -/
def eachFunction (step : Nat → Run σ → Outcome × Run σ) :
    List Nat → Bool → Run σ → Outcome × Run σ
  | [], modified, r => ({ modified }, r)
  | i :: rest, modified, r =>
    match r.listing.function? i with
    | none => ({ modified, failure := some .fault }, r)
    | some fn =>
      if fn.isExternal then eachFunction step rest modified r
      else
        let (out, r) := step i r
        match out.failure with
        | none => eachFunction step rest (modified || out.modified) r
        | some (.error e) => ({ modified, failure := some (.error (e.inFunction fn.name)) }, r)
        | some .fault => ({ modified, failure := some .fault }, r)

/-- A step on functions, for all functions that have a body. -/
def allFunctions (step : Nat → Run σ → Outcome × Run σ) (r : Run σ) : Outcome × Run σ :=
  eachFunction step (List.range r.listing.places.length) false r

end Run

end SsaOpt
