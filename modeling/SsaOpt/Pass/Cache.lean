import SsaOpt.Flow.Loops
import SsaOpt.Flow.CallGraph

/-!
# The analysis cache

Results of analyses, by the name of the analysis and the name of the function; a result about the
whole module has the empty function name. Apart from that the cache knows which analyses are valid:
computed for the whole module and not made stale since.
-/

namespace SsaOpt

/-- A cache of results. -/
structure Cache (α : Type) where
  /-- The results, the latest first. -/
  entries : List ((String × String) × α) := []
  /-- The names of the valid analyses. -/
  validNames : List String := []

namespace Cache

variable {α : Type}

/-- The result of an analysis for a function. -/
def get? (c : Cache α) (analysis function : String) : Option α :=
  c.entries.lookup (analysis, function)

/-- Stores a result in the place of the former one. -/
def put (c : Cache α) (analysis function : String) (value : α) : Cache α :=
  { c with
    entries := ((analysis, function), value) ::
      c.entries.filter fun e => e.1 ≠ (analysis, function) }

/-- Records that an analysis has been computed for the whole module. -/
def markValid (c : Cache α) (analysis : String) : Cache α :=
  { c with validNames := analysis :: c.validNames.filter fun n => n ≠ analysis }

/-- Whether an analysis is computed and not stale. -/
def isValid (c : Cache α) (analysis : String) : Bool := c.validNames.contains analysis

/-- Drops all results of an analysis. -/
def invalidate (c : Cache α) (analysis : String) : Cache α where
  entries := c.entries.filter fun e => e.1.1 ≠ analysis
  validNames := c.validNames.filter fun n => n ≠ analysis

end Cache

/-- What an analysis finds out. -/
inductive Fact where
  | flow (g : FlowGraph)
  | dominators (t : DomTree)
  | loops (l : LoopInfo)
  | calls (g : CallGraph)

end SsaOpt
