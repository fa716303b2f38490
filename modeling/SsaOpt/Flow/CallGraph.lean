import SsaOpt.Flow.Components
import SsaOpt.Ir.Module

/-!
# Call graphs

Which functions of a module call which, by their positions. The strongly connected components are
the sets of functions that call each other, directly or not; a component comes after those it calls
into. A function is recursive if it can call itself, directly or not.
-/

namespace SsaOpt

/-- The call graph of a module. -/
structure CallGraph where
  /-- The names of the functions. -/
  names : List String := []
  /-- For each function the functions it calls, each once, in the order of the first call. -/
  callees : List (List Nat) := []
  /-- The strongly connected components, those called before those that call. -/
  components : List (List Nat) := []
deriving DecidableEq

namespace CallGraph

/-- The last position of a name. -/
def lastIndex? (names : List String) (name : String) : Option Nat :=
  (names.reverse.idxOf? name).map fun i => names.length - 1 - i

/-- The names that a function calls, in order. -/
def callTargets (fn : Function) : List String :=
  fn.instrs.filterMap fun i =>
    match i with
    | .call c => some c.target
    | _ => none

/-- The functions that a function calls, each once. -/
def calleesOf (names : List String) (fn : Function) : List Nat :=
  ((callTargets fn).filterMap (lastIndex? names)).eraseDups

/-- The callees of the function at a position. -/
def next (callees : List (List Nat)) (i : Nat) : List Nat := callees.getD i []

/-- The call graph of a module. -/
def build (m : Module) : CallGraph :=
  let names := m.functions.map Function.name
  let callees := m.functions.map (calleesOf names)
  { names, callees, components := Flow.components (next callees) (List.range callees.length) }

/-- The position of a name, the last one if there are several. -/
def index? (g : CallGraph) (name : String) : Option Nat := lastIndex? g.names name

/-- The component of a function. -/
def componentOf (g : CallGraph) (i : Nat) : List Nat :=
  (g.components.find? fun c => c.contains i).getD []

/-- Whether the function at a position can call itself. -/
def recursiveAt (g : CallGraph) (i : Nat) : Bool :=
  1 < (g.componentOf i).length || (next g.callees i).contains i

/-- Whether a function can call itself. -/
def isRecursive (g : CallGraph) (name : String) : Bool :=
  match g.index? name with
  | some i => g.recursiveAt i
  | none => false

/-- The name of the function at a position. -/
def nameAt (g : CallGraph) (i : Nat) : String := g.names.getD i ""

/-- The names of the functions that a function calls. -/
def calleeNames (g : CallGraph) (name : String) : List String :=
  match g.index? name with
  | some i => (next g.callees i).map g.nameAt
  | none => []

/-- The components by name. -/
def componentNames (g : CallGraph) : List (List String) :=
  g.components.map fun c => c.map g.nameAt

/-- Whether two functions are in one component. -/
def sameComponent (g : CallGraph) (a b : String) : Bool :=
  match g.index? a, g.index? b with
  | some i, some j => (g.componentOf i).contains j
  | _, _ => false

end CallGraph

end SsaOpt
