/-!
# Searches

Two ways to go through the nodes of a graph step by step. A `Walk` goes depth first, with a stack of
the nodes that it is at, and records the nodes in the order in which they are met and in the order
in which they are done with, which is the post-order. A `Worklist` only keeps the nodes that it has
seen and those that it has to look at.
-/

namespace SsaOpt.Flow

/-- What a search has done so far. -/
structure Trace (α : Type) where
  /-- The nodes met, the latest first. -/
  met : List α := []
  /-- The nodes done with, the latest first. -/
  done : List α := []

variable {α : Type} [DecidableEq α]

/-- Some steps, or fewer if there is no next one. -/
def runSteps {S : Type} (step : S → Option S) : Nat → S → S
  | 0, s => s
  | fuel + 1, s =>
    match step s with
    | some s => runSteps step fuel s
    | none => s

/-! ## Walks -/

/-- A node that a walk is at. -/
structure Frame (α : Type) where
  node : α
  /-- The successors that have not been looked at. -/
  rest : List α

/-- A depth-first search under way. -/
structure Walk (α : Type) extends Trace α where
  /-- The nodes that have been met and are not done with, the latest first. -/
  stack : List (Frame α) := []

namespace Walk

/-- Meets a node: its successors are looked at next. -/
def enter (next : α → List α) (w : Walk α) (node : α) : Walk α :=
  { w with met := node :: w.met, stack := ⟨node, next node⟩ :: w.stack }

/-- One step of a walk. It looks at the next successor of the latest node, and enters it if that is
a node of the graph and has not been met. With no successor left, it is done with the node. -/
def step (next : α → List α) (isNode : α → Bool) (w : Walk α) : Option (Walk α) :=
  match w.stack with
  | [] => none
  | ⟨node, []⟩ :: stack => some { w with done := node :: w.done, stack }
  | ⟨node, s :: rest⟩ :: stack =>
    let w := { w with stack := ⟨node, rest⟩ :: stack }
    some (if s ∉ w.met ∧ isNode s = true then w.enter next s else w)

end Walk

/-! ## Worklists -/

/-- A search that keeps a list of what it has to look at. -/
structure Worklist (α : Type) where
  seen : List α := []
  /-- The nodes to look at, the latest first. -/
  work : List α := []

namespace Worklist

/-- Sees a node, which is to be looked at if it is new. -/
def see (w : Worklist α) (node : α) : Worklist α :=
  if node ∈ w.seen then w else { seen := node :: w.seen, work := node :: w.work }

/-- Looks at the latest node: sees all its successors. -/
def step (next : α → List α) (w : Worklist α) : Option (Worklist α) :=
  match w.work with
  | [] => none
  | node :: work => some ((next node).foldl see { w with work })

/-- Takes the latest node. If it has not been seen, it is seen now, and its successors are to be
looked at, whether they have been seen or not. -/
def take (next : α → List α) (w : Worklist α) : Option (Worklist α) :=
  match w.work with
  | [] => none
  | node :: work =>
    if node ∈ w.seen then some { w with work }
    else some { seen := node :: w.seen, work := next node ++ work }

end Worklist

end SsaOpt.Flow
