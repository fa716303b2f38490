/-!
# Strongly connected components

The sets of nodes of a graph that lead to each other, found by one search. A node that has been met
is open until its component is complete. The open nodes stand on a stack, numbered in the order of
being met. The nodes whose successors are being looked at form a path, and each of them keeps the
least number of an open node that it is known to lead to. If that is its own number when all its
successors have been looked at, then its component is complete: the node and what stands above it.

The path is a second stack, so that a search does not go deeper than it does for a single node.
-/

namespace SsaOpt.Flow

/-- A node on the path of a search. -/
structure Visit (α : Type) where
  node : α
  number : Nat
  /-- The least number of an open node that the node is known to lead to. -/
  low : Nat
  /-- The successors that have not been looked at. -/
  rest : List α

/-- The state of a search for components. -/
structure ComponentSearch (α : Type) where
  /-- The nodes to start from that have not been looked at. -/
  roots : List α
  /-- The number of nodes met. -/
  count : Nat := 0
  /-- The open nodes with their numbers, the latest first. -/
  stack : List (α × Nat) := []
  /-- The nodes whose successors are being looked at, the latest first. -/
  path : List (Visit α) := []
  /-- The components that are complete, the latest first. -/
  found : List (List α) := []

namespace ComponentSearch

variable {α : Type} [DecidableEq α]

/-- The node is in a component that is complete. -/
def isDone (s : ComponentSearch α) (node : α) : Bool := s.found.any fun c => c.contains node

/-- The node has been met. -/
def isMet (s : ComponentSearch α) (node : α) : Bool :=
  (s.stack.lookup node).isSome || s.isDone node

/-- Meets a node: it gets a number, and its successors are looked at next. -/
def enter (next : α → List α) (s : ComponentSearch α) (node : α) : ComponentSearch α :=
  { s with
    count := s.count + 1
    stack := (node, s.count) :: s.stack
    path := ⟨node, s.count, s.count, next node⟩ :: s.path }

/-- Lowers what the first node of a path is known to lead to. -/
def lower (low : Nat) : List (Visit α) → List (Visit α)
  | [] => []
  | v :: path => { v with low := min v.low low } :: path

/-- Leaves a node whose successors have all been looked at, for the path before it. -/
def leave (s : ComponentSearch α) (v : Visit α) (path : List (Visit α)) : ComponentSearch α :=
  let s := { s with path := lower v.low path }
  if v.low = v.number then
    let above := s.stack.takeWhile fun e => e.1 ≠ v.node
    { s with
      stack := s.stack.drop (above.length + 1)
      found := (above.map Prod.fst ++ [v.node]) :: s.found }
  else s

/-- One step of a search: the next successor of the latest node, or the next root. There is none at
the end. -/
def step (next : α → List α) (s : ComponentSearch α) : Option (ComponentSearch α) :=
  match s.path with
  | v :: path =>
    match v.rest with
    | w :: rest =>
      match s.stack.lookup w with
      | some n => some { s with path := { v with rest, low := min v.low n } :: path }
      | none =>
        let s := { s with path := { v with rest } :: path }
        some (if s.isDone w then s else s.enter next w)
    | [] => some (s.leave v path)
  | [] =>
    match s.roots with
    | [] => none
    | root :: roots =>
      let s := { s with roots }
      some (if s.isMet root then s else s.enter next root)

/-- Some steps, or fewer if the search comes to an end. -/
def run (next : α → List α) : Nat → ComponentSearch α → ComponentSearch α
  | 0, s => s
  | fuel + 1, s =>
    match s.step next with
    | some s => run next fuel s
    | none => s

end ComponentSearch

/-- The strongly connected components of a graph, each after those that it leads to. A search takes
a step for every edge, and at most three for every node. -/
def components {α : Type} [DecidableEq α] (next : α → List α) (nodes : List α) : List (List α) :=
  (ComponentSearch.run next ((nodes.flatMap next).length + 3 * nodes.length)
    { roots := nodes }).found.reverse

end SsaOpt.Flow
