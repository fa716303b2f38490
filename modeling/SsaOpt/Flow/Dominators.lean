import SsaOpt.Flow.Graph

/-!
# Dominators

A block dominates another one if every path from the entry to the other goes through it. The
immediate dominators are found by going over the blocks in reverse post-order until nothing changes:
the immediate dominator of a block is the nearest common ancestor of its predecessors in the tree
found so far. The number `0` stands for "none yet".
-/

namespace SsaOpt

/-- Immediate dominators, the latest entry of a block counting. The entry block is its own. -/
abbrev IdomMap := List (BlockId × BlockId)

/-- The dominator tree of a flow graph. -/
structure DomTree where
  graph : FlowGraph
  idoms : IdomMap := []
deriving DecidableEq

namespace DomTree

/-- The parent of a block in the tree found so far. -/
def parent (idoms : IdomMap) (id : BlockId) : BlockId := (idoms.lookup id).getD 0

/-- The nearest common ancestor of two blocks: the one that comes later in reverse post-order goes
to its parent until they meet. -/
def meet (g : FlowGraph) (idoms : IdomMap) : Nat → BlockId → BlockId → BlockId
  | 0, a, _ => a
  | fuel + 1, a, b =>
    if a = b then a
    else if g.rpoIndex b < g.rpoIndex a then meet g idoms fuel (parent idoms a) b
    else meet g idoms fuel a (parent idoms b)

/-- The immediate dominator that the predecessors of a block give, `0` if none of them has one. -/
def candidate (g : FlowGraph) (idoms : IdomMap) (id : BlockId) : BlockId :=
  (g.preds id).foldl
    (fun found p =>
      if (idoms.lookup p).isNone then found
      else if found = 0 then p
      else meet g idoms (2 * g.rpo.length) p found)
    0

/-- One block's turn. -/
def improve (g : FlowGraph) (idoms : IdomMap) (id : BlockId) : IdomMap :=
  let new := candidate g idoms id
  if new = 0 ∨ parent idoms id = new then idoms else (id, new) :: idoms.filter fun e => e.1 ≠ id

/-- Goes over the blocks again and again until nothing changes. -/
def settle (g : FlowGraph) : Nat → IdomMap → IdomMap
  | 0, idoms => idoms
  | fuel + 1, idoms =>
    let next := g.rpo.tail.foldl (improve g) idoms
    if next = idoms then idoms else settle g fuel next

/-- The dominator tree of a flow graph. -/
def build (g : FlowGraph) : DomTree :=
  match g.rpo with
  | [] => { graph := g }
  | entry :: rest =>
    { graph := g, idoms := settle g ((rest.length + 2) * (rest.length + 2)) [(entry, entry)] }

/-- The immediate dominator of a block; the entry has none. -/
def idom? (t : DomTree) (id : BlockId) : Option BlockId :=
  (t.idoms.lookup id).filter fun d => d ≠ id

/-- Whether `a` is `b` or an ancestor of `b`. -/
def climbs (t : DomTree) (a : BlockId) : Nat → BlockId → Bool
  | 0, _ => false
  | fuel + 1, b =>
    if a = b then true
    else
      match t.idom? b with
      | some d => t.climbs a fuel d
      | none => false

/-- Whether block `a` dominates block `b`. A block that cannot be reached is dominated by none. -/
def dominates (t : DomTree) (a b : BlockId) : Bool :=
  (t.idoms.lookup b).isSome && t.climbs a (t.idoms.length + 1) b

/-- The blocks that a block dominates immediately, in reverse post-order. -/
def children (t : DomTree) (id : BlockId) : List BlockId :=
  t.graph.rpo.filter fun b => t.idom? b = some id

end DomTree

end SsaOpt
