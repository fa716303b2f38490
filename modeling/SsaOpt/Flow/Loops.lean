import SsaOpt.Flow.Dominators

/-!
# Natural loops

An edge from a block to one of its dominators closes a loop. The target is the header, the source a
latch; the loop holds the header and every block that reaches a latch without going through the
header. Loops with one header are one loop.
-/

namespace SsaOpt

/-- A natural loop. -/
structure Loop where
  header : BlockId
  /-- The sources of the edges back to the header, in reverse post-order. -/
  latches : List BlockId
  /-- All blocks of the loop, each once. -/
  blocks : List BlockId
deriving DecidableEq

/-- Whether a block is in the loop. -/
def Loop.contains (l : Loop) (id : BlockId) : Bool := l.blocks.contains id

/-- The loops of a function, in reverse post-order of their headers. -/
abbrev LoopInfo := List Loop

namespace LoopInfo

/-- The sources of edges back to `header`, once for every edge. -/
def latchesOf (g : FlowGraph) (t : DomTree) (header : BlockId) : List BlockId :=
  g.rpo.flatMap fun b =>
    if t.dominates header b then ((g.succs b).filter fun s => s = header).map fun _ => b else []

/-- The predecessors that can be reached, the last one first. -/
def back (g : FlowGraph) (id : BlockId) : List BlockId := ((g.preds id).filter g.reachable).reverse

/-- The blocks of a loop: from one latch after the other backwards, up to the header and what has
been found before. -/
def body (g : FlowGraph) (header : BlockId) (latches : List BlockId) : List BlockId :=
  let steps := (g.rpo.flatMap (back g)).length + 1
  latches.foldl (fun blocks latch =>
    (Flow.runSteps (Flow.Worklist.take (back g)) steps { seen := blocks, work := [latch] }).seen)
    [header]

/-- The loop of a header, if it is one. -/
def loopAt? (g : FlowGraph) (t : DomTree) (header : BlockId) : Option Loop :=
  match latchesOf g t header with
  | [] => none
  | latches => some ⟨header, latches, body g header latches⟩

/-- The loops of a flow graph. -/
def find (g : FlowGraph) (t : DomTree) : LoopInfo := g.rpo.filterMap (loopAt? g t)

/-- The smaller of two loops, the first one if they are of one size. -/
def smaller (best : Option Loop) (l : Loop) : Option Loop :=
  match best with
  | none => some l
  | some b => if l.blocks.length < b.blocks.length then some l else some b

/-- The smallest loop that a block is in. -/
def innermost? (loops : LoopInfo) (id : BlockId) : Option Loop :=
  (loops.filter fun l => l.contains id).foldl smaller none

/-- The number of loops that a block is in. -/
def depth (loops : LoopInfo) (id : BlockId) : Nat := loops.countP fun l => l.contains id

end LoopInfo

end SsaOpt
