import SsaOpt.Flow.Search
import SsaOpt.Ir.Module

/-!
# Flow graphs

The flow graph of a function: which blocks control may go to from each block, and the blocks that
can be reached from the entry in reverse post-order. Branches to blocks that do not exist are kept
as edges, but lead nowhere.
-/

namespace SsaOpt

/-- The flow graph of a function at some moment. -/
structure FlowGraph where
  /-- The blocks in layout order, each with its successors. -/
  edges : List (BlockId × List BlockId) := []
  /-- The blocks that can be reached from the entry, in reverse post-order. -/
  rpo : List BlockId := []
deriving DecidableEq

namespace FlowGraph

/-- The successors of a block; of several blocks of one number the last one counts. -/
def succsIn (edges : List (BlockId × List BlockId)) (id : BlockId) : List BlockId :=
  (edges.reverse.lookup id).getD []

/-- Whether a block of the number exists. -/
def hasNode (edges : List (BlockId × List BlockId)) (id : BlockId) : Bool :=
  (edges.map Prod.fst).contains id

/-- Walks depth first through the blocks that can be reached from a block. A step is taken for every
edge, and one for the end of every block. -/
def walkFrom (edges : List (BlockId × List BlockId)) (id : BlockId) : Flow.Walk BlockId :=
  Flow.runSteps (Flow.Walk.step (succsIn edges) (hasNode edges))
    (edges.length + (edges.flatMap Prod.snd).length) (Flow.Walk.enter (succsIn edges) {} id)

/-- The flow graph of a function. -/
def build (fn : Function) : FlowGraph :=
  let edges := fn.blocks.map fun b => (b.id, b.successors)
  match fn.entryBlock? with
  | none => { edges }
  | some entry => { edges, rpo := (walkFrom edges entry.id).done }

/-- The successors of a block. -/
def succs (g : FlowGraph) (id : BlockId) : List BlockId := succsIn g.edges id

/-- The predecessors of a block in layout order, one for every edge. -/
def preds (g : FlowGraph) (id : BlockId) : List BlockId :=
  g.edges.flatMap fun (b, ss) => (ss.filter fun s => s = id).map fun _ => b

/-- Whether a block can be reached from the entry. -/
def reachable (g : FlowGraph) (id : BlockId) : Bool := g.rpo.contains id

/-- The place of a block in reverse post-order, `-1` for a block that cannot be reached. -/
def rpoIndex (g : FlowGraph) (id : BlockId) : Int :=
  match g.rpo.idxOf? id with
  | some i => i
  | none => -1

end FlowGraph

namespace Function

/-- The successors of the last block of a number. -/
def succsOf (fn : Function) (id : BlockId) : List BlockId :=
  ((fn.blocks.reverse.find? fun b => b.id = id).map Block.successors).getD []

/-- The blocks that control may go to from the entry, whether they exist or not. Each of them is the
entry or the target of an edge, and is looked at once. -/
def reach (fn : Function) : List BlockId :=
  match fn.entryBlock? with
  | none => []
  | some entry =>
    (Flow.runSteps (Flow.Worklist.step fn.succsOf) ((fn.blocks.flatMap Block.successors).length + 1)
      (Flow.Worklist.see {} entry.id)).seen

end Function

end SsaOpt
