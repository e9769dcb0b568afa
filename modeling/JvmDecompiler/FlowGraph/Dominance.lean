import JvmDecompiler.FlowGraph

/-!
# Dominance and natural loops

A block dominates another if control cannot come to the second without going through the first. An
edge back to a block that dominates its source closes a natural loop: the block is the header, and the
body is what leads back to the header through such an edge. Other edges that go against the order of
the search belong to no natural loop; a graph that has one is irreducible.

Post-dominance is dominance on the reversed graph, seen from a node behind all blocks at which control
leaves the method.
-/

namespace JvmDecompiler

/-- A loop before its shape is known. -/
structure NaturalLoop where
  header : BlockId
  body : List BlockId
  /-- The blocks that lead back to the header, in increasing order. -/
  latches : List BlockId
  deriving DecidableEq, Repr, Inhabited

/-- The last block that leads back to the header. -/
def NaturalLoop.latch (l : NaturalLoop) : BlockId := l.latches.getLast?.getD l.header

namespace FlowGraph

/-- The node behind all blocks at which control leaves the method. -/
def exitNode : BlockId := Address.last

/-- The immediate dominator of every block that control may reach. -/
def dominators (g : FlowGraph) : List (BlockId × BlockId) := g.digraph.immediateDominators g.entry

/-- The reversed graph of the edges that no exception takes, with edges from the exit node to the
blocks without successors. An edge that leads to the exit node by name is one to the exit node. -/
def reversedDigraph (g : FlowGraph) : Digraph where
  nodes := exitNode :: g.ids
  next id :=
    if id = exitNode then
      g.ids.filter fun b => (g.successors b).isEmpty || (g.successors b).contains exitNode
    else g.predecessors id

/-- The immediate post-dominator of every block from which control can leave the method. -/
def postDominators (g : FlowGraph) : List (BlockId × BlockId) :=
  g.reversedDigraph.immediateDominators exitNode

/-- The graph that leads from each block to those it comes from. -/
def predecessorDigraph (g : FlowGraph) : Digraph := ⟨g.ids, g.predecessors⟩

/-- The header with the blocks that lead to one of the latches without going through the header. -/
def loopBody (g : FlowGraph) (header : BlockId) (latches : List BlockId) : List BlockId :=
  sortedSet (header ::
    latches.flatMap (g.predecessorDigraph.without [header]).reversePostorder)

/-- The natural loops, one for each header, smaller ones first. -/
def naturalLoops (g : FlowGraph) : List NaturalLoop :=
  let idoms := g.dominators
  let backEdges := g.ids.flatMap fun b =>
    if (idoms.lookup b).isSome then
      ((g.successors b).filter (Digraph.dominates idoms · b)).map ((·, b))
    else []
  let loops := (sortedSet (backEdges.map (·.1))).map fun header =>
    let latches := (backEdges.filter (·.1 = header)).map (·.2)
    ⟨header, g.loopBody header latches, latches⟩
  loops.mergeSort fun a b =>
    a.body.length < b.body.length || (a.body.length = b.body.length && a.header ≤ b.header)

/-- The edges that go against reverse postorder to a block that does not dominate their source. -/
def irreducibleEdges (g : FlowGraph) : List (BlockId × BlockId) :=
  let idoms := g.dominators
  let order := g.reversePostorder
  order.flatMap fun b =>
    ((g.successors b).filter fun s =>
      order.contains s && order.idxOf s ≤ order.idxOf b && !Digraph.dominates idoms s b).map ((b, ·))

end FlowGraph

end JvmDecompiler
