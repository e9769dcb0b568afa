import JvmDecompiler.FlowGraph

/-!
# Flow graphs as DOT text

A drawing of a flow graph in the language of graph drawing tools.
-/

namespace JvmDecompiler.FlowGraph

/-- What is written behind an edge. -/
def EdgeKind.attributes : EdgeKind → String
  | .fallThrough => ""
  | .branch => " [label=\"branch\"]"
  | .switchCase => " [label=\"case\"]"
  | .exceptionHandler => " [style=dashed, label=\"catch\"]"

/-- The line of a block. -/
def dotBlock (b : Block) : String :=
  s!"  B{b.id} [label=\"B{b.id} ({b.instructions.length} instrs)\"];\n"

/-- The line of an edge. -/
def dotEdge (e : Edge) : String :=
  s!"  B{e.source} -> B{e.target}{EdgeKind.attributes e.kind};\n"

/-- The graph in DOT. -/
def toDot (g : FlowGraph) : String :=
  "digraph CFG \x7b\n" ++ String.join (g.blocks.map dotBlock) ++ String.join (g.edges.map dotEdge)
    ++ "\x7d\n"

end JvmDecompiler.FlowGraph
