import PgRouting.Native.Bidirectional

/-!
# Bidirectional Dijkstra

`Pgr_bdDijkstra` runs the loop of `Pgr_bidirectional` with queues that are ordered by
the costs alone. Both functions explore a node from the cost in its queue entry.
-/

namespace PgRouting

namespace PgrBdDijkstra

variable {V E : Type} [TEdge E] (graph : PgrBaseGraph V E)

/-- `explore_forward` -/
def exploreForward (node : CostVertexPair ℚ) (s : HalfSearch ℚ) : HalfSearch ℚ :=
  let currentCost := (ofLex node).1
  let currentNode := (ofLex node).2
  s.explore (fun _ => 0) (graph.graph.outEdges currentNode) currentCost currentNode

/-- `explore_backward` -/
def exploreBackward (node : CostVertexPair ℚ) (s : HalfSearch ℚ) : HalfSearch ℚ :=
  let currentCost := (ofLex node).1
  let currentNode := (ofLex node).2
  s.explore (fun _ => 0) (graph.graph.inEdges currentNode) currentCost currentNode

/-- The two virtual functions. -/
def explorer : Explorer ℚ where
  exploreForward := exploreForward graph
  exploreBackward := exploreBackward graph

end PgrBdDijkstra

end PgRouting
