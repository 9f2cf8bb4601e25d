import PgRouting.Native.Dijkstra

/-!
# The other constructors and operations of paths

The constructors of `class Path` that `Native.Dijkstra` does not have, and the ways
of putting two paths together.

`m_tot_cost` has no initializer of its own. A constructor that does not set it adds
the costs of its rows to `unset`, which is what the memory holds.
-/

namespace PgRouting

namespace Path

section Graph

variable {V E K : Type} [TVertex V] [TEdge E] [Field K] [LinearOrder K]

/-- `Path(graph, v_source, v_target, predecessors, distances, only_cost, normal)` with the total
    cost that it has. -/
def newOfPredecessors (unset : K) (g : PgrBaseGraph V E) (vSource vTarget : Nat)
    (predecessors : Nat → Nat) (distances : Nat → WithTop K) (onlyCost normal : Bool) :
    Option (Path K) :=
  (ofPredecessors g vSource vTarget predecessors distances onlyCost normal).map fun p =>
    { p with totCost := unset + p.totCost }

/-- The rows that the constructors for a driving distance push, one for each vertex within the
    distance. -/
def distanceRows (g : PgrBaseGraph V E) (distance : ℚ) (predecessors : Nat → Nat)
    (distances : Nat → WithTop ℚ) : List PathT :=
  (List.range g.graph.numVertices).filterMap fun i =>
    if distances i ≤ distance then
      let cost := (distances i).untopD 0 - (distances (predecessors i)).untopD 0
      let (edgeId, cost) := g.getEdgeId (predecessors i) i cost
      some ⟨g.vertexId i, edgeId, cost, (distances i).untopD 0⟩
    else none

/-- `Path(graph, source, distance, predecessors, distances)` -/
def newOfDistances (unset : ℚ) (g : PgrBaseGraph V E) (source : Int) (distance : ℚ)
    (predecessors : Nat → Nat) (distances : Nat → WithTop ℚ) : Path :=
  (distanceRows g distance predecessors distances).foldl pushBack
    { startId := source, endId := source, totCost := unset }

/-- `Path(graph, v_source, distance, predecessors, distances)`, which takes the descriptor of the
    root. -/
def newOfVertexDistances (unset : ℚ) (g : PgrBaseGraph V E) (vSource : Nat) (distance : ℚ)
    (predecessors : Nat → Nat) (distances : Nat → WithTop ℚ) : Path :=
  newOfDistances unset g (g.vertexId vSource) distance predecessors distances

/-- What `Path(graph, original, only_cost)` does for one row of the original: every out edge of
    the node with the id of the row makes a row of its own. It throws when the graph does not
    have the node. -/
def pushGraphRow (g : PgrBaseGraph V E) (p : Path) (row : PathT K) : Option Path :=
  (g.verticesMap row.node).map fun v =>
    if row.edge = -1 then { p with path := p.path ++ [⟨p.endId, -1, 0, 0⟩] }
    else
      ((g.graph.outEdges v).filter fun e => TEdge.id e.bundle = row.edge).foldl
        (fun p e => p.pushBack ⟨row.node, row.edge, TEdge.cost e.bundle, 0⟩) p

/-- `Path(graph, original, only_cost)` -/
def newOfGraph (g : PgrBaseGraph V E) (original : Path K) (onlyCost : Bool) : Option Path :=
  let p := Path.new original.startId original.endId
  if original.path.length = 0 then some p
  else
    (original.path.foldlM (pushGraphRow g) p).map fun p =>
      let p := p.recalculateAggCost
      if onlyCost then { p with path := [⟨p.endId, -1, p.totCost, p.totCost⟩] } else p

end Graph

/-- `appendPath` -/
def appendPath {K : Type} [AddCommGroup K] (p oPath : Path K) : Path K :=
  { p with path := p.path ++ oPath.path }.recalculateAggCost

/-- `append`: the last row is dropped and the rows of the other path follow. A path with different
    ends that has no row has no last row either. -/
def append {K : Type} [AddCommGroup K] (p other : Path K) : Option (Path K) :=
  if other.startId = other.endId then some p
  else if p.startId = p.endId then some other
  else
    p.path.getLast?.map fun last =>
      other.path.foldl
        (fun p item => p.pushBack { item with aggCost := item.aggCost + last.aggCost })
        { p with endId := other.endId, path := p.path.dropLast }

end Path

end PgRouting
