import PgRouting.Native.Dijkstra

/-!
# Dijkstra along a list of vertices

`dijkstraVia`, which calls `algorithms::dijkstra` for every two vertices that follow
each other in the list. Between two legs it may take the edge by which a vertex has
been reached out of the graph, and it puts it back afterwards.
-/

namespace PgRouting

namespace PgrBaseGraph

/-- `out_degree` -/
def outDegree {V E : Type} (g : PgrBaseGraph V E) (vertexId : Int) : Nat :=
  match g.verticesMap vertexId with
  | some v => (g.graph.outEdges v).length
  | none => 0

end PgrBaseGraph

namespace Algorithms

variable (boost : BoostDijkstra BasicVertex BasicEdge)

/-- The part of a round that deletes the edge by which the path has reached `prevVertex`. -/
def deleteUTurn (g : PgrBaseGraph BasicVertex BasicEdge) (path : Path) (prevVertex : Int) :
    PgrBaseGraph BasicVertex BasicEdge :=
  if path.path.length > 1 then
    let edgeToBeRemoved := (path.path[path.path.length - 2]?.map (·.edge)).getD 0
    if g.outDegree prevVertex > 1 then g.disconnectOutGoingEdge prevVertex edgeToBeRemoved else g
  else g

/-- The part of a round that looks for the path, with the deletion and without it. -/
def leg (g : PgrBaseGraph BasicVertex BasicEdge) (uTurnOnEdge : Bool) (i : Nat) (path : Path)
    (prevVertex vertex : Int) : Option (Path × PgrBaseGraph BasicVertex BasicEdge) :=
  if !uTurnOnEdge ∧ i > 1 then do
    let g := deleteUTurn g path prevVertex
    let path ← dijkstra boost g prevVertex vertex false
    let g := g.restoreGraph
    -- No way without the edge: the U-turn is allowed after all.
    if path.path.length = 0 then
      let path ← dijkstra boost g prevVertex vertex false
      pure (path, g)
    else pure (path, g)
  else do
    let path ← dijkstra boost g prevVertex vertex false
    pure (path, g)

/-- The loop of `dijkstraVia` from its second round on. -/
def dijkstraViaLoop (strict uTurnOnEdge : Bool) : List Int → Nat → Int → Path → List Path →
    PgrBaseGraph BasicVertex BasicEdge →
    Option (List Path × PgrBaseGraph BasicVertex BasicEdge)
  | [], _, _, _, paths, g => some (paths, g)
  | vertex :: rest, i, prevVertex, path, paths, g => do
    let (path, g) ← leg boost g uTurnOnEdge i path prevVertex vertex
    if strict ∧ path.path.length = 0 then pure ([], g)
    else dijkstraViaLoop strict uTurnOnEdge rest (i + 1) vertex path (paths ++ [path]) g

/-- `dijkstraVia`; the callers hand in no paths. -/
def dijkstraVia (g : PgrBaseGraph BasicVertex BasicEdge) (viaVertices : List Int)
    (strict uTurnOnEdge : Bool) : Option (List Path × PgrBaseGraph BasicVertex BasicEdge) :=
  match viaVertices with
  | [] => some ([], g)
  | vertex :: rest => dijkstraViaLoop boost strict uTurnOnEdge rest 1 vertex {} [] g

end Algorithms

end PgRouting
