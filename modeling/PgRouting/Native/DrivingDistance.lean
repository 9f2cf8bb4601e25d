import PgRouting.Native.DijkstraNear
import PgRouting.Lib.Loop

/-!
# Driving distance

`drivingDistance` without equal costs: for each root one search, the rows of the nodes within
the distance and the depth of each of them. A node is a vertex when its id is not negative, and
else a point, which is passed over when details are not wanted.

A failed assertion, like an exception or a loop without end, gives no result.
-/

namespace PgRouting

/-- `struct Path_t` with the node before. -/
structure PathStop extends PathT where
  pred : Int
deriving DecidableEq, Repr

/-- `class Path`, as the driving distance fills it. -/
structure DrivingPath where
  startId : Int
  endId : Int
  path : List PathStop
deriving DecidableEq, Repr

/-- `std::map<int64_t, int64_t>` -/
abbrev DepthMap := Int → Option Int

/-- The number of the call of `dijkstra_distance_visitor::examine_vertex` that throws, or of all
    calls when none does. -/
def distanceCalls (distanceGoal : ℚ) (visits : BoostVisits) : List Nat → Nat → Nat
  | [], calls => calls
  | u :: rest, calls =>
    if (distanceGoal : WithTop ℚ) < visits.distances (calls + 1) u then calls + 1
    else distanceCalls distanceGoal visits rest (calls + 1)

namespace DrivingDistance

variable {V E : Type} [TVertex V] [TEdge E]

/-- `dijkstra_1_to_distance`: the predecessors and the distances. The visitor asserts that the
    distance is positive. -/
def dijkstra1ToDistance (boost : BoostDijkstraVisits V E) (g : AdjacencyList V E) (root : Nat)
    (distance : ℚ) : Option ((Nat → Nat) × (Nat → WithTop ℚ)) :=
  if 0 < distance then
    let visits := boost g root
    let calls := distanceCalls distance visits visits.examined 0
    some (visits.predecessors calls, visits.distances calls)
  else none

variable (g : PgrBaseGraph V E)

/-- `Path(graph, source, distance, predecessors, distances)` -/
def newPath (source : Int) (distance : ℚ) (predecessors : Nat → Nat)
    (distances : Nat → WithTop ℚ) : DrivingPath where
  startId := source
  endId := source
  path := (List.range g.graph.numVertices).filterMap fun i =>
    if distances i ≤ distance then
      let cost := (distances i).untopD 0 - (distances (predecessors i)).untopD 0
      let (edgeId, cost) := g.getEdgeId (predecessors i) i cost
      some ⟨⟨g.vertexId i, edgeId, cost, (distances i).untopD 0⟩, g.vertexId (predecessors i)⟩
    else none

/-- `sort_by_node_agg_cost` -/
def sortByNodeAggCost (p : DrivingPath) : DrivingPath :=
  let path := p.path.mergeSort fun l r => l.node ≤ r.node
  { p with path := path.mergeSort fun l r => l.aggCost ≤ r.aggCost }

/-- A round of the loop that passes over the points above a node: `u` is the predecessor of
    `v`. -/
def passPoint (distances : Nat → WithTop ℚ) (predecessors : Nat → Nat) (s : Nat × Nat) :
    LoopStep (Nat × Nat) (Option Nat) :=
  let (v, u) := s
  if g.vertexId u < 0 ∧ predecessors u ≠ u then
    if distances v ≠ ⊤ then .next (u, predecessors u) else .done none
  else .done (some u)

/-- What `remove_details` does for a node whose predecessor is a point. -/
def compactNode (distances : Nat → WithTop ℚ) (predecessors : Nat → Nat) (node : Nat) :
    Option (Nat → Nat) :=
  let u := predecessors node
  if g.vertexId u < 0 then
    (runLoop (passPoint g distances predecessors) (g.graph.numVertices + 1) (node, u)).join.map
      fun u => Function.update predecessors node u
  else none

/-- `remove_details`: the predecessors afterwards. -/
def removeDetails (distances : Nat → WithTop ℚ) (predecessors : Nat → Nat) :
    Option (Nat → Nat) :=
  let nodeWithPredecessorPoint := (List.range g.graph.numVertices).filter fun v =>
    predecessors v ≠ v ∧ ¬ 0 ≤ g.vertexId (predecessors v)
  nodeWithPredecessorPoint.foldlM (compactNode g distances) predecessors

/-- The nodes on the next depth that have the predecessor `v`. -/
def verticesNext (distances : Nat → WithTop ℚ) (predecessors : Nat → Nat) (distance : ℚ)
    (v : Nat) : List Nat :=
  (List.range g.graph.numVertices).filter fun p =>
    predecessors p ≠ p ∧ distances p ≤ distance ∧ predecessors p = v

/-- The loop of `get_depth`, for a number of rounds from the depth `d` on. -/
def getDepthLoop (distances : Nat → WithTop ℚ) (predecessors : Nat → Nat) (distance : ℚ) :
    Nat → Int → List Nat → DepthMap → DepthMap
  | 0, _, _, depth => depth
  | rounds + 1, d, vertices, depth =>
    if vertices.isEmpty then depth
    else
      let found := vertices.flatMap (verticesNext g distances predecessors distance)
      getDepthLoop distances predecessors distance rounds (d + 1) found.dedup.mergeSort
        (found.foldl (fun depth p => Function.update depth (g.vertexId p) (some d)) depth)

/-- `get_depth`: the depths, and the predecessors that it has changed. -/
def getDepth (root : Nat) (distances : Nat → WithTop ℚ) (predecessors : Nat → Nat) (distance : ℚ)
    (details : Bool) : Option (DepthMap × (Nat → Nat)) :=
  if g.graph.numVertices = 0 then some (fun _ => none, predecessors)
  else do
    let depth := Function.update (fun _ => none) (g.vertexId root) (some 0)
    let predecessors ← if !details then removeDetails g distances predecessors else predecessors
    pure (getDepthLoop g distances predecessors distance (g.graph.numVertices - 1) 1 [root] depth,
      predecessors)

/-- The update of the cost of a row when details are not wanted. -/
def updateCost (distances : Nat → WithTop ℚ) (predecessors : Nat → Nat) (pathstop : PathStop) :
    Option PathStop :=
  (g.verticesMap pathstop.node).map fun node =>
    if g.vertexId node < 0 then pathstop
    else
      { pathstop with
        cost := (distances node).untopD 0 - (distances (predecessors node)).untopD 0 }

/-- The path and the depths of one root. -/
def ofRoot (boost : BoostDijkstraVisits V E) (distance : ℚ) (details : Bool) (root : Int) :
    Option (DrivingPath × DepthMap) :=
  match g.verticesMap root with
  | some v => do
    let (predecessors, distances) ← dijkstra1ToDistance boost g.graph v distance
    let path := sortByNodeAggCost (newPath g root distance predecessors distances)
    let (depth, predecessors) ← getDepth g v distances predecessors distance details
    if !details then
      let rows ← path.path.mapM (updateCost g distances predecessors)
      pure ({ path with path := rows }, depth)
    else pure (path, depth)
  -- A root that is no vertex has a row of its own.
  | none =>
    some (⟨root, root, [⟨⟨root, -1, 0, 0⟩, root⟩]⟩, Function.update (fun _ => none) root (some 0))

/-- `drivingDistance_no_equicost`: the paths, each with what is pushed on `depths` for it. -/
def drivingDistanceNoEquicost (boost : BoostDijkstraVisits V E) (roots : List Int) (distance : ℚ)
    (details : Bool) : Option (List (DrivingPath × DepthMap)) :=
  roots.mapM (ofRoot g boost distance details)

end DrivingDistance

end PgRouting
