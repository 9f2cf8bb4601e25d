import PgRouting.Native.BaseGraph
import PgRouting.Native.Path
import Mathlib.Algebra.Order.Field.Rat
import Mathlib.Algebra.Order.Monoid.WithTop
import Mathlib.Data.List.Dedup

/-!
# Dijkstra

`algorithms::dijkstra` calls `boost::dijkstra_shortest_paths` and reads a path
back from the predecessors and the distances that it leaves. The Boost function is
a parameter; the rest is modelled as it stands.

A distance of `⊤` is infinity. An empty `std::deque` has no front, so the function
for one pair may return nothing.
-/

namespace PgRouting

/-- What `boost::dijkstra_shortest_paths` leaves: the predecessor map, the distance map and,
    when the visitor has stopped it, the goals that have been found. -/
structure ShortestPaths where
  predecessors : Nat → Nat
  distances : Nat → WithTop ℚ
  goalsFound : Option (List Nat)

/-- `boost::dijkstra_shortest_paths` from a vertex, with a `dijkstra_many_goal_visitor` that
    stops it when all the goals have been found. -/
abbrev BoostDijkstra (V E : Type) := AdjacencyList V E → Nat → List Nat → ShortestPaths

variable {V E : Type} [TVertex V] [TEdge E]

namespace PgrBaseGraph

variable {K : Type} [Field K] [LinearOrder K]

/-- The loop of `get_edge_id`. -/
def getEdgeIdLoop (src dst : Nat) (weight : K) :
    List (BoostEdge E) → WithTop K → Int → Int × K
  | [], minCost, minEdge => (minEdge, if minEdge = -1 then 0 else minCost.untopD 0)
  | e :: rest, minCost, minEdge =>
    let cost : K := (TEdge.cost e.bundle : ℚ)
    if src = e.source ∧ dst = e.target ∧ weight = cost then (TEdge.id e.bundle, weight)
    else if src = e.source ∧ dst = e.target ∧ (cost : WithTop K) < minCost then
      getEdgeIdLoop src dst weight rest cost (TEdge.id e.bundle)
    else getEdgeIdLoop src dst weight rest minCost minEdge

/-- `get_edge_id`: the id of the edge and the weight that it sets. -/
def getEdgeId (g : PgrBaseGraph V E) (src dst : Nat) (weight : K) : Int × K :=
  getEdgeIdLoop src dst weight (g.graph.outEdges src) ⊤ (-1)

end PgrBaseGraph

namespace Path

variable {K : Type} [Field K] [LinearOrder K]

/-- The loop of `complete_path`. A walk over the predecessors that is longer than there are
    vertices has no end. -/
def completePathLoop (g : PgrBaseGraph V E) (vSource : Nat) (predecessors : Nat → Nat)
    (distances : Nat → WithTop K) (normal : Bool) : Nat → Nat → Path K → Option (Path K)
  | 0, _, _ => none
  | n + 1, target, p =>
    if target = vSource then some p
    -- A vertex that was not reached is its own predecessor.
    else if target = predecessors target then some p
    else
      let cost := (distances target).untopD 0 - (distances (predecessors target)).untopD 0
      let (edgeId, cost) := if normal then g.getEdgeId (predecessors target) target cost
        else g.getEdgeId target (predecessors target) cost
      completePathLoop g vSource predecessors distances normal n (predecessors target)
        (p.pushFront ⟨g.vertexId (predecessors target), edgeId, cost,
          (distances target).untopD 0 - cost⟩)

/-- `complete_path` -/
def completePath (g : PgrBaseGraph V E) (vSource vTarget : Nat) (predecessors : Nat → Nat)
    (distances : Nat → WithTop K) (normal : Bool) (p : Path K) : Option (Path K) :=
  if vTarget = predecessors vTarget then some p
  else completePathLoop g vSource predecessors distances normal (g.graph.numVertices + 1) vTarget
    (p.pushFront ⟨g.vertexId vTarget, -1, 0, (distances vTarget).untopD 0⟩)

/-- `Path(graph, v_source, v_target, predecessors, distances, only_cost, normal)` -/
def ofPredecessors (g : PgrBaseGraph V E) (vSource vTarget : Nat) (predecessors : Nat → Nat)
    (distances : Nat → WithTop K) (onlyCost normal : Bool) : Option (Path K) :=
  let p := Path.new (g.vertexId vSource) (g.vertexId vTarget)
  if !onlyCost then completePath g vSource vTarget predecessors distances normal p
  else if vTarget ≠ predecessors vTarget then
    some (p.pushFront ⟨g.vertexId vTarget, -1, (distances vTarget).untopD 0,
      (distances vTarget).untopD 0⟩)
  else some p

end Path

namespace Algorithms

variable (boost : BoostDijkstra V E)

/-- `dijkstra_1_to_many`: the predecessors and the distances. -/
def dijkstra1ToMany (g : AdjacencyList V E) (departure : Nat) (destinations : List Nat) :
    (Nat → Nat) × (Nat → WithTop ℚ) :=
  let r := boost g departure destinations
  match r.goalsFound with
  | some found =>
    (fun v => if v ∈ destinations ∧ v ∉ found then v else r.predecessors v, r.distances)
  | none => (r.predecessors, r.distances)

/-- `detail::dijkstra`: the paths from one vertex, in the order of the `std::set` of the
    destinations. -/
def dijkstraFrom (g : PgrBaseGraph V E) (startVertex : Int) (endVertex : List Int)
    (onlyCost : Bool) : Option (List Path) :=
  match g.verticesMap startVertex with
  | none => some []
  | some departure =>
    let destinations := (endVertex.filterMap g.verticesMap).dedup.mergeSort
    let (predecessors, distances) := dijkstra1ToMany boost g.graph departure destinations
    destinations.mapM fun target =>
      Path.ofPredecessors g departure target predecessors distances onlyCost true

/-- `algorithms::dijkstra(graph, combinations, only_cost)` -/
def dijkstraCombinations (g : PgrBaseGraph V E) (combinations : List (Int × List Int))
    (onlyCost : Bool) : Option (List Path) :=
  combinations.foldlM (fun paths c => do
    let rPaths ← dijkstraFrom boost g c.1 c.2 onlyCost
    pure (rPaths ++ paths)) []

/-- `algorithms::dijkstra(graph, start_vertex, end_vertex, only_cost)` -/
def dijkstra (g : PgrBaseGraph V E) (startVertex endVertex : Int) (onlyCost : Bool) :
    Option Path := do
  let paths ← dijkstraCombinations boost g [(startVertex, [endVertex])] onlyCost
  paths.head?

end Algorithms

end PgRouting
