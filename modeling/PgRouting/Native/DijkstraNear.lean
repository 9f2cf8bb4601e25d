import PgRouting.Native.Dijkstra

/-!
# The nearest goals

`algorithms::dijkstra` with a number of goals, and the `post_process` of its
drivers, which `pgr_dijkstraNear` and `pgr_dijkstraNearCost` use.

What Boost does is a parameter: the order in which it examines the vertices and the
maps it keeps meanwhile. The visitor, which stops it, is modelled.
-/

namespace PgRouting

/-- What `boost::dijkstra_shortest_paths` does from one vertex when nothing stops it: the
    vertices in the order in which `examine_vertex` is called for them, and the two maps as they
    are after a number of these calls. -/
structure BoostVisits where
  examined : List Nat
  predecessors : Nat → Nat → Nat
  distances : Nat → Nat → WithTop ℚ

/-- `boost::dijkstra_shortest_paths`, with any visitor. -/
abbrev BoostDijkstraVisits (V E : Type) := AdjacencyList V E → Nat → BoostVisits

/-- `class dijkstra_many_goal_visitor` -/
structure DijkstraManyGoalVisitor where
  goals : List Nat
  nGoals : Nat
  foundGoals : List Nat

namespace DijkstraManyGoalVisitor

/-- `examine_vertex`: whether it throws, and the visitor afterwards. -/
def examineVertex (vis : DijkstraManyGoalVisitor) (u : Nat) : Bool × DijkstraManyGoalVisitor :=
  if u ∉ vis.goals then (false, vis)
  else
    let goals := vis.goals.filter (· ≠ u)
    let found := vis.foundGoals ++ [u]
    if goals.length = 0 then (true, { vis with goals := goals, foundGoals := found })
    else
      (vis.nGoals - 1 = 0, { goals := goals, nGoals := vis.nGoals - 1, foundGoals := found })

/-- The calls of `examine_vertex` up to the one that throws: their number, the goals that have
    been found and whether one of them has thrown. -/
def visit : List Nat → DijkstraManyGoalVisitor → Nat × List Nat × Bool
  | [], vis => (0, vis.foundGoals, false)
  | u :: rest, vis =>
    match vis.examineVertex u with
    | (true, vis) => (1, vis.foundGoals, true)
    | (false, vis) =>
      let (calls, r) := visit rest vis
      (calls + 1, r)

end DijkstraManyGoalVisitor

namespace DijkstraNear

variable {V E : Type} [TVertex V] [TEdge E] (boost : BoostDijkstraVisits V E)

/-- `dijkstra_1_to_many`: the predecessors and the distances. -/
def dijkstra1ToMany (g : AdjacencyList V E) (departure : Nat) (destinations : List Nat)
    (nGoals : Nat) : (Nat → Nat) × (Nat → WithTop ℚ) :=
  let visits := boost g departure
  let (calls, found, thrown) := DijkstraManyGoalVisitor.visit visits.examined
    { goals := destinations, nGoals := nGoals, foundGoals := [] }
  let predecessors := visits.predecessors calls
  (if thrown then fun v => if v ∈ destinations ∧ v ∉ found then v else predecessors v
    else predecessors, visits.distances calls)

/-- `Path(graph, v_source, v_target, predecessors, distances, only_cost, normal)`, which adds
    the costs of its rows to an `m_tot_cost` that it has not set: `unset` is what the memory
    holds. -/
def newPath (g : PgrBaseGraph V E) (unset : Nat → Nat → ℚ) (vSource vTarget : Nat)
    (predecessors : Nat → Nat) (distances : Nat → WithTop ℚ) (onlyCost : Bool) : Option Path :=
  (Path.ofPredecessors g vSource vTarget predecessors distances onlyCost true).map fun p =>
    { p with totCost := unset vSource vTarget + p.totCost }

/-- `detail::dijkstra` -/
def dijkstraFrom (g : PgrBaseGraph V E) (unset : Nat → Nat → ℚ) (startVertex : Int)
    (endVertex : List Int) (onlyCost : Bool) (nGoals : Nat) : Option (List Path) :=
  match g.verticesMap startVertex with
  | none => some []
  | some departure =>
    let destinations := (endVertex.filterMap g.verticesMap).dedup.mergeSort
    let (predecessors, distances) := dijkstra1ToMany boost g.graph departure destinations nGoals
    destinations.mapM fun target =>
      newPath g unset departure target predecessors distances onlyCost

/-- `algorithms::dijkstra(graph, combinations, only_cost, n_goals)` -/
def dijkstra (g : PgrBaseGraph V E) (unset : Nat → Nat → ℚ) (combinations : List (Int × List Int))
    (onlyCost : Bool) (nGoals : Nat) : Option (List Path) :=
  combinations.foldlM (fun paths c => do
    let rPaths ← dijkstraFrom boost g unset c.1 c.2 onlyCost nGoals
    pure (rPaths ++ paths)) []

/-- `std::numeric_limits<size_t>::max()` -/
def sizeMax : Nat := 2 ^ 64 - 1

/-- `post_process`. No two paths join the same ends, so it makes no difference that `std::sort`
    may exchange paths with the same last vertex. -/
def postProcess (paths : List Path) (onlyCost normal : Bool) (nGoals : Nat) (global : Bool) :
    List Path :=
  let paths := paths.filter (·.path.length ≠ 0)
  let paths := if !normal then paths.map Path.reverse else paths
  let paths := if !onlyCost then paths.map Path.recalculateAggCost else paths
  let paths := paths.mergeSort fun e₁ e₂ => e₁.endId ≤ e₂.endId
  let paths := paths.mergeSort fun e₁ e₂ => e₁.startId ≤ e₂.startId
  if nGoals ≠ sizeMax then
    let paths := paths.mergeSort fun e₁ e₂ => e₁.totCost ≤ e₂.totCost
    if global ∧ nGoals < paths.length then paths.take nGoals else paths
  else paths

end DijkstraNear

end PgRouting
