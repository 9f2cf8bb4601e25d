import PgRouting.Native.BaseGraph
import Mathlib.Data.Finset.Basic
import Mathlib.Data.List.Sort

/-!
# The rows of spanning trees

`Pgr_mst` turns the edges of a spanning forest into rows, tree by tree, in the order in which
Boost visits the edges. The depths and the costs are kept in tables, in which 0 stands for a
vertex that has not been seen and -1 for the root of a tree.

The Boost functions are parameters. They give the edges as they look from the vertex at which
they have been met.
-/

namespace PgRouting

/-- `MST_rt` -/
structure MstRt where
  fromV : Int
  depth : Int
  pred : Int
  node : Int
  edge : Int
  cost : ℚ
  aggCost : ℚ
deriving DecidableEq

/-- `details::clean_vids` -/
def cleanVids (vids : List Int) : List Int := (vids.mergeSort (· ≤ ·)).dedup.filter (· ≠ 0)

/-- The values of `m_suffix`, which is empty when there is none. -/
inductive MstSuffix
  | none
  | bfs
  | dfs
  | dd
deriving DecidableEq

/-- `class Pgr_mst` -/
structure PgrMst where
  suffix : MstSuffix
  getComponent : Bool
  distance : ℚ
  maxDepth : Int
  roots : List Int
  spanningTree : Finset Nat
  components : Nat → Nat := fun _ => 0
  treeId : List Int := []

/-- `boost::connected_components`: the component of each vertex, and their number. -/
abbrev BoostComponents := AdjacencyList BasicVertex BasicEdge → (Nat → Nat) × Nat

/-- The edges for which `boost::breadth_first_search` calls `tree_edge`, from a vertex of the graph
    that has only some of the edges. -/
abbrev BoostBfs := AdjacencyList BasicVertex BasicEdge → Finset Nat → Nat →
  List (BoostEdge BasicEdge)

/-- The calls of `boost::depth_first_search`: for each call of `start_vertex`, the edges for which
    `tree_edge` is called after it. -/
abbrev BoostDfs := AdjacencyList BasicVertex BasicEdge → Finset Nat → Option Nat →
  List (Nat × List (BoostEdge BasicEdge))

/-- What the loop of `get_results` changes. -/
structure MstResults where
  root : Int
  aggCost : Nat → ℚ := fun _ => 0
  depth : Nat → Int := fun _ => 0
  results : List MstRt := []

namespace PgrMst

variable (m : PgrMst) (graph : PgrBaseGraph BasicVertex BasicEdge)

/-- The row for a root of which nothing is known but its id. -/
def rootRow (root : Int) : MstRt :=
  { fromV := root, depth := 0, pred := root, node := root, edge := -1, cost := 0, aggCost := 0 }

/-- A row within the limit of the function that is executed. -/
def withinLimit (depth : Int) (aggCost : ℚ) : Prop :=
  m.suffix = .none ∨ (m.suffix = .bfs ∧ m.maxDepth ≥ depth) ∨
    (m.suffix = .dfs ∧ m.maxDepth ≥ depth) ∨ (m.suffix = .dd ∧ m.distance ≥ aggCost)

instance (depth : Int) (aggCost : ℚ) : Decidable (m.withinLimit depth aggCost) := by
  unfold withinLimit
  infer_instance

/-- The start of a tree in `get_results`: which end of the first edge is the root, its row, and the
    ends in their new order. -/
def startTree (pRoot component : Int) (u v : Nat) (s : MstResults) : Nat × Nat × MstResults :=
  let (u, v) := if m.roots ≠ [] ∧ graph.vertexId u ≠ s.root then (v, u) else (u, v)
  let (u, v) := if m.roots = [] ∧ graph.vertexId u ≠ component then (v, u) else (u, v)
  let (u, v) := if pRoot = 0 ∧ graph.vertexId u > graph.vertexId v then (v, u) else (u, v)
  let root := if pRoot ≠ 0 then pRoot else graph.vertexId u
  let row : MstRt :=
    { fromV := root, depth := 0, pred := graph.vertexId u, node := graph.vertexId u, edge := -1
      cost := 0, aggCost := 0 }
  let depth := Function.update s.depth u (-1)
  (u, v, { s with root := root, depth := depth, results := s.results ++ [row] })

/-- The end of the body of the loop of `get_results`: `v` comes below `u`. -/
def addEdge (edge : BasicEdge) (u v : Nat) (s : MstResults) : MstResults :=
  let aggCost := Function.update s.aggCost v (s.aggCost u + edge.cost)
  let depth := Function.update s.depth v (if s.depth u = -1 then 1 else s.depth u + 1)
  let row : MstRt :=
    { fromV := s.root
      depth := if m.suffix ≠ .none then depth v else 0
      pred := graph.vertexId u
      node := graph.vertexId v
      edge := edge.id
      cost := edge.cost
      aggCost := if m.suffix ≠ .none then aggCost v else 0 }
  { root := s.root
    aggCost := aggCost
    depth := depth
    results := s.results ++ (if m.withinLimit (depth v) (aggCost v) then [row] else []) }

/-- The body of the loop of `get_results`. -/
def addResult (pRoot : Int) (s : MstResults) (edge : BoostEdge BasicEdge) : MstResults :=
  let (u, v) := if s.depth edge.source = 0 ∧ s.depth edge.target ≠ 0 then
    (edge.target, edge.source) else (edge.source, edge.target)
  let component := if m.getComponent then m.treeId.getD (m.components u) 0 else 0
  let (u, v, s) := if m.suffix ≠ .none ∧ s.depth u = 0 ∧ s.depth v = 0 then
    m.startTree graph pRoot component u v s else (u, v, s)
  m.addEdge graph edge.bundle u v s

/-- `get_results` -/
def getResults (order : List (BoostEdge BasicEdge)) (pRoot : Int) : List MstRt :=
  (order.foldl (m.addResult graph pRoot) { root := pRoot }).results

/-- The body of the loop of `calculate_component`. -/
def addTreeId (components : Nat → Nat) (treeId : List Int) (v : Nat) : List Int :=
  let id := treeId.getD (components v) 0
  treeId.set (components v) (if id = 0 ∨ id ≥ graph.vertexId v then graph.vertexId v else id)

/-- `calculate_component` -/
def calculateComponent (boost : BoostComponents) : PgrMst :=
  if !m.getComponent then m
  else
    let (components, numComps) := boost graph.graph
    { m with
      components := components
      treeId := (List.range graph.graph.numVertices).foldl (addTreeId graph components)
        ((m.treeId ++ List.replicate (numComps - m.treeId.length) 0).take numComps) }

/-- `dfs_forest` -/
def dfsForest (boost : BoostDfs) : List MstRt :=
  m.getResults graph ((boost graph.graph m.spanningTree none).flatMap (·.2)) 0

/-- The rows for one of the roots, with the edges that are visited from a vertex. -/
def rootResults (order : Nat → List (BoostEdge BasicEdge)) (root : Int) : List MstRt :=
  match graph.verticesMap root with
  | some v => m.getResults graph (order v) root
  | none => [rootRow root]

/-- The edges that `Dfs_visitor_with_root` has collected when it throws at the first start vertex
    other than its root. -/
def visitWithRoot (root : Nat) (calls : List (Nat × List (BoostEdge BasicEdge))) :
    List (BoostEdge BasicEdge) :=
  (calls.takeWhile (·.1 = root)).flatMap (·.2)

/-- `dfs_ordering` -/
def dfsOrdering (boost : BoostDfs) : List MstRt :=
  if m.roots = [] then m.dfsForest graph boost
  else
    m.roots.flatMap
      (m.rootResults graph fun v => visitWithRoot v (boost graph.graph m.spanningTree (some v)))

/-- `bfs_ordering` -/
def bfsOrdering (components : BoostComponents) (boost : BoostBfs) : List MstRt :=
  let m := m.calculateComponent graph components
  let roots := if m.roots ≠ [] then m.roots else m.treeId
  roots.flatMap (m.rootResults graph (boost graph.graph m.spanningTree))

end PgrMst

/-! ## The functions -/

variable (graph : PgrBaseGraph BasicVertex BasicEdge) (spanningTree : Finset Nat)

/-- `mstBFS`, after `generate_mst` -/
def mstBFS (components : BoostComponents) (boost : BoostBfs) (roots : List Int) (maxDepth : Int) :
    List MstRt :=
  PgrMst.bfsOrdering
    { suffix := .bfs, getComponent := true, distance := -1, maxDepth := maxDepth
      roots := cleanVids roots, spanningTree := spanningTree } graph components boost

/-- `mstDFS`, after `generate_mst` -/
def mstDFS (boost : BoostDfs) (roots : List Int) (maxDepth : Int) : List MstRt :=
  PgrMst.dfsOrdering
    { suffix := .dfs, getComponent := false, distance := -1, maxDepth := maxDepth
      roots := cleanVids roots, spanningTree := spanningTree } graph boost

/-- `mstDD`, after `generate_mst` -/
def mstDD (boost : BoostDfs) (roots : List Int) (distance : ℚ) : List MstRt :=
  PgrMst.dfsOrdering
    { suffix := .dd, getComponent := false, distance := distance, maxDepth := -1
      roots := cleanVids roots, spanningTree := spanningTree } graph boost

end PgRouting
