import PgRouting.Lib.Loop
import PgRouting.Lib.PriorityQueue
import PgRouting.Native.Contraction
import PgRouting.Native.DijkstraNear
import Mathlib.Data.Rat.Floor
import Mathlib.Data.Prod.Lex

/-!
# Contraction hierarchies

`detail::contractionHierarchies` takes the vertices from a queue, simulates the contraction
of each to find its metric, and contracts it when no other vertex comes first.

What Boost does is a parameter, and it sees no more of a graph than its edges and their costs.
An edge descriptor is the edge itself: a shortcut is added only where no edge joins its ends.
Ids, metrics and `p_max` are unbounded integers. An empty queue has no top.

The list `contracted` is not in the source: it records which vertices have really been
contracted, the latest first. The metric and the order that a vertex gets at the end are a function
of the vertices, which is made of the queue that the loop leaves.
-/

namespace PgRouting

namespace AdjacencyList

/-- What `boost::dijkstra_shortest_paths` reads of the graph, with the costs as `weight_map`. -/
def weights (g : AdjacencyList CHVertex CHEdge) : AdjacencyList Unit ℚ where
  directed := g.directed
  vertices := g.vertices.map fun _ => ()
  edges := g.edges.map fun e => ⟨e.source, e.target, e.bundle.cost⟩

end AdjacencyList

/-- The conversion of a `double` to `int64_t`, which cuts the fraction off. -/
def toInt64 (x : ℚ) : Int := if 0 ≤ x then ⌊x⌋ else ⌈x⌉

/-- The number of the call of `dijkstra_max_distance_visitor::examine_vertex` that throws, or of all
    calls when none does. -/
def maxDistanceCalls (distanceGoal : Int) (visits : BoostVisits) : List Nat → Nat → Nat
  | [], calls => calls
  | u :: rest, calls =>
    if ((distanceGoal : ℚ) : WithTop ℚ) < visits.distances (calls + 1) u then calls + 1
    else maxDistanceCalls distanceGoal visits rest (calls + 1)

namespace PgrContractionGraph

variable (g : PgrContractionGraph)

/-- `find_adjacent_out_vertices` -/
def findAdjacentOutVertices (v : Nat) : Identifiers Nat :=
  (g.graph.outEdges v).foldl
    (fun adjacentVertices e => adjacentVertices.add (PgrBaseGraph.adjacent v e)) .empty

/-- `find_adjacent_in_vertices` -/
def findAdjacentInVertices (v : Nat) : Identifiers Nat :=
  (g.graph.inEdges v).foldl
    (fun adjacentVertices e => adjacentVertices.add (PgrBaseGraph.adjacent v e)) .empty

/-- The loop of `compute_pmax`. -/
def pmaxLoop (u v : Nat) (cost : ℚ) : List Nat → Int → Int
  | [], pMax => pMax
  | w :: rest, pMax =>
    match g.graph.edge v w with
    | some f =>
      pmaxLoop u v cost rest
        (if u ≠ w ∧ (pMax : ℚ) < cost + f.bundle.cost then toInt64 (cost + f.bundle.cost) else pMax)
    | none => pmaxLoop u v cost rest pMax

/-- `compute_pmax` -/
def computePmax (u v : Nat) (outVertices : Identifiers Nat) : Int :=
  match g.graph.edge u v with
  | some e => g.pmaxLoop u v e.bundle.cost outVertices.ids (toInt64 e.bundle.cost)
  | none => 0

/-- `process_ch_shortcut` -/
def processChShortcut (u v w : Nat) (shortcuts : List (BoostEdge CHEdge)) :
    PgrContractionGraph × List (BoostEdge CHEdge) :=
  if g.isShortcutPossible u v w && !g.hasEdge u w then
    ({ g with
        graph := g.graph.addEdge u w (g.shortcut u v w)
        minEdgeId := g.minEdgeId - 1 },
      shortcuts ++ [⟨u, w, g.shortcut u v w⟩])
  else (g, shortcuts)

/-- `copy_shortcuts` -/
def copyShortcuts (shortcuts : List CHEdge) : PgrContractionGraph :=
  shortcuts.foldl (fun g shortcut =>
    g.addShortcut shortcut ((g.verticesMap shortcut.source).getD 0)
      ((g.verticesMap shortcut.target).getD 0)) g

end PgrContractionGraph

namespace ContractionHierarchies

variable (boost : BoostDijkstraVisits Unit ℚ)

/-- The search of `compute_shortcuts`: the predecessors and the distances. -/
def labelling (g : PgrContractionGraph) (u : Nat) (pMax : Int) :
    (Nat → Nat) × (Nat → WithTop ℚ) :=
  let visits := boost g.graph.weights u
  let calls := maxDistanceCalls pMax visits visits.examined 0
  (visits.predecessors calls, visits.distances calls)

/-- The tests of `compute_shortcuts` for the passage from `u` through `v` to `w`. -/
def isWitness (g : PgrContractionGraph) (predecessors : Nat → Nat) (distances : Nat → WithTop ℚ)
    (u v w : Nat) : Bool :=
  if u = w then false
  else
    match g.graph.edge u v, g.graph.edge v w with
    | some e, some f =>
      (match g.graph.edge u w with
        | some h => decide (distances w < ((h.bundle.cost : ℚ) : WithTop ℚ))
        | none => true) &&
      decide (predecessors w = v) && decide (predecessors v = u) &&
      decide (distances w = ((e.bundle.cost + f.bundle.cost : ℚ) : WithTop ℚ))
    | _, _ => false

/-- The body of the loop of `compute_shortcuts`. -/
def shortcutStep (predecessors : Nat → Nat) (distances : Nat → WithTop ℚ) (u v : Nat)
    (s : PgrContractionGraph × List (BoostEdge CHEdge)) (w : Nat) :
    PgrContractionGraph × List (BoostEdge CHEdge) :=
  if isWitness s.1 predecessors distances u v w then s.1.processChShortcut u v w s.2 else s

/-- `compute_shortcuts` -/
def computeShortcuts (u v : Nat) (outVertices : Identifiers Nat)
    (s : PgrContractionGraph × List (BoostEdge CHEdge)) :
    PgrContractionGraph × List (BoostEdge CHEdge) :=
  let pMax := s.1.computePmax u v outVertices
  if 0 < pMax then
    let (predecessors, distances) := labelling boost s.1 u pMax
    outVertices.ids.foldl (shortcutStep predecessors distances u v) s
  else s

/-- The neighbours of a vertex: where edges come from, where they lead to, and their number. -/
def neighbours (g : PgrContractionGraph) (directed : Bool) (v : Nat) :
    Identifiers Nat × Identifiers Nat × Int :=
  if directed then
    let adjacentIn := g.findAdjacentInVertices v
    let adjacentOut := g.findAdjacentOutVertices v
    (adjacentIn, adjacentOut, ((adjacentIn.size + adjacentOut.size : Nat) : Int))
  else
    let adjacent := g.findAdjacentVertices v
    (adjacent, adjacent, (adjacent.size : Int))

/-- The end of a real contraction: the edges of `v` and its contracted vertices are removed. -/
def takeOut (g : PgrContractionGraph) (v : Nat) (adjacentOut : Identifiers Nat) :
    PgrContractionGraph :=
  let g := adjacentOut.ids.foldl (fun g w => { g with graph := g.graph.removeEdge v w }) g
  let g := (g.findAdjacentInVertices v).ids.foldl
    (fun g u => { g with graph := g.graph.removeEdge u v }) g
  g.modifyVertex v CHVertex.clearContractedVertices

/-- The end of a simulation: the shortcuts are removed. -/
def takeBack (g : PgrContractionGraph) (shortcutEdges : List (BoostEdge CHEdge)) :
    PgrContractionGraph :=
  shortcutEdges.foldl
    (fun g e => { g with graph := { g.graph with edges := g.graph.edges.erase e } }) g

/-- `vertex_contraction`: the graph and the shortcuts afterwards, and the metric. -/
def vertexContraction (g : PgrContractionGraph) (directed : Bool) (v : Nat) (simulation : Bool)
    (shortcuts : List CHEdge) : PgrContractionGraph × List CHEdge × Int :=
  let (adjacentIn, adjacentOut, oldEdges) := neighbours g directed v
  let (g, shortcutEdges) := adjacentIn.ids.foldl
    (fun s u => computeShortcuts boost u v adjacentOut s) (g, [])
  let m := (shortcutEdges.length : Int) - oldEdges
  if !simulation then (takeOut g v adjacentOut, shortcuts ++ shortcutEdges.map (·.bundle), m)
  else (takeBack g shortcutEdges, shortcuts, m)

/-- The variables of the loop. -/
structure State where
  graphCopy : PgrContractionGraph
  shortcuts : List CHEdge := []
  minPQ : PriorityQueue (Int ×ₗ Nat)
  priorityQueue : PriorityQueue (Int ×ₗ Nat) := []
  contracted : List Nat := []

/-- One round of the loop; `none` when an empty queue is asked for its top. -/
def round (graph : PgrContractionGraph) (directed : Bool) (s : State) :
    LoopStep State (Option State) :=
  match PriorityQueue.top? s.minPQ with
  | none => .done (some s)
  | some orderedVertex =>
    let minPQ := PriorityQueue.pop s.minPQ
    let v := (ofLex orderedVertex).2
    let (graphCopy, shortcuts, correctedMetric) :=
      -- The simulation goes by the same shortcuts and the same `min_edge_id`.
      vertexContraction boost s.graphCopy directed v true s.shortcuts
    match PriorityQueue.top? minPQ with
    -- `minPQ.top()` after the last element has been popped.
    | none => .done none
    | some top =>
      if (ofLex top).1 < correctedMetric then
        .next { s with
          graphCopy := graphCopy
          shortcuts := shortcuts
          minPQ := PriorityQueue.push (toLex (correctedMetric, v)) minPQ }
      else
        let u := (graph.verticesMap (graph.vertex v).id).getD 0
        let (graphCopy, shortcuts, metric) :=
          vertexContraction boost graphCopy directed u false shortcuts
        .next
          { graphCopy := graphCopy
            shortcuts := shortcuts
            minPQ := minPQ
            priorityQueue := PriorityQueue.push (toLex (metric, v)) s.priorityQueue
            contracted := u :: s.contracted }

/-- The variables before the loop: the queue has the vertices that may be contracted, in the order
    of their ids. -/
def start (graph : PgrContractionGraph) : State where
  graphCopy := graph
  minPQ := (List.range graph.graph.numVertices).foldl (fun minPQ v =>
    if !graph.isForbidden v then PriorityQueue.push (toLex ((graph.vertex v).id, v)) minPQ
    else minPQ) []

/-- `detail::contractionHierarchies`: the graph with the shortcuts, and the variables behind the
    loop; `none` when the loop takes more than `n` rounds, or asks an empty queue for its top. -/
def contractionHierarchies (n : Nat) (graph : PgrContractionGraph) (directed : Bool) :
    Option (PgrContractionGraph × State) :=
  (runLoop (round boost graph directed) n (start graph)).join.map fun s =>
    (graph.copyShortcuts s.shortcuts, s)

/-! ## The rows -/

/-- The types of the rows. -/
inductive RowType
  | v
  | e
deriving DecidableEq, Repr

/-- `contractionHierarchies_rt` -/
structure ContractionHierarchiesRt where
  id : Int
  type : RowType
  source : Int
  target : Int
  cost : ℚ
  contractedVertices : List Int
  vertexOrder : Int
  metric : Int
deriving DecidableEq, Repr

/-- The first `n` vertices that come out of the queue, with their metrics. -/
def popAll : Nat → PriorityQueue (Int ×ₗ Nat) → List (Int ×ₗ Nat)
  | 0, _ => []
  | n + 1, queue =>
    match PriorityQueue.top? queue with
    | none => []
    | some orderedVertex => orderedVertex :: popAll n (PriorityQueue.pop queue)

/-- `set_vertices_metric_and_hierarchy`: the metric and the order of a vertex, which are -1
    before. -/
def setVerticesMetricAndHierarchy (priorityQueue : PriorityQueue (Int ×ₗ Nat)) : Nat → Int × Int :=
  ((popAll priorityQueue.length priorityQueue).zipIdx 1).foldl (fun metrics orderedVertex =>
    Function.update metrics (ofLex orderedVertex.1).2
      ((ofLex orderedVertex.1).1, (orderedVertex.2 : Int))) fun _ => (-1, -1)

variable (graph : PgrContractionGraph) (metrics : Nat → Int × Int)

/-- `get_shortcuts` -/
def getShortcuts : List CHEdge :=
  ((graph.graph.edges.map (·.bundle)).filter (·.id < 0)).mergeSort fun lhs rhs =>
    decide (-1 * lhs.id ≤ -1 * rhs.id)

/-- `get_modified_vertices` -/
def getModifiedVertices : Identifiers Int :=
  (List.range graph.graph.numVertices).foldl (fun vids v =>
    if (metrics v).2 > 0 ∨ (graph.vertex v).contractedVertices.ids ≠ [] then
      vids.add (graph.vertex v).id
    else vids) .empty

/-- The row of a vertex. -/
def vertexRow (id : Int) : ContractionHierarchiesRt :=
  let v := (graph.verticesMap id).getD 0
  ⟨id, .v, -1, -1, -1, (graph.vertex v).contractedVertices.ids, (metrics v).2, (metrics v).1⟩

/-- The rows of the shortcuts, with ids of their own. -/
def shortcutRows (eid : Int) : List CHEdge → List ContractionHierarchiesRt
  | [] => []
  | edge :: shortcutEdges =>
    ⟨eid - 1, .e, edge.source, edge.target, edge.cost, edge.contractedVertices.ids, -1, -1⟩ ::
      shortcutRows (eid - 1) shortcutEdges

/-- `graph_to_tuple` -/
def graphToTuple : List ContractionHierarchiesRt :=
  (getModifiedVertices graph metrics).ids.map (vertexRow graph metrics) ++
    shortcutRows 0 (getShortcuts graph)

end ContractionHierarchies

end PgRouting
