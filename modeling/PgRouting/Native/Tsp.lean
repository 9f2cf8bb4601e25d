import PgRouting.Native.Dijkstra
import PgRouting.Native.Identifiers

/-!
# The travelling salesperson

`UndirectedHasCostBG`, the graph of a cost matrix, and `tsp.cpp`: the tour that Boost
approximates is given its costs, a dummy vertex keeps the start and the end of the tour
together, and the reversal of parts of the tour is tried out.
-/

namespace PgRouting

/-- `struct IID_t_rt`: a row of the matrix. -/
structure IIDT where
  fromVid : Int
  toVid : Int
  cost : ℚ
deriving DecidableEq, Repr

/-- `edge_weight_t`, which may be infinite. -/
abbrev Weight := WithTop ℚ

/-- `class UndirectedHasCostBG`. The ids, `m_id_to_V` and `m_V_to_id`, stand at the vertices. -/
structure UndirectedHasCostBG where
  graph : AdjacencyList Int Weight
  nodup : graph.vertices.Nodup
  undirected : graph.directed = false

/-- What is thrown, with its first text, or what C++ does not define. -/
inductive TspError where
  | internal (message : String)
  | undefined
deriving DecidableEq, Repr

namespace UndirectedHasCostBG

/-- The graph without vertices. -/
def empty : UndirectedHasCostBG := ⟨⟨false, [], []⟩, List.nodup_nil, rfl⟩

/-- `has_vertex` -/
def hasVertex (g : UndirectedHasCostBG) (id : Int) : Bool := decide (id ∈ g.graph.vertices)

/-- `insert_vertex` -/
def insertVertex (g : UndirectedHasCostBG) (id : Int) : UndirectedHasCostBG :=
  if h : id ∈ g.graph.vertices then g
  else
    { graph := { g.graph with vertices := g.graph.vertices ++ [id] }
      nodup := List.nodup_append.mpr ⟨g.nodup, List.nodup_singleton id, fun _ ha _ hb hab =>
        h (List.mem_singleton.mp hb ▸ hab ▸ ha)⟩
      undirected := g.undirected }

/-- `get_boost_vertex` -/
def getBoostVertex (g : UndirectedHasCostBG) (id : Int) : Except TspError Nat :=
  if id ∈ g.graph.vertices then .ok (g.graph.vertices.idxOf id)
  else .error (.internal "INTERNAL: something went wrong when getting the vertex descriptor")

/-- `get_vertex_id` -/
def getVertexId (g : UndirectedHasCostBG) (v : Nat) : Except TspError Int :=
  match g.graph.vertices[v]? with
  | some id => .ok id
  | none => .error (.internal "INTERNAL: something went wrong when getting the vertex id")

/-- `boost::add_edge` -/
def addEdge (g : UndirectedHasCostBG) (u v : Nat) (w : Weight) : UndirectedHasCostBG :=
  { g with graph := g.graph.addEdge u v w }

/-- Replace the weight of the first edge that joins the vertices. -/
def replaceWeight (joins : BoostEdge Weight → Bool) (w : Weight) :
    List (BoostEdge Weight) → List (BoostEdge Weight)
  | [] => []
  | e :: edges =>
    if joins e then { e with bundle := w } :: edges else e :: replaceWeight joins w edges

/-- `boost::put` for the weight of the edge that `boost::edge` finds. -/
def putWeight (g : UndirectedHasCostBG) (u v : Nat) (w : Weight) : UndirectedHasCostBG :=
  { g with graph := { g.graph with edges := replaceWeight (g.graph.joins u v) w g.graph.edges } }

/-- The body of the loop of the constructor that inserts the edges. -/
def insertRow (g : UndirectedHasCostBG) (edge : IIDT) : UndirectedHasCostBG :=
  if edge.fromVid = edge.toVid then g
  else if edge.cost < 0 then g
  else
    let v1 := g.graph.vertices.idxOf edge.fromVid
    let v2 := g.graph.vertices.idxOf edge.toVid
    match g.graph.edge v1 v2 with
    -- Of two rows for a pair the cheaper one counts.
    | some e =>
      if e.bundle < edge.cost then g
      else if edge.cost < e.bundle then g.putWeight v1 v2 edge.cost
      else g
    | none => g.addEdge v1 v2 edge.cost

/-- The ids of the matrix. -/
def matrixIds (distances : List IIDT) : Identifiers Int :=
  distances.foldl (fun ids d => (ids.add d.fromVid).add d.toVid) .empty

/-- The swap that the constructor makes in the row. -/
def swapRow (d : IIDT) : IIDT :=
  if d.toVid > d.fromVid then { d with fromVid := d.toVid, toVid := d.fromVid } else d

/-- `UndirectedHasCostBG(distances)` -/
def ofRows (distances : List IIDT) : UndirectedHasCostBG :=
  let ids := matrixIds distances
  let distances := distances.map swapRow
  let g := ids.ids.foldl insertVertex empty
  distances.foldl insertRow g

end UndirectedHasCostBG

/-! ## Boost -/

/-- What `tsp.cpp` calls: `boost::metric_tsp_approx_tour`, from the first vertex and from a given
    one, and `boost::dijkstra_shortest_paths` with a `dijkstra_one_goal_visitor`. -/
structure BoostTsp where
  metricTspApproxTour : AdjacencyList Int Weight → List Nat
  metricTspApproxTourFromVertex : AdjacencyList Int Weight → Nat → List Nat
  dijkstraShortestPaths : AdjacencyList Int Weight → Nat → Nat → ShortestPaths

namespace Tsp

variable (boost : BoostTsp)

/-- The loop of `get_min_cost` along the predecessors, in at most `fuel` rounds. -/
def minCostLoop (r : ShortestPaths) (u : Nat) : Nat → Nat → Weight → Except TspError Weight
  | 0, v, aggCost => if v = u then .ok aggCost else .error .undefined
  | fuel + 1, v, aggCost =>
    if v = u then .ok aggCost
    else minCostLoop r u fuel (r.predecessors v) (aggCost + r.distances (r.predecessors v))

/-- `get_min_cost` -/
def getMinCost (g : UndirectedHasCostBG) (u v : Nat) : Except TspError Weight :=
  match g.graph.edge u v with
  | some e => .ok e.bundle
  | none =>
    let r := boost.dijkstraShortestPaths g.graph u v
    match r.goalsFound with
    | none => .error (.internal "INTERNAL: graph is incomplete 1")
    | some _ => minCostLoop r u g.graph.numVertices v 0

/-- The cost of a row after the vertex `u`, if there is one. -/
def stepCost (g : UndirectedHasCostBG) (u : Option Nat) (v : Nat) : Except TspError Weight :=
  match u with
  | none => .ok 0
  | some u => getMinCost boost g u v

/-- `eval_tour` of a tour in vertices -/
def evalTour (g : UndirectedHasCostBG) : Option Nat → List Nat →
    Except TspError (List (Int × Weight))
  | _, [] => .ok []
  | u, v :: tour => do
    let cost ← stepCost boost g u v
    let id ← g.getVertexId v
    let results ← evalTour g (some v) tour
    pure ((id, cost) :: results)

/-- `eval_tour` of a tour in rows, which writes the costs into the rows. -/
def evalRows (g : UndirectedHasCostBG) : Option Nat → Weight → List (Int × Weight) →
    Except TspError (Weight × List (Int × Weight))
  | _, aggCost, [] => .ok (aggCost, [])
  | u, aggCost, node :: tour => do
    let v ← g.getBoostVertex node.1
    let cost ← stepCost boost g u v
    let (aggCost, tour) ← evalRows g (some v) (aggCost + cost) tour
    pure (aggCost, (node.1, cost) :: tour)

/-- `tsp(graph)` -/
def tsp (g : UndirectedHasCostBG) : Except TspError (List (Int × Weight)) :=
  evalTour boost g none (boost.metricTspApproxTour g.graph)

/-- `tsp(graph, start_vid)` -/
def tspFrom (g : UndirectedHasCostBG) (startVid : Int) : Except TspError (List (Int × Weight)) :=
  if !g.hasVertex startVid then .error (.internal "INTERNAL: Verify start_vid before calling")
  else do
    let v ← g.getBoostVertex startVid
    evalTour boost g none (boost.metricTspApproxTourFromVertex g.graph v)

/-- `start_vid_end_vid_are_fixed` -/
def startVidEndVidAreFixed (tspPath : List (Int × Weight)) (endVid : Int) :
    Except TspError (List (Int × Weight)) :=
  let where_ := tspPath.findIdx fun row => row.1 = 0
  match tspPath with
  | first :: rest =>
    -- A rotation needs the place of the 0 behind the first row and before the end.
    if where_ = 0 ∨ rest.length < where_ then .error .undefined
    else
      let inner := rest.dropLast
      let rotated := inner.drop (where_ - 1) ++ inner.take (where_ - 1)
      let tspPath := (first :: (rotated ++ rest.getLast?.toList)).eraseIdx 1
      -- The test reads the first row, where the start stands.
      .ok (if (tspPath.head?.map (·.1)) ≠ some endVid then tspPath.reverse else tspPath)
  | [] => .error .undefined

/-- The rounds of `crossover_optimize` -/
def crossovers (size limit : Nat) : List (Nat × Nat) :=
  (List.range' 1 (size - limit - 1)).flatMap fun i =>
    (List.range' (i + 1) (size - limit - i)).reverse.map fun j => (i, j)

/-- `std::reverse` of the rows from `i` to before `j` -/
def reversePart {α : Type} (result : List α) (i j : Nat) : List α :=
  result.take i ++ ((result.take j).drop i).reverse ++ result.drop j

/-- A round of `crossover_optimize` -/
def crossover (g : UndirectedHasCostBG) (st : List (Int × Weight) × Weight) (round : Nat × Nat) :
    Except TspError (List (Int × Weight) × Weight) := do
  let (newCost, tmp) ← evalRows boost g none 0 (reversePart st.1 round.1 round.2)
  pure (if newCost < st.2 then (tmp, newCost) else st)

/-- `crossover_optimize`; the tour has more than `limit` rows. -/
def crossoverOptimize (g : UndirectedHasCostBG) (result : List (Int × Weight)) (limit : Nat) :
    Except TspError (List (Int × Weight)) := do
  let (bestCost, result) ← evalRows boost g none 0 result
  let (result, _) ← (crossovers result.length limit).foldlM (crossover boost g) (result, bestCost)
  pure result

/-- The part of `do_tsp` that joins the dummy vertex to all others. -/
def insertDummy (g : UndirectedHasCostBG) (u v : Nat) : UndirectedHasCostBG :=
  let g := g.insertVertex 0
  let dummyNode := g.graph.vertices.idxOf 0
  let g := (g.addEdge u dummyNode 0).addEdge v dummyNode 0
  (List.range g.graph.numVertices).foldl (fun g v1 =>
    if v1 = u ∨ v1 = v then g else g.addEdge v1 dummyNode ⊤) g

/-- The part of `do_tsp` for a start and an end that are different. -/
def tspBetween (g : UndirectedHasCostBG) (startVid endVid : Int) :
    Except TspError (List (Int × Weight)) := do
  let u ← g.getBoostVertex startVid
  let v ← g.getBoostVertex endVid
  let g := insertDummy g u v
  let result ← tspFrom boost g startVid
  let result ← startVidEndVidAreFixed result endVid
  crossoverOptimize boost g result 2

/-- `do_tsp` -/
def doTsp (g : UndirectedHasCostBG) (startVid endVid : Int) :
    Except TspError (List (Int × Weight)) :=
  -- An end alone is taken for a start.
  let (startVid, endVid) := if startVid = 0 then (endVid, startVid) else (startVid, endVid)
  if startVid ≠ 0 ∧ !g.hasVertex startVid then
    .error (.internal "INTERNAL: start_id not found on data")
  else if endVid ≠ 0 ∧ !g.hasVertex endVid then
    .error (.internal "INTERNAL: end_id not found on data")
  else if startVid = 0 then do
    let result ← tsp boost g
    crossoverOptimize boost g result 1
  else if endVid = 0 ∨ startVid = endVid then do
    let result ← tspFrom boost g startVid
    crossoverOptimize boost g result 1
  else tspBetween boost g startVid endVid

end Tsp

end PgRouting
