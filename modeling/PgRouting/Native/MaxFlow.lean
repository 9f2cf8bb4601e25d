import Mathlib.Data.Rat.Floor
import PgRouting.Lib.Loop
import PgRouting.Native.Identifiers
import PgRouting.Native.ShortestPath

/-!
# Flow graphs

`PgrFlowGraph`, on which Boost looks for a maximum flow from a supersource to a supersink, the rows
of the flow, and the paths that `get_edge_disjoint_paths` reads off a flow of one unit on each edge.

Edges are only added together with an opposite edge, each the `rev` of the other, so the graph is a
list of such pairs. An edge descriptor is the position of a pair and whether the edge is the second
one. `residual_capacity`, which Boost writes, is a function on the descriptors, and so is `capacity`
where it is written.
-/

namespace PgRouting

/-- The edges `e` and `e_rev` between two vertices, with their capacities and the id in
    `E_to_id`. -/
structure EdgePair where
  source : Nat
  target : Nat
  id : Option Int
  capacity : Int
  reverseCapacity : Int
deriving DecidableEq, Repr

/-- `class PgrFlowGraph`. The vertices of the ids come first. -/
structure PgrFlowGraph where
  ids : List Int
  numVertices : Nat
  pairs : List EdgePair
  supersource : Nat
  supersink : Nat

/-- `Flow_t`, without the costs. -/
structure FlowT where
  edge : Int
  source : Int
  target : Int
  flow : Int
  residualCapacity : Int
deriving DecidableEq, Repr

/-- `Path_rt` -/
structure PathRt where
  startId : Int
  endId : Int
  node : Int
  edge : Int
  cost : ℚ
  aggCost : ℚ
deriving DecidableEq, Repr

/-- `std::numeric_limits<int32_t>::max` -/
def int32Max : Int := 2147483647

namespace PgrFlowGraph

/-! ## The graph -/

/-- `boost::add_edge` for an edge and its opposite -/
def addPair (g : PgrFlowGraph) (pair : EdgePair) : PgrFlowGraph :=
  { g with pairs := g.pairs ++ [pair] }

/-- `get_boost_vertex` -/
def getBoostVertex (g : PgrFlowGraph) (id : Int) : Nat := g.ids.idxOf id

/-- `get_vertex_id`; `none` when `at` throws. -/
def getVertexId (g : PgrFlowGraph) (v : Nat) : Option Int := g.ids[v]?

/-- `set_supersource` -/
def setSupersource (g : PgrFlowGraph) (sourceVertices : Identifiers Int) : PgrFlowGraph :=
  sourceVertices.ids.foldl
    (fun g' id => g'.addPair ⟨g.numVertices, g'.getBoostVertex id, none, int32Max, 0⟩)
    { g with numVertices := g.numVertices + 1, supersource := g.numVertices }

/-- `set_supersink` -/
def setSupersink (g : PgrFlowGraph) (sinkVertices : Identifiers Int) : PgrFlowGraph :=
  sinkVertices.ids.foldl
    (fun g' id => g'.addPair ⟨g'.getBoostVertex id, g.numVertices, none, int32Max, 0⟩)
    { g with numVertices := g.numVertices + 1, supersink := g.numVertices }

/-- `add_vertices` -/
def addVertices (edges : List EdgeT) (sourceVertices sinkVertices : Identifiers Int) :
    PgrFlowGraph :=
  let vertices := sinkVertices.ids.foldl .add sourceVertices
  let vertices := edges.foldl (fun vertices e => (vertices.add e.source).add e.target) vertices
  let g : PgrFlowGraph := ⟨vertices.ids, vertices.ids.length, [], 0, 0⟩
  (g.setSupersource sourceVertices).setSupersink sinkVertices

/-- The capacity that a column of the edges gives. -/
def toCapacity (capacity : ℚ) : Int := if capacity > 0 then ⌊capacity⌋ else 0

/-- `insert_edges_push_relabel` -/
def insertEdgesPushRelabel (g : PgrFlowGraph) (edges : List EdgeT) : PgrFlowGraph :=
  edges.foldl (fun g edge =>
    let v1 := g.getBoostVertex edge.source
    let v2 := g.getBoostVertex edge.target
    let g := if edge.cost > 0 then g.addPair ⟨v1, v2, some edge.id, ⌊edge.cost⌋, 0⟩ else g
    if edge.reverseCost > 0 then g.addPair ⟨v2, v1, some edge.id, ⌊edge.reverseCost⌋, 0⟩ else g) g

/-- `insert_edges` -/
def insertEdges (g : PgrFlowGraph) (edges : List EdgeT) : PgrFlowGraph :=
  edges.foldl (fun g edge => g.addPair ⟨g.getBoostVertex edge.source,
    g.getBoostVertex edge.target, some edge.id, toCapacity edge.cost,
    toCapacity edge.reverseCost⟩) g

/-- `insert_edges_edge_disjoint`; a capacity that is not set is zero. -/
def insertEdgesEdgeDisjoint (g : PgrFlowGraph) (edges : List EdgeT) (directed : Bool) :
    PgrFlowGraph :=
  edges.foldl (fun g edge =>
    let v1 := g.getBoostVertex edge.source
    let v2 := g.getBoostVertex edge.target
    if directed then
      g.addPair ⟨v1, v2, some edge.id, if edge.cost ≥ 0 then 1 else 0,
        if edge.reverseCost ≥ 0 then 1 else 0⟩
    else if edge.cost ≥ 0 ∨ edge.reverseCost ≥ 0 then
      g.addPair ⟨v1, v2, some edge.id, 1, 1⟩
    else g.addPair ⟨v1, v2, some edge.id, 0, 0⟩) g

/-- `PgrFlowGraph(edges, source_vertices, sink_vertices, int algorithm)` -/
def ofAlgorithm (edges : List EdgeT) (sourceVertices sinkVertices : Identifiers Int)
    (algorithm : Int) : PgrFlowGraph :=
  let g := addVertices edges sourceVertices sinkVertices
  if algorithm = 1 then g.insertEdgesPushRelabel edges else g.insertEdges edges

/-- `PgrFlowGraph(edges, source_vertices, sink_vertices, bool directed)` -/
def ofDirected (edges : List EdgeT) (sourceVertices sinkVertices : Identifiers Int)
    (directed : Bool) : PgrFlowGraph :=
  (addVertices edges sourceVertices sinkVertices).insertEdgesEdgeDisjoint edges directed

variable (g : PgrFlowGraph)

/-- An edge descriptor. -/
abbrev E := Fin g.pairs.length × Bool

/-- `m_source` -/
def source (e : g.E) : Nat := if e.2 then (g.pairs.get e.1).target else (g.pairs.get e.1).source

/-- `m_target` -/
def target (e : g.E) : Nat := if e.2 then (g.pairs.get e.1).source else (g.pairs.get e.1).target

/-- `get_edge_id`; `none` when `at` throws. -/
def getEdgeId (e : g.E) : Option Int := (g.pairs.get e.1).id

/-- `capacity`, as it is inserted. -/
def capacity (e : g.E) : Int :=
  if e.2 then (g.pairs.get e.1).reverseCapacity else (g.pairs.get e.1).capacity

/-- `rev` -/
def rev (e : g.E) : g.E := (e.1, !e.2)

/-- The edges in the order of their insertion. -/
def inserted : List g.E := (List.finRange g.pairs.length).flatMap fun i => [(i, false), (i, true)]

/-- `boost::out_edges` -/
def outEdges (v : Nat) : List g.E := g.inserted.filter fun e => g.source e = v

/-- `boost::edge` -/
def edge (u v : Nat) : Option g.E := (g.outEdges u).find? fun e => g.target e = v

/-! ## Flows -/

/-- The maximum flow algorithms of Boost: the residual capacities that they write, and the flow that
    they return. -/
structure BoostMaxFlow where
  pushRelabel (g : PgrFlowGraph) : (g.E → Int) × Int
  edmondsKarp (g : PgrFlowGraph) : (g.E → Int) × Int
  boykovKolmogorov (g : PgrFlowGraph) : (g.E → Int) × Int

variable (residualCapacity : g.E → Int)

/-- `get_flow_edges` -/
def getFlowEdges : Option (List FlowT) :=
  let flowEdges := ((List.range g.numVertices).flatMap g.outEdges).filter fun e =>
    g.capacity e - residualCapacity e > 0 ∧ g.source e ≠ g.supersource ∧
      g.target e ≠ g.supersink
  flowEdges.mapM fun e => do
    let id ← g.getEdgeId e
    let source ← g.getVertexId (g.source e)
    let target ← g.getVertexId (g.target e)
    return ⟨id, source, target, g.capacity e - residualCapacity e, residualCapacity e⟩

/-! ## Edge disjoint paths -/

/-- Where `flow_dfs` is: the vertex, the capacities and the path so far. -/
structure DfsState where
  vertex : Nat
  capacity : g.E → Int
  path : List Int

/-- One call of `flow_dfs`, whose recursive call is the next round. -/
def flowDfsBody (s : g.DfsState) : LoopStep g.DfsState (Option ((g.E → Int) × List Int)) :=
  if (g.edge s.vertex g.supersink).isSome then
    .done ((g.getVertexId s.vertex).map fun vId => (s.capacity, s.path ++ [vId]))
  else
    match (g.outEdges s.vertex).find? fun e => residualCapacity e < s.capacity e with
    | none => .done (some (s.capacity, s.path))
    | some e =>
      match g.getVertexId s.vertex with
      | none => .done none
      | some vId => .next ⟨g.target e, Function.update s.capacity e (-1), s.path ++ [vId]⟩

/-- `flow_dfs`, in at most `fuel` calls -/
def flowDfs (fuel vertex : Nat) (capacity : g.E → Int) (path : List Int) :
    Option ((g.E → Int) × List Int) :=
  (runLoop (g.flowDfsBody residualCapacity) fuel ⟨vertex, capacity, path⟩).join

/-- The path that starts with an edge out of a source, if the edge carries the flow. `path_id` is
    the number of the paths so far, and there is room for `flow` of them. -/
def pathFrom (fuel flow : Nat) (s : (g.E → Int) × List (List Int)) (e : g.E) :
    Option ((g.E → Int) × List (List Int)) :=
  if s.1 e - residualCapacity e > 0 then do
    guard (s.2.length < flow)
    let id ← g.getVertexId (g.source e)
    let (capacity, path) ← g.flowDfs residualCapacity fuel (g.target e) s.1 [id]
    return (capacity, s.2 ++ [path])
  else some s

/-- The paths from a source, if the edge out of the supersource carries the flow. -/
def pathsFrom (fuel flow : Nat) (s : (g.E → Int) × List (List Int)) (e : g.E) :
    Option ((g.E → Int) × List (List Int)) :=
  if s.1 e - residualCapacity e > 0 then
    (g.outEdges (g.target e)).foldlM (g.pathFrom residualCapacity fuel flow) s
  else some s

/-- The paths of `get_edge_disjoint_paths`. -/
def disjointPaths (fuel flow : Nat) : Option (List (List Int)) :=
  ((g.outEdges g.supersource).foldlM (g.pathsFrom residualCapacity fuel flow)
    (g.capacity, [])).map Prod.snd

/-- The rows of a path. -/
def pathRows (startId endId : Int) : List Int → Option (List PathRt)
  | [] => none
  | [node] => some [⟨startId, endId, node, -1, 0, 0⟩]
  | node :: next :: rest => do
    let e ← g.edge (g.getBoostVertex node) (g.getBoostVertex next)
    let id ← g.getEdgeId e
    return ⟨startId, endId, node, id, 0, 0⟩ :: (← pathRows startId endId (next :: rest))

/-- `get_edge_disjoint_paths`. It reads behind the end of a path that is empty. -/
def getEdgeDisjointPaths (fuel flow : Nat) : Option (List PathRt) := do
  let paths ← g.disjointPaths residualCapacity fuel flow
  guard (paths.length = flow)
  let rows ← paths.mapM fun path => g.pathRows (path.headD 0) (path.getLastD 0) path
  return rows.flatten

end PgrFlowGraph

/-! ## The drivers -/

namespace MaxFlowDriver

open PgrFlowGraph ShortestPathDriver

/-- What a driver answers. -/
inductive Answer (R : Type)
  | rows (rows : List R)
  | notice (message : String)
  | error (message : String)
deriving DecidableEq, Repr

variable (boost : BoostMaxFlow)

/-- `pgr_do_max_flow`, with the rows of its queries. -/
def doMaxFlow (edges : List EdgeT) (combinationsSql : Option (List (Int × Int)))
    (starts ends : Option (List Int)) (algorithm : Int) (onlyFlow : Bool) :
    Option (Answer FlowT) :=
  let combinations := getCombinationsSql combinationsSql starts ends true
  if combinations.isEmpty ∧ combinationsSql.isSome then
    some (.notice "No (source, target) pairs found")
  else
    let sources : Identifiers Int := combinations.foldl (fun sources c => sources.add c.1) .empty
    let targets : Identifiers Int := combinations.foldl (fun targets c => c.2.foldl .add targets)
      .empty
    let vertices := targets.ids.foldl .add sources
    -- A vertex that is in both sets is counted once in their union.
    if vertices.size ≠ sources.size + targets.size then some (.error "A source found as sink")
    else if edges.isEmpty then some (.notice "No edges found")
    else
      let digraph := ofAlgorithm edges sources targets algorithm
      let maxFlow :=
        if algorithm = 1 then some (boost.pushRelabel digraph)
        else if algorithm = 3 then some (boost.edmondsKarp digraph)
        else if algorithm = 2 then some (boost.boykovKolmogorov digraph)
        else none
      match maxFlow with
      | none => some (.error "Unspecified algorithm!\n")
      | some (residualCapacity, maxFlow) =>
        if onlyFlow then some (.rows [⟨-1, -1, -1, maxFlow, -1⟩])
        else (digraph.getFlowEdges residualCapacity).map .rows

/-- `single_execution` -/
def singleExecution (fuel : Nat) (edges : List EdgeT) (source target : Int) (directed : Bool) :
    Option (List PathRt) :=
  let g := ofDirected edges (.add .empty source) (.add .empty target) directed
  let (residualCapacity, flow) := boost.boykovKolmogorov g
  g.getEdgeDisjointPaths residualCapacity fuel flow.toNat

/-- The costs of the rows. The loop is left when `found` reaches zero. -/
def setCosts : List EdgeT → Int → List PathRt → List PathRt
  | [], _, paths => paths
  | e :: edges, found, paths =>
    let costed := paths.map fun r =>
      if r.edge = e.id then { r with cost := if r.node = e.source then e.cost else e.reverseCost }
      else r
    let found := found - paths.countP fun r => r.edge = e.id
    if found = 0 then costed else setCosts edges found costed

/-- The aggregate costs of the rows after `prev`. -/
def setAggCosts (prev : PathRt) : List PathRt → List PathRt
  | [] => []
  | r :: paths =>
    let r := { r with aggCost := if prev.edge < 0 then 0 else prev.aggCost + prev.cost }
    r :: setAggCosts r paths

/-- `pgr_do_edge_disjoint_paths`, with the rows of its queries. -/
def doEdgeDisjointPaths (fuel : Nat) (edges : List EdgeT)
    (combinationsSql : Option (List (Int × Int))) (starts ends : Option (List Int))
    (directed : Bool) : Option (Answer PathRt) :=
  let combinations := getCombinationsSql combinationsSql starts ends true
  if combinations.isEmpty ∧ combinationsSql.isSome then
    some (.notice "No (source, target) pairs found")
  else if edges.isEmpty then some (.notice "No edges found")
  else do
    let pairs := combinations.flatMap fun c => c.2.map fun t => (c.1, t)
    let paths ← (pairs.filter fun c => c.1 ≠ c.2).mapM fun c =>
      singleExecution boost fuel edges c.1 c.2 directed
    match setCosts edges paths.flatten.length paths.flatten with
    | [] => return .rows []
    | first :: rest =>
      -- `&r == &paths[0]`
      let first := { first with aggCost := 0 }
      return .rows (first :: setAggCosts first rest)

end MaxFlowDriver

end PgRouting
