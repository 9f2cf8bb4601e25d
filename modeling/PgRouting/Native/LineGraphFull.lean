import PgRouting.Native.BaseGraph
import Mathlib.Data.Prod.Lex

/-!
# The full line graph

`Pgr_lineGraphFull` splits every vertex of a directed graph into one vertex for each edge that
leaves it and one for each edge that enters it, and `get_postgres_results_directed` numbers
these again: the first one of a vertex keeps the id of the vertex.

The constructor leaves `m_num_edges` unset, so its value is a parameter. The assertions of
`graph_add_edge` and `get_V` hold, because both ends have been inserted before; the model reads
a missing entry of a map as `operator[]` does.
-/

namespace PgRouting

/-- `class Line_vertex` -/
structure LineVertex where
  id : Int
  vertexId : Int
  source : Int
  target : Int
  cost : ℚ
deriving DecidableEq, Repr

/-- `cp_members(_id, _source)` -/
def LineVertex.cpMembers (id source : Int) : LineVertex :=
  { id := id, vertexId := -1, source := source, target := -1, cost := 0 }

/-- `struct Line_graph_full_rt` -/
structure LineGraphFullRt where
  id : Int
  source : Int
  target : Int
  cost : ℚ
  edge : Int
deriving DecidableEq, Repr

/-- `class Pgr_lineGraphFull` -/
structure PgrLineGraphFull extends PgrBaseGraph LineVertex BasicEdge where
  mNumEdges : Int
  mEdgeCosts : Int → Option ℚ := fun _ => none
  mTransformationMap : Int → Option (Int × Int) := fun _ => none
  mVertexMap : Int × Int → Option Int := fun _ => none

namespace PgrLineGraphFull

variable (g : PgrLineGraphFull)

/-! ## The transformation -/

/-- `insert_vertex` -/
def insertVertex (originalVertexId originalEdgeId : Int) : PgrLineGraphFull :=
  let newId : Int := g.graph.numVertices + 1
  let vertex :=
    { LineVertex.cpMembers originalVertexId originalEdgeId with vertexId := newId }
  { g with
    graph := { g.graph with vertices := g.graph.vertices ++ [vertex] }
    verticesMap := Function.update g.verticesMap newId (some g.graph.numVertices)
    mTransformationMap :=
      Function.update g.mTransformationMap newId (some (originalVertexId, originalEdgeId))
    mVertexMap := Function.update g.mVertexMap (originalVertexId, originalEdgeId) (some newId) }

/-- `graph_add_edge`, with the id after `m_num_edges`. -/
def graphAddEdge (source target sourceInEdge sourceOutEdge : Int) : PgrLineGraphFull :=
  let indexSourceEdge := (g.mVertexMap (source, sourceInEdge)).getD 0
  let indexTargetEdge := (g.mVertexMap (target, sourceOutEdge)).getD 0
  let vmS := (g.verticesMap indexSourceEdge).getD 0
  let vmT := (g.verticesMap indexTargetEdge).getD 0
  { g with
    graph := g.graph.addEdge vmS vmT (TEdge.ofIdCost (g.mNumEdges + 1) 0)
    mNumEdges := g.mNumEdges + 1 }

variable (digraph : PgrBaseGraph BasicVertex BasicEdge)

/-- `store_edge_costs` -/
def storeEdgeCosts : PgrLineGraphFull :=
  digraph.graph.edges.foldl
    (fun g e => { g with
      mEdgeCosts := Function.update g.mEdgeCosts e.bundle.id (some e.bundle.cost) }) g

/-- The body of the loop of `apply_transformation` over the edges that enter a vertex. -/
def splitIn (vertex : Nat) (g : PgrLineGraphFull) (inEdge : BoostEdge BasicEdge) :
    PgrLineGraphFull :=
  let vertexId := digraph.vertexId vertex
  (digraph.graph.outEdges vertex).foldl
    (fun g outEdge => g.graphAddEdge vertexId vertexId inEdge.bundle.id outEdge.bundle.id)
    (g.insertVertex vertexId inEdge.bundle.id)

/-- The body of the first loop of `apply_transformation` over the vertices. -/
def splitVertex (g : PgrLineGraphFull) (vertex : Nat) : PgrLineGraphFull :=
  (digraph.graph.inEdges vertex).foldl (splitIn digraph vertex)
    ((digraph.graph.outEdges vertex).foldl
      (fun g outEdge => g.insertVertex (digraph.vertexId vertex) outEdge.bundle.id) g)

/-- The body of the second loop of `apply_transformation` over the vertices. -/
def connectVertex (g : PgrLineGraphFull) (vertex : Nat) : PgrLineGraphFull :=
  (digraph.graph.inEdges vertex).foldl
    (fun g inEdge => g.graphAddEdge (digraph.vertexId inEdge.source) (digraph.vertexId vertex)
      inEdge.bundle.id inEdge.bundle.id) g

/-- `apply_transformation` -/
def applyTransformation : PgrLineGraphFull :=
  let vertices := List.range digraph.graph.numVertices
  vertices.foldl (connectVertex digraph) (vertices.foldl (splitVertex digraph) g)

/-- `Pgr_lineGraphFull(digraph)` -/
def ofDigraph (mNumEdges : Int) : PgrLineGraphFull :=
  ({ toPgrBaseGraph := .empty true, mNumEdges := mNumEdges :
      PgrLineGraphFull }.applyTransformation digraph).storeEdgeCosts digraph

/-- The graph of `pgr_do_lineGraphFull`: `insert_edges_neg` negates the ids of the edges that a row
    puts in against its direction. -/
def insertEdgesNeg (edges : List EdgeT) : PgrBaseGraph BasicVertex BasicEdge :=
  (PgrBaseGraph.empty true).insertEdges edges false

/-! ## The rows -/

/-- `unique[key] = row` for a `std::map`, whose keys are in ascending order. -/
def setUnique {κ β : Type} [LinearOrder κ] (key : κ) (row : β) : List (κ × β) → List (κ × β)
  | [] => [(key, row)]
  | entry :: rest =>
    if key < entry.1 then (key, row) :: entry :: rest
    else if key = entry.1 then (key, row) :: rest
    else entry :: setUnique key row rest

/-- The variables of `get_postgres_results_directed`. -/
structure Results where
  count : Int := 0
  vertexCount : Int := 0
  vertexIdMap : Int → Option Int := fun _ => none
  vertexIdReverseMap : Int → Option Int := fun _ => none
  unique : List ((Int ×ₗ Int) × LineGraphFullRt) := []

/-- The vertex gets an id, if it has none: the id of the original vertex, if that is not taken. -/
def Results.renumber (s : Results) (e vertexId : Int) : Results :=
  match s.vertexIdMap e with
  | some _ => s
  | none =>
    match s.vertexIdReverseMap vertexId with
    | none =>
      { s with
        vertexIdMap := Function.update s.vertexIdMap e (some vertexId)
        vertexIdReverseMap := Function.update s.vertexIdReverseMap vertexId (some e) }
    | some _ =>
      { s with
        vertexCount := s.vertexCount - 1
        vertexIdMap := Function.update s.vertexIdMap e (some (s.vertexCount - 1))
        vertexIdReverseMap :=
          Function.update s.vertexIdReverseMap (s.vertexCount - 1) (some e) }

/-- `graph[v].vertex_id` -/
def lineId (v : Nat) : Int := (g.graph.vertices[v]?.map (·.vertexId)).getD 0

/-- The body of the loop of `get_postgres_results_directed`. -/
def resultsStep (s : Results) (e : BoostEdge BasicEdge) : Results :=
  let eSource := g.lineId e.source
  let eTarget := g.lineId e.target
  let targetPair := (g.mTransformationMap eTarget).getD (0, 0)
  let sourcePair := (g.mTransformationMap eSource).getD (0, 0)
  let edgeId := if sourcePair.2 = targetPair.2 then sourcePair.2 else 0
  let eCost := if sourcePair.2 = targetPair.2 then (g.mEdgeCosts sourcePair.2).getD 0 else 0
  let s := (s.renumber eSource sourcePair.1).renumber eTarget targetPair.1
  let edge :=
    { id := s.count + 1
      source := (s.vertexIdMap eSource).getD 0
      target := (s.vertexIdMap eTarget).getD 0
      cost := eCost
      edge := edgeId }
  { s with count := s.count + 1, unique := setUnique (toLex (eSource, eTarget)) edge s.unique }

/-- `get_postgres_results_directed` -/
def getPostgresResultsDirected : List LineGraphFullRt :=
  (g.graph.edges.foldl g.resultsStep {}).unique.map (·.2)

end PgrLineGraphFull

end PgRouting
