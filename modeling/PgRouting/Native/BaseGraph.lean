import Mathlib.Algebra.Order.Ring.Rat

/-!
# Graphs

The Boost adjacency list under every graph, and `Pgr_base_graph`, which maps
vertex ids to vertex descriptors, reads the edges table into the graph and can
take edges out of the graph and put them back.

A vertex descriptor is a `Nat`, the position of the vertex. Costs are exact
rationals. The edges of an adjacency list are kept in the order of insertion:
Boost appends a new edge to the edge lists of its ends, and no removal reorders
what stays.
-/

namespace PgRouting

/-- `struct Edge_t`: a row of the edges table. -/
structure EdgeT where
  id : Int
  source : Int
  target : Int
  cost : ℚ
  reverseCost : ℚ
deriving DecidableEq, Repr

/-! ## Boost adjacency lists -/

/-- An edge of an adjacency list, with its bundled properties. -/
structure BoostEdge (E : Type) where
  source : Nat
  target : Nat
  bundle : E
deriving DecidableEq, Repr

/-- The edge as it looks from its other end. -/
def BoostEdge.flip {E : Type} (e : BoostEdge E) : BoostEdge E :=
  { e with source := e.target, target := e.source }

/-- `boost::adjacency_list`, with the selector `bidirectionalS` when `directed` holds and
    `undirectedS` otherwise. -/
structure AdjacencyList (V E : Type) where
  directed : Bool
  vertices : List V
  edges : List (BoostEdge E)

namespace AdjacencyList

variable {V E : Type} (g : AdjacencyList V E)

/-- `boost::num_vertices` -/
def numVertices : Nat := g.vertices.length

/-- `boost::out_edges`. An undirected graph shows an edge from both its ends, as an edge
    that starts there, and shows a self-loop twice. -/
def outEdges (u : Nat) : List (BoostEdge E) :=
  g.edges.flatMap fun e =>
    (if e.source = u then [e] else []) ++
    (if !g.directed ∧ e.target = u then [e.flip] else [])

/-- `boost::in_edges` -/
def inEdges (u : Nat) : List (BoostEdge E) :=
  if g.directed then g.edges.filter (·.target = u)
  else (g.outEdges u).map BoostEdge.flip

/-- `boost::add_edge` -/
def addEdge (u v : Nat) (bundle : E) : AdjacencyList V E :=
  { g with edges := g.edges ++ [⟨u, v, bundle⟩] }

/-- The edge leads from `u` to `v`, or joins them when the graph is undirected. -/
def joins (u v : Nat) (e : BoostEdge E) : Bool :=
  (e.source == u && e.target == v) || (!g.directed && e.source == v && e.target == u)

/-- `boost::remove_edge(u, v, g)`, which removes all parallel edges. -/
def removeEdge (u v : Nat) : AdjacencyList V E :=
  { g with edges := g.edges.filter fun e => !g.joins u v e }

/-- `boost::clear_vertex` -/
def clearVertex (v : Nat) : AdjacencyList V E :=
  { g with edges := g.edges.filter fun e => e.source ≠ v ∧ e.target ≠ v }

/-- `boost::edge(u, v, g)`, the first edge from `u` to `v`. -/
def edge (u v : Nat) : Option (BoostEdge E) :=
  (g.outEdges u).find? (·.target = v)

end AdjacencyList

/-! ## Base graphs -/

/-- What `Pgr_base_graph` asks of its vertex type. -/
class TVertex (V : Type) where
  /-- `T_V(edge, is_source)` reads only the id of the end. -/
  ofId : Int → V
  id : V → Int
  id_ofId : ∀ i, id (ofId i) = i

/-- What `Pgr_base_graph` asks of its edge type. -/
class TEdge (E : Type) where
  /-- A new edge property of which only the id and the cost have been set. -/
  ofIdCost : Int → ℚ → E
  id : E → Int
  cost : E → ℚ
  id_ofIdCost : ∀ i c, id (ofIdCost i c) = i
  cost_ofIdCost : ∀ i c, cost (ofIdCost i c) = c

attribute [simp] TVertex.id_ofId TEdge.id_ofIdCost TEdge.cost_ofIdCost

/-- `class Basic_vertex` -/
structure BasicVertex where
  id : Int
deriving DecidableEq, Repr

instance : TVertex BasicVertex where
  ofId id := ⟨id⟩
  id v := v.id
  id_ofId _ := rfl

/-- `class Basic_edge` -/
structure BasicEdge where
  source : Int
  target : Int
  id : Int
  cost : ℚ
deriving DecidableEq, Repr

/-- The ends of an edge of the graph are those Boost stores; its members `source` and
    `target` stay unset and are never read. -/
instance : TEdge BasicEdge where
  ofIdCost id cost := { source := 0, target := 0, id := id, cost := cost }
  id e := e.id
  cost e := e.cost
  id_ofIdCost _ _ := rfl
  cost_ofIdCost _ _ := rfl

/-- `class Pgr_base_graph` -/
structure PgrBaseGraph (V E : Type) where
  graph : AdjacencyList V E
  verticesMap : Int → Option Nat
  removedEdges : List BasicEdge

namespace PgrBaseGraph

variable {V E : Type}

/-- `Pgr_base_graph()` -/
def empty (directed : Bool) : PgrBaseGraph V E :=
  { graph := { directed := directed, vertices := [], edges := [] },
    verticesMap := fun _ => none, removedEdges := [] }

/-- `has_vertex` -/
def hasVertex (g : PgrBaseGraph V E) (vid : Int) : Bool := (g.verticesMap vid).isSome

/-- `adjacent` -/
def adjacent (v : Nat) (e : BoostEdge E) : Nat :=
  if v = e.source then e.target else e.source

section Insert

variable [TVertex V] [TEdge E]

/-- `graph[v].id`, the id of a vertex descriptor. -/
def vertexId (g : PgrBaseGraph V E) (v : Nat) : Int :=
  (g.graph.vertices[v]?.map TVertex.id).getD 0

/-- `add_vertex`, followed by recording the vertex under its id. -/
def addVertex (g : PgrBaseGraph V E) (vertex : V) : PgrBaseGraph V E :=
  { g with
    graph := { g.graph with vertices := g.graph.vertices ++ [vertex] }
    verticesMap := Function.update g.verticesMap (TVertex.id vertex) (some g.graph.numVertices) }

/-- `get_V(const T_V&)`: the descriptor of a vertex, which is created when it is new. -/
def getV (g : PgrBaseGraph V E) (vertex : V) : Nat × PgrBaseGraph V E :=
  match g.verticesMap (TVertex.id vertex) with
  | some v => (v, g)
  | none => (g.graph.numVertices, g.addVertex vertex)

/-- `boost::add_edge` followed by setting the cost and the id of the new edge. -/
def addNew (g : PgrBaseGraph V E) (u v : Nat) (id : Int) (cost : ℚ) : PgrBaseGraph V E :=
  { g with graph := g.graph.addEdge u v (TEdge.ofIdCost id cost) }

/-- `graph_add_edge` -/
def graphAddEdge (g : PgrBaseGraph V E) (normal : Bool) (edge : EdgeT) : PgrBaseGraph V E :=
  if edge.cost < 0 ∧ edge.reverseCost < 0 then g
  else
    let (vmS, g) := g.getV (TVertex.ofId edge.source)
    let (vmT, g) := g.getV (TVertex.ofId edge.target)
    let g := if 0 ≤ edge.cost then g.addNew vmS vmT edge.id edge.cost else g
    if 0 ≤ edge.reverseCost ∧
        (g.graph.directed ∨ (!g.graph.directed ∧ edge.cost ≠ edge.reverseCost)) then
      g.addNew vmT vmS (if normal then edge.id else -edge.id) edge.reverseCost
    else g

/-- `insert_edges`; its callers leave `normal` at the default `true` -/
def insertEdges (g : PgrBaseGraph V E) (edges : List EdgeT) (normal : Bool) :
    PgrBaseGraph V E :=
  edges.foldl (fun g edge => g.graphAddEdge normal edge) g

end Insert

/-! ## Disconnecting and restoring edges -/

variable (g : PgrBaseGraph BasicVertex BasicEdge)

/-- `get_edge_info` -/
def getEdgeInfo (e : BoostEdge BasicEdge) : BasicEdge :=
  { source := (g.graph.vertices[e.source]?.map (·.id)).getD 0
    target := (g.graph.vertices[e.target]?.map (·.id)).getD 0
    id := e.bundle.id
    cost := e.bundle.cost }

/-- `disconnect_edge`: the first edge from `p_from` to `p_to` is saved, all are removed. -/
def disconnectEdge (pFrom pTo : Int) : PgrBaseGraph BasicVertex BasicEdge :=
  match g.verticesMap pFrom, g.verticesMap pTo with
  | some u, some v =>
    { g with
      graph := g.graph.removeEdge u v
      removedEdges := g.removedEdges ++
        (((g.graph.outEdges u).find? (·.target = v)).map g.getEdgeInfo).toList }
  | _, _ => g

/-- The first out edge of `v` with id `eid`: its position in the edge list and how it
    looks from `v`. -/
def findOutGoing (v : Nat) (eid : Int) : List (BoostEdge BasicEdge) → Nat →
    Option (Nat × BoostEdge BasicEdge)
  | [], _ => none
  | e :: rest, i =>
    if e.bundle.id = eid ∧ e.source = v then some (i, e)
    else if e.bundle.id = eid ∧ !g.graph.directed ∧ e.target = v then some (i, e.flip)
    else findOutGoing v eid rest (i + 1)

/-- The loop of `disconnect_out_going_edge`, which saves and removes one edge a round. It
    ends when no edge is left to remove, so at most `numEdges` rounds change the graph. -/
def disconnectOutGoingLoop (v : Nat) (eid : Int) :
    Nat → PgrBaseGraph BasicVertex BasicEdge → PgrBaseGraph BasicVertex BasicEdge
  | 0, g => g
  | n + 1, g =>
    match g.findOutGoing v eid g.graph.edges 0 with
    | none => g
    | some (i, out) =>
      disconnectOutGoingLoop v eid n
        { g with
          graph := { g.graph with edges := g.graph.edges.eraseIdx i }
          removedEdges := g.removedEdges ++ [g.getEdgeInfo out] }

/-- `disconnect_out_going_edge` -/
def disconnectOutGoingEdge (vid eid : Int) : PgrBaseGraph BasicVertex BasicEdge :=
  match g.verticesMap vid with
  | some v => disconnectOutGoingLoop v eid g.graph.edges.length g
  | none => g

/-- `disconnect_vertex`: in a directed graph the in edges are saved as well as the out edges. -/
def disconnectVertex (vid : Int) : PgrBaseGraph BasicVertex BasicEdge :=
  match g.verticesMap vid with
  | some v =>
    { g with
      graph := g.graph.clearVertex v
      removedEdges := g.removedEdges ++ (g.graph.outEdges v).map g.getEdgeInfo ++
        (if g.graph.directed then (g.graph.inEdges v).map g.getEdgeInfo else []) }
  | none => g

/-- `restore_edge` -/
def restoreEdge (edge : BasicEdge) : PgrBaseGraph BasicVertex BasicEdge :=
  match g.verticesMap edge.source, g.verticesMap edge.target with
  | some u, some v =>
    if 0 ≤ edge.cost then g.addNew u v edge.id edge.cost else g
  | _, _ => g

/-- `restore_graph` -/
def restoreGraph : PgrBaseGraph BasicVertex BasicEdge :=
  { g.removedEdges.foldl (fun g edge => g.restoreEdge edge) g with removedEdges := [] }

end PgrBaseGraph

end PgRouting
