import PgRouting.Native.BaseGraph
import PgRouting.Lib.Loop
import Mathlib.Algebra.Order.Monoid.WithTop
import Mathlib.Data.Finset.Insert

/-!
# The spanning trees of Prim and Kruskal

`Pgr_kruskal` works on all edges of the table, while the graph for `Pgr_prim` keeps only the
cheapest one of parallel edges. Prim searches one tree after the other, from the least vertex
that no tree has yet, and looks up the edge of every vertex that Boost has finished.

An edge descriptor is the position of the edge in the graph, together with the edge as it looks
from the vertex at which it has been met. The Boost functions are parameters.
-/

namespace PgRouting

/-- `boost::out_edges`, with the positions of the edges. -/
def AdjacencyList.outDescriptors {V E : Type} (g : AdjacencyList V E) (u : Nat) :
    List (Nat × BoostEdge E) :=
  g.edges.zipIdx.flatMap fun x =>
    (if x.1.source = u then [(x.2, x.1)] else []) ++
    (if !g.directed ∧ x.1.target = u then [(x.2, x.1.flip)] else [])

namespace PgrBaseGraph

variable (g : PgrBaseGraph BasicVertex BasicEdge)

/-- The loop of `get_edge`; `minEdge` has no value before the first edge. -/
def getEdgeLoop (src dst : Nat) (distance : WithTop ℚ) :
    List (Nat × BoostEdge BasicEdge) → WithTop ℚ → Option Nat → Option Nat
  | [], _, minEdge => minEdge
  | (i, e) :: rest, minCost, minEdge =>
    let minEdge := if minEdge.isNone then some i else minEdge
    if src = e.source ∧ dst = e.target ∧ distance = (e.bundle.cost : ℚ) then some i
    else if src = e.source ∧ dst = e.target ∧ (e.bundle.cost : WithTop ℚ) < minCost then
      getEdgeLoop src dst distance rest e.bundle.cost (some i)
    else getEdgeLoop src dst distance rest minCost minEdge

/-- `get_edge` -/
def getEdge (src dst : Nat) (distance : WithTop ℚ) : Option Nat :=
  getEdgeLoop src dst distance (g.graph.outDescriptors src) ⊤ none

end PgrBaseGraph

/-- What `boost::prim_minimum_spanning_tree` leaves: the predecessors, the costs of the edges to
    them, and the vertices in the order in which the visitor has seen them finished. -/
structure PrimTree where
  predecessors : Nat → Nat
  distances : Nat → WithTop ℚ
  data : List Nat

/-- `boost::prim_minimum_spanning_tree` from a root. -/
abbrev BoostPrim := AdjacencyList BasicVertex BasicEdge → Nat → PrimTree

/-- The members of `Pgr_prim` that are kept from one tree to the next one. -/
structure PgrPrim where
  spanningTree : Finset Nat := ∅
  unassigned : List Nat := []

namespace PgrPrim

variable (boost : BoostPrim) (graph : PgrBaseGraph BasicVertex BasicEdge)

/-- The body of the loop of `primTree` over the vertices that have been finished. -/
def addVertex (tree : PrimTree) (s : PgrPrim) (v : Nat) : Option PgrPrim :=
  if tree.distances v = ⊤ then some s
  else
    let s := { s with unassigned := s.unassigned.erase v }
    let u := tree.predecessors v
    if u = v then some s
    else
      let cost := (tree.distances u).map fun d => d - (tree.distances v).untopD 0
      (graph.getEdge u v cost).map fun edge =>
        { s with spanningTree := insert edge s.spanningTree }

/-- `primTree`; it throws when the graph does not have the root. -/
def primTree (rootVertex : Int) (s : PgrPrim) : Option PgrPrim := do
  let vRoot ← graph.verticesMap rootVertex
  let tree := boost graph.graph vRoot
  tree.data.foldlM (addVertex graph tree) s

/-- A round of the loop of `generate_mst`. -/
def round (s : PgrPrim) : LoopStep PgrPrim (Option PgrPrim) :=
  match s.unassigned with
  | [] => .done (some s)
  | root :: unassigned =>
    match primTree boost graph (graph.vertexId root) { s with unassigned := unassigned } with
    | none => .done none
    | some s => .next s

end PgrPrim

namespace PgrKruskal

end PgrKruskal

end PgRouting
