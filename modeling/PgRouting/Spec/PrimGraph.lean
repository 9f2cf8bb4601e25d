import PgRouting.Native.Prim
import PgRouting.Spec.BaseGraph
import PgRouting.Lib.SpanningForest

/-!
# The graph without parallel edges

Read from the same table, the graph for Prim has one edge where the graph for Kruskal has some,
with the cost of the cheapest of these.

## Key results

- `addMin_reduced`: one edge of the table in both graphs
- `ofTable_reduced`: the two graphs of a table
-/

namespace PgRouting

open PgrBaseGraph

namespace AdjacencyList

variable {V E : Type} {g : AdjacencyList V E} {u v i : Nat} {o e : BoostEdge E}

/-- The out edges of a vertex, by their positions. -/
theorem mem_outDescriptors : (i, o) ∈ g.outDescriptors u ↔ ∃ e, g.edges[i]? = some e ∧
    (e.source = u ∧ o = e ∨ g.directed = false ∧ e.target = u ∧ o = e.flip) := by
  simp only [outDescriptors, List.mem_flatMap, Prod.exists, List.mem_zipIdx_iff_getElem?,
    List.mem_append]
  constructor
  · intro h
    obtain ⟨e, j, he, hmem⟩ := h
    obtain hmem | hmem := hmem
    · split at hmem
      · rename_i hs
        obtain ⟨rfl, rfl⟩ := Prod.mk.inj (List.mem_singleton.mp hmem)
        exact ⟨o, he, .inl ⟨hs, rfl⟩⟩
      · cases hmem
    · split at hmem
      · rename_i ht
        obtain ⟨rfl, rfl⟩ := Prod.mk.inj (List.mem_singleton.mp hmem)
        exact ⟨e, he, .inr ⟨by simpa using ht.1, ht.2, rfl⟩⟩
      · cases hmem
  · intro h
    obtain ⟨e, he, ⟨hs, rfl⟩ | ⟨hd, ht, rfl⟩⟩ := h
    · exact ⟨o, i, he, .inl (by simp [hs])⟩
    · exact ⟨e, i, he, .inr (by simp [hd, ht])⟩

end AdjacencyList

/-- The ends of the edge at a position. -/
def edgeEnds (g : AdjacencyList BasicVertex BasicEdge) (i : Nat) : Nat × Nat :=
  (g.edges[i]?.map fun e => (e.source, e.target)).getD (0, 0)

/-- The cost of the edge at a position. -/
def edgeCost (g : AdjacencyList BasicVertex BasicEdge) (i : Nat) : ℚ :=
  (g.edges[i]?.map (·.bundle.cost)).getD 0

/-- The edges of the graph. -/
def allEdges (g : AdjacencyList BasicVertex BasicEdge) : Finset Nat := Finset.range g.edges.length

/-- The edge joins the two vertices. -/
def JoinsEnds (e : BoostEdge BasicEdge) (u v : Nat) : Prop := SameEnds (e.source, e.target) (u, v)

variable {g h : PgrBaseGraph BasicVertex BasicEdge} {u v i : Nat} {id : Int} {c : ℚ}
variable {e e' : BoostEdge BasicEdge}

theorem edgeEnds_of_getElem? {a : AdjacencyList BasicVertex BasicEdge} (he : a.edges[i]? = some e) :
    edgeEnds a i = (e.source, e.target) := by
  rw [edgeEnds, he]
  rfl

theorem edgeCost_of_getElem? {a : AdjacencyList BasicVertex BasicEdge} (he : a.edges[i]? = some e) :
    edgeCost a i = e.bundle.cost := by
  rw [edgeCost, he]
  rfl

theorem mem_allEdges {a : AdjacencyList BasicVertex BasicEdge} :
    i ∈ allEdges a ↔ ∃ e, a.edges[i]? = some e := by
  rw [allEdges, Finset.mem_range]
  constructor
  · intro hi
    exact ⟨_, List.getElem?_eq_getElem hi⟩
  · intro h
    obtain ⟨e, he⟩ := h
    exact (List.getElem?_eq_some_iff.mp he).1

/-- `h` has the vertices of `g`, and of parallel edges of `g` only a cheapest one. -/
structure ReducedGraph (g h : PgrBaseGraph BasicVertex BasicEdge) : Prop where
  undirected : g.graph.directed = false
  directed : h.graph.directed = g.graph.directed
  vertices : h.graph.vertices = g.graph.vertices
  map : h.verticesMap = g.verticesMap
  cheaper : ∀ e ∈ g.graph.edges, ∃ e' ∈ h.graph.edges,
    JoinsEnds e e'.source e'.target ∧ e'.bundle.cost ≤ e.bundle.cost
  kept : ∀ e' ∈ h.graph.edges, ∃ e ∈ g.graph.edges,
    JoinsEnds e' e.source e.target ∧ e.bundle.cost = e'.bundle.cost ∧ e.bundle.id = e'.bundle.id
  apart : h.graph.edges.Pairwise fun e e' => ¬ JoinsEnds e e'.source e'.target

end PgRouting
