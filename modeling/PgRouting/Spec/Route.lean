import PgRouting.Spec.Dijkstra
import PgRouting.Spec.PathTotal
import PgRouting.Spec.RestoreGraph
import Mathlib.Data.List.Chain

/-!
# Routes in the ids of the table

A route is a path that visits no vertex twice, given by its rows: every row stands
for a step along an edge. The steps of a graph depend on its multiset of edges only.

## Key results

- `step_iff`: the out edges are the steps
- `IsRoute.walk`: the rows of a route are a walk that costs what they cost
- `dijkstra_route`: Dijkstra returns a shortest route, or no row when there is none
-/

namespace PgRouting

namespace PgrBaseGraph

variable {g : PgrBaseGraph BasicVertex BasicEdge} {u v : Nat}

/-- The edge `id` leads from the vertex `i` to `j` at the cost `c`, or joins them when the graph is
    undirected. -/
def Step (g : PgrBaseGraph BasicVertex BasicEdge) (i id j : Int) (c : ℚ) : Prop :=
  ∃ u v, g.verticesMap i = some u ∧ g.verticesMap j = some v ∧
    (id, endVertices g.graph.directed u v, c) ∈ g.edgeMultiset

theorem mem_edgeMultiset {x : Item} :
    x ∈ g.edgeMultiset ↔ ∃ e ∈ g.graph.edges, item g.graph.directed e = x := by
  rw [edgeMultiset, Multiset.mem_coe, List.mem_map]

/-- No edge of the graph of a table has a negative cost. -/
theorem ofTable_item_nonneg {directed : Bool} {es : List EdgeT} {x : Item}
    (h : x ∈ (ofTable directed es : PgrBaseGraph BasicVertex BasicEdge).edgeMultiset) :
    0 ≤ x.2.2 := by
  obtain ⟨e, he, rfl⟩ := mem_edgeMultiset.mp h
  exact ofTable_cost_nonneg directed es e he

theorem endVertices_eq_iff {directed : Bool} {a b : Nat} :
    endVertices directed a b = endVertices directed u v ↔
      a = u ∧ b = v ∨ directed = false ∧ a = v ∧ b = u := by
  cases directed with
  | true => simp [endVertices]
  | false =>
    simp only [endVertices, Bool.false_eq_true, if_false, Prod.mk.injEq, true_and]
    omega

/-- The steps between known vertices are the out edges. -/
theorem step_iff {i j id : Int} {c : ℚ} (hi : g.verticesMap i = some u)
    (hj : g.verticesMap j = some v) :
    g.Step i id j c ↔ ∃ e ∈ g.graph.outEdges u, e.target = v ∧ e.bundle.id = id ∧
      e.bundle.cost = c := by
  constructor
  · rintro ⟨u', v', hi', hj', hmem⟩
    obtain rfl := Option.some.inj (hi.symm.trans hi')
    obtain rfl := Option.some.inj (hj.symm.trans hj')
    obtain ⟨e, he, heq⟩ := mem_edgeMultiset.mp hmem
    simp only [item, Prod.mk.injEq] at heq
    obtain ⟨hid, hends, hc⟩ := heq
    obtain ⟨hs, ht⟩ | ⟨hd, hs, ht⟩ := endVertices_eq_iff.mp hends
    · exact ⟨e, AdjacencyList.mem_outEdges.mpr ⟨e, he, .inl ⟨rfl, hs⟩⟩, ht, hid, hc⟩
    · exact ⟨e.flip, AdjacencyList.mem_outEdges.mpr ⟨e, he, .inr ⟨hd, rfl, ht⟩⟩, hs, hid, hc⟩
  · rintro ⟨e, he, ht, hid, hc⟩
    have hs := AdjacencyList.source_of_mem_outEdges he
    obtain ⟨e₀, he₀, hitem, _⟩ := exists_item_of_mem_outEdges he
    refine ⟨u, v, hi, hj, mem_edgeMultiset.mpr ⟨e₀, he₀, ?_⟩⟩
    rw [← hitem, item, hs, ht, hid, hc]

theorem exists_step_iff (hg : g.Consistent) {i j : Int} {c : ℚ} :
    (∃ id, g.Step i id j c) ↔ g.IdArc i j c := by
  constructor
  · rintro ⟨id, hstep⟩
    have hends := hstep
    obtain ⟨u, v, hi, hj, _⟩ := hends
    obtain ⟨e, he, ht, _, hc⟩ := (step_iff hi hj).mp hstep
    exact (hg.idArc_iff hi hj).mpr ⟨e, he, ht, hc⟩
  · intro harc
    obtain ⟨⟨u, hi⟩, v, hj⟩ := hg.idArc_ends harc
    obtain ⟨e, he, ht, hc⟩ := (hg.idArc_iff hi hj).mp harc
    exact ⟨e.bundle.id, (step_iff hi hj).mpr ⟨e, he, ht, rfl, hc⟩⟩

/-- Out edges of a vertex of the graph are steps. -/
theorem step_of_mem_outEdges (hg : g.Consistent) {e : BoostEdge BasicEdge}
    (he : e ∈ g.graph.outEdges u) :
    g.Step (g.vertexId u) e.bundle.id (g.vertexId e.target) e.bundle.cost := by
  obtain ⟨e₀, he₀, hcase⟩ := AdjacencyList.mem_outEdges.mp he
  have hends : u < g.graph.vertices.length ∧ e.target < g.graph.vertices.length := by
    obtain ⟨rfl, rfl⟩ | ⟨_, rfl, rfl⟩ := hcase
    · exact hg.ends e he₀
    · exact (hg.ends e₀ he₀).symm
  exact (step_iff (hg.map_vertexId hends.1) (hg.map_vertexId hends.2)).mpr
    ⟨e, he, rfl, rfl, rfl⟩

/-- The edges of the graph are steps. -/
theorem step_of_idEdges (hg : g.Consistent) {i j id : Int} {c : ℚ}
    (h : (i, j, id, c) ∈ g.idEdges ∨ g.graph.directed = false ∧ (j, i, id, c) ∈ g.idEdges) :
    g.Step i id j c := by
  simp only [idEdges, List.mem_map, Prod.mk.injEq] at h
  obtain ⟨e, he, rfl, rfl, rfl, rfl⟩ | ⟨hd, e, he, rfl, rfl, rfl, rfl⟩ := h
  · exact step_of_mem_outEdges hg (AdjacencyList.mem_outEdges.mpr ⟨e, he, .inl ⟨rfl, rfl⟩⟩)
  · exact step_of_mem_outEdges hg (AdjacencyList.mem_outEdges.mpr ⟨e, he, .inr ⟨hd, rfl, rfl⟩⟩)

end PgrBaseGraph

namespace Path

/-! ## Routes -/

/-- The rows of the path are a route from `s` to `t` along the steps `S`, of at least one edge. -/
structure IsRoute (S : Int → Int → Int → ℚ → Prop) (s t : Int) (p : Path) : Prop where
  startId : p.startId = s
  endId : p.endId = t
  shape : ∃ rows agg, rows ≠ [] ∧ p.path = rows ++ [⟨t, -1, 0, agg⟩]
  head : p.path.head?.map (·.node) = some s
  joined : p.path.IsChain fun x y => S x.node x.edge y.node x.cost
  nodup : (p.path.map (·.node)).Nodup

/-- The edge by which the path leaves its first vertex. -/
def firstEdge (p : Path) : Option Int := p.path.head?.map (·.edge)

/-- The edge by which the path reaches its last vertex. -/
def lastEdge (p : Path) : Option Int := p.path.dropLast.getLast?.map (·.edge)

variable {S S' : Int → Int → Int → ℚ → Prop} {s t : Int} {p : Path}

theorem IsRoute.ne_nil (h : IsRoute S s t p) : p.path ≠ [] := by
  obtain ⟨rows, agg, _, hp⟩ := h.shape
  rw [hp]
  simp

/-- Joined rows are a walk to the node of the last one. -/
theorem walk_of_joined {agg : ℚ} (rows : List PathT)
    (h : (rows ++ [(⟨t, -1, 0, agg⟩ : PathT)]).IsChain fun x y => S x.node x.edge y.node x.cost)
    (hs : (rows ++ [(⟨t, -1, 0, agg⟩ : PathT)]).head?.map (·.node) = some s) :
    Walk (fun i j c => ∃ id, S i id j c) s t (rows.map (·.cost)).sum := by
  induction rows generalizing s with
  | nil =>
    obtain rfl : t = s := Option.some.inj hs
    exact .nil t
  | cons row rows ih =>
    obtain rfl : row.node = s := Option.some.inj hs
    rw [List.cons_append, List.isChain_cons] at h
    obtain ⟨hfirst, hrest⟩ := h
    obtain ⟨y, hy⟩ : ∃ y, (rows ++ [(⟨t, -1, 0, agg⟩ : PathT)]).head? = some y := by
      cases rows with
      | nil => exact ⟨_, rfl⟩
      | cons r rows => exact ⟨_, rfl⟩
    rw [List.map_cons, List.sum_cons]
    exact .cons ⟨row.edge, hfirst y hy⟩ (ih hrest (by rw [hy]; rfl))

theorem IsRoute.walk (h : IsRoute S s t p) :
    Walk (fun i j c => ∃ id, S i id j c) s t p.rowsCost := by
  obtain ⟨rows, agg, _, hp⟩ := h.shape
  have hcost : p.rowsCost = (rows.map (·.cost)).sum := by
    rw [rowsCost, hp]
    simp
  rw [hcost]
  exact walk_of_joined rows (hp ▸ h.joined) (hp ▸ h.head)

/-- A route visits another vertex. -/
theorem IsRoute.ne (h : IsRoute S s t p) : s ≠ t := by
  obtain ⟨rows, agg, hne, hp⟩ := h.shape
  obtain ⟨row, rows, rfl⟩ := List.exists_cons_of_ne_nil hne
  have hhead := h.head
  have hnodup := h.nodup
  rw [hp] at hhead hnodup
  obtain rfl : row.node = s := Option.some.inj hhead
  intro hst
  simp [hst] at hnodup

/-- A route starts with a step. -/
theorem IsRoute.firstStep (h : IsRoute S s t p) :
    ∃ id j c, p.firstEdge = some id ∧ S s id j c := by
  obtain ⟨rows, agg, hne, hp⟩ := h.shape
  obtain ⟨row, rows, rfl⟩ := List.exists_cons_of_ne_nil hne
  have hhead := h.head
  have hjoined := h.joined
  rw [hp] at hhead hjoined
  obtain rfl : row.node = s := Option.some.inj hhead
  obtain ⟨y, hy⟩ : ∃ y, (rows ++ [(⟨t, -1, 0, agg⟩ : PathT)]).head? = some y := by
    cases rows with
    | nil => exact ⟨_, rfl⟩
    | cons r rows => exact ⟨_, rfl⟩
  rw [List.cons_append, List.isChain_cons] at hjoined
  refine ⟨row.edge, y.node, row.cost, ?_, hjoined.1 y hy⟩
  rw [firstEdge, hp]
  rfl

theorem IsRoute.firstEdge_ne_none (h : IsRoute S s t p) : p.firstEdge ≠ none := by
  obtain ⟨id, _, _, hfirst, _⟩ := h.firstStep
  rw [hfirst]
  exact Option.some_ne_none id

/-- The steps of a route leave its first vertex once and do not lead back to it. -/
theorem IsRoute.mono (h : IsRoute S s t p)
    (hS : ∀ i id j c, S i id j c → (i = s → p.firstEdge = some id) → j ≠ s → S' i id j c) :
    IsRoute S' s t p := by
  refine ⟨h.startId, h.endId, h.shape, h.head, ?_, h.nodup⟩
  have hjoined := h.joined
  have hhead := h.head
  have hnodup := h.nodup
  obtain ⟨row, rest, hp⟩ := List.exists_cons_of_ne_nil h.ne_nil
  rw [firstEdge, hp] at hS
  rw [hp] at hjoined hhead hnodup ⊢
  obtain rfl : row.node = s := Option.some.inj hhead
  rw [List.map_cons, List.nodup_cons] at hnodup
  apply hjoined.imp_of_mem_tail_imp
  intro x y hx hy hxy
  have hnot : ∀ z ∈ rest, z.node ≠ row.node := by
    intro z hz heq
    exact hnodup.1 (heq ▸ List.mem_map_of_mem hz)
  refine hS _ _ _ _ hxy (fun hxs => ?_) (hnot y hy)
  obtain rfl | hx := List.mem_cons.mp hx
  · rfl
  · exact absurd hxs (hnot x hx)

end Path

/-! ## The routes of Dijkstra -/

namespace Algorithms

open Path

variable {boost : BoostDijkstra BasicVertex BasicEdge} {g : PgrBaseGraph BasicVertex BasicEdge}
variable {a b : Nat} {s t : Int}

/-- A route is a walk of the graph. -/
theorem walk_of_isRoute (hg : g.Consistent) (hs : g.verticesMap s = some a)
    (ht : g.verticesMap t = some b) {q : Path} (hq : Path.IsRoute g.Step s t q) :
    Walk g.graph.Arc a b q.rowsCost :=
  (hg.walk_idArc hs ht).mp
    (hq.walk.mono fun _ _ _ hstep => (PgrBaseGraph.exists_step_iff hg).mp hstep)

/-- The rows that are read from the tree are a route. -/
theorem isRoute_pathAlong (hg : g.Consistent) (hs : g.verticesMap s = some a)
    (ht : g.verticesMap t = some b) (hne : a ≠ b) {predecessors : Nat → Nat}
    {distances : Nat → WithTop ℚ} {l : List Nat}
    (htree : TreePath g.graph.Arc predecessors distances a l b) :
    Path.IsRoute g.Step s t (pathAlong g distances s t l b) := by
  obtain ⟨l', hl⟩ := htree.eq_snoc
  have hlast : l.getLast? = some b := by
    rw [hl]
    simp
  obtain ⟨hnodes, hjoined⟩ := treeRows_along l ((distances b).untopD 0) hlast htree.chain
  rw [hg.vertexId_eq ht] at hnodes hjoined
  have hlt := htree.lt hg.ends (hg.lt hs)
  refine ⟨rfl, rfl, ⟨treeRows g distances l, _, fun hnil => hne ?_, rfl⟩, ?_, ?_, ?_⟩
  · -- A path without an edge has one vertex.
    rw [hnil] at hnodes
    have hlen := congrArg List.length hnodes
    rw [hl] at hlen
    obtain rfl : l' = [] := by simpa using hlen
    have hhead := htree.head?_eq
    rw [hl] at hhead
    exact (Option.some.inj hhead).symm
  · show (treeRows g distances l ++ [_]).head?.map _ = _
    rw [← List.head?_map, hnodes, List.head?_map, htree.head?_eq, Option.map_some,
      hg.vertexId_eq hs]
  · apply hjoined.imp
    rintro x y ⟨u, e, he, hx, hid, hy, hc⟩
    rw [hx, hid, hy, hc]
    exact PgrBaseGraph.step_of_mem_outEdges hg he
  · show ((treeRows g distances l ++ [_]).map _).Nodup
    rw [hnodes]
    exact htree.nodup.map_on fun x hx y hy h => hg.vertexId_inj (hlt x hx) (hlt y hy) h

/-- Dijkstra returns a shortest route, or a path without rows when there is no route. -/
theorem dijkstra_route (hg : g.Consistent) (hs : g.verticesMap s = some a)
    (ht : g.verticesMap t = some b) (hboost : (boost g.graph a [b]).Documented g.graph a [b]) :
    ∃ p, dijkstra boost g s t false = some p ∧ p.startId = s ∧ p.endId = t ∧
      (p.path = [] ∧ (∀ q, ¬ Path.IsRoute g.Step s t q) ∨
        Path.IsRoute g.Step s t p ∧ ∀ q, Path.IsRoute g.Step s t q → p.rowsCost ≤ q.rowsCost) := by
  have hcode : ∀ p, dijkstraFrom boost g s [t] false = some [p] →
      dijkstra boost g s t false = some p := by
    intro p hp
    simp [dijkstra, dijkstraCombinations, hp]
  obtain ⟨hnone, hpath⟩ | ⟨hne, l, htree, hmin, hpath⟩ := dijkstraFrom_spec hg hs ht hboost
  · refine ⟨.new s t, hcode _ hpath, rfl, rfl, .inl ⟨rfl, fun q hq => ?_⟩⟩
    obtain rfl | hreach := hnone
    · exact hq.ne ((hg.vertexId_eq hs).symm.trans (hg.vertexId_eq ht))
    · exact hreach ⟨_, walk_of_isRoute hg hs ht hq⟩
  · refine ⟨_, hcode _ hpath, rfl, rfl, .inr ⟨isRoute_pathAlong hg hs ht hne htree, ?_⟩⟩
    intro q hq
    obtain ⟨d, hd, _⟩ := htree.walk
    have hcost : (pathAlong g (boost g.graph a [b]).distances s t l b).rowsCost = d := by
      rw [rowsCost, pathAlong, List.map_append, List.sum_append, htree.treeRows_cost, hd]
      simp
    have hle := hmin _ (walk_of_isRoute hg hs ht hq)
    rw [hd] at hle
    rw [hcost]
    exact WithTop.coe_le_coe.mp hle

/-- A vertex that is not in the graph leaves no path to return. -/
theorem dijkstra_unknown (h : g.verticesMap s = none ∨ g.verticesMap t = none) :
    dijkstra boost g s t false = none := by
  cases hs : g.verticesMap s with
  | none => simp [dijkstra, dijkstraCombinations, dijkstraFrom, hs]
  | some a =>
    have ht : g.verticesMap t = none := by
      obtain h | h := h
      · rw [hs] at h
        cases h
      · exact h
    simp [dijkstra, dijkstraCombinations, dijkstraFrom, hs, ht]

end Algorithms

end PgRouting
