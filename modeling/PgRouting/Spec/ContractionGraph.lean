import PgRouting.Native.Contraction
import PgRouting.Spec.BaseGraph
import Mathlib.Data.Finset.Card

/-!
# What the contraction graph is asked

The tests `is_dead_end` and `is_linear` and the lookups behind them, in terms of
one relation: `g.Adj u v` says that an edge leads from `u` to `v`. Which of them
hold of a vertex depends on nothing but the edges at that vertex.

## Key results

- `mem_findAdjacentVertices`: the neighbours of a vertex, in either direction
- `getMinCostEdge_spec`: the cheapest edge between two vertices
- `isDeadEnd_congr`, `isLinear_congr`: the tests are local
-/

namespace PgRouting

variable {V E : Type} {u v w x y : Nat}

namespace AdjacencyList

variable {g g' : AdjacencyList V E}

/-- An edge leads from `u` to `v`. -/
def Adj (g : AdjacencyList V E) (u v : Nat) : Prop := ∃ e ∈ g.edges, g.joins u v e = true

/-- The two ways in which an edge can lead from `u` to `v`. -/
theorem joins_iff {e : BoostEdge E} : g.joins u v e = true ↔
    (e.source = u ∧ e.target = v) ∨ (g.directed = false ∧ e.source = v ∧ e.target = u) := by
  simp only [joins, Bool.or_eq_true, Bool.and_eq_true, beq_iff_eq, Bool.not_eq_true', and_assoc]

theorem adj_iff : g.Adj u v ↔ ∃ e ∈ g.outEdges u, e.target = v := by
  constructor
  · rintro ⟨e, he, hj⟩
    obtain ⟨hs, ht⟩ | ⟨hd, hs, ht⟩ := joins_iff.mp hj
    · exact ⟨e, mem_outEdges.mpr ⟨e, he, .inl ⟨rfl, hs⟩⟩, ht⟩
    · exact ⟨e.flip, mem_outEdges.mpr ⟨e, he, .inr ⟨hd, rfl, ht⟩⟩, hs⟩
  · intro h
    obtain ⟨e, he, ht⟩ := h
    obtain ⟨e₀, he₀, ⟨rfl, hs⟩ | ⟨hd, rfl, hs⟩⟩ := mem_outEdges.mp he
    · exact ⟨e, he₀, joins_iff.mpr (.inl ⟨hs, ht⟩)⟩
    · exact ⟨e₀, he₀, joins_iff.mpr (.inr ⟨hd, ht, hs⟩)⟩

theorem adj_iff_arc [TEdge E] : g.Adj u v ↔ ∃ c, g.Arc u v c := by
  rw [adj_iff]
  constructor
  · intro h
    obtain ⟨e, he, ht⟩ := h
    exact ⟨_, e, he, ht, rfl⟩
  · intro h
    obtain ⟨_, e, he, ht, _⟩ := h
    exact ⟨e, he, ht⟩

theorem edge_isSome : (g.edge u v).isSome = true ↔ g.Adj u v := by
  rw [adj_iff, edge, List.find?_isSome]
  simp

/-- In an undirected graph an edge leads both ways. -/
theorem Adj.symm (hd : g.directed = false) (h : g.Adj u v) : g.Adj v u := by
  obtain ⟨e, he, hj⟩ := h
  refine ⟨e, he, joins_iff.mpr ?_⟩
  obtain hst | ⟨_, hst⟩ := joins_iff.mp hj
  · exact .inr ⟨hd, hst⟩
  · exact .inl hst

theorem Arc.symm [TEdge E] {c : ℚ} (hd : g.directed = false) (h : g.Arc u v c) : g.Arc v u c := by
  obtain ⟨e, he, hc, hst | ⟨_, hst⟩⟩ := arc_iff.mp h
  · exact arc_iff.mpr ⟨e, he, hc, .inr ⟨hd, hst⟩⟩
  · exact arc_iff.mpr ⟨e, he, hc, .inl hst⟩

/-- The vertices that are an end of some edge. -/
def touched (g : AdjacencyList V E) : Finset Nat :=
  (g.edges.map (·.source) ++ g.edges.map (·.target)).toFinset

theorem mem_touched : x ∈ g.touched ↔ ∃ y, g.Adj x y ∨ g.Adj y x := by
  simp only [touched, List.mem_toFinset, List.mem_append, List.mem_map]
  constructor
  · rintro (⟨e, he, rfl⟩ | ⟨e, he, rfl⟩)
    · exact ⟨e.target, .inl ⟨e, he, joins_iff.mpr (.inl ⟨rfl, rfl⟩)⟩⟩
    · exact ⟨e.source, .inr ⟨e, he, joins_iff.mpr (.inl ⟨rfl, rfl⟩)⟩⟩
  · rintro ⟨y, ⟨e, he, hj⟩ | ⟨e, he, hj⟩⟩
    · obtain ⟨hs, _⟩ | ⟨_, _, ht⟩ := joins_iff.mp hj
      · exact .inl ⟨e, he, hs⟩
      · exact .inr ⟨e, he, ht⟩
    · obtain ⟨_, ht⟩ | ⟨_, hs, _⟩ := joins_iff.mp hj
      · exact .inr ⟨e, he, ht⟩
      · exact .inl ⟨e, he, hs⟩

/-- What is left after `boost::clear_vertex`. -/
theorem mem_edges_clearVertex {e : BoostEdge E} :
    e ∈ (g.clearVertex v).edges ↔ e ∈ g.edges ∧ e.source ≠ v ∧ e.target ≠ v := by
  simp [clearVertex]

theorem arc_clearVertex [TEdge E] {c : ℚ} :
    (g.clearVertex v).Arc x y c ↔ g.Arc x y c ∧ x ≠ v ∧ y ≠ v := by
  simp only [arc_iff, mem_edges_clearVertex]
  constructor
  · rintro ⟨e, ⟨he, hs, ht⟩, hc, ⟨rfl, rfl⟩ | ⟨hd, rfl, rfl⟩⟩
    · exact ⟨⟨e, he, hc, .inl ⟨rfl, rfl⟩⟩, hs, ht⟩
    · exact ⟨⟨e, he, hc, .inr ⟨hd, rfl, rfl⟩⟩, ht, hs⟩
  · rintro ⟨⟨e, he, hc, ⟨rfl, rfl⟩ | ⟨hd, rfl, rfl⟩⟩, hx, hy⟩
    · exact ⟨e, ⟨he, hx, hy⟩, hc, .inl ⟨rfl, rfl⟩⟩
    · exact ⟨e, ⟨he, hy, hx⟩, hc, .inr ⟨hd, rfl, rfl⟩⟩

end AdjacencyList

namespace PgrContractionGraph

/-- The contraction graph of an edges table. -/
def ofTable (directed : Bool) (es : List EdgeT) : PgrContractionGraph :=
  { PgrBaseGraph.ofTable directed es with }

variable {g g' : PgrContractionGraph}

theorem hasEdge_iff : g.hasEdge u v = true ↔ g.graph.Adj u v := AdjacencyList.edge_isSome

/-- The other end of an edge at `v`. -/
theorem adjacent_eq {e : BoostEdge E} : (e.source = v → PgrBaseGraph.adjacent v e = e.target) ∧
    (e.target = v → PgrBaseGraph.adjacent v e = e.source) := by
  unfold PgrBaseGraph.adjacent
  constructor
  · intro h
    rw [if_pos h.symm]
  · intro h
    split
    · rename_i hv
      rw [h, hv]
    · rfl

/-- The adjacent vertices are those that an edge leads to or from. -/
theorem mem_findAdjacentVertices :
    x ∈ g.findAdjacentVertices v ↔ g.graph.Adj v x ∨ g.graph.Adj x v := by
  have hfold : ∀ (l : List (BoostEdge CHEdge)) (s : Identifiers Nat),
      x ∈ l.foldl (fun s e => s.add (PgrBaseGraph.adjacent v e)) s ↔
        x ∈ s ∨ ∃ e ∈ l, PgrBaseGraph.adjacent v e = x := by
    intro l s
    have h := Identifiers.mem_foldl_add (s := s) (l := l.map (PgrBaseGraph.adjacent v)) (x := x)
    rwa [List.foldl_map, List.mem_map] at h
  have hout : (∃ e ∈ g.graph.outEdges v, PgrBaseGraph.adjacent v e = x) ↔ g.graph.Adj v x := by
    rw [AdjacencyList.adj_iff]
    refine exists_congr fun e => and_congr_right fun he => ?_
    rw [adjacent_eq.1 (AdjacencyList.source_of_mem_outEdges he)]
  have hin : (∃ e ∈ g.graph.inEdges v, PgrBaseGraph.adjacent v e = x) ↔ g.graph.Adj x v := by
    rw [AdjacencyList.adj_iff]
    refine exists_congr fun e => ?_
    rw [AdjacencyList.mem_inEdges]
    constructor
    · intro h
      obtain ⟨⟨he, ht⟩, hx⟩ := h
      rw [adjacent_eq.2 ht] at hx
      exact ⟨hx ▸ he, ht⟩
    · intro h
      obtain ⟨he, ht⟩ := h
      have hs := AdjacencyList.source_of_mem_outEdges he
      refine ⟨⟨?_, ht⟩, ?_⟩
      · rw [hs]
        exact he
      · rw [adjacent_eq.2 ht, hs]
  rw [findAdjacentVertices, hfold, hfold, hout, hin]
  simp

/-! ## The cheapest edge -/

/-- The loop of `get_min_cost_edge` returns the first cheapest of its edges and joins their
    contracted vertices. -/
theorem getMinCostEdgeLoop_spec (l : List (BoostEdge CHEdge)) :
    ∀ (m : WithTop ℚ) (edge : CHEdge) (found : Bool) (ids : Identifiers Int),
    (found = true → m = (edge.cost : WithTop ℚ)) → (found = false → m = ⊤) →
    let r := getMinCostEdgeLoop l m edge found ids
    (r.2 = true ↔ found = true ∨ l ≠ []) ∧
    (r.2 = true → ((found = true ∧ r.1.cost = edge.cost) ∨ ∃ e ∈ l, r.1.cost = e.bundle.cost) ∧
      (r.1.cost : WithTop ℚ) ≤ m ∧ ∀ e ∈ l, r.1.cost ≤ e.bundle.cost) ∧
    ∀ i, i ∈ r.1.contractedVertices ↔ i ∈ ids ∨ ∃ e ∈ l, i ∈ e.bundle.contractedVertices := by
  induction l with
  | nil =>
    intro m edge found ids hm _
    refine ⟨by simp [getMinCostEdgeLoop], fun h => ⟨.inl ⟨h, rfl⟩, (hm h).ge, ?_⟩, fun i => ?_⟩
    · intro e he
      cases he
    · simp [getMinCostEdgeLoop]
  | cons e l ih =>
    intro m edge found ids hm hm'
    have hids : ∀ i, (i ∈ ids.union e.bundle.contractedVertices ∨
        ∃ e' ∈ l, i ∈ e'.bundle.contractedVertices) ↔
        i ∈ ids ∨ ∃ e' ∈ e :: l, i ∈ e'.bundle.contractedVertices := by
      intro i
      simp [or_assoc]
    simp only [getMinCostEdgeLoop]
    split
    · -- The edge is cheaper than what has been found so far.
      rename_i hlt
      obtain ⟨hfound, hbest, hset⟩ := ih _ e.bundle true (ids.union e.bundle.contractedVertices)
        (fun _ => rfl) (fun h => by cases h)
      refine ⟨by simp [hfound], fun h => ?_, fun i => (hset i).trans (hids i)⟩
      obtain ⟨hcost, hle, hall⟩ := hbest h
      refine ⟨.inr ?_, hle.trans hlt.le, fun e' he' => ?_⟩
      · obtain ⟨_, hc⟩ | ⟨e', he', hc⟩ := hcost
        · exact ⟨e, List.mem_cons_self, hc⟩
        · exact ⟨e', List.mem_cons_of_mem _ he', hc⟩
      · obtain rfl | he' := List.mem_cons.mp he'
        · exact WithTop.coe_le_coe.mp hle
        · exact hall e' he'
    · rename_i hge
      -- Only a minimum that has been found before can keep an edge from being cheaper.
      have hfound' : found = true := by
        by_contra hne
        rw [hm' (by simpa using hne)] at hge
        exact hge (WithTop.coe_lt_top _)
      obtain ⟨hfound, hbest, hset⟩ := ih m edge found (ids.union e.bundle.contractedVertices) hm hm'
      refine ⟨iff_of_true (hfound.mpr (.inl hfound')) (.inl hfound'), fun h => ?_,
        fun i => (hset i).trans (hids i)⟩
      obtain ⟨hcost, hle, hall⟩ := hbest h
      refine ⟨hcost.imp id fun h => ?_, hle, fun e' he' => ?_⟩
      · obtain ⟨e', he', hc⟩ := h
        exact ⟨e', List.mem_cons_of_mem _ he', hc⟩
      · obtain rfl | he' := List.mem_cons.mp he'
        · exact WithTop.coe_le_coe.mp (hle.trans (not_lt.mp hge))
        · exact hall e' he'

/-- The edges that `get_min_cost_edge` looks at are the out edges of `u` that end in `v`. -/
theorem getMinCostEdge_eq : g.getMinCostEdge u v =
    getMinCostEdgeLoop ((g.graph.outEdges u).filter (·.target = v)) ⊤ (TEdge.ofIdCost 0 0) false
      .empty := by
  unfold getMinCostEdge
  congr 1
  apply List.filter_congr
  intro e he
  rw [adjacent_eq.1 (AdjacencyList.source_of_mem_outEdges he)]
  simp

/-- An edge is found if there is one, it is a cheapest one, and its contracted vertices are
    those of all edges that lead from `u` to `v`. -/
theorem getMinCostEdge_spec :
    ((g.getMinCostEdge u v).2 = true ↔ g.graph.Adj u v) ∧
    (g.graph.Adj u v → g.graph.Arc u v (g.getMinCostEdge u v).1.cost ∧
      ∀ c, g.graph.Arc u v c → (g.getMinCostEdge u v).1.cost ≤ c) ∧
    ∀ i, i ∈ (g.getMinCostEdge u v).1.contractedVertices ↔
      ∃ e ∈ g.graph.outEdges u, e.target = v ∧ i ∈ e.bundle.contractedVertices := by
  obtain ⟨hfound, hbest, hset⟩ := getMinCostEdgeLoop_spec
    ((g.graph.outEdges u).filter (·.target = v)) ⊤ (TEdge.ofIdCost 0 0) false .empty
    (fun h => by cases h) (fun _ => rfl)
  rw [← getMinCostEdge_eq] at hfound hbest hset
  have hne : (g.graph.outEdges u).filter (·.target = v) ≠ [] ↔ g.graph.Adj u v := by
    rw [AdjacencyList.adj_iff, Ne, List.filter_eq_nil_iff]
    simp
  have hiff : (g.getMinCostEdge u v).2 = true ↔ g.graph.Adj u v := by
    rw [hfound, ← hne]
    simp
  refine ⟨hiff, fun h => ?_, fun i => (hset i).trans (by simp [and_assoc])⟩
  obtain ⟨hcost, _, hall⟩ := hbest (hiff.mpr h)
  constructor
  · obtain ⟨hf, _⟩ | ⟨e, he, hc⟩ := hcost
    · cases hf
    · have he := List.mem_filter.mp he
      exact ⟨e, he.1, by simpa using he.2, hc.symm⟩
  · intro c hc
    obtain ⟨e, he, ht, rfl⟩ := hc
    exact hall e (List.mem_filter.mpr ⟨he, by simpa using ht⟩)

/-! ## Dead ends and linear vertices -/

/-- The same edges lead to and from `v` in both graphs. -/
structure SameAt (g g' : PgrContractionGraph) (v : Nat) : Prop where
  directed : g'.graph.directed = g.graph.directed
  out_ : ∀ x, g'.graph.Adj v x ↔ g.graph.Adj v x
  in_ : ∀ x, g'.graph.Adj x v ↔ g.graph.Adj x v

theorem SameAt.findAdjacentVertices (h : SameAt g g' v) :
    g'.findAdjacentVertices v = g.findAdjacentVertices v := by
  apply Identifiers.ext_mem
  intro x
  rw [mem_findAdjacentVertices, mem_findAdjacentVertices, h.out_, h.in_]

theorem inEdges_length_pos : 0 < (g.graph.inEdges v).length ↔ ∃ x, g.graph.Adj x v := by
  rw [List.length_pos_iff_exists_mem]
  constructor
  · intro h
    obtain ⟨e, he⟩ := h
    obtain ⟨he, ht⟩ := AdjacencyList.mem_inEdges.mp he
    exact ⟨e.source, AdjacencyList.adj_iff.mpr ⟨e, he, ht⟩⟩
  · intro h
    obtain ⟨x, hx⟩ := h
    obtain ⟨e, he, ht⟩ := AdjacencyList.adj_iff.mp hx
    refine ⟨e, AdjacencyList.mem_inEdges.mpr ⟨?_, ht⟩⟩
    rw [AdjacencyList.source_of_mem_outEdges he]
    exact he

theorem outEdges_length_eq_zero : (g.graph.outEdges v).length = 0 ↔ ∀ x, ¬ g.graph.Adj v x := by
  rw [List.length_eq_zero_iff, List.eq_nil_iff_forall_not_mem]
  constructor
  · intro h x hx
    obtain ⟨e, he, _⟩ := AdjacencyList.adj_iff.mp hx
    exact h e he
  · intro h e he
    exact h e.target (AdjacencyList.adj_iff.mpr ⟨e, he, rfl⟩)

theorem isDeadEnd_iff : g.isDeadEnd v = true ↔ (g.findAdjacentVertices v).size = 1 ∨
    (g.graph.directed = true ∧ (∃ x, g.graph.Adj x v) ∧ ∀ x, ¬ g.graph.Adj v x) := by
  unfold isDeadEnd
  split
  · rename_i hd
    have hd : g.graph.directed = false := by simpa using hd
    simp [hd]
  · rename_i hd
    have hd : g.graph.directed = true := by simpa using hd
    rw [Bool.or_eq_true, Bool.and_eq_true, decide_eq_true_iff, decide_eq_true_iff,
      decide_eq_true_iff, inEdges_length_pos, outEdges_length_eq_zero]
    simp [hd]

/-- Whether a vertex is a dead end depends on its edges only. -/
theorem isDeadEnd_congr (h : SameAt g g' v) : g'.isDeadEnd v = g.isDeadEnd v := by
  rw [Bool.eq_iff_iff, isDeadEnd_iff, isDeadEnd_iff, h.findAdjacentVertices, h.directed]
  simp only [h.out_, h.in_]

theorem hasEdge_congr (h : SameAt g g' v) (x : Nat) :
    g'.hasEdge v x = g.hasEdge v x ∧ g'.hasEdge x v = g.hasEdge x v := by
  constructor
  · exact Bool.eq_iff_iff.mpr (hasEdge_iff.trans ((h.out_ x).trans hasEdge_iff.symm))
  · exact Bool.eq_iff_iff.mpr (hasEdge_iff.trans ((h.in_ x).trans hasEdge_iff.symm))

/-- Whether a vertex is linear depends on its edges only. -/
theorem isLinear_congr (h : SameAt g g' v) : g'.isLinear v = g.isLinear v := by
  have hshortcut : ∀ u w, g'.isShortcutPossible u v w = g.isShortcutPossible u v w := by
    intro u w
    simp only [isShortcutPossible, hasUVW, h.directed, (hasEdge_congr h u).1, (hasEdge_congr h u).2,
      (hasEdge_congr h w).1, (hasEdge_congr h w).2]
  simp only [isLinear, linearEnds, h.findAdjacentVertices, hshortcut]

/-- A linear vertex has two neighbours, which `one_cycle` finds. -/
theorem exists_linearEnds (h : g.isLinear v = true) : ∃ u w, g.linearEnds v = some (u, w) ∧
    u ≠ v ∧ w ≠ v ∧ u ≠ w ∧ (∀ x, x ∈ g.findAdjacentVertices v ↔ x = u ∨ x = w) ∧
    g.isShortcutPossible u v w = true := by
  unfold isLinear at h
  split at h
  · rename_i hsize
    obtain ⟨u, w, hu, hw, huw, hmem⟩ := Identifiers.front?_of_size_two hsize
    have hends : g.linearEnds v = some (u, w) := by
      simp only [linearEnds, hu, hw]
    rw [hends] at h
    have hne : ¬ (u = v ∨ v = w ∨ u = w) := by
      intro hne
      simp [isShortcutPossible, hne] at h
    obtain ⟨huv, hvw, _⟩ := not_or.mp hne |>.imp id not_or.mp
    exact ⟨u, w, hends, huv, Ne.symm hvw, huw, hmem, h⟩
  · cases h

end PgrContractionGraph

end PgRouting
