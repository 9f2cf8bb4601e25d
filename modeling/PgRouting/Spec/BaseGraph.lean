import PgRouting.Native.BaseGraph
import PgRouting.Lib.Walk

/-!
# The graph read from an edges table

`insert_edges` keeps the map from ids to descriptors consistent with the vertices
of the graph, and the edges it inserts are, in the ids of the table, the rows
`tableRows` lists: one for every cost that is not negative, except that an
undirected graph does not repeat an edge whose two costs agree.

## Key results

- `insertEdges_spec`, `ofTable_consistent`: every id has one descriptor, every descriptor one id
- `ofTable_idEdges`: the edges of the graph, in the ids of the table
- `Consistent.walk_idArc`: the walks of the graph, in the ids of the table
-/

namespace PgRouting

variable {V E : Type} {u v : Nat}

namespace AdjacencyList

/-- An out edge is an edge of the graph, possibly seen from its other end. -/
theorem mem_outEdges {g : AdjacencyList V E} {e : BoostEdge E} :
    e ∈ g.outEdges u ↔ ∃ e₀ ∈ g.edges, (e = e₀ ∧ e₀.source = u) ∨
      (g.directed = false ∧ e = e₀.flip ∧ e₀.target = u) := by
  simp only [AdjacencyList.outEdges, List.mem_flatMap, List.mem_append]
  constructor
  · rintro ⟨e₀, hmem, h | h⟩
    · split at h
      · exact ⟨e₀, hmem, .inl ⟨List.mem_singleton.mp h, ‹_›⟩⟩
      · cases h
    · split at h
      · rename_i hc
        exact ⟨e₀, hmem, .inr ⟨by simpa using hc.1, List.mem_singleton.mp h, hc.2⟩⟩
      · cases h
  · rintro ⟨e₀, hmem, ⟨rfl, hs⟩ | ⟨hd, rfl, ht⟩⟩
    · exact ⟨e, hmem, .inl (by simp [hs])⟩
    · exact ⟨e₀, hmem, .inr (by simp [hd, ht])⟩

theorem source_of_mem_outEdges {g : AdjacencyList V E} {e : BoostEdge E}
    (h : e ∈ g.outEdges u) : e.source = u := by
  obtain ⟨e₀, _, ⟨rfl, hs⟩ | ⟨_, rfl, ht⟩⟩ := mem_outEdges.mp h
  · exact hs
  · exact ht

/-- The in edges of `v` are the out edges that lead to `v`. -/
theorem mem_inEdges {g : AdjacencyList V E} {e : BoostEdge E} :
    e ∈ g.inEdges v ↔ e ∈ g.outEdges e.source ∧ e.target = v := by
  unfold inEdges
  split
  · rename_i hd
    simp only [List.mem_filter, decide_eq_true_eq]
    constructor
    · rintro ⟨hmem, ht⟩
      exact ⟨mem_outEdges.mpr ⟨e, hmem, .inl ⟨rfl, rfl⟩⟩, ht⟩
    · rintro ⟨he, ht⟩
      obtain ⟨e₀, hmem, ⟨rfl, _⟩ | ⟨hd', _⟩⟩ := mem_outEdges.mp he
      · exact ⟨hmem, ht⟩
      · rw [hd] at hd'
        cases hd'
  · rename_i hd
    simp only [List.mem_map]
    have hd : g.directed = false := by simpa using hd
    constructor
    · rintro ⟨e', he', rfl⟩
      obtain ⟨e₀, hmem, ⟨rfl, hs⟩ | ⟨_, rfl, ht⟩⟩ := mem_outEdges.mp he'
      · exact ⟨mem_outEdges.mpr ⟨e', hmem, .inr ⟨hd, rfl, rfl⟩⟩, hs⟩
      · exact ⟨mem_outEdges.mpr ⟨e₀, hmem, .inl ⟨rfl, rfl⟩⟩, ht⟩
    · rintro ⟨he, ht⟩
      obtain ⟨e₀, he₀, ⟨rfl, _⟩ | ⟨_, rfl, _⟩⟩ := mem_outEdges.mp he
      · exact ⟨e.flip, mem_outEdges.mpr ⟨e, he₀, .inr ⟨hd, rfl, ht⟩⟩, rfl⟩
      · exact ⟨e₀, mem_outEdges.mpr ⟨e₀, he₀, .inl ⟨rfl, ht⟩⟩, rfl⟩

/-- An arc of the graph: an out edge of `u` leads to `v` at cost `w`. -/
def Arc [TEdge E] (g : AdjacencyList V E) (u v : Nat) (w : ℚ) : Prop :=
  ∃ e ∈ g.outEdges u, e.target = v ∧ TEdge.cost e.bundle = w

theorem arc_iff [TEdge E] {g : AdjacencyList V E} {w : ℚ} :
    g.Arc u v w ↔ ∃ e ∈ g.edges, TEdge.cost e.bundle = w ∧
      ((e.source = u ∧ e.target = v) ∨
        (g.directed = false ∧ e.source = v ∧ e.target = u)) := by
  constructor
  · rintro ⟨e, hmem, ht, hw⟩
    obtain ⟨e₀, he₀, ⟨rfl, hs⟩ | ⟨hd, rfl, hs⟩⟩ := mem_outEdges.mp hmem
    · exact ⟨e, he₀, hw, .inl ⟨hs, ht⟩⟩
    · exact ⟨e₀, he₀, hw, .inr ⟨hd, ht, hs⟩⟩
  · rintro ⟨e, hmem, hw, ⟨hs, ht⟩ | ⟨hd, hs, ht⟩⟩
    · exact ⟨e, mem_outEdges.mpr ⟨e, hmem, .inl ⟨rfl, hs⟩⟩, ht, hw⟩
    · exact ⟨e.flip, mem_outEdges.mpr ⟨e, hmem, .inr ⟨hd, rfl, ht⟩⟩, hs, hw⟩

end AdjacencyList

namespace PgrBaseGraph

variable [TVertex V] [TEdge E]

/-- An edge in the ids of the table: source, target, edge id and cost. -/
abbrev IdEdge := Int × Int × Int × ℚ

/-- The edges of the graph, in the ids of the table. -/
def idEdges (g : PgrBaseGraph V E) : List IdEdge :=
  g.graph.edges.map fun e =>
    (g.vertexId e.source, g.vertexId e.target, TEdge.id e.bundle, TEdge.cost e.bundle)

/-- The edges that a row of the table puts into a graph. -/
def tableRows (directed normal : Bool) (e : EdgeT) : List IdEdge :=
  (if 0 ≤ e.cost then [(e.source, e.target, e.id, e.cost)] else []) ++
  (if 0 ≤ e.reverseCost ∧ (directed ∨ e.cost ≠ e.reverseCost) then
    [(e.target, e.source, if normal then e.id else -e.id, e.reverseCost)] else [])

/-- The map from ids to descriptors agrees with the vertices of the graph, and edges join
    vertices of the graph. -/
structure Consistent (g : PgrBaseGraph V E) : Prop where
  map : ∀ i v, g.verticesMap i = some v ↔ ∃ x, g.graph.vertices[v]? = some x ∧ TVertex.id x = i
  ends : ∀ e ∈ g.graph.edges, e.source < g.graph.vertices.length ∧
    e.target < g.graph.vertices.length

section Vertices

omit [TEdge E]

variable {g : PgrBaseGraph V E}

theorem Consistent.lt (hg : g.Consistent) {i : Int} (h : g.verticesMap i = some v) :
    v < g.graph.vertices.length := by
  obtain ⟨x, hx, _⟩ := (hg.map i v).mp h
  exact (List.getElem?_eq_some_iff.mp hx).1

/-- A descriptor has the id that is mapped to it. -/
theorem Consistent.vertexId_eq (hg : g.Consistent) {i : Int} (h : g.verticesMap i = some v) :
    g.vertexId v = i := by
  obtain ⟨x, hx, rfl⟩ := (hg.map i v).mp h
  simp only [vertexId, hx, Option.map_some, Option.getD_some]

theorem Consistent.map_vertexId (hg : g.Consistent) (h : v < g.graph.vertices.length) :
    g.verticesMap (g.vertexId v) = some v := by
  rw [hg.map]
  exact ⟨g.graph.vertices[v], List.getElem?_eq_getElem h, by simp [vertexId, h]⟩

/-- Different descriptors have different ids. -/
theorem Consistent.vertexId_inj (hg : g.Consistent) (hu : u < g.graph.vertices.length)
    (hv : v < g.graph.vertices.length) (h : g.vertexId u = g.vertexId v) : u = v := by
  have := hg.map_vertexId hu
  rw [h, hg.map_vertexId hv] at this
  exact (Option.some.inj this).symm

theorem empty_consistent (directed : Bool) :
    (PgrBaseGraph.empty directed : PgrBaseGraph V E).Consistent :=
  ⟨fun i v => by simp [PgrBaseGraph.empty], fun e he => nomatch he⟩

/-- A new vertex gets the next descriptor, and nothing else changes its descriptor. -/
theorem addVertex_consistent (hg : g.Consistent) {x : V}
    (hnew : g.verticesMap (TVertex.id x) = none) : (g.addVertex x).Consistent := by
  refine ⟨fun i v => ?_, fun e he => ?_⟩
  · simp only [addVertex]
    by_cases hi : i = TVertex.id x
    · subst hi
      simp only [Function.update_self, Option.some.injEq, AdjacencyList.numVertices]
      constructor
      · rintro rfl
        exact ⟨x, by simp, rfl⟩
      · rintro ⟨y, hy, hid⟩
        rw [List.getElem?_append] at hy
        split at hy
        · rw [(hg.map _ v).mpr ⟨y, hy, hid⟩] at hnew
          cases hnew
        · have := (List.getElem?_eq_some_iff.mp hy).1
          simp only [List.length_cons, List.length_nil] at this
          omega
    · rw [Function.update_of_ne hi, hg.map]
      constructor
      · rintro ⟨y, hy, hid⟩
        exact ⟨y, by rw [List.getElem?_append_left (List.getElem?_eq_some_iff.mp hy).1, hy], hid⟩
      · rintro ⟨y, hy, hid⟩
        rw [List.getElem?_append] at hy
        split at hy
        · exact ⟨y, hy, hid⟩
        · obtain rfl : x = y := by
            exact (List.mem_singleton.mp (List.mem_of_getElem? hy)).symm
          exact absurd hid.symm hi
  · have := hg.ends e he
    simp only [addVertex, List.length_append, List.length_cons, List.length_nil]
    omega

end Vertices

/-! ## Inserting -/

/-- `g'` arises from `g` by adding vertices: it knows the vertices of `g` by the same
    descriptors and has the same edges. -/
structure AddsVertices (g g' : PgrBaseGraph V E) : Prop where
  consistent : g'.Consistent
  keep : ∀ i v, g.verticesMap i = some v → g'.verticesMap i = some v
  edges : g'.idEdges = g.idEdges
  directed : g'.graph.directed = g.graph.directed
  removed : g'.removedEdges = g.removedEdges

/-- `get_V` returns the descriptor of the vertex in the graph it returns. -/
theorem getV_spec {g : PgrBaseGraph V E} (hg : g.Consistent) (x : V) :
    AddsVertices g (g.getV x).2 ∧
    (g.getV x).2.verticesMap (TVertex.id x) = some (g.getV x).1 ∧
    (∀ i, ((g.getV x).2.verticesMap i).isSome ↔ (g.verticesMap i).isSome ∨ i = TVertex.id x) := by
  cases hmap : g.verticesMap (TVertex.id x) with
  | some v =>
    simp only [getV, hmap]
    refine ⟨⟨hg, fun _ _ h => h, rfl, rfl, rfl⟩, trivial, fun i => ⟨.inl, ?_⟩⟩
    rintro (h | rfl)
    · exact h
    · rw [hmap]; rfl
  | none =>
    simp only [getV, hmap]
    refine ⟨⟨addVertex_consistent hg hmap, fun i v h => ?_, ?_, rfl, rfl⟩, by simp [addVertex],
      fun i => ?_⟩
    · have hne : i ≠ TVertex.id x := by
        rintro rfl
        rw [hmap] at h
        cases h
      simpa only [addVertex, Function.update_of_ne hne] using h
    · refine List.map_congr_left fun e he => ?_
      have hends := hg.ends e he
      simp [vertexId, addVertex, List.getElem?_append_left hends.1,
        List.getElem?_append_left hends.2]
    · by_cases hi : i = TVertex.id x
      · simp [addVertex, hi]
      · simp [addVertex, hi]

/-- Adding an edge between known vertices. -/
theorem addNew_spec {g : PgrBaseGraph V E} (hg : g.Consistent) {i j : Int}
    (hu : g.verticesMap i = some u) (hv : g.verticesMap j = some v) (id : Int) (c : ℚ) :
    (g.addNew u v id c).Consistent ∧
    (g.addNew u v id c).idEdges = g.idEdges ++ [(i, j, id, c)] := by
  refine ⟨⟨hg.map, fun e he => ?_⟩, ?_⟩
  · simp only [addNew, AdjacencyList.addEdge, List.mem_append, List.mem_singleton] at he
    obtain he | rfl := he
    · exact hg.ends e he
    · exact ⟨hg.lt hu, hg.lt hv⟩
  · have hs := hg.vertexId_eq hu
    have ht := hg.vertexId_eq hv
    simp only [vertexId] at hs ht
    simp [idEdges, addNew, AdjacencyList.addEdge, vertexId, hs, ht]

/-- The ends of a row of the table that is read into the graph. -/
def isEnd (e : EdgeT) (i : Int) : Prop :=
  ¬ (e.cost < 0 ∧ e.reverseCost < 0) ∧ (i = e.source ∨ i = e.target)

/-- `graph_add_edge` reads one row of the table. -/
theorem graphAddEdge_spec {g : PgrBaseGraph V E} (hg : g.Consistent) (normal : Bool) (e : EdgeT) :
    (g.graphAddEdge normal e).Consistent ∧
    (g.graphAddEdge normal e).idEdges = g.idEdges ++ tableRows g.graph.directed normal e ∧
    (g.graphAddEdge normal e).graph.directed = g.graph.directed ∧
    (g.graphAddEdge normal e).removedEdges = g.removedEdges ∧
    (∀ i, ((g.graphAddEdge normal e).verticesMap i).isSome ↔
      (g.verticesMap i).isSome ∨ isEnd e i) := by
  unfold graphAddEdge
  by_cases hneg : e.cost < 0 ∧ e.reverseCost < 0
  · have hc : ¬ 0 ≤ e.cost := not_le.mpr hneg.1
    have hr : ¬ 0 ≤ e.reverseCost := not_le.mpr hneg.2
    simp [hneg, hg, tableRows, hc, hr, isEnd]
  · obtain ⟨hadd₁, hs, hsome₁⟩ := getV_spec (E := E) hg (TVertex.ofId e.source : V)
    obtain ⟨hadd₂, ht, hsome₂⟩ := getV_spec hadd₁.consistent (TVertex.ofId e.target : V)
    simp only [hneg, if_false]
    generalize (g.getV (TVertex.ofId e.source)).1 = vmS at *
    generalize (g.getV (TVertex.ofId e.source)).2 = g₁ at *
    generalize (g₁.getV (TVertex.ofId e.target)).1 = vmT at *
    generalize (g₁.getV (TVertex.ofId e.target)).2 = g₂ at *
    rw [TVertex.id_ofId] at hs ht
    have hs₂ := hadd₂.keep _ _ hs
    have hdir : g₂.graph.directed = g.graph.directed := hadd₂.directed.trans hadd₁.directed
    have hrem : g₂.removedEdges = g.removedEdges := hadd₂.removed.trans hadd₁.removed
    have hedges : g₂.idEdges = g.idEdges := hadd₂.edges.trans hadd₁.edges
    have hknown : ∀ i, (g₂.verticesMap i).isSome ↔ (g.verticesMap i).isSome ∨ isEnd e i := by
      intro i
      rw [hsome₂, hsome₁, TVertex.id_ofId, TVertex.id_ofId, isEnd, or_assoc]
      simp [hneg]
    -- The graph with the forward edge, if there is one.
    obtain ⟨g₃, hg₃, hcons₃, hedges₃, hdir₃, hrem₃, hmap₃⟩ : ∃ g₃,
        (if 0 ≤ e.cost then g₂.addNew vmS vmT e.id e.cost else g₂) = g₃ ∧ g₃.Consistent ∧
        g₃.idEdges = g.idEdges ++
          (if 0 ≤ e.cost then [(e.source, e.target, e.id, e.cost)] else []) ∧
        g₃.graph.directed = g.graph.directed ∧ g₃.removedEdges = g.removedEdges ∧
        g₃.verticesMap = g₂.verticesMap := by
      refine ⟨_, rfl, ?_⟩
      split
      · obtain ⟨hc, he⟩ := addNew_spec hadd₂.consistent hs₂ ht e.id e.cost
        exact ⟨hc, by rw [he, hedges], hdir, hrem, rfl⟩
      · exact ⟨hadd₂.consistent, by rw [hedges, List.append_nil], hdir, hrem, rfl⟩
    rw [hg₃]
    have hback : (0 ≤ e.reverseCost ∧ (g₃.graph.directed = true ∨
        (!g₃.graph.directed) = true ∧ e.cost ≠ e.reverseCost)) ↔
        (0 ≤ e.reverseCost ∧ (g.graph.directed = true ∨ e.cost ≠ e.reverseCost)) := by
      rw [hdir₃]
      cases g.graph.directed <;> simp
    rw [tableRows, ← List.append_assoc, ← hedges₃]
    simp only [hback]
    split
    · obtain ⟨hc, he⟩ := addNew_spec hcons₃ (hmap₃ ▸ ht) (hmap₃ ▸ hs₂)
        (if normal then e.id else -e.id) e.reverseCost
      exact ⟨hc, he, hdir₃, hrem₃, fun i => by rw [← hknown i, ← hmap₃]; rfl⟩
    · exact ⟨hcons₃, by rw [List.append_nil], hdir₃, hrem₃, fun i => by rw [← hknown i, hmap₃]⟩

/-- The whole table. -/
theorem insertEdges_spec {g : PgrBaseGraph V E} (hg : g.Consistent) (normal : Bool)
    (es : List EdgeT) :
    (g.insertEdges es normal).Consistent ∧
    (g.insertEdges es normal).idEdges =
      g.idEdges ++ es.flatMap (tableRows g.graph.directed normal) ∧
    (g.insertEdges es normal).graph.directed = g.graph.directed ∧
    (g.insertEdges es normal).removedEdges = g.removedEdges ∧
    (∀ i, ((g.insertEdges es normal).verticesMap i).isSome ↔
      (g.verticesMap i).isSome ∨ ∃ e ∈ es, isEnd e i) := by
  induction es generalizing g with
  | nil => simp [insertEdges, hg]
  | cons e es ih =>
    obtain ⟨hc, he, hd, hr, hk⟩ := graphAddEdge_spec hg normal e
    obtain ⟨hc', he', hd', hr', hk'⟩ := ih hc
    refine ⟨hc', ?_, hd'.trans hd, hr'.trans hr, fun i => ?_⟩
    · simp only [insertEdges, List.foldl_cons, List.flatMap_cons] at he' ⊢
      rw [he', he, hd, List.append_assoc]
    · refine (hk' i).trans ?_
      rw [hk i, or_assoc]
      simp only [List.mem_cons, exists_eq_or_imp]

/-- The graph that `insert_edges` builds from a table. -/
def ofTable (directed : Bool) (es : List EdgeT) : PgrBaseGraph V E :=
  (PgrBaseGraph.empty directed).insertEdges es true

theorem ofTable_consistent (directed : Bool) (es : List EdgeT) :
    (ofTable directed es : PgrBaseGraph V E).Consistent :=
  (insertEdges_spec (empty_consistent directed) true es).1

theorem ofTable_directed (directed : Bool) (es : List EdgeT) :
    (ofTable directed es : PgrBaseGraph V E).graph.directed = directed :=
  (insertEdges_spec (empty_consistent directed) true es).2.2.1

theorem ofTable_removedEdges (directed : Bool) (es : List EdgeT) :
    (ofTable directed es : PgrBaseGraph V E).removedEdges = [] :=
  (insertEdges_spec (empty_consistent directed) true es).2.2.2.1

/-- The edges of the graph, in the ids of the table. -/
theorem ofTable_idEdges (directed : Bool) (es : List EdgeT) :
    (ofTable directed es : PgrBaseGraph V E).idEdges = es.flatMap (tableRows directed true) :=
  (insertEdges_spec (empty_consistent directed) true es).2.1

theorem ofTable_hasVertex (directed : Bool) (es : List EdgeT) (i : Int) :
    ((ofTable directed es : PgrBaseGraph V E).verticesMap i).isSome ↔ ∃ e ∈ es, isEnd e i := by
  refine ((insertEdges_spec (empty_consistent directed) true es).2.2.2.2 i).trans ?_
  simp [PgrBaseGraph.empty]

/-- The vertices and edges have the properties that `insert_edges` gives to new ones. -/
structure NewProperties (P : V → Prop) (Q : E → Prop) (g : PgrBaseGraph V E) : Prop where
  vertices : ∀ x ∈ g.graph.vertices, P x
  edges : ∀ e ∈ g.graph.edges, Q e.bundle

section NewProperties

variable {P : V → Prop} {Q : E → Prop}

omit [TEdge E] in
theorem NewProperties.getV {g : PgrBaseGraph V E} (h : NewProperties P Q g) {x : V} (hx : P x) :
    NewProperties P Q (g.getV x).2 := by
  unfold PgrBaseGraph.getV
  split
  · exact h
  · refine ⟨fun y hy => ?_, h.edges⟩
    obtain hy | hy := List.mem_append.mp hy
    · exact h.vertices y hy
    · rw [List.mem_singleton.mp hy]
      exact hx

omit [TVertex V] in
theorem NewProperties.addNew {g : PgrBaseGraph V E} (h : NewProperties P Q g) {id : Int} {c : ℚ}
    (hQ : Q (TEdge.ofIdCost id c)) : NewProperties P Q (g.addNew u v id c) := by
  refine ⟨h.vertices, fun e he => ?_⟩
  obtain he | he := List.mem_append.mp he
  · exact h.edges e he
  · rw [List.mem_singleton.mp he]
    exact hQ

theorem NewProperties.graphAddEdge {g : PgrBaseGraph V E} (h : NewProperties P Q g)
    (hP : ∀ i, P (TVertex.ofId i)) (hQ : ∀ i c, Q (TEdge.ofIdCost i c)) (normal : Bool)
    (e : EdgeT) : NewProperties P Q (g.graphAddEdge normal e) := by
  unfold PgrBaseGraph.graphAddEdge
  split
  · exact h
  · have hends := (h.getV (hP e.source)).getV (hP e.target)
    -- Each of the two edges is added or not.
    have hadd : ∀ (c : Prop) [Decidable c] (g : PgrBaseGraph V E) (u v : Nat) (i : Int) (k : ℚ),
        NewProperties P Q g → NewProperties P Q (if c then g.addNew u v i k else g) := by
      intro c _ g u v i k hg
      split
      · exact hg.addNew (hQ i k)
      · exact hg
    exact hadd _ _ _ _ _ _ (hadd _ _ _ _ _ _ hends)

theorem ofTable_newProperties (hP : ∀ i, P (TVertex.ofId i)) (hQ : ∀ i c, Q (TEdge.ofIdCost i c))
    (directed : Bool) (es : List EdgeT) :
    NewProperties P Q (ofTable directed es : PgrBaseGraph V E) := by
  have hinsert : ∀ g : PgrBaseGraph V E, NewProperties P Q g →
      NewProperties P Q (g.insertEdges es true) := by
    induction es with
    | nil => exact fun g h => h
    | cons e es ih => exact fun g h => ih _ (h.graphAddEdge hP hQ true e)
  apply hinsert
  refine ⟨fun x hx => ?_, fun e he => ?_⟩
  · cases hx
  · cases he

end NewProperties

/-- No edge read from a table has a negative cost. -/
theorem ofTable_cost_nonneg (directed : Bool) (es : List EdgeT) :
    ∀ e ∈ (ofTable directed es : PgrBaseGraph V E).graph.edges, 0 ≤ TEdge.cost e.bundle := by
  intro e he
  have hmem : (_, _, _, TEdge.cost e.bundle) ∈
      (ofTable directed es : PgrBaseGraph V E).idEdges := List.mem_map_of_mem he
  rw [ofTable_idEdges] at hmem
  obtain ⟨row, _, hrow⟩ := List.mem_flatMap.mp hmem
  simp only [tableRows, List.mem_append] at hrow
  obtain hrow | hrow := hrow <;> split at hrow <;>
    simp only [List.mem_singleton, List.not_mem_nil, Prod.mk.injEq] at hrow
  · rw [hrow.2.2.2]; assumption
  · rw [hrow.2.2.2]; exact And.left ‹_›

/-! ## Arcs in the ids of the table -/

/-- The arcs of the graph, in the ids of the table. -/
def IdArc (g : PgrBaseGraph V E) (i j : Int) (w : ℚ) : Prop :=
  ∃ id, (i, j, id, w) ∈ g.idEdges ∨ (g.graph.directed = false ∧ (j, i, id, w) ∈ g.idEdges)

theorem Consistent.idArc_iff {g : PgrBaseGraph V E} (hg : g.Consistent) {i j : Int} {w : ℚ}
    (hi : g.verticesMap i = some u) (hj : g.verticesMap j = some v) :
    g.IdArc i j w ↔ g.graph.Arc u v w := by
  have hend : ∀ {x k y}, x < g.graph.vertices.length → g.verticesMap k = some y →
      (g.vertexId x = k ↔ x = y) := fun hx hk =>
    ⟨fun h => hg.vertexId_inj hx (hg.lt hk) (h.trans (hg.vertexId_eq hk).symm),
      fun h => h ▸ hg.vertexId_eq hk⟩
  rw [AdjacencyList.arc_iff]
  simp only [IdArc, idEdges, List.mem_map, Prod.mk.injEq]
  constructor
  · rintro ⟨_, ⟨e, he, hs, ht, rfl, hw⟩ | ⟨hd, e, he, hs, ht, rfl, hw⟩⟩
    · exact ⟨e, he, hw, .inl ⟨(hend (hg.ends e he).1 hi).mp hs, (hend (hg.ends e he).2 hj).mp ht⟩⟩
    · exact ⟨e, he, hw, .inr ⟨hd, (hend (hg.ends e he).1 hj).mp hs,
        (hend (hg.ends e he).2 hi).mp ht⟩⟩
  · rintro ⟨e, he, hw, ⟨hs, ht⟩ | ⟨hd, hs, ht⟩⟩
    · exact ⟨_, .inl ⟨e, he, (hend (hg.ends e he).1 hi).mpr hs,
        (hend (hg.ends e he).2 hj).mpr ht, rfl, hw⟩⟩
    · exact ⟨_, .inr ⟨hd, e, he, (hend (hg.ends e he).1 hj).mpr hs,
        (hend (hg.ends e he).2 hi).mpr ht, rfl, hw⟩⟩

/-- The ends of an arc are known to the graph. -/
theorem Consistent.idArc_ends {g : PgrBaseGraph V E} (hg : g.Consistent) {i j : Int} {w : ℚ}
    (h : g.IdArc i j w) : (∃ u, g.verticesMap i = some u) ∧ ∃ v, g.verticesMap j = some v := by
  simp only [IdArc, idEdges, List.mem_map, Prod.mk.injEq] at h
  obtain ⟨_, ⟨e, he, rfl, rfl, _⟩ | ⟨_, e, he, rfl, rfl, _⟩⟩ := h
  · exact ⟨⟨_, hg.map_vertexId (hg.ends e he).1⟩, _, hg.map_vertexId (hg.ends e he).2⟩
  · exact ⟨⟨_, hg.map_vertexId (hg.ends e he).2⟩, _, hg.map_vertexId (hg.ends e he).1⟩

/-- Walks between vertices are walks between their ids. -/
theorem Consistent.walk_idArc {g : PgrBaseGraph V E} (hg : g.Consistent) {i j : Int} {c : ℚ}
    (hi : g.verticesMap i = some u) (hj : g.verticesMap j = some v) :
    Walk g.IdArc i j c ↔ Walk g.graph.Arc u v c := by
  constructor
  · intro h
    induction h generalizing u with
    | nil i =>
      obtain rfl := Option.some.inj (hi.symm.trans hj)
      exact .nil u
    | cons harc _ ih =>
      obtain ⟨x, hx⟩ := (hg.idArc_ends harc).2
      exact .cons ((hg.idArc_iff hi hx).mp harc) (ih hx hj)
  · intro h
    induction h generalizing i with
    | nil u =>
      obtain rfl : i = j := (hg.vertexId_eq hi).symm.trans (hg.vertexId_eq hj)
      exact .nil i
    | @cons u x _ w _ harc _ ih =>
      have hlt : x < g.graph.vertices.length := by
        obtain ⟨e, he, _, ⟨_, rfl⟩ | ⟨_, rfl, _⟩⟩ := AdjacencyList.arc_iff.mp harc
        · exact (hg.ends e he).2
        · exact (hg.ends e he).1
      have hx := hg.map_vertexId hlt
      exact .cons ((hg.idArc_iff hi hx).mpr harc) (ih hx hj)

/-- Distances between vertices are distances between their ids. -/
theorem Consistent.isDist_idArc {g : PgrBaseGraph V E} (hg : g.Consistent) {i j : Int} {d : ℚ}
    (hi : g.verticesMap i = some u) (hj : g.verticesMap j = some v) :
    IsDist g.IdArc i j d ↔ IsDist g.graph.Arc u v d := by
  simp only [IsDist, hg.walk_idArc hi hj]

/-- A walk to another vertex starts in a vertex of the graph and ends in one. -/
theorem Consistent.walk_ends {g : PgrBaseGraph V E} (hg : g.Consistent) {i j : Int} {c : ℚ}
    (h : Walk g.IdArc i j c) (hne : i ≠ j) :
    (∃ u, g.verticesMap i = some u) ∧ ∃ v, g.verticesMap j = some v := by
  obtain ⟨k, w, _, harc, _⟩ := h.exists_first hne
  obtain ⟨l, w', _, harc', _⟩ := h.reverse.exists_first (Ne.symm hne)
  exact ⟨(hg.idArc_ends harc).1, (hg.idArc_ends harc').2⟩

end PgrBaseGraph

end PgRouting
