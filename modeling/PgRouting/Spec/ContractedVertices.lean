import PgRouting.Spec.ContractionRun

/-!
# What becomes of the contracted vertices

A contracted vertex hands its id, and the ids it stands for, on to a neighbour or a
shortcut. A linear vertex hands on everything that is kept at it and at its edges. A
dead end hands on to a neighbour what it holds itself and what the edges carry that
lead from the neighbour to it; what only an edge in the other direction carries is
lost, and a vertex whose only neighbour is itself loses everything.

## Key results

- `kept_contractLinear`: a linear contraction keeps every id
- `kept_contractDeadEnd`: what a dead end contraction keeps
- `contraction_keeps_vertices_iff`: when `Pgr_contract` keeps every vertex id
- `contraction_loses_vertex`: a road on which it does not
-/

namespace PgRouting

namespace PgrContractionGraph

variable {g g' : PgrContractionGraph} {u v w x : Nat} {i : Int}

/-! ## Where an id can be kept -/

/-- An edge from `u` to `v` carries the id. -/
def Carries (g : PgrContractionGraph) (u v : Nat) (i : Int) : Prop :=
  ∃ e ∈ g.graph.edges, g.graph.joins u v e = true ∧ i ∈ e.bundle.contractedVertices

/-- The id is that of the vertex or one of those contracted into it. -/
def HeldAt (g : PgrContractionGraph) (v : Nat) (i : Int) : Prop :=
  (g.vertex v).id = i ∨ i ∈ (g.vertex v).contractedVertices

/-- The vertex holds the id or one of its edges carries it. -/
def HeldAround (g : PgrContractionGraph) (v : Nat) (i : Int) : Prop :=
  g.HeldAt v i ∨
    ∃ e ∈ g.graph.edges, (e.source = v ∨ e.target = v) ∧ i ∈ e.bundle.contractedVertices

/-- Another vertex that is left holds the id, or an edge elsewhere carries it. -/
def HeldAway (g : PgrContractionGraph) (v : Nat) (i : Int) : Prop :=
  (∃ x < g.graph.numVertices, ¬ g.Contracted x ∧ x ≠ v ∧ g.HeldAt x i) ∨
    ∃ e ∈ g.graph.edges, (e.source ≠ v ∧ e.target ≠ v) ∧ i ∈ e.bundle.contractedVertices

/-- The id is kept: it is the id of a vertex that is left, or in the contracted vertices of such
    a vertex or of an edge. -/
def Kept (g : PgrContractionGraph) (i : Int) : Prop :=
  (∃ x < g.graph.numVertices, ¬ g.Contracted x ∧ g.HeldAt x i) ∨
    ∃ e ∈ g.graph.edges, i ∈ e.bundle.contractedVertices

instance (g : PgrContractionGraph) (v : Nat) : Decidable (g.Contracted v) :=
  inferInstanceAs (Decidable (∃ p ∈ g.contracted, p.2 = v))

instance (g : PgrContractionGraph) (v : Nat) (i : Int) : Decidable (g.HeldAt v i) :=
  inferInstanceAs (Decidable (_ ∨ _))

instance (g : PgrContractionGraph) (i : Int) : Decidable (g.Kept i) :=
  inferInstanceAs (Decidable (_ ∨ _))

theorem Carries.adj (h : g.Carries u v i) : g.graph.Adj u v := by
  obtain ⟨e, he, hj, _⟩ := h
  exact ⟨e, he, hj⟩

theorem Carries.heldAround (h : g.Carries u v i) : g.HeldAround u i ∧ g.HeldAround v i := by
  obtain ⟨e, he, hj, hi⟩ := h
  obtain ⟨hs, ht⟩ | ⟨_, hs, ht⟩ := AdjacencyList.joins_iff.mp hj
  · exact ⟨.inr ⟨e, he, .inl hs, hi⟩, .inr ⟨e, he, .inr ht, hi⟩⟩
  · exact ⟨.inr ⟨e, he, .inr ht, hi⟩, .inr ⟨e, he, .inl hs, hi⟩⟩

theorem Carries.symm (hd : g.graph.directed = false) (h : g.Carries u v i) : g.Carries v u i := by
  obtain ⟨e, he, hj, hi⟩ := h
  refine ⟨e, he, AdjacencyList.joins_iff.mpr ?_, hi⟩
  obtain hst | ⟨_, hst⟩ := AdjacencyList.joins_iff.mp hj
  · exact .inr ⟨hd, hst⟩
  · exact .inl hst

/-- The contracted vertices that `get_min_cost_edge` returns. -/
theorem mem_getMinCostEdge :
    i ∈ (g.getMinCostEdge u v).1.contractedVertices ↔ g.Carries u v i := by
  rw [getMinCostEdge_spec.2.2]
  constructor
  · intro h
    obtain ⟨e, he, ht, hi⟩ := h
    obtain ⟨e₀, he₀, ⟨rfl, hs⟩ | ⟨hd, rfl, hs⟩⟩ := AdjacencyList.mem_outEdges.mp he
    · exact ⟨e, he₀, AdjacencyList.joins_iff.mpr (.inl ⟨hs, ht⟩), hi⟩
    · exact ⟨e₀, he₀, AdjacencyList.joins_iff.mpr (.inr ⟨hd, ht, hs⟩), hi⟩
  · intro h
    obtain ⟨e, he, hj, hi⟩ := h
    obtain ⟨hs, ht⟩ | ⟨hd, hs, ht⟩ := AdjacencyList.joins_iff.mp hj
    · exact ⟨e, AdjacencyList.mem_outEdges.mpr ⟨e, he, .inl ⟨rfl, hs⟩⟩, ht, hi⟩
    · exact ⟨e.flip, AdjacencyList.mem_outEdges.mpr ⟨e, he, .inr ⟨hd, rfl, ht⟩⟩, hs, hi⟩

/-- A kept id is kept at a given vertex or away from it. -/
theorem kept_iff (hv : v < g.graph.numVertices) (hcon : ¬ g.Contracted v) :
    g.Kept i ↔ g.HeldAround v i ∨ g.HeldAway v i := by
  constructor
  · rintro (⟨x, hx, hxcon, hi⟩ | ⟨e, he, hi⟩)
    · by_cases hxv : x = v
      · exact .inl (.inl (hxv ▸ hi))
      · exact .inr (.inl ⟨x, hx, hxcon, hxv, hi⟩)
    · by_cases hev : e.source = v ∨ e.target = v
      · exact .inl (.inr ⟨e, he, hev, hi⟩)
      · exact .inr (.inr ⟨e, he, not_or.mp hev, hi⟩)
  · rintro ((hi | ⟨e, he, _, hi⟩) | (⟨x, hx, hxcon, _, hi⟩ | ⟨e, he, _, hi⟩))
    · exact .inl ⟨v, hv, hcon, hi⟩
    · exact .inr ⟨e, he, hi⟩
    · exact .inl ⟨x, hx, hxcon, hi⟩
    · exact .inr ⟨e, he, hi⟩

/-- The graph is one that contraction can have led to: costs are not negative, edges join
    vertices, and no edge is left at a contracted vertex. -/
structure Sound (g : PgrContractionGraph) : Prop where
  nonneg : g.Nonnegative
  ends : ∀ x ∈ g.graph.touched, x < g.graph.numVertices
  isolated : ∀ x, g.Contracted x → x ∉ g.graph.touched

/-- The neighbours of a vertex are vertices that are left. -/
theorem Sound.neighbour (hg : g.Sound) (hx : x ∈ g.findAdjacentVertices v) :
    x < g.graph.numVertices ∧ ¬ g.Contracted x := by
  have hmem : x ∈ g.graph.touched :=
    AdjacencyList.mem_touched.mpr ⟨v, (mem_findAdjacentVertices.mp hx).symm⟩
  exact ⟨hg.ends x hmem, fun hcon => hg.isolated x hcon hmem⟩

/-! ## Dead ends -/

theorem modifyVertex_numVertices (f : CHVertex → CHVertex) :
    (g.modifyVertex u f).graph.numVertices = g.graph.numVertices :=
  List.length_modify f g.graph.vertices u

/-- An assignment to one vertex. -/
theorem vertex_modifyVertex_self (f : CHVertex → CHVertex) (hu : u < g.graph.numVertices) :
    (g.modifyVertex u f).vertex u = f (g.vertex u) := by
  have hget : g.graph.vertices[u]? = some (g.graph.vertices.get ⟨u, hu⟩) :=
    List.getElem?_eq_getElem hu
  show ((g.graph.vertices.modify u f)[u]?).getD _ = f ((g.graph.vertices[u]?).getD _)
  rw [List.getElem?_modify, hget]
  simp

theorem vertex_modifyVertex_ne (f : CHVertex → CHVertex) (hx : x ≠ u) :
    (g.modifyVertex u f).vertex x = g.vertex x := by
  show ((g.graph.vertices.modify u f)[x]?).getD _ = (g.graph.vertices[x]?).getD _
  rw [List.getElem?_modify]
  simp [Ne.symm hx]

/-- What a neighbour takes over from the dead end. -/
theorem heldAt_mergeDeadEnd (hu : u < g.graph.numVertices) (huv : u ≠ v) :
    (g.mergeDeadEnd v u).HeldAt x i ↔
      g.HeldAt x i ∨ (x = u ∧ (g.HeldAt v i ∨ g.Carries u v i)) := by
  by_cases hxu : x = u
  · subst hxu
    have hvertex : (g.mergeDeadEnd v x).vertex x = ((g.vertex x).addContractedVertices
        (g.getMinCostEdge x v).1.contractedVertices).addContractedVertex (g.vertex v) := by
      rw [mergeDeadEnd, vertex_modifyVertex_self, vertex_modifyVertex_self _ hu,
        vertex_modifyVertex_ne _ (Ne.symm huv)]
      rw [modifyVertex_numVertices]
      exact hu
    rw [HeldAt, hvertex]
    simp only [HeldAt, CHVertex.addContractedVertex, CHVertex.addContractedVertices,
      Identifiers.mem_union, Identifiers.mem_add, mem_getMinCostEdge, true_and, eq_comm (a := i)]
    tauto
  · have hvertex : (g.mergeDeadEnd v u).vertex x = g.vertex x := by
      rw [mergeDeadEnd, vertex_modifyVertex_ne _ hxu, vertex_modifyVertex_ne _ hxu]
    rw [HeldAt, HeldAt, hvertex]
    simp only [hxu, false_and, or_false]

theorem mergeDeadEnd_numVertices :
    (g.mergeDeadEnd v u).graph.numVertices = g.graph.numVertices := by
  rw [mergeDeadEnd, modifyVertex_numVertices, modifyVertex_numVertices]

theorem foldl_mergeDeadEnd_numVertices (l : List Nat) : ∀ g : PgrContractionGraph,
    (l.foldl (mergeDeadEnd · v) g).graph.numVertices = g.graph.numVertices := by
  induction l with
  | nil => exact fun g => rfl
  | cons u l ih =>
    intro g
    rw [List.foldl_cons, ih, mergeDeadEnd_numVertices]

/-- What the neighbours take over from the dead end. -/
theorem heldAt_foldl_mergeDeadEnd (l : List Nat) (hl : v ∉ l) : ∀ g : PgrContractionGraph,
    (∀ u ∈ l, u < g.graph.numVertices) → ∀ x,
    ((l.foldl (mergeDeadEnd · v) g).HeldAt x i ↔
      g.HeldAt x i ∨ (x ∈ l ∧ (g.HeldAt v i ∨ g.Carries x v i))) := by
  induction l with
  | nil =>
    intro g _ x
    simp
  | cons u l ih =>
    intro g hlt x
    obtain ⟨hvu, hvl⟩ := not_or.mp (mt List.mem_cons.mpr hl)
    have hu := hlt u List.mem_cons_self
    have hone : ∀ x, (g.mergeDeadEnd v u).HeldAt x i ↔
        g.HeldAt x i ∨ (x = u ∧ (g.HeldAt v i ∨ g.Carries u v i)) :=
      fun x => heldAt_mergeDeadEnd hu (Ne.symm hvu)
    -- The dead end itself and the edges are as they were.
    have hv : (g.mergeDeadEnd v u).HeldAt v i ↔ g.HeldAt v i := by
      rw [hone]
      simp only [hvu, false_and, or_false]
    have hcarries : (g.mergeDeadEnd v u).Carries x v i ↔ g.Carries x v i := Iff.rfl
    rw [List.foldl_cons, ih hvl _ (fun y hy => ?_) x, hone, hv, hcarries, List.mem_cons]
    · by_cases hxu : x = u
      · subst hxu
        tauto
      · tauto
    · rw [mergeDeadEnd_numVertices]
      exact hlt y (List.mem_cons_of_mem _ hy)

/-- A dead end is not its own neighbour, or has no other one. -/
theorem deadEnd_neighbours (h : g.isDeadEnd v = true) :
    v ∉ g.findAdjacentVertices v ∨ (g.findAdjacentVertices v).ids = [v] := by
  obtain hsize | ⟨_, _, hout⟩ := isDeadEnd_iff.mp h
  · obtain ⟨u, hu⟩ := List.length_eq_one_iff.mp hsize
    by_cases huv : u = v
    · exact .inr (huv ▸ hu)
    · left
      show v ∉ (g.findAdjacentVertices v).ids
      rw [hu, List.mem_singleton]
      exact Ne.symm huv
  · left
    rw [mem_findAdjacentVertices, or_self]
    exact hout v

/-- What the vertices that are left hold after a dead end has been contracted. -/
theorem heldAt_contractDeadEnd (hg : g.Sound) (h : g.isDeadEnd v = true) (hx : x ≠ v) :
    (g.contractDeadEnd v).HeldAt x i ↔
      g.HeldAt x i ∨ (x ∈ g.findAdjacentVertices v ∧ (g.HeldAt v i ∨ g.Carries x v i)) := by
  have hclear : (g.contractDeadEnd v).HeldAt x i ↔
      ((g.findAdjacentVertices v).ids.foldl (mergeDeadEnd · v) g).HeldAt x i := by
    have hsame : (g.contractDeadEnd v).vertex x =
        ((g.findAdjacentVertices v).ids.foldl (mergeDeadEnd · v) g).vertex x := by
      show (modifyVertex _ v CHVertex.clearContractedVertices).vertex x = _
      rw [vertex_modifyVertex_ne _ hx]
    rw [HeldAt, HeldAt, hsame]
  rw [hclear]
  obtain hv | hv := deadEnd_neighbours h
  · exact heldAt_foldl_mergeDeadEnd _ hv g (fun u hu => (hg.neighbour hu).1) x
  · have hmem : x ∉ g.findAdjacentVertices v := by
      show x ∉ (g.findAdjacentVertices v).ids
      rw [hv, List.mem_singleton]
      exact hx
    have hsame : ((g.findAdjacentVertices v).ids.foldl (mergeDeadEnd · v) g).vertex x =
        g.vertex x := by
      rw [hv]
      show (g.mergeDeadEnd v v).vertex x = _
      rw [mergeDeadEnd, vertex_modifyVertex_ne _ hx, vertex_modifyVertex_ne _ hx]
    rw [HeldAt, HeldAt, hsame]
    simp only [hmem, false_and, or_false]

theorem contractDeadEnd_numVertices :
    (g.contractDeadEnd v).graph.numVertices = g.graph.numVertices := by
  show (modifyVertex _ v CHVertex.clearContractedVertices).graph.numVertices = _
  rw [modifyVertex_numVertices, foldl_mergeDeadEnd_numVertices]

theorem contracted_cons {p : ContractionKind × Nat} (h : g'.contracted = p :: g.contracted) :
    ¬ g'.Contracted x ↔ ¬ g.Contracted x ∧ x ≠ p.2 := by
  rw [Contracted, h]
  simp only [List.mem_cons, exists_eq_or_imp, not_or, Contracted]
  exact ⟨fun hx => ⟨hx.2, Ne.symm hx.1⟩, fun hx => ⟨Ne.symm hx.2, hx.1⟩⟩

/-- What is kept of the ids when a dead end is contracted: what a neighbour takes over, and what
    is held away from the dead end. -/
theorem kept_contractDeadEnd (hg : g.Sound) (h : g.isDeadEnd v = true) :
    (g.contractDeadEnd v).Kept i ↔
      (∃ u ∈ g.findAdjacentVertices v, u ≠ v ∧ (g.HeldAt v i ∨ g.Carries u v i)) ∨
      g.HeldAway v i := by
  obtain ⟨hedges, _, _, hcon⟩ := contractDeadEnd_graph (g := g) (v := v)
  have hmem : ∀ e, e ∈ (g.contractDeadEnd v).graph.edges ↔
      e ∈ g.graph.edges ∧ e.source ≠ v ∧ e.target ≠ v := by
    intro e
    rw [hedges]
    exact AdjacencyList.mem_edges_clearVertex
  unfold Kept
  rw [contractDeadEnd_numVertices]
  constructor
  · rintro (⟨x, hx, hxcon, hi⟩ | ⟨e, he, hi⟩)
    · obtain ⟨hxcon, hxv⟩ := (contracted_cons hcon).mp hxcon
      obtain hi | ⟨hadj, hi⟩ := (heldAt_contractDeadEnd hg h hxv).mp hi
      · exact .inr (.inl ⟨x, hx, hxcon, hxv, hi⟩)
      · exact .inl ⟨x, hadj, hxv, hi⟩
    · obtain ⟨he, hev⟩ := (hmem e).mp he
      exact .inr (.inr ⟨e, he, hev, hi⟩)
  · rintro (⟨u, hu, huv, hi⟩ | (⟨x, hx, hxcon, hxv, hi⟩ | ⟨e, he, hev, hi⟩))
    · obtain ⟨hlt, hucon⟩ := hg.neighbour hu
      exact .inl ⟨u, hlt, (contracted_cons hcon).mpr ⟨hucon, huv⟩,
        (heldAt_contractDeadEnd hg h huv).mpr (.inr ⟨hu, hi⟩)⟩
    · exact .inl ⟨x, hx, (contracted_cons hcon).mpr ⟨hxcon, hxv⟩,
        (heldAt_contractDeadEnd hg h hxv).mpr (.inl hi)⟩
    · exact .inr ⟨e, (hmem e).mpr ⟨he, hev⟩, hi⟩

/-- A dead end hands over all it stands for: what it holds goes to another neighbour than
    itself, and what an edge at it carries is carried to it by an edge from another vertex, or
    held by it; or the id is held away from it. -/
structure HandsOver (g : PgrContractionGraph) (v : Nat) : Prop where
  own : ∀ i, g.HeldAt v i → (∃ u ∈ g.findAdjacentVertices v, u ≠ v) ∨ g.HeldAway v i
  edges : ∀ e ∈ g.graph.edges, e.source = v ∨ e.target = v → ∀ i ∈ e.bundle.contractedVertices,
    (∃ u, u ≠ v ∧ g.Carries u v i) ∨ g.HeldAt v i ∨ g.HeldAway v i

/-- A dead end contraction keeps all ids exactly when the dead end hands over all. -/
theorem handsOver_iff (hg : g.Sound) (h : g.isDeadEnd v = true) (hv : v < g.graph.numVertices)
    (hcon : ¬ g.Contracted v) :
    (∀ i, g.Kept i → (g.contractDeadEnd v).Kept i) ↔ g.HandsOver v := by
  simp only [kept_contractDeadEnd hg h, kept_iff hv hcon]
  constructor
  · intro hkept
    constructor
    · intro i hi
      obtain ⟨u, hu, huv, _⟩ | hi := hkept i (.inl (.inl hi))
      · exact .inl ⟨u, hu, huv⟩
      · exact .inr hi
    · intro e he hev i hi
      obtain ⟨u, _, huv, hi | hi⟩ | hi := hkept i (.inl (.inr ⟨e, he, hev, hi⟩))
      · exact .inr (.inl hi)
      · exact .inl ⟨u, huv, hi⟩
      · exact .inr (.inr hi)
  · intro hover i hi
    have hown : g.HeldAt v i → (∃ u ∈ g.findAdjacentVertices v, u ≠ v ∧
        (g.HeldAt v i ∨ g.Carries u v i)) ∨ g.HeldAway v i := by
      intro hi
      obtain ⟨u, hu, huv⟩ | haway := hover.own i hi
      · exact .inl ⟨u, hu, huv, .inl hi⟩
      · exact .inr haway
    obtain (hi | ⟨e, he, hev, hi⟩) | hi := hi
    · exact hown hi
    · obtain ⟨u, huv, hi⟩ | hi | hi := hover.edges e he hev i hi
      · exact .inl ⟨u, mem_findAdjacentVertices.mpr (.inr hi.adj), huv, .inr hi⟩
      · exact hown hi
      · exact .inr hi
    · exact .inr hi

/-! ## Linear vertices -/

/-- What a shortcut around `v` carries. -/
theorem mem_shortcut : i ∈ (g.shortcut u v w).contractedVertices ↔
    g.HeldAt v i ∨ g.Carries u v i ∨ g.Carries v w i := by
  simp only [shortcut, CHEdge.addContractedEdgeVertices, CHEdge.addContractedVertex,
    Identifiers.mem_union, Identifiers.mem_add, mem_getMinCostEdge, HeldAt, eq_comm (a := i),
    Identifiers.not_mem_empty, or_false, or_assoc]

/-- New edges away from `v` that carry the ids in `S`, and nothing else is new. -/
structure CarriesOver (g g' : PgrContractionGraph) (v : Nat) (S : Int → Prop) : Prop where
  vertices : g'.graph.vertices = g.graph.vertices
  directed : g'.graph.directed = g.graph.directed
  keep : ∀ e ∈ g.graph.edges, e ∈ g'.graph.edges
  new : ∀ e ∈ g'.graph.edges, e ∈ g.graph.edges ∨
    ((e.source ≠ v ∧ e.target ≠ v) ∧ ∀ i ∈ e.bundle.contractedVertices, S i)
  carried : ∀ i, S i → ∃ e ∈ g'.graph.edges, (e.source ≠ v ∧ e.target ≠ v) ∧
    i ∈ e.bundle.contractedVertices

theorem CarriesOver.congr {S S' : Int → Prop} (h : CarriesOver g g' v S) (hS : ∀ i, S i ↔ S' i) :
    CarriesOver g g' v S' := by
  have heq : S = S' := funext fun i => propext (hS i)
  rwa [← heq]

theorem CarriesOver.refl : CarriesOver g g v fun _ => False :=
  ⟨rfl, rfl, fun _ he => he, fun _ he => .inl he, fun _ hi => hi.elim⟩

theorem CarriesOver.trans {g'' : PgrContractionGraph} {S S' : Int → Prop}
    (h : CarriesOver g g' v S) (h' : CarriesOver g' g'' v S') :
    CarriesOver g g'' v fun i => S i ∨ S' i := by
  refine ⟨h'.vertices.trans h.vertices, h'.directed.trans h.directed,
    fun e he => h'.keep e (h.keep e he), ?_, ?_⟩
  · intro e he
    obtain he | ⟨hev, hi⟩ := h'.new e he
    · obtain he | ⟨hev, hi⟩ := h.new e he
      · exact .inl he
      · exact .inr ⟨hev, fun i hmem => .inl (hi i hmem)⟩
    · exact .inr ⟨hev, fun i hmem => .inr (hi i hmem)⟩
  · rintro i (hi | hi)
    · obtain ⟨e, he, hev, hi⟩ := h.carried i hi
      exact ⟨e, h'.keep e he, hev, hi⟩
    · exact h'.carried i hi

/-- The edges at `v`, and what they carry, are as they were. -/
theorem CarriesOver.carries_iff {S : Int → Prop} (h : CarriesOver g g' v S) :
    (g'.Carries u v i ↔ g.Carries u v i) ∧ (g'.Carries v u i ↔ g.Carries v u i) := by
  have hjoins : ∀ a b e, g'.graph.joins a b e = true ↔ g.graph.joins a b e = true := by
    intro a b e
    rw [AdjacencyList.joins_iff, AdjacencyList.joins_iff, h.directed]
  have hat : ∀ a b, a = v ∨ b = v → (g'.Carries a b i ↔ g.Carries a b i) := by
    intro a b hab
    constructor
    · intro hc
      obtain ⟨e, he, hj, hi⟩ := hc
      have hj := (hjoins a b e).mp hj
      obtain he | ⟨⟨hs, ht⟩, _⟩ := h.new e he
      · exact ⟨e, he, hj, hi⟩
      · -- A new edge has no end at `v`.
        obtain ⟨rfl, rfl⟩ | ⟨_, rfl, rfl⟩ := AdjacencyList.joins_iff.mp hj
        · exact (hab.elim hs ht).elim
        · exact (hab.elim ht hs).elim
    · intro hc
      obtain ⟨e, he, hj, hi⟩ := hc
      exact ⟨e, h.keep e he, (hjoins a b e).mpr hj, hi⟩
  exact ⟨hat u v (.inr rfl), hat v u (.inl rfl)⟩

theorem processShortcut_carriesOver (hg : g.Nonnegative) (huv : g.graph.Adj u v)
    (hvw : g.graph.Adj v w) (hu : u ≠ v) (hw : w ≠ v) :
    CarriesOver g (g.processShortcut u v w) v
      fun i => g.HeldAt v i ∨ g.Carries u v i ∨ g.Carries v w i := by
  rw [processShortcut_eq (shortcut_cost_nonneg hg huv hvw)]
  refine ⟨rfl, rfl, fun e he => List.mem_append_left _ he, fun e he => ?_, fun i hi => ?_⟩
  · obtain he | he := List.mem_append.mp he
    · exact .inl he
    · obtain rfl := List.mem_singleton.mp he
      exact .inr ⟨⟨hu, hw⟩, fun i hi => mem_shortcut.mp hi⟩
  · exact ⟨_, List.mem_append_right _ (List.mem_singleton.mpr rfl), ⟨hu, hw⟩, mem_shortcut.mpr hi⟩

/-- In a directed graph the shortcut is made when there is a passage. -/
theorem processShortcut_if_carriesOver (hg : g.Nonnegative) (hu : u ≠ v) (hw : w ≠ v) :
    CarriesOver g (if g.hasEdge u v && g.hasEdge v w then g.processShortcut u v w else g) v
      fun i => (g.graph.Adj u v ∧ g.graph.Adj v w) ∧
        (g.HeldAt v i ∨ g.Carries u v i ∨ g.Carries v w i) := by
  by_cases h : g.graph.Adj u v ∧ g.graph.Adj v w
  · have hif : (g.hasEdge u v && g.hasEdge v w) = true := by
      rw [Bool.and_eq_true, hasEdge_iff, hasEdge_iff]
      exact h
    rw [if_pos hif]
    simp only [h, and_self, true_and]
    exact processShortcut_carriesOver hg h.1 h.2 hu hw
  · have hif : ¬ (g.hasEdge u v && g.hasEdge v w) = true := by
      rw [Bool.and_eq_true, hasEdge_iff, hasEdge_iff]
      exact h
    rw [if_neg hif]
    simp only [h, false_and]
    exact .refl

/-- Which edges there are at a vertex through which a directed shortcut is possible. -/
theorem isShortcutPossible_directed (hd : g.graph.directed = true)
    (h : g.isShortcutPossible u v w = true) :
    (g.graph.Adj u v ∧ g.graph.Adj v w ∧ g.graph.Adj w v ∧ g.graph.Adj v u) ∨
    (g.graph.Adj u v ∧ g.graph.Adj v w ∧ ¬ g.graph.Adj v u ∧ ¬ g.graph.Adj w v) ∨
    (g.graph.Adj w v ∧ g.graph.Adj v u ∧ ¬ g.graph.Adj v w ∧ ¬ g.graph.Adj u v) := by
  unfold isShortcutPossible at h
  split at h
  · cases h
  · simpa [hd, hasUVW, hasEdge_iff, ← Bool.not_eq_true, and_assoc, or_assoc] using h

/-- What is held around a linear vertex, by the edges between it and its two neighbours. -/
theorem heldAround_linear (hmem : ∀ x, x ∈ g.findAdjacentVertices v ↔ x = u ∨ x = w) :
    g.HeldAround v i ↔ g.HeldAt v i ∨ (g.Carries u v i ∨ g.Carries v w i) ∨
      (g.Carries w v i ∨ g.Carries v u i) := by
  constructor
  · rintro (hi | ⟨e, he, hs | ht, hi⟩)
    · exact .inl hi
    · have hc : g.Carries v e.target i :=
        ⟨e, he, AdjacencyList.joins_iff.mpr (.inl ⟨hs, rfl⟩), hi⟩
      obtain ht | ht := (hmem e.target).mp (mem_findAdjacentVertices.mpr (.inl hc.adj))
      · exact .inr (.inr (.inr (ht ▸ hc)))
      · exact .inr (.inl (.inr (ht ▸ hc)))
    · have hc : g.Carries e.source v i :=
        ⟨e, he, AdjacencyList.joins_iff.mpr (.inl ⟨rfl, ht⟩), hi⟩
      obtain hs | hs := (hmem e.source).mp (mem_findAdjacentVertices.mpr (.inr hc.adj))
      · exact .inr (.inl (.inl (hs ▸ hc)))
      · exact .inr (.inr (.inl (hs ▸ hc)))
  · rintro (hi | (hi | hi) | (hi | hi))
    · exact .inl hi
    · exact hi.heldAround.2
    · exact hi.heldAround.1
    · exact hi.heldAround.2
    · exact hi.heldAround.1

/-- The two shortcuts of a directed graph carry all that is held around the linear vertex: where
    there is no passage in a direction, there are no edges in this direction either. -/
theorem carriesOver_both {g'' : PgrContractionGraph} (hd : g.graph.directed = true)
    (hpossible : g.isShortcutPossible u v w = true)
    (hmem : ∀ x, x ∈ g.findAdjacentVertices v ↔ x = u ∨ x = w) (hadds : AddsShortcuts g g' v)
    (hfirst : CarriesOver g g' v fun i => (g.graph.Adj u v ∧ g.graph.Adj v w) ∧
      (g.HeldAt v i ∨ g.Carries u v i ∨ g.Carries v w i))
    (hsecond : CarriesOver g' g'' v fun i => (g'.graph.Adj w v ∧ g'.graph.Adj v u) ∧
      (g'.HeldAt v i ∨ g'.Carries w v i ∨ g'.Carries v u i)) :
    CarriesOver g g'' v fun i => g.HeldAround v i := by
  refine (hfirst.trans hsecond).congr fun i => ?_
  -- The second shortcut sees the same vertex and the same edges at it as the first.
  have hheld : g'.HeldAt v i ↔ g.HeldAt v i := by
    rw [HeldAt, HeldAt, vertex, vertex, hfirst.vertices]
  have hin : g'.graph.Adj w v ↔ g.graph.Adj w v := by
    rw [AdjacencyList.adj_iff_arc, AdjacencyList.adj_iff_arc]
    exact exists_congr fun c => hadds.arc_at.1
  have hout : g'.graph.Adj v u ↔ g.graph.Adj v u := by
    rw [AdjacencyList.adj_iff_arc, AdjacencyList.adj_iff_arc]
    exact exists_congr fun c => hadds.arc_at.2
  rw [heldAround_linear hmem, hheld, hin, hout, hfirst.carries_iff.1, hfirst.carries_iff.2]
  have huv : g.Carries u v i → g.graph.Adj u v := Carries.adj
  have hvw : g.Carries v w i → g.graph.Adj v w := Carries.adj
  have hwv : g.Carries w v i → g.graph.Adj w v := Carries.adj
  have hvu : g.Carries v u i → g.graph.Adj v u := Carries.adj
  obtain ⟨h₁, h₂, h₃, h₄⟩ | ⟨h₁, h₂, h₃, h₄⟩ | ⟨h₁, h₂, h₃, h₄⟩ :=
    isShortcutPossible_directed hd hpossible
  · simp only [h₁, h₂, h₃, h₄, and_self, true_and]
    exact or_or_distrib_left.symm
  · simp only [h₁, h₂, h₃, h₄, mt hvu h₃, mt hwv h₄, and_self, true_and, false_and, or_false]
  · simp only [h₁, h₂, h₃, h₄, mt hvw h₃, mt huv h₄, and_self, true_and, false_and, or_false,
      false_or]

/-- The shortcuts around a linear vertex carry all that is held around it. -/
theorem addShortcuts_carriesOver (hg : g.Nonnegative) (hu : u ≠ v) (hw : w ≠ v)
    (hpossible : g.isShortcutPossible u v w = true)
    (hmem : ∀ x, x ∈ g.findAdjacentVertices v ↔ x = u ∨ x = w) :
    CarriesOver g (g.addShortcuts u v w) v fun i => g.HeldAround v i := by
  unfold addShortcuts
  cases hd : g.graph.directed with
  | true =>
    rw [if_pos rfl]
    have hadds := (processShortcut_if_spec hg hu hw).1
    exact carriesOver_both hd hpossible hmem hadds (processShortcut_if_carriesOver hg hu hw)
      (processShortcut_if_carriesOver hadds.nonneg hw hu)
  | false =>
    rw [if_neg Bool.false_ne_true]
    have hadj : ∀ x, x = u ∨ x = w → g.graph.Adj x v ∧ g.graph.Adj v x := by
      intro x hx
      obtain h | h := mem_findAdjacentVertices.mp ((hmem x).mpr hx)
      · exact ⟨h.symm hd, h⟩
      · exact ⟨h, h.symm hd⟩
    refine (processShortcut_carriesOver hg (hadj u (.inl rfl)).1 (hadj w (.inr rfl)).2 hu hw).congr
      fun i => ?_
    rw [heldAround_linear hmem]
    have hwv : g.Carries w v i → g.Carries v w i := Carries.symm hd
    have hvu : g.Carries v u i → g.Carries u v i := Carries.symm hd
    constructor
    · exact Or.imp_right .inl
    · rintro (hi | hi | hi | hi)
      · exact .inl hi
      · exact .inr hi
      · exact .inr (.inr (hwv hi))
      · exact .inr (.inl (hvu hi))

theorem contractLinear_numVertices (h : g.isLinear v = true) (hg : g.Nonnegative) :
    (g.contractLinear v).graph.numVertices = g.graph.numVertices := by
  obtain ⟨u, w, hends, hu, hw, _, hmem, hpossible⟩ := exists_linearEnds h
  rw [contractLinear, hends]
  show (modifyVertex _ v CHVertex.clearContractedVertices).graph.numVertices = _
  rw [modifyVertex_numVertices, AdjacencyList.numVertices,
    (addShortcuts_carriesOver hg hu hw hpossible hmem).vertices]
  rfl

/-- A linear contraction keeps every id. -/
theorem kept_contractLinear (hg : g.Sound) (h : g.isLinear v = true)
    (hv : v < g.graph.numVertices) (hcon : ¬ g.Contracted v) :
    (g.contractLinear v).Kept i ↔ g.Kept i := by
  obtain ⟨u, w, hends, hu, hw, _, hmem, hpossible⟩ := exists_linearEnds h
  have hover := addShortcuts_carriesOver hg.nonneg hu hw hpossible hmem
  obtain ⟨_, hcontracted⟩ := linear_bypasses hg.nonneg h
  have hnum := contractLinear_numVertices h hg.nonneg
  have hstep : g.contractLinear v = (g.addShortcuts u v w).clearVertex .linear v := by
    simp only [contractLinear, hends]
  have hedges : ∀ e, e ∈ (g.contractLinear v).graph.edges ↔
      e ∈ (g.addShortcuts u v w).graph.edges ∧ e.source ≠ v ∧ e.target ≠ v := by
    intro e
    rw [hstep]
    exact AdjacencyList.mem_edges_clearVertex
  -- The shortcuts and the clearing change no contracted set but that of the vertex itself.
  have hheld : ∀ x, x ≠ v → ((g.contractLinear v).HeldAt x i ↔ g.HeldAt x i) := by
    intro x hx
    have hvertex : (g.contractLinear v).vertex x = g.vertex x := by
      rw [hstep]
      show (modifyVertex _ v CHVertex.clearContractedVertices).vertex x = _
      rw [vertex_modifyVertex_ne _ hx, vertex, hover.vertices]
      rfl
    rw [HeldAt, HeldAt, hvertex]
  rw [kept_iff hv hcon]
  unfold Kept
  rw [hnum]
  constructor
  · rintro (⟨x, hx, hxcon, hi⟩ | ⟨e, he, hi⟩)
    · obtain ⟨hxcon, hxv⟩ := (contracted_cons hcontracted).mp hxcon
      exact .inr (.inl ⟨x, hx, hxcon, hxv, (hheld x hxv).mp hi⟩)
    · obtain ⟨he, hev⟩ := (hedges e).mp he
      obtain he | ⟨_, hnew⟩ := hover.new e he
      · exact .inr (.inr ⟨e, he, hev, hi⟩)
      · exact .inl (hnew i hi)
  · rintro (hi | (⟨x, hx, hxcon, hxv, hi⟩ | ⟨e, he, hev, hi⟩))
    · obtain ⟨e, he, hev, hi⟩ := hover.carried i hi
      exact .inr ⟨e, (hedges e).mpr ⟨he, hev⟩, hi⟩
    · exact .inl ⟨x, hx, (contracted_cons hcontracted).mpr ⟨hxcon, hxv⟩, (hheld x hxv).mpr hi⟩
    · exact .inr ⟨e, (hedges e).mpr ⟨hover.keep e he, hev⟩, hi⟩

/-! ## Runs -/

/-- Every contraction leaves a graph that contraction can have led to. -/
theorem Sound.contractVertex (hg : g.Sound) {p : ContractionKind × Nat} (hp : g.Contractible p) :
    (g.contractVertex p).Sound ∧
    (g.contractVertex p).graph.numVertices = g.graph.numVertices := by
  obtain ⟨hbyp, hcon⟩ := hp.bypasses hg.nonneg
  have hnum : (g.contractVertex p).graph.numVertices = g.graph.numVertices := by
    obtain ⟨kind, v⟩ := p
    cases kind with
    | deadEnd => exact contractDeadEnd_numVertices
    | linear => exact contractLinear_numVertices hp.1 hg.nonneg
  refine ⟨⟨hbyp.nonneg, fun x hx => ?_, fun x hx htouched => ?_⟩, hnum⟩
  · rw [hnum]
    exact hg.ends x (hbyp.touched_subset hx).1
  · obtain ⟨htouched, hxv⟩ := hbyp.touched_subset htouched
    by_cases hxcon : g.Contracted x
    · exact hg.isolated x hxcon htouched
    · exact (contracted_cons hcon).mpr ⟨hxcon, hxv⟩ hx

/-- The dead end hands over all; a linear vertex does so in any case. -/
def StepKeeps (g : PgrContractionGraph) : ContractionKind × Nat → Prop
  | (.deadEnd, v) => g.HandsOver v
  | (.linear, _) => True

/-- Each of the contractions, in the state in which it is made, hands over all. -/
def StepsKeep : PgrContractionGraph → List (ContractionKind × Nat) → Prop
  | _, [] => True
  | g, p :: steps => g.StepKeeps p ∧ StepsKeep (g.contractVertex p) steps

theorem stepsKeep_snoc {p : ContractionKind × Nat} (steps : List (ContractionKind × Nat)) :
    ∀ g : PgrContractionGraph, StepsKeep g (steps ++ [p]) ↔
      StepsKeep g steps ∧ (steps.foldl PgrContractionGraph.contractVertex g).StepKeeps p := by
  induction steps with
  | nil =>
    intro g
    simp [StepsKeep]
  | cons q steps ih =>
    intro g
    rw [List.cons_append, StepsKeep, ih, StepsKeep, List.foldl_cons, and_assoc]

/-- A contraction brings no id back, and keeps all of them if it hands over all. -/
theorem kept_contractVertex (hg : g.Sound) {p : ContractionKind × Nat} (hp : g.Contractible p) :
    (∀ i, (g.contractVertex p).Kept i → g.Kept i) ∧
    ((∀ i, g.Kept i → (g.contractVertex p).Kept i) ↔ g.StepKeeps p) := by
  have hv := hg.ends p.2 hp.mem_touched
  have hcon : ¬ g.Contracted p.2 := fun hcon => hg.isolated p.2 hcon hp.mem_touched
  obtain ⟨kind, v⟩ := p
  cases kind with
  | deadEnd =>
    refine ⟨fun i hi => ?_, handsOver_iff hg hp.1 hv hcon⟩
    obtain ⟨u, _, _, hi | hi⟩ | hi := (kept_contractDeadEnd hg hp.1).mp hi
    · exact (kept_iff hv hcon).mpr (.inl (.inl hi))
    · exact (kept_iff hv hcon).mpr (.inl hi.heldAround.2)
    · exact (kept_iff hv hcon).mpr (.inr hi)
  | linear =>
    have hiff : ∀ i, (g.contractVertex (.linear, v)).Kept i ↔ g.Kept i :=
      fun i => kept_contractLinear hg hp.1 hv hcon
    exact ⟨fun i => (hiff i).mp, iff_of_true (fun i => (hiff i).mpr) trivial⟩

/-- A run brings no id back, and keeps all of them exactly when each of its steps does. -/
theorem Run.kept (h : Run g g') (hg : g.Sound) : ∃ steps,
    g'.contracted = steps.reverse ++ g.contracted ∧
    g' = steps.foldl PgrContractionGraph.contractVertex g ∧ g'.Sound ∧
    (∀ i, g'.Kept i → g.Kept i) ∧ ((∀ i, g.Kept i → g'.Kept i) ↔ StepsKeep g steps) := by
  induction h with
  | refl => exact ⟨[], rfl, rfl, hg, fun _ hi => hi, iff_of_true (fun _ hi => hi) trivial⟩
  | tail _ hstep ih =>
    obtain ⟨steps, hcon, hreplay, hsound, hback, hiff⟩ := ih
    obtain ⟨p, hp, rfl⟩ := hstep
    obtain ⟨hback', hiff'⟩ := kept_contractVertex hsound hp
    refine ⟨steps ++ [p], ?_, ?_, (hsound.contractVertex hp).1,
      fun i hi => hback i (hback' i hi), ?_⟩
    · rw [(hp.bypasses hsound.nonneg).2, hcon, List.reverse_append]
      rfl
    · rw [List.foldl_append, ← hreplay]
      rfl
    · rw [stepsKeep_snoc, ← hiff, ← hreplay, ← hiff']
      constructor
      · intro hkept
        exact ⟨fun i hi => hback' i (hkept i hi), fun i hi => hkept i (hback i hi)⟩
      · intro hkept i hi
        exact hkept.2 i (hkept.1 i hi)

/-- A graph that no contraction has touched: costs are not negative, edges join vertices, and
    nothing has been contracted. -/
structure Fresh (g : PgrContractionGraph) : Prop where
  nonneg : g.Nonnegative
  ends : ∀ e ∈ g.graph.edges, e.source < g.graph.numVertices ∧ e.target < g.graph.numVertices
  contracted : g.contracted = []
  vertices : ∀ x, (g.vertex x).contractedVertices = .empty
  edges : ∀ e ∈ g.graph.edges, e.bundle.contractedVertices = .empty

theorem Fresh.sound (h : g.Fresh) : g.Sound := by
  refine ⟨h.nonneg, fun x hx => ?_, fun x hx => ?_⟩
  · obtain ⟨y, ⟨e, he, hj⟩ | ⟨e, he, hj⟩⟩ := AdjacencyList.mem_touched.mp hx
    · obtain ⟨rfl, _⟩ | ⟨_, _, rfl⟩ := AdjacencyList.joins_iff.mp hj
      · exact (h.ends e he).1
      · exact (h.ends e he).2
    · obtain ⟨_, rfl⟩ | ⟨_, rfl, _⟩ := AdjacencyList.joins_iff.mp hj
      · exact (h.ends e he).2
      · exact (h.ends e he).1
  · obtain ⟨p, hp, _⟩ := hx
    rw [h.contracted] at hp
    cases hp

/-- At first the ids that are kept are those of the vertices. -/
theorem Fresh.kept_iff (h : g.Fresh) :
    g.Kept i ↔ ∃ x < g.graph.numVertices, (g.vertex x).id = i := by
  constructor
  · rintro (⟨x, hx, _, hi | hi⟩ | ⟨e, he, hi⟩)
    · exact ⟨x, hx, hi⟩
    · rw [h.vertices x] at hi
      cases hi
    · rw [h.edges e he] at hi
      cases hi
  · intro hex
    obtain ⟨x, hx, hi⟩ := hex
    refine .inl ⟨x, hx, fun hcon => ?_, .inl hi⟩
    obtain ⟨p, hp, _⟩ := hcon
    rw [h.contracted] at hp
    cases hp

/-- The graph read from an edges table is fresh. -/
theorem ofTable_fresh (directed : Bool) (es : List EdgeT) : (ofTable directed es).Fresh := by
  obtain ⟨hvertices, hedges⟩ := PgrBaseGraph.ofTable_newProperties
    (P := fun x : CHVertex => x.contractedVertices = .empty)
    (Q := fun e : CHEdge => e.contractedVertices = .empty)
    (fun _ => rfl) (fun _ _ => rfl) directed es
  refine ⟨PgrBaseGraph.ofTable_cost_nonneg directed es,
    (PgrBaseGraph.ofTable_consistent directed es).ends, rfl, fun x => ?_, hedges⟩
  cases hx : (ofTable directed es).graph.vertices[x]? with
  | none =>
    rw [vertex, hx]
    rfl
  | some y =>
    rw [vertex, hx]
    exact hvertices y (List.mem_of_getElem? hx)

end PgrContractionGraph

open PgrContractionGraph

/-- `Pgr_contract` keeps every vertex id exactly when each dead end that it contracts hands over
    all it stands for. -/
theorem contraction_keeps_vertices_iff (g : PgrContractionGraph) (hg : g.Fresh)
    (forb : Identifiers Nat) (order : List Int) (maxCycles : Int) :
    ∃ N g', (∀ n ≥ N, pgrContract n g forb order maxCycles = some g') ∧
      ((∀ x < g.graph.numVertices, g'.Kept (g.vertex x).id) ↔
        StepsKeep { g with forbiddenVertices := forb } g'.contracted.reverse) := by
  obtain ⟨g', hreached, N, hN⟩ := pgrContract_runs hg.nonneg forb order maxCycles
  refine ⟨N, g', hN, ?_⟩
  have hall : (∀ x < g.graph.numVertices, g'.Kept (g.vertex x).id) ↔
      ∀ i, g.Kept i → g'.Kept i := by
    constructor
    · intro h i hi
      obtain ⟨x, hx, rfl⟩ := hg.kept_iff.mp hi
      exact h x hx
    · intro h x hx
      exact h _ (hg.kept_iff.mpr ⟨x, hx, rfl⟩)
  rw [hall]
  obtain rfl | hrun := hreached
  · rw [hg.contracted]
    exact iff_of_true (fun _ hi => hi) trivial
  · have hsound : ({ g with forbiddenVertices := forb } : PgrContractionGraph).Sound :=
      ⟨hg.sound.nonneg, hg.sound.ends, hg.sound.isolated⟩
    obtain ⟨steps, hcon, _, _, _, hiff⟩ := hrun.kept hsound
    have hcon : g'.contracted = steps.reverse ++ g.contracted := hcon
    have hsteps : g'.contracted.reverse = steps := by
      rw [hcon, hg.contracted, List.append_nil, List.reverse_reverse]
    rw [hsteps]
    exact hiff

/-- The one-way road 1 → 2 → 3. -/
def oneWayRoad : PgrContractionGraph := .ofTable true [⟨1, 1, 2, 1, -1⟩, ⟨2, 2, 3, 1, -1⟩]

theorem contraction_keeps_vertices_iff_oneWayRoad :
    ∃ N g', (∀ n ≥ N, pgrContract n oneWayRoad .empty [1, 2] 1 = some g') ∧
      ((∀ x < oneWayRoad.graph.numVertices, g'.Kept (oneWayRoad.vertex x).id) ↔
        StepsKeep { oneWayRoad with forbiddenVertices := .empty } g'.contracted.reverse) :=
  contraction_keeps_vertices_iff oneWayRoad (ofTable_fresh _ _) .empty [1, 2] 1

/-- The linear contraction of the vertex 2 puts its id on the shortcut from 1 to 3. The dead end
    contraction of 1 then asks for the edges from 3 to 1 and drops the shortcut with the id. -/
theorem contraction_loses_vertex :
    ∃ g', pgrContract 5 oneWayRoad .empty [2, 1] 1 = some g' ∧
      1 < oneWayRoad.graph.numVertices ∧ (oneWayRoad.vertex 1).id = 2 ∧ ¬ g'.Kept 2 := by
  have hrun : (pgrContract 5 oneWayRoad .empty [2, 1] 1).map
      (fun g' => decide (g'.Kept 2)) = some false := by
    decide +kernel
  obtain ⟨g', hg', hkept⟩ := Option.map_eq_some_iff.mp hrun
  exact ⟨g', hg', by decide +kernel, by decide +kernel, of_decide_eq_false hkept⟩

end PgRouting
