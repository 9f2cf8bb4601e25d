import PgRouting.Spec.ContractionGraph

/-!
# Contraction preserves distances

Contracting one vertex takes it out of the graph; every arc that is new stands for
a passage through the vertex, and every passage between two different vertices has
a new arc that is not longer (`Bypasses`). In a run of contractions every vertex is a
dead end or linear in the graph as it is then.

## Key results

- `Contractible.bypasses`: what the contraction of one vertex does to the arcs
- `Bypasses.contractible_iff`: a vertex away from the contracted one stays as contractible as it was
- `Run.contracts`: a run of contractions takes out one vertex after the other
-/

namespace PgRouting

variable {u v w x y : Nat}

namespace PgrContractionGraph

variable {g g' g'' : PgrContractionGraph}

/-- The arcs of the graph. -/
abbrev Arc (g : PgrContractionGraph) (u v : Nat) (c : ℚ) : Prop := g.graph.Arc u v c

/-- No edge has a negative cost. -/
def Nonnegative (g : PgrContractionGraph) : Prop := ∀ e ∈ g.graph.edges, 0 ≤ e.bundle.cost

theorem Nonnegative.arc (hg : g.Nonnegative) {c : ℚ} (h : g.Arc u v c) : 0 ≤ c := by
  obtain ⟨e, he, rfl, _⟩ := AdjacencyList.arc_iff.mp h
  exact hg e he

/-! ## One contraction, seen from outside -/

/-- What taking `v` out of the graph may do to the other edges. -/
structure Bypasses (g g' : PgrContractionGraph) (v : Nat) : Prop where
  directed : g'.graph.directed = g.graph.directed
  forbidden : g'.forbiddenVertices = g.forbiddenVertices
  nonneg : g'.Nonnegative
  arc : ∀ x y c, g'.Arc x y c → x ≠ v ∧ y ≠ v ∧
    (g.Arc x y c ∨ ∃ c₁ c₂, g.Arc x v c₁ ∧ g.Arc v y c₂ ∧ c = c₁ + c₂)
  keep : ∀ x y c, g.Arc x y c → x ≠ v → y ≠ v → g'.Arc x y c
  pass : ∀ x y c₁ c₂, g.Arc x v c₁ → g.Arc v y c₂ → x ≠ v → y ≠ v →
    x = y ∨ ∃ c ≤ c₁ + c₂, g'.Arc x y c

/-- The other vertices keep their distances. -/
theorem Bypasses.isDist_iff (h : Bypasses g g' v) (hg : g.Nonnegative) (hx : x ≠ v) (hy : y ≠ v)
    (d : ℚ) : IsDist g'.Arc x y d ↔ IsDist g.Arc x y d := by
  apply IsDist.bypass (fun _ _ _ => hg.arc)
  · intro a b c harc ha hb
    exact ⟨c, le_refl c, .single (h.keep a b c harc ha hb)⟩
  · intro a b c₁ c₂ h₁ h₂ ha hb
    obtain rfl | ⟨c, hle, harc⟩ := h.pass a b c₁ c₂ h₁ h₂ ha hb
    · exact ⟨0, add_nonneg (hg.arc h₁) (hg.arc h₂), .nil a⟩
    · exact ⟨c, hle, .single harc⟩
  · intro a b c harc
    obtain ⟨_, _, harc | ⟨c₁, c₂, h₁, h₂, rfl⟩⟩ := h.arc a b c harc
    · exact ⟨c, le_refl c, .single harc⟩
    · exact ⟨c₁ + c₂, le_refl _, (Walk.single h₁).snoc h₂⟩
  · exact hx
  · exact hy

/-- A vertex that is no neighbour of `v` keeps its edges. -/
theorem Bypasses.sameAt (h : Bypasses g g' v) (hx : x ≠ v) (hadj : x ∉ g.findAdjacentVertices v) :
    SameAt g g' x := by
  rw [mem_findAdjacentVertices, not_or] at hadj
  refine ⟨h.directed, fun y => ?_, fun y => ?_⟩
  · rw [AdjacencyList.adj_iff_arc, AdjacencyList.adj_iff_arc]
    constructor
    · intro hex
      obtain ⟨c, hc⟩ := hex
      obtain ⟨_, _, harc | ⟨c₁, _, h₁, _⟩⟩ := h.arc x y c hc
      · exact ⟨c, harc⟩
      · exact absurd (AdjacencyList.adj_iff_arc.mpr ⟨c₁, h₁⟩) hadj.2
    · intro hex
      obtain ⟨c, hc⟩ := hex
      refine ⟨c, h.keep x y c hc hx fun hy => ?_⟩
      exact hadj.2 (AdjacencyList.adj_iff_arc.mpr ⟨c, hy ▸ hc⟩)
  · rw [AdjacencyList.adj_iff_arc, AdjacencyList.adj_iff_arc]
    constructor
    · intro hex
      obtain ⟨c, hc⟩ := hex
      obtain ⟨_, _, harc | ⟨_, c₂, _, h₂, _⟩⟩ := h.arc y x c hc
      · exact ⟨c, harc⟩
      · exact absurd (AdjacencyList.adj_iff_arc.mpr ⟨c₂, h₂⟩) hadj.1
    · intro hex
      obtain ⟨c, hc⟩ := hex
      refine ⟨c, h.keep y x c hc (fun hy => ?_) hx⟩
      exact hadj.1 (AdjacencyList.adj_iff_arc.mpr ⟨c, hy ▸ hc⟩)

/-- The vertex that is contracted leaves the vertices with an edge, and none joins them. -/
theorem Bypasses.touched_subset (h : Bypasses g g' v) (hx : x ∈ g'.graph.touched) :
    x ∈ g.graph.touched ∧ x ≠ v := by
  obtain ⟨y, hxy | hyx⟩ := AdjacencyList.mem_touched.mp hx
  · obtain ⟨c, hc⟩ := AdjacencyList.adj_iff_arc.mp hxy
    obtain ⟨hne, _, harc | ⟨c₁, _, h₁, _⟩⟩ := h.arc x y c hc
    · have hadj := AdjacencyList.adj_iff_arc.mpr ⟨c, harc⟩
      exact ⟨AdjacencyList.mem_touched.mpr ⟨y, .inl hadj⟩, hne⟩
    · have hadj := AdjacencyList.adj_iff_arc.mpr ⟨c₁, h₁⟩
      exact ⟨AdjacencyList.mem_touched.mpr ⟨v, .inl hadj⟩, hne⟩
  · obtain ⟨c, hc⟩ := AdjacencyList.adj_iff_arc.mp hyx
    obtain ⟨_, hne, harc | ⟨_, c₂, _, h₂, _⟩⟩ := h.arc y x c hc
    · have hadj := AdjacencyList.adj_iff_arc.mpr ⟨c, harc⟩
      exact ⟨AdjacencyList.mem_touched.mpr ⟨y, .inr hadj⟩, hne⟩
    · have hadj := AdjacencyList.adj_iff_arc.mpr ⟨c₂, h₂⟩
      exact ⟨AdjacencyList.mem_touched.mpr ⟨v, .inr hadj⟩, hne⟩

theorem Bypasses.touched_lt (h : Bypasses g g' v) (hv : v ∈ g.graph.touched) :
    g'.graph.touched.card < g.graph.touched.card := by
  apply Finset.card_lt_card
  apply (Finset.ssubset_iff_of_subset fun x hx => (h.touched_subset hx).1).mpr
  exact ⟨v, hv, fun hv' => (h.touched_subset hv').2 rfl⟩

/-! ## The contraction of a dead end -/

/-- The fields that the merging of contracted vertices leaves alone. -/
theorem foldl_mergeDeadEnd (l : List Nat) :
    ∀ g : PgrContractionGraph, let g' := l.foldl (mergeDeadEnd · v) g
    g'.graph.edges = g.graph.edges ∧ g'.graph.directed = g.graph.directed ∧
    g'.forbiddenVertices = g.forbiddenVertices ∧ g'.contracted = g.contracted := by
  induction l with
  | nil => exact fun g => ⟨rfl, rfl, rfl, rfl⟩
  | cons u l ih => exact fun g => ih (g.mergeDeadEnd v u)

theorem contractDeadEnd_graph :
    (g.contractDeadEnd v).graph.edges = (g.graph.clearVertex v).edges ∧
    (g.contractDeadEnd v).graph.directed = g.graph.directed ∧
    (g.contractDeadEnd v).forbiddenVertices = g.forbiddenVertices ∧
    (g.contractDeadEnd v).contracted = (.deadEnd, v) :: g.contracted := by
  obtain ⟨hedges, hdir, hforb, hcon⟩ := foldl_mergeDeadEnd (v := v)
    (g.findAdjacentVertices v).ids g
  refine ⟨?_, hdir, hforb, ?_⟩
  · show ((g.findAdjacentVertices v).ids.foldl (mergeDeadEnd · v) g).graph.edges.filter _ = _
    rw [hedges]
    rfl
  · show _ :: ((g.findAdjacentVertices v).ids.foldl (mergeDeadEnd · v) g).contracted = _
    rw [hcon]

theorem contractDeadEnd_arc {c : ℚ} :
    (g.contractDeadEnd v).Arc x y c ↔ g.Arc x y c ∧ x ≠ v ∧ y ≠ v := by
  obtain ⟨hedges, hdir, _⟩ := contractDeadEnd_graph (g := g) (v := v)
  show (g.contractDeadEnd v).graph.Arc x y c ↔ g.graph.Arc x y c ∧ x ≠ v ∧ y ≠ v
  rw [← AdjacencyList.arc_clearVertex, AdjacencyList.arc_iff, AdjacencyList.arc_iff, hedges, hdir]
  rfl

/-- Nothing passes through a dead end but what returns to where it came from. -/
theorem deadEnd_bypasses (hg : g.Nonnegative) (h : g.isDeadEnd v = true) :
    Bypasses g (g.contractDeadEnd v) v := by
  obtain ⟨hedges, hdir, hforb, _⟩ := contractDeadEnd_graph (g := g) (v := v)
  refine ⟨hdir, hforb, ?_, ?_, ?_, ?_⟩
  · intro e he
    rw [hedges] at he
    exact hg e (AdjacencyList.mem_edges_clearVertex.mp he).1
  · intro x y c harc
    obtain ⟨harc, hx, hy⟩ := contractDeadEnd_arc.mp harc
    exact ⟨hx, hy, .inl harc⟩
  · intro x y c harc hx hy
    exact contractDeadEnd_arc.mpr ⟨harc, hx, hy⟩
  · intro x y c₁ c₂ h₁ h₂ _ _
    have hx := AdjacencyList.adj_iff_arc.mpr ⟨c₁, h₁⟩
    have hy := AdjacencyList.adj_iff_arc.mpr ⟨c₂, h₂⟩
    obtain hsize | ⟨_, _, hout⟩ := isDeadEnd_iff.mp h
    · obtain ⟨u, hu⟩ := Identifiers.mem_of_size_one hsize
      have hxu := (hu x).mp (mem_findAdjacentVertices.mpr (.inr hx))
      have hyu := (hu y).mp (mem_findAdjacentVertices.mpr (.inl hy))
      exact .inl (hxu.trans hyu.symm)
    · exact absurd hy (hout y)

/-! ## The contraction of a linear vertex -/

/-- What adding shortcuts around `v` does to the arcs. -/
structure AddsShortcuts (g g' : PgrContractionGraph) (v : Nat) : Prop where
  directed : g'.graph.directed = g.graph.directed
  forbidden : g'.forbiddenVertices = g.forbiddenVertices
  contracted : g'.contracted = g.contracted
  nonneg : g'.Nonnegative
  arc : ∀ x y c, g'.Arc x y c → g.Arc x y c ∨
    (x ≠ v ∧ y ≠ v ∧ ∃ c₁ c₂, g.Arc x v c₁ ∧ g.Arc v y c₂ ∧ c = c₁ + c₂)
  keep : ∀ x y c, g.Arc x y c → g'.Arc x y c

theorem AddsShortcuts.refl (hg : g.Nonnegative) : AddsShortcuts g g v :=
  ⟨rfl, rfl, rfl, hg, fun _ _ _ h => .inl h, fun _ _ _ h => h⟩

/-- The arcs at `v` itself stay the same. -/
theorem AddsShortcuts.arc_at (h : AddsShortcuts g g' v) {c : ℚ} :
    (g'.Arc x v c ↔ g.Arc x v c) ∧ (g'.Arc v x c ↔ g.Arc v x c) := by
  constructor
  · refine ⟨fun harc => ?_, h.keep x v c⟩
    obtain harc | ⟨_, hv, _⟩ := h.arc x v c harc
    · exact harc
    · exact absurd rfl hv
  · refine ⟨fun harc => ?_, h.keep v x c⟩
    obtain harc | ⟨hv, _⟩ := h.arc v x c harc
    · exact harc
    · exact absurd rfl hv

theorem AddsShortcuts.trans (h : AddsShortcuts g g' v) (h' : AddsShortcuts g' g'' v) :
    AddsShortcuts g g'' v := by
  refine ⟨h'.directed.trans h.directed, h'.forbidden.trans h.forbidden,
    h'.contracted.trans h.contracted, h'.nonneg, ?_, ?_⟩
  · intro x y c harc
    obtain harc | ⟨hx, hy, c₁, c₂, h₁, h₂, hc⟩ := h'.arc x y c harc
    · exact h.arc x y c harc
    · exact .inr ⟨hx, hy, c₁, c₂, h.arc_at.1.mp h₁, h.arc_at.2.mp h₂, hc⟩
  · intro x y c harc
    exact h'.keep x y c (h.keep x y c harc)

theorem shortcut_cost (huv : g.graph.Adj u v) (hvw : g.graph.Adj v w) :
    (g.shortcut u v w).cost = (g.getMinCostEdge u v).1.cost + (g.getMinCostEdge v w).1.cost := by
  show (if (g.getMinCostEdge u v).2 && (g.getMinCostEdge v w).2 then _ else dblMax) = _
  rw [getMinCostEdge_spec.1.mpr huv, getMinCostEdge_spec.1.mpr hvw]
  rfl

theorem shortcut_cost_nonneg (hg : g.Nonnegative) (huv : g.graph.Adj u v)
    (hvw : g.graph.Adj v w) : 0 ≤ (g.shortcut u v w).cost := by
  rw [shortcut_cost huv hvw]
  exact add_nonneg (hg.arc (getMinCostEdge_spec.2.1 huv).1) (hg.arc (getMinCostEdge_spec.2.1 hvw).1)

/-- A shortcut that is not negative is added to the edges. -/
theorem processShortcut_eq (h : 0 ≤ (g.shortcut u v w).cost) : g.processShortcut u v w =
    { g with minEdgeId := g.minEdgeId - 1, graph := g.graph.addEdge u w (g.shortcut u v w) } := by
  rw [processShortcut, addShortcut, if_neg (not_lt.mpr h)]

theorem processShortcut_arc (h : 0 ≤ (g.shortcut u v w).cost) {c : ℚ} :
    (g.processShortcut u v w).Arc x y c ↔ g.Arc x y c ∨ ((g.shortcut u v w).cost = c ∧
      (u = x ∧ w = y ∨ g.graph.directed = false ∧ u = y ∧ w = x)) := by
  rw [processShortcut_eq h]
  simp only [Arc, AdjacencyList.arc_iff, AdjacencyList.addEdge, List.mem_append,
    List.mem_singleton, or_and_right, exists_or, exists_eq_left]
  rfl

/-- `process_shortcut` adds an edge that is as long as the shortest passage through `v`. -/
theorem processShortcut_spec (hg : g.Nonnegative) (huv : g.graph.Adj u v) (hvw : g.graph.Adj v w)
    (hu : u ≠ v) (hw : w ≠ v) :
    AddsShortcuts g (g.processShortcut u v w) v ∧
    ∀ x y c₁ c₂, g.Arc x v c₁ → g.Arc v y c₂ →
      (u = x ∧ w = y ∨ g.graph.directed = false ∧ u = y ∧ w = x) →
      ∃ c ≤ c₁ + c₂, (g.processShortcut u v w).Arc x y c := by
  obtain ⟨harc₁, hmin₁⟩ := getMinCostEdge_spec.2.1 huv
  obtain ⟨harc₂, hmin₂⟩ := getMinCostEdge_spec.2.1 hvw
  have hcost := shortcut_cost huv hvw
  have hnonneg := shortcut_cost_nonneg hg huv hvw
  constructor
  · refine ⟨by rw [processShortcut_eq hnonneg]; rfl, by rw [processShortcut_eq hnonneg],
      by rw [processShortcut_eq hnonneg], ?_, ?_, ?_⟩
    · intro e he
      rw [processShortcut_eq hnonneg] at he
      obtain he | he := List.mem_append.mp he
      · exact hg e he
      · rw [List.mem_singleton.mp he]
        exact hnonneg
    · intro x y c harc
      obtain harc | ⟨rfl, ⟨rfl, rfl⟩ | ⟨hd, rfl, rfl⟩⟩ := (processShortcut_arc hnonneg).mp harc
      · exact .inl harc
      · exact .inr ⟨hu, hw, _, _, harc₁, harc₂, hcost⟩
      · -- In an undirected graph the shortcut is passed the other way round as well.
        exact .inr ⟨hw, hu, _, _, harc₂.symm hd, harc₁.symm hd, hcost.trans (add_comm _ _)⟩
    · intro x y c harc
      exact (processShortcut_arc hnonneg).mpr (.inl harc)
  · intro x y c₁ c₂ h₁ h₂ hends
    refine ⟨(g.shortcut u v w).cost, ?_, (processShortcut_arc hnonneg).mpr (.inr ⟨rfl, hends⟩)⟩
    rw [hcost]
    obtain ⟨rfl, rfl⟩ | ⟨hd, rfl, rfl⟩ := hends
    · exact add_le_add (hmin₁ c₁ h₁) (hmin₂ c₂ h₂)
    · rw [add_comm c₁]
      exact add_le_add (hmin₁ c₂ (h₂.symm hd)) (hmin₂ c₁ (h₁.symm hd))

/-- In a directed graph a passage from `u` through `v` to `w` is replaced when there is one. -/
theorem processShortcut_if_spec (hg : g.Nonnegative) (hu : u ≠ v) (hw : w ≠ v) :
    let g' := if g.hasEdge u v && g.hasEdge v w then g.processShortcut u v w else g
    AddsShortcuts g g' v ∧
    ∀ c₁ c₂, g.Arc u v c₁ → g.Arc v w c₂ → ∃ c ≤ c₁ + c₂, g'.Arc u w c := by
  by_cases h : g.graph.Adj u v ∧ g.graph.Adj v w
  · have hif : (g.hasEdge u v && g.hasEdge v w) = true := by
      rw [Bool.and_eq_true, hasEdge_iff, hasEdge_iff]
      exact h
    rw [if_pos hif]
    obtain ⟨hadds, hpass⟩ := processShortcut_spec hg h.1 h.2 hu hw
    exact ⟨hadds, fun c₁ c₂ h₁ h₂ => hpass u w c₁ c₂ h₁ h₂ (.inl ⟨rfl, rfl⟩)⟩
  · have hif : ¬ (g.hasEdge u v && g.hasEdge v w) = true := by
      rw [Bool.and_eq_true, hasEdge_iff, hasEdge_iff]
      exact h
    rw [if_neg hif]
    refine ⟨.refl hg, fun c₁ c₂ h₁ h₂ => absurd ⟨?_, ?_⟩ h⟩
    · exact AdjacencyList.adj_iff_arc.mpr ⟨c₁, h₁⟩
    · exact AdjacencyList.adj_iff_arc.mpr ⟨c₂, h₂⟩

/-- The shortcuts around a linear vertex replace the passages from one neighbour to the other. -/
theorem addShortcuts_spec (hg : g.Nonnegative) (hu : u ≠ v) (hw : w ≠ v)
    (hpossible : g.isShortcutPossible u v w = true) :
    AddsShortcuts g (g.addShortcuts u v w) v ∧
    ∀ x y c₁ c₂, g.Arc x v c₁ → g.Arc v y c₂ → (u = x ∧ w = y ∨ u = y ∧ w = x) →
      ∃ c ≤ c₁ + c₂, (g.addShortcuts u v w).Arc x y c := by
  unfold addShortcuts
  cases hd : g.graph.directed with
  | true =>
    rw [if_pos rfl]
    obtain ⟨hadds₁, hpass₁⟩ := processShortcut_if_spec hg hu hw
    obtain ⟨hadds₂, hpass₂⟩ := processShortcut_if_spec hadds₁.nonneg hw hu
    refine ⟨hadds₁.trans hadds₂, fun x y c₁ c₂ h₁ h₂ hends => ?_⟩
    obtain ⟨rfl, rfl⟩ | ⟨rfl, rfl⟩ := hends
    · obtain ⟨c, hle, harc⟩ := hpass₁ c₁ c₂ h₁ h₂
      exact ⟨c, hle, hadds₂.keep _ _ c harc⟩
    · exact hpass₂ c₁ c₂ (hadds₁.keep _ _ _ h₁) (hadds₁.keep _ _ _ h₂)
  | false =>
    rw [if_neg Bool.false_ne_true]
    have huvw : g.hasUVW u v w = true := by
      unfold isShortcutPossible at hpossible
      rw [hd] at hpossible
      split at hpossible
      · cases hpossible
      · simpa using hpossible
    rw [hasUVW, Bool.and_eq_true, hasEdge_iff, hasEdge_iff] at huvw
    obtain ⟨hadds, hpass⟩ := processShortcut_spec hg huvw.1 huvw.2 hu hw
    refine ⟨hadds, fun x y c₁ c₂ h₁ h₂ hends => hpass x y c₁ c₂ h₁ h₂ ?_⟩
    exact hends.imp id fun h => ⟨hd, h⟩

/-- Contracting a linear vertex leads around it. -/
theorem linear_bypasses (hg : g.Nonnegative) (h : g.isLinear v = true) :
    Bypasses g (g.contractLinear v) v ∧
    (g.contractLinear v).contracted = (.linear, v) :: g.contracted := by
  obtain ⟨u, w, hends, hu, hw, huw, hmem, hpossible⟩ := exists_linearEnds h
  obtain ⟨hadds, hpass⟩ := addShortcuts_spec hg hu hw hpossible
  have hstep : g.contractLinear v = (g.addShortcuts u v w).clearVertex .linear v := by
    simp only [contractLinear, hends]
  have harcs : ∀ x y c, (g.contractLinear v).Arc x y c ↔
      (g.addShortcuts u v w).Arc x y c ∧ x ≠ v ∧ y ≠ v := by
    intro x y c
    rw [hstep]
    exact AdjacencyList.arc_clearVertex
  rw [hstep] at harcs ⊢
  refine ⟨⟨hadds.directed, hadds.forbidden, ?_, ?_, ?_, ?_⟩, ?_⟩
  · intro e he
    exact hadds.nonneg e (AdjacencyList.mem_edges_clearVertex.mp he).1
  · intro x y c harc
    obtain ⟨harc, hx, hy⟩ := (harcs x y c).mp harc
    exact ⟨hx, hy, (hadds.arc x y c harc).imp id fun h => h.2.2⟩
  · intro x y c harc hx hy
    exact (harcs x y c).mpr ⟨hadds.keep x y c harc, hx, hy⟩
  · intro x y c₁ c₂ h₁ h₂ hx hy
    -- Both ends of the passage are among the two neighbours.
    have hxmem := (hmem x).mp (mem_findAdjacentVertices.mpr
      (.inr (AdjacencyList.adj_iff_arc.mpr ⟨c₁, h₁⟩)))
    have hymem := (hmem y).mp (mem_findAdjacentVertices.mpr
      (.inl (AdjacencyList.adj_iff_arc.mpr ⟨c₂, h₂⟩)))
    by_cases hxy : x = y
    · exact .inl hxy
    · have hends : u = x ∧ w = y ∨ u = y ∧ w = x := by
        obtain rfl | rfl := hxmem
        · obtain rfl | rfl := hymem
          · exact absurd rfl hxy
          · exact .inl ⟨rfl, rfl⟩
        · obtain rfl | rfl := hymem
          · exact .inr ⟨rfl, rfl⟩
          · exact absurd rfl hxy
      obtain ⟨c, hle, harc⟩ := hpass x y c₁ c₂ h₁ h₂ hends
      exact .inr ⟨c, hle, (harcs x y c).mpr ⟨harc, hx, hy⟩⟩
  · show _ :: (g.addShortcuts u v w).contracted = _
    rw [hadds.contracted]

/-! ## Runs of contractions -/

/-- The vertex is not forbidden and the test of the contraction holds of it. -/
def Contractible (g : PgrContractionGraph) : ContractionKind × Nat → Prop
  | (.deadEnd, v) => g.isDeadEnd v = true ∧ g.isForbidden v = false
  | (.linear, v) => g.isLinear v = true ∧ g.isForbidden v = false

theorem Contractible.not_forbidden {p : ContractionKind × Nat} (h : g.Contractible p) :
    g.isForbidden p.2 = false := by
  obtain ⟨kind, v⟩ := p
  cases kind with
  | deadEnd => exact h.2
  | linear => exact h.2

/-- What the contraction of one vertex does to the arcs. -/
theorem Contractible.bypasses {p : ContractionKind × Nat} (hg : g.Nonnegative)
    (h : g.Contractible p) : Bypasses g (g.contractVertex p) p.2 ∧
      (g.contractVertex p).contracted = p :: g.contracted := by
  obtain ⟨kind, v⟩ := p
  cases kind with
  | deadEnd => exact ⟨deadEnd_bypasses hg h.1, contractDeadEnd_graph.2.2.2⟩
  | linear => exact linear_bypasses hg h.1

theorem Contractible.mem_touched {p : ContractionKind × Nat} (h : g.Contractible p) :
    p.2 ∈ g.graph.touched := by
  obtain ⟨kind, v⟩ := p
  apply AdjacencyList.mem_touched.mpr
  cases kind with
  | deadEnd =>
    obtain hsize | ⟨_, ⟨x, hx⟩, _⟩ := isDeadEnd_iff.mp h.1
    · obtain ⟨u, hu⟩ := Identifiers.mem_of_size_one hsize
      exact ⟨u, mem_findAdjacentVertices.mp ((hu u).mpr rfl)⟩
    · exact ⟨x, .inr hx⟩
  | linear =>
    obtain ⟨u, w, _, _, _, _, hmem, _⟩ := exists_linearEnds h.1
    exact ⟨u, mem_findAdjacentVertices.mp ((hmem u).mpr (.inl rfl))⟩

/-- A vertex that is not next to the contracted one stays as contractible as it was. -/
theorem Bypasses.contractible_iff (h : Bypasses g g' v) (hx : x ≠ v)
    (hadj : x ∉ g.findAdjacentVertices v) (kind : ContractionKind) :
    g'.Contractible (kind, x) ↔ g.Contractible (kind, x) := by
  have hsame := h.sameAt hx hadj
  have hforb : g'.isForbidden x = g.isForbidden x := by
    rw [isForbidden, isForbidden, h.forbidden]
  cases kind with
  | deadEnd => rw [Contractible, Contractible, isDeadEnd_congr hsame, hforb]
  | linear => rw [Contractible, Contractible, isLinear_congr hsame, hforb]

/-- The contraction of one contractible vertex. -/
def Step (g g' : PgrContractionGraph) : Prop := ∃ p, g.Contractible p ∧ g' = g.contractVertex p

/-- A run of contractions. -/
abbrev Run : PgrContractionGraph → PgrContractionGraph → Prop := Relation.ReflTransGen Step

/-- What a run does: it contracts the vertices it records, none of which is forbidden, and all
    others keep their distances. -/
structure Contracts (g g' : PgrContractionGraph) (steps : List (ContractionKind × Nat)) :
    Prop where
  nonneg : g'.Nonnegative
  forbidden : g'.forbiddenVertices = g.forbiddenVertices
  contracted : g'.contracted = steps.reverse ++ g.contracted
  replay : g' = steps.foldl contractVertex g
  allowed : ∀ p ∈ steps, g.isForbidden p.2 = false
  isDist : ∀ x y, (∀ p ∈ steps, p.2 ≠ x ∧ p.2 ≠ y) →
    ∀ d, IsDist g'.Arc x y d ↔ IsDist g.Arc x y d

theorem Contracts.snoc {steps : List (ContractionKind × Nat)} (h : Contracts g g' steps)
    {p : ContractionKind × Nat} (hp : g'.Contractible p) :
    Contracts g (g'.contractVertex p) (steps ++ [p]) := by
  obtain ⟨hbyp, hcon⟩ := hp.bypasses h.nonneg
  refine ⟨hbyp.nonneg, hbyp.forbidden.trans h.forbidden, ?_, ?_, ?_, ?_⟩
  · rw [hcon, h.contracted, List.reverse_append]
    rfl
  · rw [List.foldl_append, ← h.replay]
    rfl
  · intro q hq
    obtain hq | hq := List.mem_append.mp hq
    · exact h.allowed q hq
    · rw [List.mem_singleton.mp hq, isForbidden, ← h.forbidden]
      exact hp.not_forbidden
  · intro x y hxy d
    obtain ⟨hx, hy⟩ := hxy p (List.mem_append_right _ (List.mem_singleton.mpr rfl))
    rw [hbyp.isDist_iff h.nonneg (Ne.symm hx) (Ne.symm hy)]
    exact h.isDist x y (fun q hq => hxy q (List.mem_append_left _ hq)) d

end PgrContractionGraph

end PgRouting
