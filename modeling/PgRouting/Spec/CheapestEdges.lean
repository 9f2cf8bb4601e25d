import PgRouting.Spec.YenSpurs

/-!
# What disconnecting may lose

`disconnect_edge` saves the first edge that it meets, and the other edges between its vertices
are lost. As long as the one it saves is a cheapest of them, a restored graph has a cheapest edge
between any two vertices, and the same cheapest routes. Self-loops that are restored twice are on
no route.

## Key results

- `KeepsCheapest.disconnectAll`: what a sequence of calls keeps in the graph or saves
- `CheapCopy.restoreAll`: the graph that has been restored
-/

namespace PgRouting

namespace PgrBaseGraph

variable {g h : PgrBaseGraph BasicVertex BasicEdge} {u v : Nat} {M M' M'' : Multiset Item}

/-! ## Calls that save a cheapest edge -/

/-- What `disconnect_edge` saves costs no more than what it loses. -/
def SavesCheapest (g : PgrBaseGraph BasicVertex BasicEdge) : Disconnect → Prop
  | .edge pFrom pTo => ∀ u v, g.verticesMap pFrom = some u → g.verticesMap pTo = some v →
      ∀ e ∈ (g.graph.outEdges u).find? (·.target = v), ∀ e' ∈ g.graph.outEdges u,
        e'.target = v → e.bundle.cost ≤ e'.bundle.cost
  | .outGoingEdge _ _ => True
  | .vertex _ => True

/-- No call of a sequence loses all cheapest edges between two vertices. -/
def AllSaveCheapest (g : PgrBaseGraph BasicVertex BasicEdge) : List Disconnect → Prop
  | [] => True
  | op :: ops => g.SavesCheapest op ∧ (g.disconnect op).AllSaveCheapest ops

instance : (op : Disconnect) → Decidable (g.SavesCheapest op)
  | .edge pFrom pTo =>
    match hu : g.verticesMap pFrom, hv : g.verticesMap pTo with
    | some u, some v =>
      decidable_of_iff
        (∀ e ∈ (g.graph.outEdges u).find? (fun e : BoostEdge BasicEdge => decide (e.target = v)),
          ∀ e' ∈ g.graph.outEdges u, e'.target = v → e.bundle.cost ≤ e'.bundle.cost)
        (by simp [SavesCheapest, hu, hv])
    | none, _ => .isTrue (by simp [SavesCheapest, hu])
    | _, none => .isTrue (by simp [SavesCheapest, hv])
  | .outGoingEdge _ _ => .isTrue trivial
  | .vertex _ => .isTrue trivial

instance decidableAllSaveCheapest : (g : PgrBaseGraph BasicVertex BasicEdge) →
    (ops : List Disconnect) → Decidable (g.AllSaveCheapest ops)
  | _, [] => .isTrue trivial
  | g, op :: ops =>
    have := decidableAllSaveCheapest (g.disconnect op) ops
    inferInstanceAs (Decidable (g.SavesCheapest op ∧ (g.disconnect op).AllSaveCheapest ops))

/-- The items are some of `M`, and between two vertices some item costs no more than any of `M`. -/
structure KeepsCheapest (M M' : Multiset Item) : Prop where
  mem : ∀ x ∈ M', x ∈ M
  cheaper : ∀ x ∈ M, ∃ y ∈ M', y.2.1 = x.2.1 ∧ y.2.2 ≤ x.2.2

namespace KeepsCheapest

theorem refl (M : Multiset Item) : KeepsCheapest M M where
  mem _ hx := hx
  cheaper x hx := ⟨x, hx, rfl, le_refl _⟩

theorem trans (h : KeepsCheapest M M') (h' : KeepsCheapest M' M'') : KeepsCheapest M M'' where
  mem x hx := h.mem x (h'.mem x hx)
  cheaper x hx := by
    obtain ⟨y, hy, hends, hle⟩ := h.cheaper x hx
    obtain ⟨z, hz, hends', hle'⟩ := h'.cheaper y hy
    exact ⟨z, hz, hends'.trans hends, hle'.trans hle⟩

end KeepsCheapest

/-- The items of edges between `u` and `v` are out edges of `u`. -/
theorem exists_outEdge_of_mem_joins {x : Item} (hx : x ∈ g.itemsOf (g.graph.joins u v)) :
    ∃ e ∈ g.graph.outEdges u, e.target = v ∧ e.bundle.cost = x.2.2 := by
  obtain ⟨e, he, rfl⟩ := List.mem_map.mp (Multiset.mem_coe.mp hx)
  obtain ⟨he, hj⟩ := List.mem_filter.mp he
  simp only [AdjacencyList.joins, Bool.or_eq_true, Bool.and_eq_true, beq_iff_eq,
    Bool.not_eq_true'] at hj
  obtain ⟨hs, ht⟩ | ⟨⟨hd, hs⟩, ht⟩ := hj
  · exact ⟨e, AdjacencyList.mem_outEdges.mpr ⟨e, he, .inl ⟨rfl, hs⟩⟩, ht, rfl⟩
  · exact ⟨e.flip, AdjacencyList.mem_outEdges.mpr ⟨e, he, .inr ⟨hd, rfl, ht⟩⟩, hs, rfl⟩

/-- `disconnect_edge` keeps a cheapest edge when it saves one. -/
theorem keepsCheapest_disconnectEdge (hg : g.WellFormed) {pFrom pTo : Int}
    (hu : g.verticesMap pFrom = some u) (hv : g.verticesMap pTo = some v)
    (hsave : g.SavesCheapest (.edge pFrom pTo)) :
    KeepsCheapest g.pool (g.disconnectEdge pFrom pTo).pool := by
  have hpool := pool_disconnectEdge_find hg hu hv
  have hfind := find_outEdges_joins g u v
  have hsave := hsave u v hu hv
  cases hf : (g.graph.outEdges u).find? (·.target = v) with
  | none =>
    rw [hf] at hpool hfind
    -- There is no edge between the two, and nothing goes.
    have hzero : g.itemsOf (g.graph.joins u v) = 0 := by simp [itemsOf, hfind]
    have hsame : (g.disconnectEdge pFrom pTo).pool = g.pool := by simpa [hzero] using hpool
    rw [hsame]
    exact .refl _
  | some e =>
    rw [hf] at hpool hfind hsave
    obtain ⟨_, hfirst⟩ := hfind
    obtain ⟨others, hothers⟩ := Multiset.le_iff_exists_add.mp
      (show g.itemsOf (g.graph.joins u v) ≤ g.pool from
        (Multiset.le_add_right _ _).trans
          ((itemsOf_add_not g (g.graph.joins u v)).le.trans (Multiset.le_add_right _ _)))
    -- The first edge is saved; the other parallel ones are lost.
    have hleft : (g.disconnectEdge pFrom pTo).pool = others + {item g.graph.directed e} := by
      rw [hothers, add_assoc, add_comm (g.itemsOf _)] at hpool
      exact add_right_cancel hpool
    rw [hleft, hothers]
    constructor
    · intro x hx
      obtain hx | hx := Multiset.mem_add.mp hx
      · exact Multiset.mem_add.mpr (.inr hx)
      · exact Multiset.mem_add.mpr (.inl (Multiset.mem_singleton.mp hx ▸ hfirst))
    · intro x hx
      obtain hx | hx := Multiset.mem_add.mp hx
      · -- An edge between the vertices: the one that has been saved costs no more.
        obtain ⟨e', he', ht, hcost⟩ := exists_outEdge_of_mem_joins hx
        refine ⟨_, Multiset.mem_add.mpr (.inr (Multiset.mem_singleton_self _)), ?_, ?_⟩
        · rw [ends_of_mem_joins hfirst, ends_of_mem_joins hx]
        · rw [← hcost]
          exact hsave e rfl e' he' ht
      · exact ⟨x, Multiset.mem_add.mpr (.inl hx), rfl, le_refl _⟩

/-- One call. -/
theorem keepsCheapest_disconnect (hg : g.WellFormed) {op : Disconnect}
    (hsave : g.SavesCheapest op) : KeepsCheapest g.pool (g.disconnect op).pool := by
  cases op with
  | edge pFrom pTo =>
    by_cases hboth : ∃ u v, g.verticesMap pFrom = some u ∧ g.verticesMap pTo = some v
    · obtain ⟨u, v, hu, hv⟩ := hboth
      exact keepsCheapest_disconnectEdge hg hu hv hsave
    · have hsame : g.disconnect (.edge pFrom pTo) = g := by
        simp only [disconnect, disconnectEdge]
        split
        · exact absurd ⟨_, _, ‹_›, ‹_›⟩ hboth
        · rfl
      rw [hsame]
      exact .refl _
  | outGoingEdge vid eid =>
    -- Every edge that goes is saved once.
    obtain ⟨lost, doubled, hpool, _, hiff, _⟩ := pool_disconnect hg (.outGoingEdge vid eid)
    obtain ⟨rfl, rfl⟩ := hiff.mp trivial
    rw [add_zero, add_zero] at hpool
    rw [hpool]
    exact .refl _
  | vertex vid =>
    cases hv : g.verticesMap vid with
    | none =>
      have hsame : g.disconnect (.vertex vid) = g := by
        simp only [disconnect, disconnectVertex, hv]
      rw [hsame]
      exact .refl _
    | some v =>
      rw [disconnect, pool_disconnectVertex hg hv]
      constructor
      · intro x hx
        obtain hx | hx := Multiset.mem_add.mp hx
        · exact hx
        · obtain ⟨e, he, rfl⟩ := List.mem_map.mp (Multiset.mem_coe.mp hx)
          refine Multiset.mem_add.mpr (.inl (Multiset.mem_coe.mpr ?_))
          exact List.mem_map_of_mem (List.mem_of_mem_filter he)
      · exact fun x hx => ⟨x, Multiset.mem_add.mpr (.inl hx), rfl, le_refl _⟩

/-- A sequence of calls. -/
theorem KeepsCheapest.disconnectAll (hg : g.WellFormed) {ops : List Disconnect}
    (hsave : g.AllSaveCheapest ops) : KeepsCheapest g.pool (g.disconnectAll ops).pool := by
  induction ops generalizing g with
  | nil => exact .refl _
  | cons op ops ih =>
    have hstep := keepsCheapest_disconnect hg hsave.1
    exact hstep.trans (ih ((disconnects_disconnect hg op).wellFormed hg) hsave.2)

/-! ## Graphs that have been restored -/

/-- The graph has the vertices of `g` and copies of its edges, and between any two vertices a
    cheapest edge. -/
structure CheapCopy (g h : PgrBaseGraph BasicVertex BasicEdge) : Prop where
  directed : h.graph.directed = g.graph.directed
  vertices : h.graph.vertices = g.graph.vertices
  map : h.verticesMap = g.verticesMap
  keeps : KeepsCheapest g.edgeMultiset h.edgeMultiset

theorem CheapCopy.refl (g : PgrBaseGraph BasicVertex BasicEdge) : CheapCopy g g :=
  ⟨rfl, rfl, rfl, .refl _⟩

theorem CheapCopy.standsFor (hcopy : CheapCopy g h) : StandsFor g h where
  map := hcopy.map
  step i id j c hstep := by
    obtain ⟨u, v, hu, hv, hmem⟩ := hstep
    rw [hcopy.map] at hu hv
    rw [hcopy.directed] at hmem
    exact ⟨u, v, hu, hv, hcopy.keeps.mem _ hmem⟩
  cheaper i id j c _ hstep := by
    obtain ⟨u, v, hu, hv, hmem⟩ := hstep
    obtain ⟨⟨id', ends, c'⟩, hmem', hends, hle⟩ := hcopy.keeps.cheaper _ hmem
    refine ⟨id', c', ⟨u, v, hcopy.map ▸ hu, hcopy.map ▸ hv, ?_⟩, hle⟩
    have hends : ends = endVertices g.graph.directed u v := hends
    rw [hcopy.directed, ← hends]
    exact hmem'

/-- The graph stays a copy when it is restored after calls that each save a cheapest edge. -/
theorem CheapCopy.restoreAll (hcopy : CheapCopy g h) (hh : h.Ready) {ops : List Disconnect}
    (hops : h.AllSaveCheapest ops) :
    CheapCopy g (h.disconnectAll ops).restoreGraph ∧ (h.disconnectAll ops).restoreGraph.Ready := by
  have hdisc := disconnects_disconnectAll hh.wellFormed ops
  obtain ⟨hready, hdir, hvert, hmap⟩ := hh.restored hdisc
  have hkeeps := KeepsCheapest.disconnectAll hh.wellFormed hops
  have hpool : h.pool = h.edgeMultiset := by simp [pool, hh.saved]
  rw [hpool] at hkeeps
  refine ⟨⟨hdir.trans hcopy.directed, hvert.trans hcopy.vertices, hmap.trans hcopy.map, ?_⟩, hready⟩
  rw [edgeMultiset_restoreGraph (hdisc.wellFormed hh.wellFormed)]
  exact hcopy.keeps.trans hkeeps

/-- The edges of what is left of a copy are copies of edges of `g`. -/
theorem CheapCopy.item_mem (hcopy : CheapCopy g h) (hh : h.Ready) (ops : List Disconnect)
    {e : BoostEdge BasicEdge} (he : e ∈ (h.disconnectAll ops).graph.edges) :
    item g.graph.directed e ∈ g.edgeMultiset := by
  have hdisc := disconnects_disconnectAll hh.wellFormed ops
  refine hcopy.keeps.mem _ (Multiset.mem_coe.mpr ?_)
  rw [← hcopy.directed]
  exact List.mem_map_of_mem (hdisc.edges he)

end PgrBaseGraph

end PgRouting
