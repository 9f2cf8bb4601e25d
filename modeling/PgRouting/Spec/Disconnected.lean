import PgRouting.Spec.DijkstraVia

/-!
# What is left of a graph

A sequence of disconnections leaves the steps that none of them blocks, and restoring the graph
brings the others back as long as every call saves exactly what it removes. Calls of
`disconnect_edge` that do so meet the only edge between their vertices.

## Key results

- `step_disconnectAll`: the steps that are left
- `Ready.restoreAll`: the graph is the same again
- `AllSaveExactly.eq_of_step`: there is one edge between the vertices
-/

namespace PgRouting

namespace PgrBaseGraph

variable {g h h' : PgrBaseGraph BasicVertex BasicEdge} {u v : Nat} {i j id x y : Int} {c : ℚ}

/-! ## The steps that are left -/

/-- The call takes the edge with the id between the two nodes out of the graph. -/
def Blocks (directed : Bool) : Disconnect → Int → Int → Int → Prop
  | .edge x y, i, _, j => i = x ∧ j = y ∨ directed = false ∧ i = y ∧ j = x
  | .outGoingEdge x eid, i, id, j => id = eid ∧ (i = x ∨ directed = false ∧ j = x)
  | .vertex x, i, _, j => i = x ∨ j = x

/-- When the ends of an edge tell whether it is kept, they tell which steps are left. -/
theorem step_of_filter {keep : BoostEdge BasicEdge → Bool} {P : Prop}
    (hdir : h.graph.directed = g.graph.directed) (hmap : h.verticesMap = g.verticesMap)
    (hedges : h.graph.edges = g.graph.edges.filter keep)
    (hkeep : ∀ a b e, g.verticesMap i = some a → g.verticesMap j = some b →
      item g.graph.directed e = (id, endVertices g.graph.directed a b, c) →
      (keep e = true ↔ P)) :
    h.Step i id j c ↔ g.Step i id j c ∧ P := by
  simp only [Step, hmap, hdir]
  constructor
  · intro hstep
    obtain ⟨a, b, hi, hj, hmem⟩ := hstep
    obtain ⟨e, he, hitem⟩ := mem_edgeMultiset.mp hmem
    rw [hdir] at hitem
    obtain ⟨he, hk⟩ := List.mem_filter.mp (hedges ▸ he)
    exact ⟨⟨a, b, hi, hj, mem_edgeMultiset.mpr ⟨e, he, hitem⟩⟩, (hkeep a b e hi hj hitem).mp hk⟩
  · intro hstep
    obtain ⟨⟨a, b, hi, hj, hmem⟩, hP⟩ := hstep
    obtain ⟨e, he, hitem⟩ := mem_edgeMultiset.mp hmem
    refine ⟨a, b, hi, hj, mem_edgeMultiset.mpr ⟨e, ?_, by rw [hdir, hitem]⟩⟩
    rw [hedges]
    exact List.mem_filter.mpr ⟨he, (hkeep a b e hi hj hitem).mpr hP⟩

/-- Known nodes are the same when their vertices are. -/
theorem Consistent.eq_iff (hg : g.Consistent) (hi : g.verticesMap i = some u)
    (hx : g.verticesMap x = some v) : u = v ↔ i = x := by
  constructor
  · intro huv
    exact (hg.vertexId_eq hi).symm.trans (huv ▸ hg.vertexId_eq hx)
  · intro hix
    exact Option.some.inj (hi.symm.trans (hix ▸ hx))

theorem step_disconnectEdge (hg : g.Consistent) :
    (g.disconnectEdge x y).Step i id j c ↔
      g.Step i id j c ∧ ¬ Blocks g.graph.directed (.edge x y) i id j := by
  rw [disconnectEdge]
  split
  · rename_i u v hu hv
    refine step_of_filter rfl rfl rfl fun a b e hi hj hitem => ?_
    simp only [item, Prod.mk.injEq] at hitem
    obtain ⟨rfl, hends, rfl⟩ := hitem
    rw [Blocks, ← hg.eq_iff hi hu, ← hg.eq_iff hj hv, ← hg.eq_iff hi hv, ← hg.eq_iff hj hu]
    obtain ⟨rfl, rfl⟩ | ⟨hd, rfl, rfl⟩ := endVertices_eq_iff.mp hends
    · cases hd : g.graph.directed <;> simp [AdjacencyList.joins, hd] <;> tauto
    · simp [AdjacencyList.joins, hd]
      tauto
  · rename_i hnone
    refine (and_iff_left_of_imp fun hstep hblock => ?_).symm
    obtain ⟨a, b, hi, hj, _⟩ := hstep
    obtain ⟨rfl, rfl⟩ | ⟨_, rfl, rfl⟩ := hblock
    · exact hnone a b hi hj
    · exact hnone b a hj hi

theorem step_disconnectVertex (hg : g.Consistent) :
    (g.disconnectVertex x).Step i id j c ↔
      g.Step i id j c ∧ ¬ Blocks g.graph.directed (.vertex x) i id j := by
  rw [disconnectVertex]
  split
  · rename_i u hu
    refine step_of_filter rfl rfl rfl fun a b e hi hj hitem => ?_
    simp only [item, Prod.mk.injEq] at hitem
    obtain ⟨rfl, hends, rfl⟩ := hitem
    rw [Blocks, ← hg.eq_iff hi hu, ← hg.eq_iff hj hu]
    obtain ⟨rfl, rfl⟩ | ⟨hd, rfl, rfl⟩ := endVertices_eq_iff.mp hends
    · simp
    · simp [and_comm]
  · rename_i hnone
    refine (and_iff_left_of_imp fun hstep hblock => ?_).symm
    obtain ⟨a, b, hi, hj, _⟩ := hstep
    obtain rfl | rfl := hblock
    · rw [hnone] at hi
      cases hi
    · rw [hnone] at hj
      cases hj

/-- The steps that are left after one call. -/
theorem step_disconnect (hg : g.Consistent) (hwf : g.WellFormed) (op : Disconnect) :
    (g.disconnect op).Step i id j c ↔ g.Step i id j c ∧ ¬ Blocks g.graph.directed op i id j := by
  cases op with
  | edge x y => exact step_disconnectEdge hg
  | vertex x => exact step_disconnectVertex hg
  | outGoingEdge x eid =>
    cases hx : g.verticesMap x with
    | some a => exact step_disconnectOutGoingEdge hg hwf hx
    | none =>
      have hsame : g.disconnect (.outGoingEdge x eid) = g := by
        simp only [disconnect, disconnectOutGoingEdge, hx]
      rw [hsame]
      refine (and_iff_left_of_imp fun hstep hblock => ?_).symm
      obtain ⟨a, b, hi, hj, _⟩ := hstep
      obtain ⟨_, rfl | ⟨_, rfl⟩⟩ := hblock
      · rw [hx] at hi
        cases hi
      · rw [hx] at hj
        cases hj

/-- The steps that are left after a sequence of calls. -/
theorem step_disconnectAll (hg : g.Consistent) (hwf : g.WellFormed) (ops : List Disconnect) :
    (g.disconnectAll ops).Step i id j c ↔
      g.Step i id j c ∧ ∀ op ∈ ops, ¬ Blocks g.graph.directed op i id j := by
  induction ops generalizing g with
  | nil => simp [disconnectAll]
  | cons op ops ih =>
    have hdisc := disconnects_disconnect hwf op
    have hrest := ih (hdisc.consistent hg) (hdisc.wellFormed hwf)
    rw [hdisc.directed, step_disconnect hg hwf] at hrest
    rw [List.forall_mem_cons, ← and_assoc]
    exact hrest

/-! ## The edges that are left -/

/-- A call leaves some of the edges, in their order. -/
theorem sublist_disconnect (op : Disconnect) :
    (g.disconnect op).graph.edges.Sublist g.graph.edges := by
  cases op with
  | edge x y =>
    rw [disconnect, disconnectEdge]
    split
    · exact List.filter_sublist
    · exact .refl _
  | vertex x =>
    rw [disconnect, disconnectVertex]
    split
    · exact List.filter_sublist
    · exact .refl _
  | outGoingEdge x eid =>
    cases hx : g.verticesMap x with
    | some a =>
      rw [disconnect, edges_disconnectOutGoingEdge hx]
      exact List.filter_sublist
    | none =>
      simp only [disconnect, disconnectOutGoingEdge, hx]
      exact .refl _

theorem sublist_disconnectAll (ops : List Disconnect) :
    (g.disconnectAll ops).graph.edges.Sublist g.graph.edges := by
  induction ops generalizing g with
  | nil => exact .refl _
  | cons op ops ih => exact ih.trans (sublist_disconnect op)

/-- What is left of a graph with the edges of `g` is a part of `g`. -/
theorem Same.part_disconnectAll (hsame : Same g h) (hwf : h.WellFormed) (ops : List Disconnect) :
    Part g (h.disconnectAll ops).graph := by
  have hdisc := disconnects_disconnectAll hwf ops
  refine ⟨hdisc.directed.trans hsame.directed, hdisc.vertices.trans hsame.vertices, ?_⟩
  rw [← hsame.edges, hdisc.directed, edgeMultiset, Multiset.coe_le]
  exact ((sublist_disconnectAll ops).map _).subperm

/-- The graph is the same again when every call has saved what it has removed. -/
theorem Ready.restoreAll (hg : g.Ready) {ops : List Disconnect} (hops : g.AllSaveExactly ops) :
    (g.disconnectAll ops).restoreGraph.Ready ∧ Same g (g.disconnectAll ops).restoreGraph :=
  hg.restore (disconnects_disconnectAll hg.wellFormed ops)
    ((pool_disconnectAll hg.wellFormed ops).mpr hops)

/-- When `disconnect_edge` saves what it removes there is one edge between the vertices. -/
theorem SavesExactly.eq_of_step {id' : Int} {c' : ℚ} (hsave : g.SavesExactly (.edge x y))
    (hstep : g.Step x id y c) (hstep' : g.Step x id' y c') : id = id' ∧ c = c' := by
  obtain ⟨u, v, hu, hv, hmem⟩ := hstep
  obtain ⟨u', v', hu', hv', hmem'⟩ := hstep'
  obtain rfl := Option.some.inj (hu.symm.trans hu')
  obtain rfl := Option.some.inj (hv.symm.trans hv')
  have hjoins : ∀ id c, (id, endVertices g.graph.directed u v, c) ∈ g.edgeMultiset →
      ∃ e ∈ g.graph.edges.filter (g.graph.joins u v), e.bundle.id = id ∧ e.bundle.cost = c := by
    intro id c hmem
    obtain ⟨e, he, hitem⟩ := mem_edgeMultiset.mp hmem
    simp only [item, Prod.mk.injEq] at hitem
    obtain ⟨hid, hends, hcost⟩ := hitem
    refine ⟨e, List.mem_filter.mpr ⟨he, ?_⟩, hid, hcost⟩
    obtain ⟨hs, ht⟩ | ⟨hd, hs, ht⟩ := endVertices_eq_iff.mp hends
    · simp [AdjacencyList.joins, hs, ht]
    · simp [AdjacencyList.joins, hd, hs, ht]
  obtain ⟨e, he, rfl, rfl⟩ := hjoins _ _ hmem
  obtain ⟨e', he', rfl, rfl⟩ := hjoins _ _ hmem'
  have hlen := hsave u v hu hv
  obtain ⟨a, ha⟩ : ∃ a, g.graph.edges.filter (g.graph.joins u v) = [a] :=
    List.length_eq_one_iff.mp (Nat.le_antisymm hlen (List.length_pos_of_mem he))
  rw [ha, List.mem_singleton] at he he'
  rw [he, he']
  exact ⟨rfl, rfl⟩

/-- So it is when several edges from one vertex are disconnected. -/
theorem AllSaveExactly.eq_of_step {ys : List Int} {ops : List Disconnect} {id' : Int} {c' : ℚ}
    (hg : g.Consistent) (hwf : g.WellFormed) (hops : g.AllSaveExactly (ys.map (.edge x) ++ ops))
    (hy : y ∈ ys) (hstep : g.Step x id y c) (hstep' : g.Step x id' y c') : id = id' ∧ c = c' := by
  induction ys generalizing g with
  | nil => cases hy
  | cons z ys ih =>
    by_cases hyz : y = z
    · rw [hyz] at hstep hstep'
      exact hops.1.eq_of_step hstep hstep'
    · have hdisc := disconnects_disconnect hwf (.edge x z)
      have hleft : ∀ id c, g.Step x id y c → (g.disconnect (.edge x z)).Step x id y c := by
        intro id c hstep
        refine (step_disconnect hg hwf _).mpr ⟨hstep, fun hblock => hyz ?_⟩
        obtain ⟨_, hyz⟩ | ⟨_, hxz, hyx⟩ := hblock
        · exact hyz
        · exact hyx.trans hxz
      exact ih (hdisc.consistent hg) (hdisc.wellFormed hwf) hops.2
        ((List.mem_cons.mp hy).resolve_left hyz) (hleft id c hstep) (hleft id' c' hstep')

end PgrBaseGraph

end PgRouting
