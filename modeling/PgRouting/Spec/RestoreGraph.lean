import PgRouting.Spec.BaseGraph
import Mathlib.Algebra.Order.Group.Multiset
import Mathlib.Data.Multiset.Count
import Mathlib.Tactic.Abel

/-!
# Disconnecting and restoring edges

`restore_graph` undoes a sequence of disconnections when the saved edges are
exactly the removed ones. We count edges as items (id, end vertices, cost) and
follow `pool`, the edges of the graph together with the saved ones:

- `disconnect_out_going_edge` keeps the pool
- `disconnect_edge` loses all parallel edges but the first
- `disconnect_vertex` doubles the self-loops of the vertex

A loss and a doubling never cancel out, because either leaves the graph without
the self-loops another step would need. So the round trip succeeds exactly when
every step of the sequence keeps the pool.

## Key results

- `restoreGraph_roundTrip_iff`: the exact condition for the round trip
- `ofTable_wellFormed`: the graphs read from an edges table meet its hypotheses
-/

namespace PgRouting

namespace PgrBaseGraph

/-! ## Edges as items -/

/-- The end vertices of an edge; in an undirected graph their order does not count. -/
def endVertices (directed : Bool) (u v : Nat) : Nat × Nat :=
  if directed then (u, v) else (min u v, max u v)

/-- What identifies an edge: its id, its end vertices and its cost. -/
abbrev Item := Int × (Nat × Nat) × ℚ

def item (directed : Bool) (e : BoostEdge BasicEdge) : Item :=
  (e.bundle.id, endVertices directed e.source e.target, e.bundle.cost)

/-- The multiset of edges of the graph. -/
def edgeMultiset (g : PgrBaseGraph BasicVertex BasicEdge) : Multiset Item :=
  ↑(g.graph.edges.map (item g.graph.directed))

/-- The item that restoring a saved edge adds to the graph. -/
def savedItem (g : PgrBaseGraph BasicVertex BasicEdge) (b : BasicEdge) : Item :=
  (b.id, endVertices g.graph.directed ((g.verticesMap b.source).getD 0)
    ((g.verticesMap b.target).getD 0), b.cost)

/-- The edges of the graph together with the saved ones. -/
def pool (g : PgrBaseGraph BasicVertex BasicEdge) : Multiset Item :=
  g.edgeMultiset + ↑(g.removedEdges.map g.savedItem)

/-- A graph whose edges join existing vertices, whose costs are not negative and whose
    saved edges can be put back. -/
structure WellFormed (g : PgrBaseGraph BasicVertex BasicEdge) : Prop where
  ends : ∀ e ∈ g.graph.edges, e.source < g.graph.vertices.length ∧
    e.target < g.graph.vertices.length
  ids : ∀ v x, g.graph.vertices[v]? = some x → g.verticesMap x.id = some v
  costs : ∀ e ∈ g.graph.edges, 0 ≤ e.bundle.cost
  saved : ∀ b ∈ g.removedEdges, 0 ≤ b.cost ∧ (g.verticesMap b.source).isSome ∧
    (g.verticesMap b.target).isSome

/-! ## Sequences of disconnections -/

/-- A call that takes edges out of the graph. -/
inductive Disconnect
  | edge (pFrom pTo : Int)
  | outGoingEdge (vid eid : Int)
  | vertex (vid : Int)

/-- Perform a call. -/
def disconnect (g : PgrBaseGraph BasicVertex BasicEdge) :
    Disconnect → PgrBaseGraph BasicVertex BasicEdge
  | .edge pFrom pTo => g.disconnectEdge pFrom pTo
  | .outGoingEdge vid eid => g.disconnectOutGoingEdge vid eid
  | .vertex vid => g.disconnectVertex vid

/-- A call saves exactly the edges it removes: `disconnect_edge` meets at most one edge
    between its vertices, `disconnect_vertex` meets no self-loop at its vertex. -/
def SavesExactly (g : PgrBaseGraph BasicVertex BasicEdge) : Disconnect → Prop
  | .edge pFrom pTo => ∀ u v, g.verticesMap pFrom = some u → g.verticesMap pTo = some v →
      (g.graph.edges.filter (g.graph.joins u v)).length ≤ 1
  | .outGoingEdge _ _ => True
  | .vertex vid => ∀ v, g.verticesMap vid = some v →
      ∀ e ∈ g.graph.edges, ¬ (e.source = v ∧ e.target = v)

/-- Every call of a sequence saves exactly the edges it removes. -/
def AllSaveExactly (g : PgrBaseGraph BasicVertex BasicEdge) : List Disconnect → Prop
  | [] => True
  | op :: ops => g.SavesExactly op ∧ (g.disconnect op).AllSaveExactly ops

variable {g : PgrBaseGraph BasicVertex BasicEdge} {u v : Nat}

instance : (op : Disconnect) → Decidable (g.SavesExactly op)
  | .edge pFrom pTo =>
    match hu : g.verticesMap pFrom, hv : g.verticesMap pTo with
    | some u, some v =>
      decidable_of_iff ((g.graph.edges.filter (g.graph.joins u v)).length ≤ 1)
        (by simp [SavesExactly, hu, hv])
    | none, _ => .isTrue (by simp [SavesExactly, hu])
    | _, none => .isTrue (by simp [SavesExactly, hv])
  | .outGoingEdge _ _ => .isTrue trivial
  | .vertex vid =>
    match hv : g.verticesMap vid with
    | some v =>
      decidable_of_iff (∀ e ∈ g.graph.edges, ¬ (e.source = v ∧ e.target = v))
        (by simp [SavesExactly, hv])
    | none => .isTrue (by simp [SavesExactly, hv])

instance decidableAllSaveExactly : (g : PgrBaseGraph BasicVertex BasicEdge) →
    (ops : List Disconnect) → Decidable (g.AllSaveExactly ops)
  | _, [] => .isTrue trivial
  | g, op :: ops =>
    have := decidableAllSaveExactly (g.disconnect op) ops
    inferInstanceAs (Decidable (g.SavesExactly op ∧ (g.disconnect op).AllSaveExactly ops))

/-- The graphs read from an edges table are well formed. -/
theorem ofTable_wellFormed (directed : Bool) (es : List EdgeT) :
    (ofTable directed es : PgrBaseGraph BasicVertex BasicEdge).WellFormed where
  ends := (ofTable_consistent directed es).ends
  ids v x hx := ((ofTable_consistent directed es).map x.id v).mpr ⟨x, hx, rfl⟩
  costs := ofTable_cost_nonneg directed es
  saved b hb := by
    rw [ofTable_removedEdges] at hb
    cases hb

/-! ## Items seen from both ends -/

theorem endVertices_comm (h : directed = false) (u v : Nat) :
    endVertices directed u v = endVertices directed v u := by
  simp only [endVertices, h, Bool.false_eq_true, if_false, min_comm u v, max_comm u v]

theorem item_flip (h : directed = false) (e : BoostEdge BasicEdge) :
    item directed e.flip = item directed e := by
  simp only [item, BoostEdge.flip, endVertices_comm h e.target e.source]

/-- An out edge has the item of the edge it shows. -/
theorem exists_item_of_mem_outEdges {e : BoostEdge BasicEdge} (h : e ∈ g.graph.outEdges u) :
    ∃ e₀ ∈ g.graph.edges, item g.graph.directed e = item g.graph.directed e₀ ∧
      (e = e₀ ∨ e = e₀.flip) := by
  obtain ⟨e₀, hmem, ⟨rfl, _⟩ | ⟨hd, rfl, _⟩⟩ := AdjacencyList.mem_outEdges.mp h
  · exact ⟨e, hmem, rfl, .inl rfl⟩
  · exact ⟨e₀, hmem, item_flip hd e₀, .inr rfl⟩

/-- The out edges of `v`, as items: those that start in `v` and, in an undirected graph,
    once more those that end in `v`. -/
theorem items_outEdges (g : PgrBaseGraph BasicVertex BasicEdge) (v : Nat) :
    (↑((g.graph.outEdges v).map (item g.graph.directed)) : Multiset Item) =
      ↑((g.graph.edges.filter (·.source = v)).map (item g.graph.directed)) +
      if g.graph.directed then 0
      else ↑((g.graph.edges.filter (·.target = v)).map (item g.graph.directed)) := by
  unfold AdjacencyList.outEdges
  induction g.graph.edges with
  | nil => simp
  | cons e rest ih =>
    rw [List.flatMap_cons, List.map_append, ← Multiset.coe_add, ih]
    cases hd : g.graph.directed <;> by_cases hs : e.source = v <;> by_cases ht : e.target = v <;>
      simp [hs, ht, item_flip rfl, ← Multiset.cons_coe, Multiset.cons_add]

/-- A saved edge of the graph is restored to where it was. -/
theorem savedItem_getEdgeInfo (hg : g.WellFormed) {e : BoostEdge BasicEdge}
    (hs : e.source < g.graph.vertices.length) (ht : e.target < g.graph.vertices.length) :
    g.savedItem (g.getEdgeInfo e) = item g.graph.directed e := by
  have hs' := hg.ids _ _ (List.getElem?_eq_getElem hs)
  have ht' := hg.ids _ _ (List.getElem?_eq_getElem ht)
  simp [savedItem, getEdgeInfo, item, hs, ht, hs', ht']

theorem savedItem_outEdge (hg : g.WellFormed) {e : BoostEdge BasicEdge}
    (h : e ∈ g.graph.outEdges u) :
    g.savedItem (g.getEdgeInfo e) = item g.graph.directed e := by
  obtain ⟨e₀, hmem, -, rfl | rfl⟩ := exists_item_of_mem_outEdges h
  · exact savedItem_getEdgeInfo hg (hg.ends e hmem).1 (hg.ends e hmem).2
  · exact savedItem_getEdgeInfo hg (hg.ends e₀ hmem).2 (hg.ends e₀ hmem).1

/-! ## The effect of each call on the pool -/

/-- The items of the edges that satisfy `p`. -/
def itemsOf (g : PgrBaseGraph BasicVertex BasicEdge) (p : BoostEdge BasicEdge → Bool) :
    Multiset Item :=
  ↑((g.graph.edges.filter p).map (item g.graph.directed))

theorem itemsOf_add_not (g : PgrBaseGraph BasicVertex BasicEdge)
    (p : BoostEdge BasicEdge → Bool) :
    g.itemsOf p + g.itemsOf (fun e => !p e) = g.edgeMultiset := by
  unfold itemsOf edgeMultiset
  rw [Multiset.coe_add, ← List.map_append, Multiset.coe_eq_coe]
  exact (List.filter_append_perm p g.graph.edges).map _

/-- A call that changes neither the vertices nor the kind of the graph changes the pool
    through the two lists of edges only. -/
theorem pool_eq {g' : PgrBaseGraph BasicVertex BasicEdge}
    (hd : g'.graph.directed = g.graph.directed) (hm : g'.verticesMap = g.verticesMap) :
    g'.pool = ↑(g'.graph.edges.map (item g.graph.directed)) +
      ↑(g'.removedEdges.map g.savedItem) := by
  have hs : g'.savedItem = g.savedItem := by
    funext b
    simp only [savedItem, hd, hm]
  simp only [pool, edgeMultiset, hs, hd]

/-- The edge that `disconnect_edge` saves is one of those it removes, if there is any. -/
theorem find_outEdges_joins (g : PgrBaseGraph BasicVertex BasicEdge) (u v : Nat) :
    match (g.graph.outEdges u).find? (·.target = v) with
    | none => g.graph.edges.filter (g.graph.joins u v) = []
    | some e => e ∈ g.graph.outEdges u ∧
        item g.graph.directed e ∈ g.itemsOf (g.graph.joins u v) := by
  split
  next hnone =>
    rw [List.find?_eq_none] at hnone
    rw [List.filter_eq_nil_iff]
    intro e he hj
    simp only [AdjacencyList.joins, Bool.or_eq_true, Bool.and_eq_true, beq_iff_eq,
      Bool.not_eq_true'] at hj
    obtain ⟨hs, ht⟩ | ⟨⟨hd, hs⟩, ht⟩ := hj
    · exact hnone e (AdjacencyList.mem_outEdges.mpr ⟨e, he, .inl ⟨rfl, hs⟩⟩) (by simp [ht])
    · exact hnone e.flip (AdjacencyList.mem_outEdges.mpr ⟨e, he, .inr ⟨hd, rfl, ht⟩⟩)
        (by simp [BoostEdge.flip, hs])
  next e hsome =>
    have hmem := List.mem_of_find?_eq_some hsome
    have htgt : e.target = v := by simpa using List.find?_some hsome
    refine ⟨hmem, ?_⟩
    obtain ⟨e₀, he₀, ⟨rfl, hs⟩ | ⟨hd, rfl, ht⟩⟩ := AdjacencyList.mem_outEdges.mp hmem
    · exact List.mem_map.mpr ⟨e, List.mem_filter.mpr ⟨he₀, by
        simp [AdjacencyList.joins, hs, htgt]⟩, rfl⟩
    · exact List.mem_map.mpr ⟨e₀, List.mem_filter.mpr ⟨he₀, by
        simp [AdjacencyList.joins, hd, ht, show e₀.source = v from htgt]⟩, (item_flip hd e₀).symm⟩

/-- `disconnect_edge` keeps of the edges it removes the first one it meets. -/
theorem pool_disconnectEdge_find (hg : g.WellFormed) {pFrom pTo : Int}
    (hu : g.verticesMap pFrom = some u) (hv : g.verticesMap pTo = some v) :
    (g.disconnectEdge pFrom pTo).pool + g.itemsOf (g.graph.joins u v) = g.pool +
      ↑(((g.graph.outEdges u).find? (·.target = v)).map (item g.graph.directed)).toList := by
  have hfind := find_outEdges_joins g u v
  have hsplit := itemsOf_add_not g (g.graph.joins u v)
  rw [pool_eq (g := g) (by simp only [disconnectEdge, hu, hv]; rfl)
    (by simp only [disconnectEdge, hu, hv])]
  simp only [disconnectEdge, hu, hv, pool, ← hsplit]
  cases hf : (g.graph.outEdges u).find? (·.target = v) with
  | none =>
    rw [hf] at hfind
    have hzero : g.itemsOf (g.graph.joins u v) = 0 := by simp [itemsOf, hfind]
    simp only [hzero, Option.map_none, Option.toList, List.append_nil]
    simp [itemsOf, AdjacencyList.removeEdge]
  | some e =>
    rw [hf] at hfind
    simp only [itemsOf, AdjacencyList.removeEdge, Option.map_some, Option.toList,
      List.map_append, ← Multiset.coe_add, List.map_cons, List.map_nil,
      Multiset.coe_singleton, savedItem_outEdge hg hfind.1]
    abel

/-- `disconnect_edge` keeps of the edges it removes at most one, `first`. -/
theorem pool_disconnectEdge (hg : g.WellFormed) {pFrom pTo : Int}
    (hu : g.verticesMap pFrom = some u) (hv : g.verticesMap pTo = some v) :
    ∃ first : Multiset Item, first ≤ g.itemsOf (g.graph.joins u v) ∧ first.card ≤ 1 ∧
      (first = 0 → g.itemsOf (g.graph.joins u v) = 0) ∧
      (g.disconnectEdge pFrom pTo).pool + g.itemsOf (g.graph.joins u v) = g.pool + first := by
  have hfind := find_outEdges_joins g u v
  have hpool := pool_disconnectEdge_find hg hu hv
  cases hf : (g.graph.outEdges u).find? (·.target = v) with
  | none =>
    rw [hf] at hfind hpool
    have hzero : g.itemsOf (g.graph.joins u v) = 0 := by simp [itemsOf, hfind]
    exact ⟨0, Multiset.zero_le _, by simp, fun _ => hzero, hpool⟩
  | some e =>
    rw [hf] at hfind hpool
    exact ⟨{item g.graph.directed e}, Multiset.singleton_le.mpr hfind.2, by simp,
      fun h => absurd h (Multiset.singleton_ne_zero _), hpool⟩

/-- The self-loops at `v`. -/
def isLoopAt (v : Nat) (e : BoostEdge BasicEdge) : Bool := e.source = v ∧ e.target = v

/-- `disconnect_vertex` saves the self-loops of the vertex twice. -/
theorem pool_disconnectVertex (hg : g.WellFormed) {vid : Int} (hv : g.verticesMap vid = some v) :
    (g.disconnectVertex vid).pool = g.pool + g.itemsOf (isLoopAt v) := by
  have hout : (g.graph.outEdges v).map (g.savedItem ∘ g.getEdgeInfo) =
      (g.graph.outEdges v).map (item g.graph.directed) :=
    List.map_congr_left fun e he => savedItem_outEdge hg he
  have hin : (g.graph.edges.filter (·.target = v)).map (g.savedItem ∘ g.getEdgeInfo) =
      (g.graph.edges.filter (·.target = v)).map (item g.graph.directed) := by
    refine List.map_congr_left fun e he => ?_
    have hmem := List.mem_of_mem_filter he
    exact savedItem_getEdgeInfo hg (hg.ends e hmem).1 (hg.ends e hmem).2
  -- Directed or not, the edges that start in `v` and those that end in `v` are saved.
  have hsaved : ((g.disconnectVertex vid).removedEdges.map g.savedItem : Multiset Item) =
      ↑(g.removedEdges.map g.savedItem) +
        (g.itemsOf (·.source = v) + g.itemsOf (·.target = v)) := by
    simp only [disconnectVertex, hv, List.map_append, List.map_map, hout, ← Multiset.coe_add,
      items_outEdges]
    cases hd : g.graph.directed
    · simp [itemsOf, hd]
    · simp [itemsOf, hd, AdjacencyList.inEdges, hin]
  -- Those edges are the removed ones and, once more, the self-loops.
  have hboth : g.itemsOf (·.source = v) + g.itemsOf (·.target = v) =
      g.itemsOf (fun e => !decide (e.source ≠ v ∧ e.target ≠ v)) + g.itemsOf (isLoopAt v) := by
    unfold itemsOf isLoopAt
    induction g.graph.edges with
    | nil => rfl
    | cons e rest ih =>
      by_cases hs : e.source = v <;> by_cases ht : e.target = v <;>
        simp_all [← Multiset.cons_coe, Multiset.cons_add, Multiset.add_cons]
  have hsplit := itemsOf_add_not g (fun e => decide (e.source ≠ v ∧ e.target ≠ v))
  have hedges : (g.disconnectVertex vid).edgeMultiset =
      g.itemsOf (fun e => decide (e.source ≠ v ∧ e.target ≠ v)) := by
    simp [disconnectVertex, hv, edgeMultiset, itemsOf, AdjacencyList.clearVertex]
  have hitem : (g.disconnectVertex vid).savedItem = g.savedItem := by
    simp only [disconnectVertex, hv]; rfl
  unfold pool
  rw [hitem, hsaved, hboth, hedges, ← hsplit]
  abel

/-- What `disconnect_out_going_edge` finds is an edge of the list, possibly seen from its
    other end. -/
theorem findOutGoing_some {eid : Int} {edges : List (BoostEdge BasicEdge)} {k i : Nat}
    {out : BoostEdge BasicEdge} (h : g.findOutGoing v eid edges k = some (i, out)) :
    ∃ e₀, k ≤ i ∧ edges[i - k]? = some e₀ ∧ item g.graph.directed out = item g.graph.directed e₀ ∧
      (out = e₀ ∨ out = e₀.flip) := by
  induction edges generalizing k with
  | nil => simp only [findOutGoing] at h; cases h
  | cons e rest ih =>
    simp only [findOutGoing] at h
    split at h
    · obtain ⟨rfl, rfl⟩ := Prod.mk.inj (Option.some.inj h)
      exact ⟨e, le_refl _, by simp, rfl, .inl rfl⟩
    · split at h
      · rename_i hc
        obtain ⟨rfl, rfl⟩ := Prod.mk.inj (Option.some.inj h)
        exact ⟨e, le_refl _, by simp, item_flip (by simpa using hc.2.1) e, .inr rfl⟩
      · obtain ⟨e₀, hle, hget, hitem, hor⟩ := ih h
        refine ⟨e₀, by omega, ?_, hitem, hor⟩
        rw [show i - k = (i - (k + 1)) + 1 by omega, List.getElem?_cons_succ]
        exact hget

/-! ## What every call keeps -/

/-- `g'` arises from `g` by moving edges to the saved ones: it has the same vertices and
    no other edges. -/
structure Disconnects (g g' : PgrBaseGraph BasicVertex BasicEdge) : Prop where
  directed : g'.graph.directed = g.graph.directed
  vertices : g'.graph.vertices = g.graph.vertices
  map : g'.verticesMap = g.verticesMap
  edges : g'.graph.edges ⊆ g.graph.edges
  saved : ∀ b ∈ g'.removedEdges, b ∈ g.removedEdges ∨
    ∃ e ∈ g.graph.edges, b = g.getEdgeInfo e ∨ b = g.getEdgeInfo e.flip

theorem Disconnects.refl (g : PgrBaseGraph BasicVertex BasicEdge) : Disconnects g g :=
  ⟨rfl, rfl, rfl, fun _ h => h, fun _ h => .inl h⟩

theorem Disconnects.trans {g₁ g₂ g₃ : PgrBaseGraph BasicVertex BasicEdge}
    (h : Disconnects g₁ g₂) (h' : Disconnects g₂ g₃) : Disconnects g₁ g₃ := by
  refine ⟨h'.directed.trans h.directed, h'.vertices.trans h.vertices, h'.map.trans h.map,
    fun e he => h.edges (h'.edges he), fun b hb => ?_⟩
  have hinfo : g₂.getEdgeInfo = g₁.getEdgeInfo := by
    funext e
    simp only [getEdgeInfo, h.vertices]
  obtain hb | ⟨e, he, hb⟩ := h'.saved b hb
  · exact h.saved b hb
  · rw [hinfo] at hb
    exact .inr ⟨e, h.edges he, hb⟩

theorem Disconnects.wellFormed {g' : PgrBaseGraph BasicVertex BasicEdge} (h : Disconnects g g')
    (hg : g.WellFormed) : g'.WellFormed := by
  refine ⟨?_, ?_, fun e he => hg.costs e (h.edges he), ?_⟩
  · rw [h.vertices]
    exact fun e he => hg.ends e (h.edges he)
  · rw [h.vertices, h.map]
    exact hg.ids
  · rw [h.map]
    intro b hb
    have known : ∀ e : BoostEdge BasicEdge, e.source < g.graph.vertices.length →
        e.target < g.graph.vertices.length → (g.verticesMap (g.getEdgeInfo e).source).isSome ∧
          (g.verticesMap (g.getEdgeInfo e).target).isSome := by
      intro e hs ht
      have hs' := hg.ids _ _ (List.getElem?_eq_getElem hs)
      have ht' := hg.ids _ _ (List.getElem?_eq_getElem ht)
      simp [getEdgeInfo, hs, ht, hs', ht']
    obtain hb | ⟨e, he, rfl | rfl⟩ := h.saved b hb
    · exact hg.saved b hb
    · exact ⟨hg.costs e he, known e (hg.ends e he).1 (hg.ends e he).2⟩
    · exact ⟨hg.costs e he, known e.flip (hg.ends e he).2 (hg.ends e he).1⟩

/-- A round of `disconnect_out_going_edge`. -/
private theorem disconnects_eraseIdx {eid : Int} {i : Nat} {out : BoostEdge BasicEdge}
    (h : g.findOutGoing v eid g.graph.edges 0 = some (i, out)) :
    Disconnects g { g with
      graph := { g.graph with edges := g.graph.edges.eraseIdx i }
      removedEdges := g.removedEdges ++ [g.getEdgeInfo out] } := by
  obtain ⟨e₀, _, hget, -, hor⟩ := findOutGoing_some h
  refine ⟨rfl, rfl, rfl, (List.eraseIdx_sublist _ _).subset, fun b hb => ?_⟩
  rw [List.mem_append, List.mem_singleton] at hb
  obtain hb | rfl := hb
  · exact .inl hb
  · refine .inr ⟨e₀, List.mem_of_getElem? hget, ?_⟩
    obtain rfl | rfl := hor
    · exact .inl rfl
    · exact .inr rfl

theorem disconnectOutGoingLoop_spec (eid : Int) (n : Nat) (hg : g.WellFormed) :
    Disconnects g (disconnectOutGoingLoop v eid n g) ∧
      (disconnectOutGoingLoop v eid n g).pool = g.pool := by
  induction n generalizing g with
  | zero => exact ⟨.refl g, rfl⟩
  | succ n ih =>
    simp only [disconnectOutGoingLoop]
    split
    · exact ⟨.refl g, rfl⟩
    · rename_i i out hfind
      have hstep := disconnects_eraseIdx hfind
      obtain ⟨hd, hp⟩ := ih (hstep.wellFormed hg)
      refine ⟨hstep.trans hd, hp.trans ?_⟩
      obtain ⟨e₀, _, hget, hitem, hor⟩ := findOutGoing_some hfind
      rw [Nat.sub_zero] at hget
      have hsaved : g.savedItem (g.getEdgeInfo out) = item g.graph.directed e₀ := by
        have hends := hg.ends e₀ (List.mem_of_getElem? hget)
        rw [← hitem]
        obtain rfl | rfl := hor
        · exact savedItem_getEdgeInfo hg hends.1 hends.2
        · exact savedItem_getEdgeInfo hg hends.2 hends.1
      -- The erased edge turns up among the saved ones.
      obtain ⟨hi, rfl⟩ := List.getElem?_eq_some_iff.mp hget
      have hperm : (↑(g.graph.edges.map (item g.graph.directed)) : Multiset Item) =
          ↑((g.graph.edges.eraseIdx i).map (item g.graph.directed)) +
            {item g.graph.directed g.graph.edges[i]} := by
        rw [add_comm, Multiset.singleton_add, Multiset.cons_coe, Multiset.coe_eq_coe]
        exact ((List.getElem_cons_eraseIdx_perm hi).map _).symm
      refine (pool_eq hstep.directed hstep.map).trans ?_
      simp only [pool, edgeMultiset, hperm, List.map_append, List.map_cons, List.map_nil,
        ← Multiset.coe_add, Multiset.coe_singleton, hsaved]
      abel

/-- Every call moves edges to the saved ones. -/
theorem disconnects_disconnect (hg : g.WellFormed) (op : Disconnect) :
    Disconnects g (g.disconnect op) := by
  -- What is saved is what an edge of the graph looks like from one of its ends.
  have hout : ∀ (u : Nat) (e : BoostEdge BasicEdge), e ∈ g.graph.outEdges u →
      ∃ e₀ ∈ g.graph.edges, g.getEdgeInfo e = g.getEdgeInfo e₀ ∨
        g.getEdgeInfo e = g.getEdgeInfo e₀.flip := by
    intro u e he
    obtain ⟨e₀, hmem, -, rfl | rfl⟩ := exists_item_of_mem_outEdges he
    · exact ⟨e, hmem, .inl rfl⟩
    · exact ⟨e₀, hmem, .inr rfl⟩
  cases op with
  | edge pFrom pTo =>
    simp only [disconnect, disconnectEdge]
    split
    · rename_i u v _ _
      refine ⟨rfl, rfl, rfl, List.filter_sublist.subset, fun b hb => ?_⟩
      rw [List.mem_append] at hb
      obtain hb | hb := hb
      · exact .inl hb
      · simp only [Option.mem_toList, Option.map_eq_some_iff] at hb
        obtain ⟨e, hfind, rfl⟩ := hb
        exact .inr (hout u e (List.mem_of_find?_eq_some hfind))
    · exact .refl g
  | outGoingEdge vid eid =>
    simp only [disconnect, disconnectOutGoingEdge]
    split
    · exact (disconnectOutGoingLoop_spec eid _ hg).1
    · exact .refl g
  | vertex vid =>
    simp only [disconnect, disconnectVertex]
    split
    · rename_i v _
      refine ⟨rfl, rfl, rfl, List.filter_sublist.subset, fun b hb => ?_⟩
      simp only [List.mem_append, List.mem_map] at hb
      obtain (hb | ⟨e, he, rfl⟩) | hb := hb
      · exact .inl hb
      · exact .inr (hout v e he)
      · split at hb
        · rename_i hd
          obtain ⟨e, he, rfl⟩ := List.mem_map.mp hb
          simp only [AdjacencyList.inEdges, hd, if_true] at he
          exact .inr ⟨e, List.mem_of_mem_filter he, .inl rfl⟩
        · cases hb
    · exact .refl g

/-! ## Calls that do not save exactly what they remove -/

/-- The item is a self-loop at `w`. -/
def LoopItem (w : Nat) (x : Item) : Prop := x.2.1 = (w, w)

/-- No self-loop at `w` is left in the graph. -/
def LoopFree (g : PgrBaseGraph BasicVertex BasicEdge) (w : Nat) : Prop :=
  ∀ e ∈ g.graph.edges, ¬ (e.source = w ∧ e.target = w)

theorem endVertices_eq_loop {directed : Bool} {a b w : Nat}
    (h : endVertices directed a b = (w, w)) : a = w ∧ b = w := by
  unfold endVertices at h
  split at h
  · exact Prod.mk.inj h
  · obtain ⟨h₁, h₂⟩ := Prod.mk.inj h
    omega

/-- The items of edges between `u` and `v` have the end vertices of these. -/
theorem ends_of_mem_joins {x : Item} (h : x ∈ g.itemsOf (g.graph.joins u v)) :
    x.2.1 = endVertices g.graph.directed u v := by
  obtain ⟨e, he, rfl⟩ := List.mem_map.mp (Multiset.mem_coe.mp h)
  have hj := (List.mem_filter.mp he).2
  simp only [AdjacencyList.joins, Bool.or_eq_true, Bool.and_eq_true, beq_iff_eq,
    Bool.not_eq_true'] at hj
  obtain ⟨rfl, rfl⟩ | ⟨⟨hd, rfl⟩, rfl⟩ := hj
  · rfl
  · exact endVertices_comm hd _ _

/-- The pool after a call, in terms of the pool before: `lost` items have been removed
    without being saved, `doubled` ones have been saved twice. -/
theorem pool_disconnect (hg : g.WellFormed) (op : Disconnect) :
    ∃ lost doubled : Multiset Item, (g.disconnect op).pool + lost = g.pool + doubled ∧
      (lost = 0 ∨ doubled = 0) ∧
      (g.SavesExactly op ↔ lost = 0 ∧ doubled = 0) ∧
      (∀ x ∈ lost, ∀ w, LoopItem w x → (g.disconnect op).LoopFree w ∧ ¬ g.LoopFree w) ∧
      (∀ x ∈ doubled, ∃ w, LoopItem w x ∧ (g.disconnect op).LoopFree w ∧ ¬ g.LoopFree w) := by
  cases op with
  | outGoingEdge vid eid =>
    refine ⟨0, 0, ?_, .inl rfl, by simp [SavesExactly], by simp, by simp⟩
    simp only [disconnect, disconnectOutGoingEdge, add_zero]
    split
    · exact (disconnectOutGoingLoop_spec eid _ hg).2
    · rfl
  | edge pFrom pTo =>
    by_cases hboth : ∃ u v, g.verticesMap pFrom = some u ∧ g.verticesMap pTo = some v
    · obtain ⟨u, v, hu, hv⟩ := hboth
      -- All edges that join the two are removed, and at most one of them is saved.
      obtain ⟨first, hle, hcard, hzero, hpool⟩ := pool_disconnectEdge hg hu hv
      obtain ⟨lost, hlost⟩ := Multiset.le_iff_exists_add.mp hle
      refine ⟨lost, 0, ?_, .inr rfl, ?_, ?_, by simp⟩
      · rw [hlost, ← add_assoc, add_right_comm] at hpool
        simpa [disconnect] using hpool
      · have hlen : (g.itemsOf (g.graph.joins u v)).card =
            (g.graph.edges.filter (g.graph.joins u v)).length := by simp [itemsOf]
        have hsum : (g.itemsOf (g.graph.joins u v)).card = first.card + lost.card := by
          rw [hlost, Multiset.card_add]
        have hiff : g.SavesExactly (.edge pFrom pTo) ↔
            (g.itemsOf (g.graph.joins u v)).card ≤ 1 := by
          rw [hlen]
          simp [SavesExactly, hu, hv]
        rw [hiff, and_iff_left rfl, hsum, ← Multiset.card_eq_zero]
        constructor
        · intro hone
          by_cases hf : first = 0
          · rw [← hsum, hzero hf, Multiset.card_zero] at hone
            have := hzero hf
            rw [hlost, hf, zero_add] at this
            rw [this, Multiset.card_zero]
          · have := Multiset.card_pos.mpr hf
            omega
        · omega
      · -- An edge that is lost is a loop only if both ends are the same vertex, which has no loop
        -- afterwards.
        intro x hx w hw
        have hends := ends_of_mem_joins (u := u) (v := v) (hlost ▸ Multiset.mem_add.mpr (.inr hx))
        obtain ⟨rfl, rfl⟩ := endVertices_eq_loop (hends.symm.trans hw)
        have hmem : x ∈ g.itemsOf (g.graph.joins v v) := hlost ▸ Multiset.mem_add.mpr (.inr hx)
        obtain ⟨e, he, -⟩ := List.mem_map.mp (Multiset.mem_coe.mp hmem)
        rw [List.mem_filter] at he
        have hloop : e.source = v ∧ e.target = v := by
          obtain h | ⟨⟨_, hs⟩, ht⟩ : (e.source = v ∧ e.target = v) ∨
              (g.graph.directed = false ∧ e.source = v) ∧ e.target = v := by
            simpa [AdjacencyList.joins] using he.2
          · exact h
          · exact ⟨hs, ht⟩
        refine ⟨fun e' he' hloop => ?_, fun hfree => hfree e he.1 hloop⟩
        simp only [disconnect, disconnectEdge, hu, hv, AdjacencyList.removeEdge,
          List.mem_filter, AdjacencyList.joins] at he'
        simp [hloop.1, hloop.2] at he'
    · refine ⟨0, 0, ?_, .inl rfl, ?_, by simp, by simp⟩
      · simp only [disconnect, disconnectEdge]
        split
        · exact absurd ⟨_, _, ‹_›, ‹_›⟩ hboth
        · rfl
      · simp only [SavesExactly, and_self, iff_true]
        exact fun u v hu hv => absurd ⟨u, v, hu, hv⟩ hboth
  | vertex vid =>
    cases hv : g.verticesMap vid with
    | none =>
      refine ⟨0, 0, ?_, .inl rfl, by simp [SavesExactly, hv], by simp, by simp⟩
      simp only [disconnect, disconnectVertex, hv]
    | some v =>
      refine ⟨0, g.itemsOf (isLoopAt v), ?_, .inl rfl, ?_, by simp, ?_⟩
      · -- A loop is an out edge twice, and an in edge as well: it is saved once too often.
        rw [add_zero]
        exact pool_disconnectVertex hg hv
      · simp [SavesExactly, hv, itemsOf, isLoopAt, List.filter_eq_nil_iff]
      · intro x hx
        obtain ⟨e, he, rfl⟩ := List.mem_map.mp (Multiset.mem_coe.mp hx)
        have hloop : e.source = v ∧ e.target = v := by
          simpa [isLoopAt] using (List.mem_filter.mp he).2
        refine ⟨v, ?_, fun e' he' => ?_, fun hfree => hfree e (List.mem_of_mem_filter he) hloop⟩
        · simp [LoopItem, item, hloop.1, hloop.2, endVertices]
        · simp only [disconnect, disconnectVertex, hv, AdjacencyList.clearVertex,
            List.mem_filter, decide_eq_true_eq] at he'
          exact fun h => he'.2.1 h.1

/-! ## Runs -/

/-- Perform the calls of a sequence. -/
def disconnectAll (g : PgrBaseGraph BasicVertex BasicEdge) (ops : List Disconnect) :
    PgrBaseGraph BasicVertex BasicEdge :=
  ops.foldl disconnect g

theorem disconnects_disconnectAll (hg : g.WellFormed) (ops : List Disconnect) :
    Disconnects g (g.disconnectAll ops) := by
  induction ops generalizing g with
  | nil => exact .refl g
  | cons op ops ih =>
    have hstep := disconnects_disconnect hg op
    exact hstep.trans (ih (hstep.wellFormed hg))

/-- Once no self-loop is left at `w`, the number of these in the pool stays the same. -/
theorem count_pool_of_loopFree {x : Item} {w : Nat} (hx : LoopItem w x) (hg : g.WellFormed)
    (hfree : g.LoopFree w) (ops : List Disconnect) :
    (g.disconnectAll ops).pool.count x = g.pool.count x := by
  induction ops generalizing g with
  | nil => rfl
  | cons op ops ih =>
    obtain ⟨lost, doubled, hpool, _, _, hlost, hdoubled⟩ := pool_disconnect hg op
    have hstep := disconnects_disconnect hg op
    have hl : lost.count x = 0 := Multiset.count_eq_zero_of_notMem fun hmem =>
      (hlost x hmem w hx).2 hfree
    have hd : doubled.count x = 0 := Multiset.count_eq_zero_of_notMem fun hmem => by
      obtain ⟨w', hw', _, hnot⟩ := hdoubled x hmem
      obtain rfl : w' = w := (Prod.mk.inj (hw'.symm.trans hx)).1
      exact hnot hfree
    have hcount := congrArg (Multiset.count x) hpool
    rw [Multiset.count_add, Multiset.count_add, hl, hd] at hcount
    exact (ih (hstep.wellFormed hg) fun e he => hfree e (hstep.edges he)).trans hcount

/-- An edge that is no self-loop never gets more frequent in the pool. -/
theorem count_pool_le {x : Item} (hx : ∀ w, ¬ LoopItem w x) (hg : g.WellFormed)
    (ops : List Disconnect) : (g.disconnectAll ops).pool.count x ≤ g.pool.count x := by
  induction ops generalizing g with
  | nil => exact le_refl _
  | cons op ops ih =>
    obtain ⟨lost, doubled, hpool, _, _, _, hdoubled⟩ := pool_disconnect hg op
    have hd : doubled.count x = 0 := Multiset.count_eq_zero_of_notMem fun hmem => by
      obtain ⟨w, hw, _⟩ := hdoubled x hmem
      exact hx w hw
    have hcount := congrArg (Multiset.count x) hpool
    rw [Multiset.count_add, Multiset.count_add, hd] at hcount
    have := ih ((disconnects_disconnect hg op).wellFormed hg)
    simp only [disconnectAll, List.foldl_cons] at this ⊢
    omega

/-- A call that does not save exactly what it removes spoils the pool for good. -/
theorem pool_ne_of_not_savesExactly (hg : g.WellFormed) {op : Disconnect}
    (hnot : ¬ g.SavesExactly op) (ops : List Disconnect) :
    (g.disconnectAll (op :: ops)).pool ≠ g.pool := by
  obtain ⟨lost, doubled, hpool, hone, hiff, hlost, hdoubled⟩ := pool_disconnect hg op
  have hg' := (disconnects_disconnect hg op).wellFormed hg
  simp only [disconnectAll, List.foldl_cons]
  intro heq
  rw [hiff] at hnot
  obtain rfl | rfl := hone
  · -- Some self-loop has been doubled, and none of its kind is left to be lost.
    obtain ⟨x, hx⟩ := Multiset.exists_mem_of_ne_zero fun h => hnot ⟨rfl, h⟩
    obtain ⟨w, hw, hfree, _⟩ := hdoubled x hx
    have hsame := count_pool_of_loopFree hw hg' hfree ops
    simp only [disconnectAll, heq] at hsame
    rw [add_zero] at hpool
    rw [hpool, Multiset.count_add] at hsame
    have := Multiset.count_pos.mpr hx
    omega
  · -- Some edge has been lost; it could come back as a doubled self-loop only.
    obtain ⟨x, hx⟩ := Multiset.exists_mem_of_ne_zero fun h => hnot ⟨h, rfl⟩
    have hpos := Multiset.count_pos.mpr hx
    have hcount := congrArg (Multiset.count x) hpool
    rw [Multiset.count_add, add_zero] at hcount
    have hle : g.pool.count x ≤ (g.disconnect op).pool.count x := by
      by_cases hloop : ∃ w, LoopItem w x
      · obtain ⟨w, hw⟩ := hloop
        have hsame := count_pool_of_loopFree hw hg' (hlost x hx w hw).1 ops
        simp only [disconnectAll, heq] at hsame
        omega
      · have hmono := count_pool_le (fun w hw => hloop ⟨w, hw⟩) hg' ops
        simp only [disconnectAll, heq] at hmono
        exact hmono
    omega

/-- The pool survives a sequence exactly when every call saves what it removes. -/
theorem pool_disconnectAll (hg : g.WellFormed) (ops : List Disconnect) :
    (g.disconnectAll ops).pool = g.pool ↔ g.AllSaveExactly ops := by
  induction ops generalizing g with
  | nil => exact ⟨fun _ => trivial, fun _ => rfl⟩
  | cons op ops ih =>
    by_cases hsave : g.SavesExactly op
    · obtain ⟨lost, doubled, hpool, _, hiff, _, _⟩ := pool_disconnect hg op
      obtain ⟨rfl, rfl⟩ := hiff.mp hsave
      rw [add_zero, add_zero] at hpool
      have := ih ((disconnects_disconnect hg op).wellFormed hg)
      simpa only [AllSaveExactly, hsave, true_and, ← hpool, disconnectAll, List.foldl_cons]
        using this
    · exact ⟨fun h => absurd h (pool_ne_of_not_savesExactly hg hsave ops),
        fun h => absurd h.1 hsave⟩

/-! ## Restoring -/

/-- Restoring saved edges adds their items. -/
theorem edgeMultiset_restoreEdges (saved : List BasicEdge)
    (hsaved : ∀ b ∈ saved, 0 ≤ b.cost ∧ (g.verticesMap b.source).isSome ∧
      (g.verticesMap b.target).isSome) :
    (saved.foldl (fun g edge => g.restoreEdge edge) g).edgeMultiset =
      g.edgeMultiset + ↑(saved.map g.savedItem) := by
  induction saved generalizing g with
  | nil => simp
  | cons b rest ih =>
    obtain ⟨hcost, hs, ht⟩ := hsaved b List.mem_cons_self
    obtain ⟨u, hu⟩ := Option.isSome_iff_exists.mp hs
    obtain ⟨v, hv⟩ := Option.isSome_iff_exists.mp ht
    have hstep : g.restoreEdge b = g.addNew u v b.id b.cost := by
      simp only [restoreEdge, hu, hv, hcost, if_true]
    have hitem : (g.addNew u v b.id b.cost).savedItem = g.savedItem := rfl
    have hmul : (g.addNew u v b.id b.cost).edgeMultiset =
        g.edgeMultiset + {g.savedItem b} := by
      simp [edgeMultiset, addNew, AdjacencyList.addEdge, item, savedItem, hu, hv, TEdge.ofIdCost,
        ← Multiset.coe_add]
    rw [List.foldl_cons, hstep, ih (g := g.addNew u v b.id b.cost)
        fun b' hb' => hsaved b' (List.mem_cons_of_mem _ hb'), hitem, hmul, List.map_cons,
      add_assoc, ← Multiset.cons_coe, Multiset.singleton_add]

/-- Restoring turns the pool into the edges of the graph. -/
theorem edgeMultiset_restoreGraph (hg : g.WellFormed) :
    g.restoreGraph.edgeMultiset = g.pool :=
  edgeMultiset_restoreEdges g.removedEdges hg.saved

/-- **Round trip.** After any sequence of disconnections of a graph that has no saved edges,
    `restore_graph` brings back the multiset of edges and leaves no saved edge, exactly when
    every `disconnect_edge` met at most one edge between its vertices and every
    `disconnect_vertex` a vertex without self-loops. -/
theorem restoreGraph_roundTrip_iff (hg : g.WellFormed) (hsaved : g.removedEdges = [])
    (ops : List Disconnect) :
    ((g.disconnectAll ops).restoreGraph.edgeMultiset = g.edgeMultiset ∧
      (g.disconnectAll ops).restoreGraph.removedEdges = []) ↔ g.AllSaveExactly ops := by
  have hpool : g.pool = g.edgeMultiset := by simp [pool, hsaved]
  rw [edgeMultiset_restoreGraph ((disconnects_disconnectAll hg ops).wellFormed hg), ← hpool,
    pool_disconnectAll hg ops]
  exact and_iff_left rfl

/-- Three rows without parallel edges and self-loops: disconnecting an edge, the out edges
    with a given id and a vertex is undone. -/
theorem restoreGraph_roundTrip_iff_triangle :
    let g := ofTable true [⟨1, 1, 2, 1, 1⟩, ⟨2, 2, 3, 1, -1⟩, ⟨3, 3, 1, 2, 1⟩]
    let ops := [.edge 1 2, .outGoingEdge 2 2, .vertex 3]
    (g.disconnectAll ops).restoreGraph.edgeMultiset = g.edgeMultiset ∧
      (g.disconnectAll ops).restoreGraph.removedEdges = [] :=
  (restoreGraph_roundTrip_iff (ofTable_wellFormed true _) (ofTable_removedEdges true _) _).mpr
    (by decide +kernel)

/-- Disconnecting two parallel edges loses one of them; disconnecting a vertex with a
    self-loop restores the self-loop twice. -/
theorem restoreGraph_not_roundTrip :
    (let g := ofTable true [⟨1, 1, 2, 1, -1⟩, ⟨2, 1, 2, 2, -1⟩];
      (g.disconnectAll [.edge 1 2]).restoreGraph.edgeMultiset ≠ g.edgeMultiset) ∧
    (let g := ofTable true [⟨1, 1, 1, 1, -1⟩];
      (g.disconnectAll [.vertex 1]).restoreGraph.edgeMultiset ≠ g.edgeMultiset) := by
  constructor
  · intro g h
    exact absurd (congrArg Multiset.card h) (by decide +kernel)
  · intro g h
    exact absurd (congrArg Multiset.card h) (by decide +kernel)

end PgrBaseGraph

end PgRouting
