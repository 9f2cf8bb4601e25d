import PgRouting.Spec.FlowGraph

/-!
# The flow of edge disjoint paths

Between one source and one sink, where every row has a capacity of at most one, as many rows carry
the flow into a vertex as out of it. None carries it into the source, and the rows that carry it out
of the source are as many as the flow.

## Key results

- `UnitFlow.balanced`, `UnitFlow.not_into_source`, `UnitFlow.card_outArcs`
- `UnitFlow.net_rowFlow`: what the rows carry out of a vertex is a number of edges
-/

namespace PgRouting

namespace PgrFlowGraph

open Multigraph FlowNetwork

variable {g : PgrFlowGraph} {residual : g.E → Int} {ids : Identifiers Int} {rows : List EdgePair}
  {a b x : Int} {v : Nat} {e : g.E}

/-- What a run of an augmenting path algorithm of Boost leaves: the flow has been built up along
    paths, no path is left, and its value is returned. -/
structure Documented (g : PgrFlowGraph) (r : (g.E → Int) × Int) : Prop where
  augmented : g.network.Augmented g.capacity g.supersource g.supersink (g.flow r.1)
  maximal : ¬ Relation.ReflTransGen (g.network.Residual g.capacity (g.flow r.1)) g.supersource
    g.supersink
  value : r.2 = g.network.net (g.flow r.1) g.supersource

/-- A flow between two vertices, of at most one on the edges of the rows. -/
structure UnitFlow (g : PgrFlowGraph) (residual : g.E → Int) (ids : Identifiers Int) (a b : Int)
    (rows : List EdgePair) : Prop where
  shape : Shape g ids (.add .empty a) (.add .empty b) rows
  ne : a ≠ b
  unit : ∀ pair ∈ rows, pair.capacity ≤ 1 ∧ pair.reverseCapacity ≤ 1
  augmented : g.network.Augmented g.capacity g.supersource g.supersink (g.flow residual)

theorem mem_singleton {y : Int} : x ∈ Identifiers.empty.add y ↔ x = y := by simp

/-! ## The edges -/

theorem get_cases {p q : EdgePair} (hpairs : g.pairs = p :: q :: rows)
    (i : Fin g.pairs.length) :
    (i.val = 0 ∧ g.pairs.get i = p) ∨ (i.val = 1 ∧ g.pairs.get i = q) ∨
      ∃ k : Fin rows.length, i.val = k.val + 2 ∧ g.pairs.get i = rows.get k := by
  obtain ⟨i, hi⟩ := i
  simp only [List.get_eq_getElem]
  rw [List.getElem_of_eq hpairs]
  rcases i with _ | _ | k
  · exact .inl ⟨rfl, rfl⟩
  · exact .inr (.inl ⟨rfl, rfl⟩)
  · rw [hpairs] at hi
    exact .inr (.inr ⟨⟨k, by simpa using hi⟩, rfl, rfl⟩)

namespace UnitFlow

variable (h : UnitFlow g residual ids a b rows)
include h

theorem pairs : g.pairs = sourcePair ids a :: sinkPair ids b :: rows := h.shape.pairs

theorem source_mem : a ∈ ids := h.shape.sources_mem a (mem_singleton.mpr rfl)

theorem sink_mem : b ∈ ids := h.shape.sinks_mem b (mem_singleton.mpr rfl)

theorem source_ne_sink : vertexOf ids a ≠ vertexOf ids b := fun heq =>
  h.ne (vertexOf_inj h.source_mem heq)

theorem isFlow : g.network.IsFlow g.capacity (g.flow residual) g.supersource g.supersink :=
  h.augmented.isFlow h.shape.capacity_nonneg

/-- The edge from the supersource to the source. -/
def first : g.E := (⟨0, by rw [h.pairs]; simp⟩, false)

theorem source_first : g.source h.first = g.supersource := by
  rw [h.shape.supersource, source, List.get_eq_getElem, List.getElem_of_eq h.pairs]
  rfl

theorem target_first : g.target h.first = vertexOf ids a := by
  rw [target, List.get_eq_getElem, List.getElem_of_eq h.pairs]
  rfl

theorem target_back : g.target (g.rev h.first) = g.supersource := by
  rw [target_rev, h.source_first]

theorem eq_first (he : g.source e = g.supersource) : e = h.first := by
  rw [h.shape.supersource] at he
  have hsource := vertexOf_lt h.source_mem
  have hsink := vertexOf_lt h.sink_mem
  obtain ⟨i, back⟩ := e
  obtain ⟨hi, hget⟩ | ⟨hi, hget⟩ | ⟨k, hi, hget⟩ := get_cases h.pairs i
  · cases back with
    | false => exact Prod.ext (Fin.ext hi) rfl
    | true =>
      have he : (g.pairs.get i).target = ids.ids.length := he
      rw [hget] at he
      exact absurd he hsource.ne
  · cases back with
    | false =>
      have he : (g.pairs.get i).source = ids.ids.length := he
      rw [hget] at he
      exact absurd he hsink.ne
    | true =>
      have he : (g.pairs.get i).target = ids.ids.length := he
      rw [hget] at he
      exact absurd he (Nat.succ_ne_self _)
  · have hrow := h.shape.row_lt (e := (i, back)) (hget ▸ List.get_mem rows k)
    omega

theorem outEdges_supersource : g.outEdges g.supersource = [h.first] := by
  have hnodup := nodup_outEdges (g := g) (v := g.supersource)
  have hmem : ∀ e, e ∈ g.outEdges g.supersource ↔ e ∈ [h.first] := by
    intro e
    rw [mem_outEdges, List.mem_singleton]
    exact ⟨h.eq_first, fun he => he ▸ h.source_first⟩
  exact List.perm_singleton.mp
    ((List.perm_ext_iff_of_nodup hnodup (List.nodup_singleton _)).mpr hmem)

/-- An edge out of a vertex with an id is one of a row, or it leads to the supersource or the
    supersink. -/
theorem kind_of_lt (hv : g.source e < ids.ids.length) :
    (g.pairs.get e.1 ∈ rows) ∨ (e = g.rev h.first) ∨
      (g.source e = vertexOf ids b ∧ g.target e = g.supersink) := by
  cases h.shape.kind e with
  | row hpair => exact .inl hpair
  | toSource _ _ hsource => omega
  | fromSource _ _ _ htarget =>
    refine .inr (.inl ?_)
    rw [← h.eq_first (e := g.rev e) (by rw [source_rev, htarget, h.shape.supersource]), rev_rev]
  | fromSink x hx hsource htarget =>
    rw [mem_singleton.mp hx] at hsource
    exact .inr (.inr ⟨hsource, htarget.trans h.shape.supersink.symm⟩)
  | toSink _ _ hsource => omega

/-! ## What the edges carry -/

/-- The flow on an edge of a row is at most one, either way. -/
theorem flow_le_one (he : g.pairs.get e.1 ∈ rows) :
    g.flow residual e ≤ 1 ∧ -1 ≤ g.flow residual e := by
  have hunit := h.unit _ he
  have hle : ∀ back, g.flow residual (e.1, back) ≤ 1 := by
    intro back
    refine (h.isFlow.le (e.1, back)).trans ?_
    cases back
    · exact hunit.1
    · exact hunit.2
  have hskew : g.flow residual (e.1, !e.2) = -g.flow residual e := h.isFlow.skew e
  have hback := hle (!e.2)
  rw [hskew] at hback
  exact ⟨hle e.2, by omega⟩

/-- Nothing flows into the source. -/
theorem not_into_source (he : e ∈ flowArcs g residual ids.ids.length) :
    g.target e ≠ vertexOf ids a := by
  intro htarget
  obtain ⟨hpos, hlt, _⟩ := mem_flowArcs.mp he
  have hle := h.augmented.le_zero (v := vertexOf ids a) (e := e)
    (fun e he => by rw [h.eq_first he]; exact h.target_first) htarget
    (fun hsource => by
      have hsource : g.source e = ids.ids.length := hsource.trans h.shape.supersource
      omega)
  omega

/-- The value of the flow is what comes to the source. -/
theorem net_supersource :
    g.network.net (g.flow residual) g.supersource = g.flow residual h.first := by
  have hfilter : (Finset.univ.filter fun e => g.network.source e = g.supersource) = {h.first} := by
    ext e
    simp only [Finset.mem_filter, Finset.mem_univ, true_and, Finset.mem_singleton]
    exact ⟨h.eq_first, fun he => he ▸ h.source_first⟩
  rw [net, hfilter, Finset.sum_singleton]

theorem rowFlow_le_one (e : g.E) : rowFlow g residual ids.ids.length e ≤ 1 ∧
    -1 ≤ rowFlow g residual ids.ids.length e := by
  unfold rowFlow
  split
  · rename_i hlt
    exact h.flow_le_one (h.shape.row_of_lt hlt)
  · decide

/-- What the rows carry out of a vertex more than into it is a number of edges. -/
theorem net_rowFlow (v : Nat) : g.network.net (rowFlow g residual ids.ids.length) v =
    (g.network.outArcs (flowArcs g residual ids.ids.length) v).card -
      (g.network.inArcs (flowArcs g residual ids.ids.length) v).card := by
  rw [net_eq_card (rowFlow_skew h.isFlow.skew) fun e _ => h.rowFlow_le_one e, carrying_rowFlow]

theorem rowFlow_of_row (he : g.pairs.get e.1 ∈ rows) :
    rowFlow g residual ids.ids.length e = g.flow residual e := if_pos (h.shape.row_lt he)

/-- Between the source and the sink as many edges carry the flow into a vertex as out of it. -/
theorem balanced (hv : v < ids.ids.length) (ha : v ≠ vertexOf ids a) (hb : v ≠ vertexOf ids b) :
    (g.network.inArcs (flowArcs g residual ids.ids.length) v).card =
      (g.network.outArcs (flowArcs g residual ids.ids.length) v).card := by
  have hsupersource := h.shape.supersource
  have hsupersink := h.shape.supersink
  have hnet : g.network.net (rowFlow g residual ids.ids.length) v = 0 := by
    rw [← h.isFlow.conserved v (by omega) (by omega), net, net]
    refine Finset.sum_congr rfl fun e he => ?_
    have he : g.source e = v := (Finset.mem_filter.mp he).2
    obtain hrow | rfl | ⟨hsource, _⟩ := h.kind_of_lt (he ▸ hv)
    · exact h.rowFlow_of_row hrow
    · rw [source_rev, h.target_first] at he
      exact absurd he.symm ha
    · exact absurd (he.symm.trans hsource) hb
  have hcard := h.net_rowFlow v
  omega

/-- As many edges carry the flow out of the source as its value. -/
theorem card_outArcs :
    ((g.network.outArcs (flowArcs g residual ids.ids.length) (vertexOf ids a)).card : Int) =
      g.network.net (g.flow residual) g.supersource := by
  have hsupersource := h.shape.supersource
  have hsupersink := h.shape.supersink
  have hlt := vertexOf_lt h.source_mem
  have hin : g.network.inArcs (flowArcs g residual ids.ids.length) (vertexOf ids a) = ∅ :=
    Finset.filter_eq_empty_iff.mpr fun e he => h.not_into_source he
  have hcard := h.net_rowFlow (vertexOf ids a)
  rw [hin, Finset.card_empty, Nat.cast_zero, sub_zero] at hcard
  rw [← hcard, h.net_supersource]
  -- the other edge out of the source is the one back to the supersource
  have hback : ∑ e with g.source e = vertexOf ids a,
      (if g.rev h.first = e then g.flow residual (g.rev h.first) else 0) =
        -g.flow residual h.first := by
    rw [Finset.sum_ite_eq, if_pos (by simp [h.target_first])]
    exact h.isFlow.skew h.first
  have hsplit : g.network.net (g.flow residual) (vertexOf ids a) =
      g.network.net (rowFlow g residual ids.ids.length) (vertexOf ids a) +
        -g.flow residual h.first := by
    rw [← hback, net, net]
    refine (Finset.sum_congr rfl fun e he => ?_).trans Finset.sum_add_distrib
    have he : g.source e = vertexOf ids a := (Finset.mem_filter.mp he).2
    obtain hrow | rfl | ⟨hsource, _⟩ := h.kind_of_lt (he ▸ hlt)
    · have hlt := h.shape.row_lt hrow
      rw [h.rowFlow_of_row hrow, if_neg, add_zero]
      rintro rfl
      have htarget := h.target_back
      omega
    · have htarget := h.target_back
      rw [rowFlow, if_neg (by omega), if_pos rfl, zero_add]
    · exact absurd (he.symm.trans hsource) h.source_ne_sink
  have hzero := h.isFlow.conserved (vertexOf ids a) (by omega) (by omega)
  omega

end UnitFlow

end PgrFlowGraph

end PgRouting
