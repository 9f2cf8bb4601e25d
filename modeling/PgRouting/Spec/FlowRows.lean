import Mathlib.Algebra.BigOperators.Fin
import Mathlib.Data.Fintype.BigOperators
import PgRouting.Spec.FlowGraph

/-!
# The rows of a maximum flow

The rows of `get_flow_edges` are a flow on the edges: as much as enters a vertex leaves it, unless
it is a source or a sink, and what leaves the sources is the value that Boost returns. It is the
capacity of a cut between the sources and the sinks, and no cut has a smaller one.

## Key results

- `getFlowEdges_eq`, `mem_shown`: the rows
- `outflow_sub_inflow`: what the rows carry out of a vertex and into it
- `isEdgeFlow_shown`: the rows are a flow on the edges
-/

namespace PgRouting

namespace PgrFlowGraph

open Multigraph FlowNetwork

variable {g : PgrFlowGraph} {residual : g.E → Int} {edges : List EdgeT}
  {ids sources sinks : Identifiers Int} {rows : List EdgePair} {x : Int} {v : Nat} {e : g.E}

/-- What a maximum flow algorithm of Boost returns: a flow for which there is no augmenting path,
    and its value. -/
structure IsMaxFlow (g : PgrFlowGraph) (r : (g.E → Int) × Int) : Prop where
  isFlow : g.network.IsFlow g.capacity (g.flow r.1) g.supersource g.supersink
  maximal : ¬ Relation.ReflTransGen (g.network.Residual g.capacity (g.flow r.1)) g.supersource
    g.supersink
  value : r.2 = g.network.net (g.flow r.1) g.supersource

/-- What the rows carry out of a vertex. -/
def outflow (rows : List FlowT) (x : Int) : Int :=
  ((rows.filter fun r => r.source = x).map FlowT.flow).sum

/-- What the rows carry into a vertex. -/
def inflow (rows : List FlowT) (x : Int) : Int :=
  ((rows.filter fun r => r.target = x).map FlowT.flow).sum

/-- The capacity of the edges out of a set of vertices. -/
def cutCapacity (edges : List EdgeT) (C : Int → Prop) [DecidablePred C] : Int :=
  (edges.map fun e => (if C e.source ∧ ¬ C e.target then toCapacity e.cost else 0) +
    if C e.target ∧ ¬ C e.source then toCapacity e.reverseCost else 0).sum

/-! ## The edges with rows -/

/-- The edges that `get_flow_edges` returns. -/
def shown (g : PgrFlowGraph) (residual : g.E → Int) : List g.E :=
  ((List.range g.numVertices).flatMap g.outEdges).filter fun e =>
    g.capacity e - residual e > 0 ∧ g.source e ≠ g.supersource ∧ g.target e ≠ g.supersink

theorem nodup_shown : (g.shown residual).Nodup := by
  refine List.Nodup.filter _ (List.nodup_flatMap.mpr ⟨fun v _ => nodup_outEdges,
    List.nodup_range.imp fun {u v} hne => ?_⟩)
  rw [Function.onFun, List.disjoint_left]
  intro e hu hv
  exact hne ((mem_outEdges.mp hu).symm.trans (mem_outEdges.mp hv))

/-- They are those that carry the flow between vertices with ids. -/
theorem mem_shown (h : Shape g ids sources sinks rows)
    (hle : ∀ e, g.flow residual e ≤ g.capacity e) :
    e ∈ g.shown residual ↔ e ∈ flowArcs g residual ids.ids.length := by
  have hsupersource := h.supersource
  have hsupersink := h.supersink
  have hnum := h.numVertices
  have hflow := hle e
  rw [shown, List.mem_filter, List.mem_flatMap, mem_flowArcs, decide_eq_true_eq]
  simp only [List.mem_range, mem_outEdges, exists_eq_right', flow, hsupersource, hsupersink, hnum]
    at hflow ⊢
  cases h.kind e with
  | row hpair =>
    have hlt := h.row_lt hpair
    omega
  | toSource _ _ hsource | fromSink _ _ _ htarget => omega
  | fromSource _ _ _ _ hcapacity | toSink _ _ _ _ hcapacity => omega

/-- The row of an edge. -/
def flowRow (g : PgrFlowGraph) (residual : g.E → Int) (ids : Identifiers Int) (e : g.E) : FlowT :=
  ⟨(g.getEdgeId e).getD 0, idAt ids (g.source e), idAt ids (g.target e), g.flow residual e,
    residual e⟩

theorem getFlowEdges_eq (h : Shape g ids sources sinks rows)
    (hle : ∀ e, g.flow residual e ≤ g.capacity e) :
    g.getFlowEdges residual = some ((g.shown residual).map (g.flowRow residual ids)) := by
  refine mapM_eq_map fun e he => ?_
  obtain ⟨_, hsource, htarget⟩ := mem_flowArcs.mp ((mem_shown h hle).mp he)
  obtain ⟨id, hid⟩ := Option.isSome_iff_exists.mp
    (h.rowPairs _ (h.row_of_lt ⟨hsource, htarget⟩)).id
  have hid : g.getEdgeId e = some id := hid
  rw [getVertexId_eq h.ids_eq hsource, getVertexId_eq h.ids_eq htarget, flowRow, hid]
  rfl

/-- Sums over the rows are sums over the edges that carry the flow. -/
theorem sum_shown (h : Shape g ids sources sinks rows)
    (hle : ∀ e, g.flow residual e ≤ g.capacity e) (q : g.E → Prop) [DecidablePred q] :
    (((g.shown residual).filter fun e => q e).map (g.flow residual)).sum =
      ∑ e ∈ flowArcs g residual ids.ids.length with q e, g.flow residual e := by
  rw [← List.sum_toFinset _ (nodup_shown.filter _)]
  refine Finset.sum_congr ?_ fun _ _ => rfl
  ext e
  rw [List.mem_toFinset, List.mem_filter, Finset.mem_filter, mem_shown h hle, decide_eq_true_eq]

theorem outflow_shown (h : Shape g ids sources sinks rows)
    (hle : ∀ e, g.flow residual e ≤ g.capacity e) (x : Int) :
    outflow ((g.shown residual).map (g.flowRow residual ids)) x =
      ∑ e ∈ flowArcs g residual ids.ids.length with idAt ids (g.source e) = x,
        g.flow residual e := by
  rw [← sum_shown h hle, outflow, List.filter_map, List.map_map]
  rfl

theorem inflow_shown (h : Shape g ids sources sinks rows)
    (hle : ∀ e, g.flow residual e ≤ g.capacity e) (x : Int) :
    inflow ((g.shown residual).map (g.flowRow residual ids)) x =
      ∑ e ∈ flowArcs g residual ids.ids.length with idAt ids (g.target e) = x,
        g.flow residual e := by
  rw [← sum_shown h hle, inflow, List.filter_map, List.map_map]
  rfl

/-- What the rows carry out of a vertex more than into it. -/
theorem outflow_sub_inflow (h : Shape g ids sources sinks rows)
    (hflow : g.network.IsFlow g.capacity (g.flow residual) g.supersource g.supersink)
    (hx : x ∈ ids) :
    outflow ((g.shown residual).map (g.flowRow residual ids)) x -
        inflow ((g.shown residual).map (g.flowRow residual ids)) x =
      g.network.net (rowFlow g residual ids.ids.length) (vertexOf ids x) := by
  have hrow : ∀ e ∈ flowArcs g residual ids.ids.length,
      rowFlow g residual ids.ids.length e = g.flow residual e :=
    fun e he => if_pos (mem_flowArcs.mp he).2
  rw [outflow_shown h hflow.le, inflow_shown h hflow.le,
    net_eq_sum (rowFlow_skew hflow.skew), carrying_rowFlow, outArcs, inArcs]
  congr 1
  · refine Finset.sum_congr (Finset.filter_congr fun e he => ?_) fun e he => ?_
    · exact idAt_eq_iff (mem_flowArcs.mp he).2.1 hx
    · exact (hrow e (Finset.mem_filter.mp he).1).symm
  · refine Finset.sum_congr (Finset.filter_congr fun e he => ?_) fun e he => ?_
    · exact idAt_eq_iff (mem_flowArcs.mp he).2.2 hx
    · exact (hrow e (Finset.mem_filter.mp he).1).symm

/-! ## Sources, sinks and other vertices -/

/-- At a vertex that is no sink the flow is that of the rows and that from the supersource. -/
theorem net_split (residual : g.E → Int) (h : Shape g ids sources sinks rows)
    (hv : v < ids.ids.length) (hsinks : ∀ x ∈ sinks, v ≠ vertexOf ids x) :
    g.network.net (g.flow residual) v = g.network.net (rowFlow g residual ids.ids.length) v +
      ∑ e with g.source e = v ∧ g.target e = g.supersource, g.flow residual e := by
  have hsupersource := h.supersource
  rw [← Finset.filter_filter, Finset.sum_filter, net, net]
  refine (Finset.sum_congr rfl fun e he => ?_).trans Finset.sum_add_distrib
  have he : g.source e = v := (Finset.mem_filter.mp he).2
  cases h.kind e with
  | row hpair =>
    have hlt := h.row_lt hpair
    rw [rowFlow, if_pos hlt, if_neg (by omega), add_zero]
  | fromSource _ _ _ htarget =>
    rw [rowFlow, if_neg (by omega), if_pos (htarget.trans hsupersource.symm), zero_add]
  | fromSink x hx hsource => exact absurd (he.symm.trans hsource) (hsinks x hx)
  | toSource _ _ hsource | toSink _ _ hsource => omega

/-- What enters a vertex that is neither a source nor a sink leaves it. -/
theorem net_rowFlow_eq_zero (h : Shape g ids sources sinks rows)
    (hflow : g.network.IsFlow g.capacity (g.flow residual) g.supersource g.supersink)
    (hx : x ∈ ids) (hsource : x ∉ sources) (hsink : x ∉ sinks) :
    g.network.net (rowFlow g residual ids.ids.length) (vertexOf ids x) = 0 := by
  have hlt := vertexOf_lt hx
  have hsupersource := h.supersource
  have hsupersink := h.supersink
  have hempty : (Finset.univ.filter fun e => g.source e = vertexOf ids x ∧
      g.target e = g.supersource) = ∅ := by
    refine Finset.filter_eq_empty_iff.mpr fun e _ he => ?_
    obtain ⟨y, hy, hy'⟩ := h.source_of_target he.2
    exact hsource (vertexOf_inj hx (he.1.symm.trans hy') ▸ hy)
  have hsplit := net_split residual h hlt fun y hy heq =>
    hsink (vertexOf_inj hx heq ▸ hy)
  rw [hempty, Finset.sum_empty, add_zero, hflow.conserved _ (by omega) (by omega)] at hsplit
  exact hsplit.symm

/-- What the rows carry out of the sources is the value of the flow. -/
theorem sum_sources (h : Shape g ids sources sinks rows)
    (hflow : g.network.IsFlow g.capacity (g.flow residual) g.supersource g.supersink)
    (hdisjoint : ∀ x ∈ sources, x ∉ sinks) :
    (sources.ids.map fun x =>
      g.network.net (rowFlow g residual ids.ids.length) (vertexOf ids x)).sum =
        g.network.net (g.flow residual) g.supersource := by
  have hsupersource := h.supersource
  have hsupersink := h.supersink
  -- What a source sends along the rows is what it takes from the supersource.
  have hone : ∀ x ∈ sources.ids.toFinset,
      g.network.net (rowFlow g residual ids.ids.length) (vertexOf ids x) =
        -∑ e ∈ Finset.univ.filter (fun e => g.target e = g.supersource) with
          idAt ids (g.source e) = x, g.flow residual e := by
    intro x hx
    have hx : x ∈ sources := List.mem_toFinset.mp hx
    have hmem := h.sources_mem x hx
    have hlt := vertexOf_lt hmem
    have hsplit := net_split residual h hlt fun y hy heq =>
      hdisjoint x hx (vertexOf_inj hmem heq ▸ hy)
    rw [hflow.conserved _ (by omega) (by omega)] at hsplit
    have hfiber : (Finset.univ.filter fun e =>
        g.source e = vertexOf ids x ∧ g.target e = g.supersource) =
        (Finset.univ.filter fun e => g.target e = g.supersource).filter fun e =>
          idAt ids (g.source e) = x := by
      rw [Finset.filter_filter]
      refine Finset.filter_congr fun e _ => ?_
      rw [and_comm]
      refine and_congr_right fun htarget => (idAt_eq_iff ?_ hmem).symm
      obtain ⟨y, hy, hsource⟩ := h.source_of_target htarget
      exact hsource ▸ vertexOf_lt (h.sources_mem y hy)
    rw [← hfiber]
    omega
  -- Every edge of the supersource belongs to one source.
  have hmaps : ∀ e ∈ Finset.univ.filter (fun e => g.target e = g.supersource),
      idAt ids (g.source e) ∈ sources.ids.toFinset := by
    intro e he
    obtain ⟨x, hx, hsource⟩ := h.source_of_target (Finset.mem_filter.mp he).2
    rw [hsource, idAt_vertexOf (h.sources_mem x hx)]
    exact List.mem_toFinset.mpr hx
  have hrev := g.network.sum_rev (g.flow residual) fun u _ => u = g.supersource
  rw [← List.sum_toFinset _ sources.nodup, Finset.sum_congr rfl hone, Finset.sum_neg_distrib,
    Finset.sum_fiberwise_of_maps_to hmaps, net]
  simp only [hflow.skew, Finset.sum_neg_distrib] at hrev
  rw [neg_eq_iff_eq_neg]
  exact hrev.symm

/-! ## Cuts -/

/-- What a pair adds to a cut. -/
def pairCut (R : Nat → Prop) [DecidablePred R] (pair : EdgePair) : Int :=
  (if R pair.source ∧ ¬ R pair.target then pair.capacity else 0) +
    if R pair.target ∧ ¬ R pair.source then pair.reverseCapacity else 0

theorem sum_leaving (g : PgrFlowGraph) (R : Nat → Prop) [DecidablePred R] :
    ∑ e ∈ g.network.leaving R, g.capacity e = (g.pairs.map (pairCut R)).sum := by
  have hpair : ∀ i : Fin g.pairs.length, (∑ back : Bool,
      if R (g.source (i, back)) ∧ ¬ R (g.target (i, back)) then g.capacity (i, back) else 0) =
        pairCut R (g.pairs.get i) := by
    intro i
    rw [Fintype.sum_bool, add_comm]
    rfl
  have hleaving : g.network.leaving R =
      Finset.univ.filter fun e => R (g.source e) ∧ ¬ R (g.target e) := rfl
  rw [hleaving, Finset.sum_filter, Fintype.sum_prod_type, Finset.sum_congr rfl fun i _ => hpair i,
    ← List.sum_ofFn, List.ofFn_eq_map]
  have hget := congrArg (List.map (pairCut R)) (List.map_get_finRange g.pairs)
  rw [List.map_map] at hget
  rw [← hget]
  rfl

/-- A cut of the vertices and one of the ids. -/
structure CutOf (ids sources sinks : Identifiers Int) (R : Nat → Prop) (C : Int → Prop) :
    Prop where
  supersource : R ids.ids.length
  supersink : ¬ R (ids.ids.length + 1)
  vertices : ∀ x ∈ ids, C x ↔ R (vertexOf ids x)
  sources : ∀ x ∈ sources, C x
  sinks : ∀ x ∈ sinks, ¬ C x

theorem sum_flowPairs {algorithm : Int} {row : EdgeT} {R : Nat → Prop} [DecidablePred R]
    {C : Int → Prop} [DecidablePred C] (hsource : C row.source ↔ R (vertexOf ids row.source))
    (htarget : C row.target ↔ R (vertexOf ids row.target)) :
    ((flowPairs ids algorithm row).map (pairCut R)).sum =
      (if C row.source ∧ ¬ C row.target then toCapacity row.cost else 0) +
        if C row.target ∧ ¬ C row.source then toCapacity row.reverseCost else 0 := by
  simp only [hsource, htarget]
  unfold flowPairs
  split
  · have hfirst : ((if row.cost > 0 then [(⟨vertexOf ids row.source, vertexOf ids row.target,
        some row.id, ⌊row.cost⌋, 0⟩ : EdgePair)] else []).map (pairCut R)).sum =
        if R (vertexOf ids row.source) ∧ ¬ R (vertexOf ids row.target) then toCapacity row.cost
          else 0 := by
      unfold toCapacity
      split <;> simp [pairCut]
    have hsecond : ((if row.reverseCost > 0 then [(⟨vertexOf ids row.target,
        vertexOf ids row.source, some row.id, ⌊row.reverseCost⌋, 0⟩ : EdgePair)]
          else []).map (pairCut R)).sum =
        if R (vertexOf ids row.target) ∧ ¬ R (vertexOf ids row.source) then
          toCapacity row.reverseCost else 0 := by
      unfold toCapacity
      split <;> simp [pairCut]
    rw [List.map_append, List.sum_append, hfirst, hsecond]
  · rw [List.map_singleton, List.sum_singleton]
    rfl

/-- The capacity of a cut is that of the edges. -/
theorem sum_leaving_eq {algorithm : Int} (h : Shape g ids sources sinks
    (edges.flatMap (flowPairs ids algorithm))) {R : Nat → Prop} [DecidablePred R]
    {C : Int → Prop} [DecidablePred C] (hcut : CutOf ids sources sinks R C)
    (hends : ∀ row ∈ edges, row.source ∈ ids ∧ row.target ∈ ids) :
    ∑ e ∈ g.network.leaving R, g.capacity e = cutCapacity edges C := by
  have hsources : ((sources.ids.map (sourcePair ids)).map (pairCut R)).sum = 0 := by
    refine List.sum_eq_zero fun c hc => ?_
    obtain ⟨pair, hpair, rfl⟩ := List.mem_map.mp hc
    obtain ⟨x, hx, rfl⟩ := List.mem_map.mp hpair
    have hR := (hcut.vertices x (h.sources_mem x hx)).mp (hcut.sources x hx)
    simp [pairCut, sourcePair, hR, hcut.supersource]
  have hsinks : ((sinks.ids.map (sinkPair ids)).map (pairCut R)).sum = 0 := by
    refine List.sum_eq_zero fun c hc => ?_
    obtain ⟨pair, hpair, rfl⟩ := List.mem_map.mp hc
    obtain ⟨x, hx, rfl⟩ := List.mem_map.mp hpair
    have hR := mt (hcut.vertices x (h.sinks_mem x hx)).mpr (hcut.sinks x hx)
    simp [pairCut, sinkPair, hR, hcut.supersink]
  have hrows : ∀ l : List EdgeT, (∀ row ∈ l, row.source ∈ ids ∧ row.target ∈ ids) →
      ((l.flatMap (flowPairs ids algorithm)).map (pairCut R)).sum = cutCapacity l C := by
    intro l hl
    induction l with
    | nil => rfl
    | cons row l ih =>
      have hrow := hl row List.mem_cons_self
      rw [List.flatMap_cons, List.map_append, List.sum_append,
        ih fun row hrow => hl row (List.mem_cons_of_mem _ hrow),
        sum_flowPairs (hcut.vertices _ hrow.1) (hcut.vertices _ hrow.2)]
      rfl
  rw [sum_leaving, h.pairs, List.map_append, List.map_append, List.sum_append, List.sum_append,
    hsources, hsinks, hrows edges hends, zero_add, zero_add]

/-! ## The flow on the edges -/

/-- The rows are a flow on the edges from the sources to the sinks. -/
structure IsEdgeFlow (edges : List EdgeT) (sources sinks : Identifiers Int) (rows : List FlowT)
    (value : Int) : Prop where
  row : ∀ r ∈ rows, 0 < r.flow ∧ 0 ≤ r.residualCapacity ∧ ∃ e ∈ edges, e.id = r.edge ∧
    (r.source = e.source ∧ r.target = e.target ∧
        r.flow + r.residualCapacity = toCapacity e.cost ∨
      r.source = e.target ∧ r.target = e.source ∧
        r.flow + r.residualCapacity = toCapacity e.reverseCost)
  conserved : ∀ x, x ∉ sources → x ∉ sinks → outflow rows x = inflow rows x
  value : (sources.ids.map fun x => outflow rows x - inflow rows x).sum = value

/-- An edge that carries the flow belongs to a row of the edges. -/
theorem exists_row {algorithm : Int} (h : Shape g ids sources sinks
    (edges.flatMap (flowPairs ids algorithm)))
    (hle : ∀ e, g.flow residual e ≤ g.capacity e) (he : e ∈ flowArcs g residual ids.ids.length) :
    ∃ row ∈ edges, g.getEdgeId e = some row.id ∧
      (g.source e = vertexOf ids row.source ∧ g.target e = vertexOf ids row.target ∧
          g.capacity e = toCapacity row.cost ∨
        g.source e = vertexOf ids row.target ∧ g.target e = vertexOf ids row.source ∧
          g.capacity e = toCapacity row.reverseCost) := by
  obtain ⟨hpos, hlt⟩ := mem_flowArcs.mp he
  have hcapacity : 0 < g.capacity e := hpos.trans_le (hle e)
  obtain ⟨row, hrow, hpair⟩ := List.mem_flatMap.mp (h.row_of_lt hlt)
  refine ⟨row, hrow, ?_⟩
  obtain ⟨i, back⟩ := e
  simp only [getEdgeId, source, target, capacity] at hcapacity hpair ⊢
  generalize g.pairs.get i = pair at hcapacity hpair ⊢
  unfold flowPairs at hpair
  -- For a directed flow each cost has an arc of its own; otherwise one arc goes both ways.
  split at hpair
  · obtain hpair | hpair := List.mem_append.mp hpair
    · split at hpair
      · rename_i hcost
        obtain rfl := List.mem_singleton.mp hpair
        cases back with
        | true => exact absurd hcapacity (lt_irrefl 0)
        | false => exact ⟨rfl, .inl ⟨rfl, rfl, (if_pos hcost).symm⟩⟩
      · exact absurd hpair List.not_mem_nil
    · split at hpair
      · rename_i hcost
        obtain rfl := List.mem_singleton.mp hpair
        cases back with
        | true => exact absurd hcapacity (lt_irrefl 0)
        | false => exact ⟨rfl, .inr ⟨rfl, rfl, (if_pos hcost).symm⟩⟩
      · exact absurd hpair List.not_mem_nil
  · obtain rfl := List.mem_singleton.mp hpair
    cases back with
    | false => exact ⟨rfl, .inl ⟨rfl, rfl, rfl⟩⟩
    | true => exact ⟨rfl, .inr ⟨rfl, rfl, rfl⟩⟩

/-- The rows that are returned are a flow on the edges. -/
theorem isEdgeFlow_shown {algorithm : Int} (h : Shape g ids sources sinks
    (edges.flatMap (flowPairs ids algorithm)))
    (hends : ∀ row ∈ edges, row.source ∈ ids ∧ row.target ∈ ids)
    (hdisjoint : ∀ x ∈ sources, x ∉ sinks)
    (hflow : g.network.IsFlow g.capacity (g.flow residual) g.supersource g.supersink) :
    IsEdgeFlow edges sources sinks ((g.shown residual).map (g.flowRow residual ids))
      (g.network.net (g.flow residual) g.supersource) where
  row := by
    intro r hr
    obtain ⟨e, he, rfl⟩ := List.mem_map.mp hr
    have he := (mem_shown h hflow.le).mp he
    obtain ⟨row, hrow, hid, hsides⟩ := exists_row h hflow.le he
    have hsum : g.flow residual e + residual e = g.capacity e := sub_add_cancel _ _
    have hle := hflow.le (g.rev e)
    refine ⟨(mem_flowArcs.mp he).1, ?_, row, hrow, ?_, ?_⟩
    · have := hflow.le e
      show 0 ≤ residual e
      omega
    · show row.id = (g.getEdgeId e).getD 0
      rw [hid]
      rfl
    · show idAt ids (g.source e) = row.source ∧ idAt ids (g.target e) = row.target ∧
          g.flow residual e + residual e = toCapacity row.cost ∨
        idAt ids (g.source e) = row.target ∧ idAt ids (g.target e) = row.source ∧
          g.flow residual e + residual e = toCapacity row.reverseCost
      rw [hsum]
      obtain ⟨hsource, htarget, hcapacity⟩ | ⟨hsource, htarget, hcapacity⟩ := hsides
      · rw [hsource, htarget, idAt_vertexOf (hends row hrow).1, idAt_vertexOf (hends row hrow).2]
        exact .inl ⟨rfl, rfl, hcapacity⟩
      · rw [hsource, htarget, idAt_vertexOf (hends row hrow).1, idAt_vertexOf (hends row hrow).2]
        exact .inr ⟨rfl, rfl, hcapacity⟩
  conserved := by
    intro x hsource hsink
    by_cases hx : x ∈ ids
    · have hnet := outflow_sub_inflow h hflow hx
      rw [net_rowFlow_eq_zero h hflow hx hsource hsink] at hnet
      omega
    · -- No row meets a vertex that is not in the graph.
      have hout : ∀ e ∈ flowArcs g residual ids.ids.length, idAt ids (g.source e) ≠ x :=
        fun e he heq => hx (heq ▸ idAt_mem (mem_flowArcs.mp he).2.1)
      have hin : ∀ e ∈ flowArcs g residual ids.ids.length, idAt ids (g.target e) ≠ x :=
        fun e he heq => hx (heq ▸ idAt_mem (mem_flowArcs.mp he).2.2)
      rw [outflow_shown h hflow.le, inflow_shown h hflow.le,
        Finset.filter_eq_empty_iff.mpr fun {e} he => hout e he,
        Finset.filter_eq_empty_iff.mpr fun {e} he => hin e he]
  value := by
    rw [← sum_sources h hflow hdisjoint]
    refine congrArg _ (List.map_congr_left fun x hx => ?_)
    exact outflow_sub_inflow h hflow (h.sources_mem x hx)

end PgrFlowGraph

end PgRouting
