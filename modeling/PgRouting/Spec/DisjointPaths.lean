import PgRouting.Spec.UnitFlow

/-!
# Edge disjoint paths

`flow_dfs` follows edges that carry the flow and that no path has used before. It comes to the
sink, since as many of these edges lead into each vertex on the way as out of it. The paths that
start with the edges out of the source are as many as the flow, and a cut shows that more are not
possible.

## Key results

- `UnitFlow.flowDfs_spec`: one path
- `UnitFlow.disjointPaths_spec`: all paths
-/

namespace PgRouting

namespace PgrFlowGraph

open Multigraph FlowNetwork

variable {g : PgrFlowGraph} {residual : g.E → Int} {ids : Identifiers Int} {rows : List EdgePair}
  {a b x : Int} {v : Nat} {e : g.E} {used : List g.E}

/-- The nodes of a walk. -/
def nodes (g : PgrFlowGraph) (ids : Identifiers Int) (v : Nat) (p : List g.E) : List Int :=
  (v :: p.map g.target).map (idAt ids)

/-- The capacities after some edges have been excluded from the visits, but not those out of
    `start`. -/
def marked (g : PgrFlowGraph) (start : Nat) (used : List g.E) (e : g.E) : Int :=
  if e ∈ used ∧ g.source e ≠ start then -1 else g.capacity e

theorem update_marked {start : Nat} (he : g.source e ≠ start) :
    Function.update (g.marked start used) e (-1) = g.marked start (used ++ [e]) := by
  funext e'
  by_cases heq : e' = e
  · subst heq
    rw [Function.update_self, marked, if_pos ⟨by simp, he⟩]
  · rw [Function.update_of_ne heq, marked, marked]
    simp [heq]

theorem marked_append {start : Nat} (he : g.source e = start) :
    g.marked start (used ++ [e]) = g.marked start used := by
  funext e'
  simp only [marked, List.mem_append, List.mem_singleton]
  by_cases heq : e' = e
  · subst heq
    rw [if_neg (by simp [he]), if_neg (by simp [he])]
  · simp [heq]

/-- The walks of the paths so far: from the source to the sink, along edges that carry the flow, and
    none has an edge of another. -/
structure Walks (g : PgrFlowGraph) (residual : g.E → Int) (ids : Identifiers Int) (a b : Int)
    (walks : List (List g.E)) : Prop where
  joins : ∀ p ∈ walks, g.network.Joins (vertexOf ids a) p (vertexOf ids b)
  nodup : walks.flatten.Nodup
  carried : walks.flatten.toFinset ⊆ flowArcs g residual ids.ids.length
  balanced : g.network.Balanced (vertexOf ids a) (vertexOf ids b) walks.flatten.toFinset
    (vertexOf ids a)

namespace UnitFlow

variable (h : UnitFlow g residual ids a b rows)
include h

/-- The edge from the sink to the supersink. -/
def last : g.E := (⟨1, by rw [h.pairs]; simp⟩, false)

theorem source_last : g.source h.last = vertexOf ids b := by
  rw [source, List.get_eq_getElem, List.getElem_of_eq h.pairs]
  rfl

theorem target_last : g.target h.last = g.supersink := by
  rw [h.shape.supersink, target, List.get_eq_getElem, List.getElem_of_eq h.pairs]
  rfl

theorem residual_nonneg (e : g.E) : 0 ≤ residual e := by
  have := h.isFlow.le e
  simp only [flow] at this
  omega

/-- A path ends at the sink. -/
theorem edge_supersink_iff (hv : v < ids.ids.length) :
    (g.edge v g.supersink).isSome ↔ v = vertexOf ids b := by
  have hsupersink := h.shape.supersink
  rw [edge_isSome_iff]
  constructor
  · rintro ⟨e, rfl, htarget⟩
    obtain hrow | rfl | ⟨hsource, _⟩ := h.kind_of_lt hv
    · have := h.shape.row_lt hrow
      omega
    · have := h.target_back
      have := h.shape.supersource
      omega
    · exact hsource
  · rintro rfl
    exact ⟨h.last, h.source_last, h.target_last⟩

/-- What `flow_dfs` goes along. -/
theorem mem_flowArcs_of_visit (hv : v < ids.ids.length) (ha : v ≠ vertexOf ids a)
    (hb : v ≠ vertexOf ids b) (he : g.source e = v)
    (hvisit : residual e < g.marked (vertexOf ids a) used e) :
    e ∈ flowArcs g residual ids.ids.length ∧ e ∉ used := by
  have hused : e ∉ used := by
    intro hused
    rw [marked, if_pos ⟨hused, he ▸ ha⟩] at hvisit
    have := h.residual_nonneg e
    omega
  rw [marked, if_neg fun hmem => hused hmem.1] at hvisit
  have hpos : 0 < g.flow residual e := by
    rw [flow]
    omega
  refine ⟨mem_flowArcs.mpr ⟨hpos, he ▸ hv, ?_⟩, hused⟩
  obtain hrow | rfl | ⟨hsource, _⟩ := h.kind_of_lt (he ▸ hv)
  · exact (h.shape.row_lt hrow).2
  · rw [source_rev, h.target_first] at he
    exact absurd he.symm ha
  · exact absurd (he.symm.trans hsource) hb

/-- **One path.** `flow_dfs` comes to the sink along edges that carry the flow and have not been
    used. -/
theorem flowDfs_spec (hsub : used.toFinset ⊆ flowArcs g residual ids.ids.length)
    (hnodup : used.Nodup) (hv : v < ids.ids.length) (ha : v ≠ vertexOf ids a)
    (hbalanced : g.network.Balanced (vertexOf ids a) (vertexOf ids b) used.toFinset v)
    (path : List Int) {fuel : Nat}
    (hfuel : (flowArcs g residual ids.ids.length \ used.toFinset).card < fuel) :
    ∃ p, g.network.Joins v p (vertexOf ids b) ∧ (used ++ p).Nodup ∧
      (used ++ p).toFinset ⊆ flowArcs g residual ids.ids.length ∧
      g.network.Balanced (vertexOf ids a) (vertexOf ids b) (used ++ p).toFinset (vertexOf ids a) ∧
      g.flowDfs residual fuel v (g.marked (vertexOf ids a) used) path =
        some (g.marked (vertexOf ids a) (used ++ p), path ++ g.nodes ids v p) := by
  induction fuel generalizing v used path with
  | zero => omega
  | succ fuel ih =>
    have hid := getVertexId_eq h.shape.ids_eq hv
    by_cases hb : v = vertexOf ids b
    · -- At the sink.
      refine ⟨[], hb, by simpa using hnodup, by simpa using hsub, ?_, ?_⟩
      · rw [List.append_nil]
        exact (hb ▸ hbalanced).done
      · have hbody : g.flowDfsBody residual ⟨v, g.marked (vertexOf ids a) used, path⟩ =
            .done (some (g.marked (vertexOf ids a) used, path ++ [idAt ids v])) := by
          rw [flowDfsBody, if_pos ((h.edge_supersink_iff hv).mpr hb), hid]
          rfl
        rw [flowDfs, runLoop_done hbody, List.append_nil]
        rfl
    · -- Elsewhere as much flow leaves as comes in, so an unused edge leads on.
      obtain ⟨e', he', hunused, hsource'⟩ := hbalanced.exists_next ha hb hsub (h.balanced hv ha hb)
      have hfind : ((g.outEdges v).find? fun e =>
          residual e < g.marked (vertexOf ids a) used e).isSome := by
        rw [List.find?_isSome]
        refine ⟨e', mem_outEdges.mpr hsource', ?_⟩
        have hpos := (mem_flowArcs.mp he').1
        have hnot : e' ∉ used := fun hmem => hunused (List.mem_toFinset.mpr hmem)
        rw [marked, if_neg fun hmem => hnot hmem.1]
        rw [flow] at hpos
        exact decide_eq_true (by omega)
      obtain ⟨e, hfind⟩ := Option.isSome_iff_exists.mp hfind
      have hsource : g.source e = v := mem_outEdges.mp (List.mem_of_find?_eq_some hfind)
      obtain ⟨hmem, hnew⟩ := h.mem_flowArcs_of_visit hv ha hb hsource
        (by simpa using List.find?_some hfind)
      have hbody : g.flowDfsBody residual ⟨v, g.marked (vertexOf ids a) used, path⟩ =
          .next ⟨g.target e, g.marked (vertexOf ids a) (used ++ [e]), path ++ [idAt ids v]⟩ := by
        rw [← update_marked (hsource ▸ ha), flowDfsBody,
          if_neg fun hsome => hb ((h.edge_supersink_iff hv).mp hsome), hfind, hid]
      have hinsert : (used ++ [e]).toFinset = insert e used.toFinset := by
        rw [List.toFinset_append, Finset.union_comm]
        rfl
      have hnotin : e ∉ used.toFinset := fun hused => hnew (List.mem_toFinset.mp hused)
      have hsub' : (used ++ [e]).toFinset ⊆ flowArcs g residual ids.ids.length := by
        rw [hinsert]
        exact Finset.insert_subset hmem hsub
      have hnodup' : (used ++ [e]).Nodup :=
        List.nodup_append.mpr ⟨hnodup, List.nodup_singleton e, fun x hx y hy hxy =>
          hnew (List.mem_singleton.mp hy ▸ hxy ▸ hx)⟩
      have hbalanced' : g.network.Balanced (vertexOf ids a) (vertexOf ids b)
          (used ++ [e]).toFinset (g.target e) := by
        rw [hinsert]
        exact (hsource.symm ▸ hbalanced).next hnotin
      -- Every step uses up one edge that carries flow.
      have hfuel' : (flowArcs g residual ids.ids.length \ (used ++ [e]).toFinset).card < fuel := by
        rw [hinsert, Finset.sdiff_insert]
        have := Finset.card_erase_lt_of_mem (Finset.mem_sdiff.mpr ⟨hmem, hnotin⟩)
        omega
      obtain ⟨p, hjoins, hnodup', hsub', hbalanced', hrun⟩ := ih hsub' hnodup'
        (mem_flowArcs.mp hmem).2.2 (h.not_into_source hmem) hbalanced' (path ++ [idAt ids v]) hfuel'
      rw [List.append_assoc] at hnodup' hsub' hbalanced' hrun
      refine ⟨e :: p, ⟨hsource, hjoins⟩, hnodup', hsub', hbalanced', ?_⟩
      rw [flowDfs, runLoop_next hbody]
      refine hrun.trans ?_
      rw [List.append_assoc]
      rfl

/-- A walk along edges that carry the flow does not come back to the source. -/
theorem source_ne_of_joins {p : List g.E} {w : Nat} (hjoins : g.network.Joins v p w)
    (ha : v ≠ vertexOf ids a) (hsub : ∀ e ∈ p, e ∈ flowArcs g residual ids.ids.length) :
    ∀ e ∈ p, g.source e ≠ vertexOf ids a := by
  induction p generalizing v with
  | nil => simp
  | cons e p ih =>
    obtain ⟨hsource, hrest⟩ := hjoins
    intro e' he'
    obtain rfl | he' := List.mem_cons.mp he'
    · exact fun h => ha (hsource.symm.trans h)
    · exact ih hrest (h.not_into_source (hsub e List.mem_cons_self))
        (fun e he => hsub e (List.mem_cons_of_mem _ he)) e' he'

theorem value_nonneg : 0 ≤ g.network.net (g.flow residual) g.supersource := by
  refine h.augmented.net_nonneg ?_
  rw [h.shape.supersource, h.shape.supersink]
  omega

/-- What carries the flow out of the source is a row. -/
theorem row_of_carried (he : g.source e = vertexOf ids a) (hpos : 0 < g.flow residual e) :
    g.source e < ids.ids.length ∧ g.target e < ids.ids.length := by
  obtain hrow | rfl | ⟨hsource, _⟩ := h.kind_of_lt (he ▸ vertexOf_lt h.source_mem)
  · exact h.shape.row_lt hrow
  · have hskew : g.flow residual (g.rev h.first) = -g.flow residual h.first :=
      h.isFlow.skew h.first
    have hnonneg := h.value_nonneg
    rw [h.net_supersource] at hnonneg
    omega
  · exact absurd (he.symm.trans hsource) h.source_ne_sink

/-- An edge out of the source gives a path when it carries the flow. -/
theorem pathFrom_spec {walks : List (List g.E)} (hwalks : Walks g residual ids a b walks)
    (he : g.source e = vertexOf ids a) (hnew : e ∉ walks.flatten) {fuel flow : Nat}
    (hfuel : (flowArcs g residual ids.ids.length).card < fuel)
    (hroom : walks.length + (if 0 < g.flow residual e then 1 else 0) ≤ flow) :
    ∃ walks', g.pathFrom residual fuel flow (g.marked (vertexOf ids a) walks.flatten,
        walks.map (g.nodes ids (vertexOf ids a))) e =
          some (g.marked (vertexOf ids a) walks'.flatten,
            walks'.map (g.nodes ids (vertexOf ids a))) ∧
      Walks g residual ids a b walks' ∧
      walks'.length = walks.length + (if 0 < g.flow residual e then 1 else 0) ∧
      ∀ e' ∈ walks'.flatten, e' ∈ walks.flatten ∨ e' = e ∨ g.source e' ≠ vertexOf ids a := by
  -- The edges out of the source keep their capacity while the paths are read off.
  have hcapacity : g.marked (vertexOf ids a) walks.flatten e - residual e = g.flow residual e := by
    rw [marked, if_neg fun hmem => hmem.2 he]
    rfl
  by_cases hpos : 0 < g.flow residual e
  · have hlt := vertexOf_lt h.source_mem
    rw [if_pos hpos] at hroom
    have hrow := h.row_of_carried he hpos
    have hmem : e ∈ flowArcs g residual ids.ids.length := mem_flowArcs.mpr ⟨hpos, hrow⟩
    have hinsert : (walks.flatten ++ [e]).toFinset = insert e walks.flatten.toFinset := by
      rw [List.toFinset_append, Finset.union_comm]
      rfl
    have hcarried : (walks.flatten ++ [e]).toFinset ⊆ flowArcs g residual ids.ids.length := by
      rw [hinsert]
      exact Finset.insert_subset hmem hwalks.carried
    have hstart : g.network.Balanced (vertexOf ids a) (vertexOf ids b) walks.flatten.toFinset
        (g.network.source e) := by
      rw [show g.network.source e = vertexOf ids a from he]
      exact hwalks.balanced
    obtain ⟨p, hjoins, hnodup, hsub, hbalanced, hrun⟩ := h.flowDfs_spec hcarried
      (List.nodup_append.mpr ⟨hwalks.nodup, List.nodup_singleton e, by
        intro x hx y hy hxy
        exact hnew (List.mem_singleton.mp hy ▸ hxy ▸ hx)⟩)
      hrow.2 (h.not_into_source hmem)
      (by
        rw [hinsert]
        exact hstart.next fun hin => hnew (List.mem_toFinset.mp hin))
      [idAt ids (vertexOf ids a)]
      ((Finset.card_le_card Finset.sdiff_subset).trans_lt hfuel)
    -- The edge and the way that `flow_dfs` finds from its head are the next path.
    have hflatten : (walks ++ [e :: p]).flatten = walks.flatten ++ [e] ++ p := by simp
    refine ⟨walks ++ [e :: p], ?_, ⟨?_, ?_, ?_, ?_⟩, ?_, ?_⟩
    · rw [marked_append he] at hrun
      rw [pathFrom, if_pos (by rw [hcapacity]; exact hpos), he,
        getVertexId_eq h.shape.ids_eq hlt, hflatten, guard,
        if_pos (by rw [List.length_map]; omega)]
      simp [hrun, nodes]
    · intro q hq
      obtain hq | hq := List.mem_append.mp hq
      · exact hwalks.joins q hq
      · obtain rfl := List.mem_singleton.mp hq
        exact ⟨he, hjoins⟩
    · rwa [hflatten]
    · rwa [hflatten]
    · rwa [hflatten]
    · rw [if_pos hpos]
      simp
    · intro e' he'
      rw [hflatten, List.mem_append, List.mem_append, List.mem_singleton] at he'
      obtain (hold | rfl) | hp := he'
      · exact .inl hold
      · exact .inr (.inl rfl)
      · refine .inr (.inr (h.source_ne_of_joins hjoins (h.not_into_source hmem) ?_ e' hp))
        exact fun e he => hsub (List.mem_toFinset.mpr (List.mem_append_right _ he))
  · refine ⟨walks, ?_, hwalks, by rw [if_neg hpos, add_zero], fun e' he' => .inl he'⟩
    rw [pathFrom, if_neg (by rw [hcapacity]; exact hpos)]

/-- The edges out of the source give as many paths as carry the flow. -/
theorem pathFrom_foldlM {fuel flow : Nat}
    (hfuel : (flowArcs g residual ids.ids.length).card < fuel) (l : List g.E) :
    ∀ {walks : List (List g.E)}, Walks g residual ids a b walks → l.Nodup →
      (∀ e ∈ l, g.source e = vertexOf ids a ∧ e ∉ walks.flatten) →
      walks.length + l.countP (fun e => 0 < g.flow residual e) ≤ flow →
      ∃ walks', l.foldlM (g.pathFrom residual fuel flow) (g.marked (vertexOf ids a) walks.flatten,
          walks.map (g.nodes ids (vertexOf ids a))) =
            some (g.marked (vertexOf ids a) walks'.flatten,
              walks'.map (g.nodes ids (vertexOf ids a))) ∧
        Walks g residual ids a b walks' ∧
        walks'.length = walks.length + l.countP (fun e => 0 < g.flow residual e) := by
  induction l with
  | nil => exact fun {walks} hwalks _ _ _ => ⟨walks, rfl, hwalks, rfl⟩
  | cons e l ih =>
    intro walks hwalks hnodup hl hroom
    obtain ⟨hnot, hnodup⟩ := List.nodup_cons.mp hnodup
    obtain ⟨hsource, hnew⟩ := hl e List.mem_cons_self
    have hcount : (e :: l).countP (fun e => 0 < g.flow residual e) =
        l.countP (fun e => 0 < g.flow residual e) + if 0 < g.flow residual e then 1 else 0 := by
      rw [List.countP_cons]
      simp only [decide_eq_true_eq]
    rw [hcount] at hroom ⊢
    have hfirst : walks.length + (if 0 < g.flow residual e then 1 else 0) ≤ flow := by omega
    obtain ⟨walks', hrun, hwalks', hlength, hold⟩ :=
      h.pathFrom_spec hwalks hsource hnew hfuel hfirst
    obtain ⟨walks'', hrun', hwalks'', hlength'⟩ := ih hwalks' hnodup (fun e' he' => by
      obtain ⟨hsource', hnew'⟩ := hl e' (List.mem_cons_of_mem _ he')
      -- A new walk begins with the edge itself and comes back to the source by no other one.
      refine ⟨hsource', fun hmem => ?_⟩
      obtain hmem | rfl | hne := hold e' hmem
      · exact hnew' hmem
      · exact hnot he'
      · exact hne hsource') (by omega)
    refine ⟨walks'', ?_, hwalks'', by omega⟩
    rw [List.foldlM_cons, hrun]
    exact hrun'

/-- The edges out of the source that carry the flow. -/
theorem countP_outEdges : ((g.outEdges (vertexOf ids a)).countP fun e => 0 < g.flow residual e) =
    (g.network.net (g.flow residual) g.supersource).toNat := by
  have hlt := vertexOf_lt h.source_mem
  have hset : ((g.outEdges (vertexOf ids a)).filter fun e => 0 < g.flow residual e).toFinset =
      g.network.outArcs (flowArcs g residual ids.ids.length) (vertexOf ids a) := by
    ext e
    rw [List.mem_toFinset, List.mem_filter, mem_outEdges, outArcs, Finset.mem_filter, mem_flowArcs,
      decide_eq_true_eq]
    constructor
    · rintro ⟨hsource, hpos⟩
      exact ⟨⟨hpos, h.row_of_carried hsource hpos⟩, hsource⟩
    · rintro ⟨⟨hpos, _⟩, hsource⟩
      exact ⟨hsource, hpos⟩
  have hcard := h.card_outArcs
  rw [← hset, List.toFinset_card_of_nodup (nodup_outEdges.filter _),
    ← List.countP_eq_length_filter] at hcard
  omega

/-- **All paths.** There are as many as the flow, each goes from the source to the sink along edges
    that carry the flow, and no edge is on two of them. -/
theorem disjointPaths_spec {fuel : Nat}
    (hfuel : (flowArcs g residual ids.ids.length).card < fuel) :
    ∃ walks, g.disjointPaths residual fuel
        (g.network.net (g.flow residual) g.supersource).toNat =
          some (walks.map (g.nodes ids (vertexOf ids a))) ∧
      Walks g residual ids a b walks ∧
      walks.length = (g.network.net (g.flow residual) g.supersource).toNat := by
  have hempty : Walks g residual ids a b [] :=
    ⟨fun _ h => absurd h List.not_mem_nil, List.nodup_nil, Finset.empty_subset _, balanced_empty⟩
  have hstart : g.marked (vertexOf ids a) [] = g.capacity := by
    funext e
    exact if_neg fun h => absurd h.1 List.not_mem_nil
  have hvalue : g.capacity h.first - residual h.first =
      g.network.net (g.flow residual) g.supersource := h.net_supersource.symm
  by_cases hpos : 0 < g.network.net (g.flow residual) g.supersource
  · obtain ⟨walks, hrun, hwalks, hlength⟩ := h.pathFrom_foldlM hfuel
      (g.outEdges (vertexOf ids a)) hempty nodup_outEdges
      (fun e he => ⟨mem_outEdges.mp he, List.not_mem_nil⟩)
      (by rw [List.length_nil, zero_add, h.countP_outEdges])
    refine ⟨walks, ?_, hwalks, by rw [hlength, List.length_nil, zero_add, h.countP_outEdges]⟩
    rw [List.flatten_nil, hstart, List.map_nil] at hrun
    rw [disjointPaths, h.outEdges_supersource, List.foldlM_cons, pathsFrom,
      if_pos (by rw [hvalue]; exact hpos), h.target_first, hrun]
    rfl
  · have hzero : (g.network.net (g.flow residual) g.supersource).toNat = 0 := by omega
    refine ⟨[], ?_, hempty, hzero.symm⟩
    rw [disjointPaths, h.outEdges_supersource, List.foldlM_cons, pathsFrom,
      if_neg (by rw [hvalue]; exact hpos)]
    rfl

end UnitFlow

end PgrFlowGraph

end PgRouting
