import Mathlib.Data.List.Find
import PgRouting.Spec.DisjointPaths

/-!
# The answer of `pgr_edgeDisjointPaths` for one pair

The paths go along rows of the edges that are open in their direction, no row is on two of them or
twice on one, and there is no larger set of such paths, even if a row could be used once in each
direction. The row that is named between two nodes is the first one that joins them.

## Key results

- `edge_joiningId`: the edge that is looked up
- `singleExecution_spec`: the paths of one pair
-/

namespace PgRouting

namespace PgrFlowGraph

open Multigraph FlowNetwork

variable {g : PgrFlowGraph} {edges : List EdgeT} {ids : Identifiers Int} {rows : List EdgePair}
  {a b x y : Int} {u v : Nat} {directed : Bool}

/-! ## Lanes of the edges -/

/-- A row and whether it is used backwards. -/
abbrev Lane (edges : List EdgeT) := Fin edges.length × Bool

/-- The rows as a network. -/
def tableNetwork (edges : List EdgeT) : FlowNetwork Int (Lane edges) where
  source l := if l.2 then (edges.get l.1).target else (edges.get l.1).source
  target l := if l.2 then (edges.get l.1).source else (edges.get l.1).target
  rev l := (l.1, !l.2)
  rev_rev l := by simp
  source_rev l := by cases l.2 <;> simp

/-- A lane leads from one end of its row to the other. -/
theorem row_joins (l : Lane edges) :
    (edges.get l.1).source = (tableNetwork edges).source l ∧
        (edges.get l.1).target = (tableNetwork edges).target l ∨
      (edges.get l.1).source = (tableNetwork edges).target l ∧
        (edges.get l.1).target = (tableNetwork edges).source l := by
  obtain ⟨k, back⟩ := l
  cases back
  · exact .inl ⟨rfl, rfl⟩
  · exact .inr ⟨rfl, rfl⟩

/-- A way along open lanes. -/
def IsLaneRoute (edges : List EdgeT) (directed : Bool) (x : Int) (p : List (Lane edges)) (y : Int) :
    Prop :=
  (tableNetwork edges).Joins x p y ∧ ∀ l ∈ p, Open directed (edges.get l.1) l.2

/-- The id of the first row that joins two vertices. -/
def joiningId (edges : List EdgeT) (x y : Int) : Int :=
  ((edges.find? fun e => e.source = x ∧ e.target = y ∨ e.source = y ∧ e.target = x).map
    EdgeT.id).getD 0

/-- The rows that are returned for a route. -/
def routeRows (edges : List EdgeT) (a b : Int) (p : List (Lane edges)) : List PathRt :=
  p.map (fun l => ⟨a, b, (tableNetwork edges).source l,
    joiningId edges ((tableNetwork edges).source l) ((tableNetwork edges).target l), 0, 0⟩) ++
  [⟨a, b, b, -1, 0, 0⟩]

/-! ## The edge between two vertices -/

/-- `boost::edge` finds an edge of the first pair between the vertices. -/
theorem edge_pair (u v : Nat) : (g.edge u v).map (fun e => g.pairs.get e.1) =
    g.pairs.find? fun pair => pair.source = u ∧ pair.target = v ∨
      pair.source = v ∧ pair.target = u := by
  have hfind : g.edge u v = g.inserted.find? fun e => g.source e = u ∧ g.target e = v := by
    rw [edge, outEdges, List.find?_filter]
    simp
  have hlist : ∀ l : List (Fin g.pairs.length),
      ((l.flatMap fun i => [(i, false), (i, true)]).find? fun e : g.E =>
        g.source e = u ∧ g.target e = v).map (fun e => g.pairs.get e.1) =
      (l.map g.pairs.get).find? fun pair => pair.source = u ∧ pair.target = v ∨
        pair.source = v ∧ pair.target = u := by
    intro l
    induction l with
    | nil => rfl
    | cons i l ih =>
      have hfalse : (g.source (i, false) = u ∧ g.target (i, false) = v) ↔
          ((g.pairs.get i).source = u ∧ (g.pairs.get i).target = v) := Iff.rfl
      have htrue : (g.source (i, true) = u ∧ g.target (i, true) = v) ↔
          ((g.pairs.get i).source = v ∧ (g.pairs.get i).target = u) := and_comm
      rw [List.flatMap_cons, List.map_cons, List.find?_append, List.find?_cons, List.find?_cons,
        List.find?_cons]
      simp only [hfalse, htrue, Bool.decide_or] at ih ⊢
      by_cases h1 : (g.pairs.get i).source = u ∧ (g.pairs.get i).target = v
      · rw [decide_eq_true h1]
        rfl
      · by_cases h2 : (g.pairs.get i).source = v ∧ (g.pairs.get i).target = u
        · rw [decide_eq_false h1, decide_eq_true h2]
          rfl
        · rw [decide_eq_false h1, decide_eq_false h2]
          exact ih
  rw [hfind, inserted, hlist, List.map_get_finRange]

/-- Between two vertices with ids it belongs to the first row that joins them. -/
theorem edge_joiningId (h : Shape g ids (.add .empty a) (.add .empty b)
    (edges.map (disjointPair ids directed))) (hends : ∀ row ∈ edges, row.source ∈ ids)
    (hends' : ∀ row ∈ edges, row.target ∈ ids) (hx : x ∈ ids) (hy : y ∈ ids)
    (hjoin : ∃ row ∈ edges, row.source = x ∧ row.target = y ∨ row.source = y ∧ row.target = x) :
    ∃ e, g.edge (vertexOf ids x) (vertexOf ids y) = some e ∧
      g.getEdgeId e = some (joiningId edges x y) := by
  have hlx := vertexOf_lt hx
  have hly := vertexOf_lt hy
  have hiff : ∀ row ∈ edges, (vertexOf ids row.source = vertexOf ids x ∧
      vertexOf ids row.target = vertexOf ids y ∨ vertexOf ids row.source = vertexOf ids y ∧
      vertexOf ids row.target = vertexOf ids x) ↔
        (row.source = x ∧ row.target = y ∨ row.source = y ∧ row.target = x) := by
    intro row hrow
    have hinj : ∀ {i j}, i ∈ ids → (vertexOf ids i = vertexOf ids j ↔ i = j) :=
      fun hi => ⟨vertexOf_inj hi, fun h => h ▸ rfl⟩
    rw [hinj (hends row hrow), hinj (hends row hrow), hinj (hends' row hrow),
      hinj (hends' row hrow)]
  -- The edges at the supersource and the supersink come first, but they do not join the two.
  have hfind : g.pairs.find? (fun pair =>
      pair.source = vertexOf ids x ∧ pair.target = vertexOf ids y ∨
        pair.source = vertexOf ids y ∧ pair.target = vertexOf ids x) =
      (edges.find? fun row => row.source = x ∧ row.target = y ∨
        row.source = y ∧ row.target = x).map (disjointPair ids directed) := by
    have hpairs : g.pairs = sourcePair ids a :: sinkPair ids b ::
        edges.map (disjointPair ids directed) := h.pairs
    rw [hpairs, List.find?_cons_of_neg, List.find?_cons_of_neg, List.find?_map]
    · congr 1
      exact List.find?_congr fun row hrow => decide_eq_decide.mpr (hiff row hrow)
    · rw [decide_eq_true_eq, show (sinkPair ids b).target = ids.ids.length + 1 from rfl]
      omega
    · rw [decide_eq_true_eq, show (sourcePair ids a).source = ids.ids.length from rfl]
      omega
  obtain ⟨row, hrow, hjoin⟩ := hjoin
  obtain ⟨first, hfirst⟩ := Option.isSome_iff_exists.mp
    (List.find?_isSome.mpr ⟨row, hrow, decide_eq_true hjoin⟩ :
      (edges.find? fun row => row.source = x ∧ row.target = y ∨
        row.source = y ∧ row.target = x).isSome)
  have hedge := g.edge_pair (vertexOf ids x) (vertexOf ids y)
  rw [hfind, hfirst] at hedge
  obtain ⟨e, he, hget⟩ := Option.map_eq_some_iff.mp hedge
  refine ⟨e, he, ?_⟩
  rw [getEdgeId, hget, joiningId, hfirst]
  rfl

/-! ## Lanes as edges of the graph -/

namespace UnitFlow

variable {residual : g.E → Int} (h : UnitFlow g residual ids a b
  (edges.map (disjointPair ids directed))) {l : Lane edges}

/-- The edge of a lane. -/
def laneArc (l : Lane edges) : g.E := (⟨l.1 + 2, by rw [h.pairs]; simp⟩, l.2)

theorem get_laneArc (l : Lane edges) :
    g.pairs.get (h.laneArc l).1 = disjointPair ids directed (edges.get l.1) := by
  simp only [laneArc, List.get_eq_getElem]
  rw [List.getElem_of_eq h.pairs]
  simp

theorem laneArc_inj {l l' : Lane edges} (heq : h.laneArc l = h.laneArc l') : l = l' := by
  simp only [laneArc, Prod.mk.injEq, Fin.mk.injEq, Nat.add_right_cancel_iff] at heq
  exact Prod.ext (Fin.ext heq.1) heq.2

theorem source_laneArc (l : Lane edges) :
    g.source (h.laneArc l) = vertexOf ids ((tableNetwork edges).source l) := by
  rw [source, h.get_laneArc]
  show (if l.2 = true then _ else _) = vertexOf ids (if l.2 = true then _ else _)
  split <;> rfl

theorem target_laneArc (l : Lane edges) :
    g.target (h.laneArc l) = vertexOf ids ((tableNetwork edges).target l) := by
  rw [target, h.get_laneArc]
  show (if l.2 = true then _ else _) = vertexOf ids (if l.2 = true then _ else _)
  split <;> rfl

theorem capacity_laneArc (l : Lane edges) :
    g.capacity (h.laneArc l) = if Open directed (edges.get l.1) l.2 then 1 else 0 := by
  obtain ⟨k, back⟩ := l
  rw [capacity, h.get_laneArc]
  cases back <;> rfl

theorem capacity_first : g.capacity h.first = int32Max := by
  rw [capacity, List.get_eq_getElem, List.getElem_of_eq h.pairs]
  rfl

theorem capacity_last : g.capacity h.last = int32Max := by
  rw [capacity, List.get_eq_getElem, List.getElem_of_eq h.pairs]
  rfl

theorem exists_laneArc {e : g.E} (he : e ∈ flowArcs g residual ids.ids.length) :
    ∃ l, h.laneArc l = e ∧ Open directed (edges.get l.1) l.2 := by
  obtain ⟨hpos, hsource, htarget⟩ := mem_flowArcs.mp he
  have hsourceOf := h.source_first
  have hsupersource := h.shape.supersource
  have hsupersink := h.shape.supersink
  have hlast := h.target_last
  obtain ⟨i, back⟩ := e
  obtain ⟨hi, _⟩ | ⟨hi, _⟩ | ⟨k, hi, _⟩ := get_cases h.pairs i
  · -- the pair at the supersource
    have hpair : i = h.first.1 := Fin.ext hi
    subst hpair
    cases back
    · exact absurd (hsourceOf.trans hsupersource) hsource.ne
    · exact absurd (hsourceOf.trans hsupersource) htarget.ne
  · -- the pair at the supersink
    have hpair : i = h.last.1 := Fin.ext hi
    subst hpair
    have hne : g.supersink < ids.ids.length → False := by omega
    cases back
    · exact (hne (hlast ▸ htarget)).elim
    · exact (hne (hlast ▸ hsource)).elim
  · obtain ⟨l, hl⟩ : ∃ l : Lane edges, h.laneArc l = (i, back) :=
      ⟨(⟨k.val, by simpa using k.isLt⟩, back), Prod.ext (Fin.ext hi.symm) rfl⟩
    refine ⟨l, hl, ?_⟩
    by_contra hclosed
    have hcapacity := h.capacity_laneArc l
    rw [if_neg hclosed, hl] at hcapacity
    have hle := h.isFlow.le (i, back)
    omega

/-- Both directions of a row do not carry the flow. -/
theorem lane_unique {l l' : Lane edges}
    (hl : h.laneArc l ∈ flowArcs g residual ids.ids.length)
    (hl' : h.laneArc l' ∈ flowArcs g residual ids.ids.length) (heq : l.1 = l'.1) : l = l' := by
  refine Prod.ext heq ?_
  by_contra hne
  have hrev : h.laneArc l' = g.rev (h.laneArc l) := by
    refine Prod.ext (Fin.ext ?_) ?_
    · show l'.1.val + 2 = l.1.val + 2
      rw [heq]
    · show l'.2 = !l.2
      cases hback : l.2 <;> cases hback' : l'.2 <;> simp_all
  have hskew : g.flow residual (g.rev (h.laneArc l)) = -g.flow residual (h.laneArc l) :=
    h.isFlow.skew _
  have hpos := (mem_flowArcs.mp hl).1
  have hpos' := (mem_flowArcs.mp hl').1
  rw [hrev, hskew] at hpos'
  omega

include h in
/-- The flow is at most twice the rows. -/
theorem value_le : g.network.net (g.flow residual) g.supersource ≤ 2 * edges.length := by
  have hsub : g.network.outArcs (flowArcs g residual ids.ids.length) (vertexOf ids a) ⊆
      Finset.univ.image h.laneArc := by
    intro e he
    obtain ⟨l, hl, _⟩ := h.exists_laneArc (Finset.mem_filter.mp he).1
    exact Finset.mem_image.mpr ⟨l, Finset.mem_univ l, hl⟩
  have hcard := (Finset.card_le_card hsub).trans Finset.card_image_le
  rw [Finset.card_univ, Fintype.card_prod, Fintype.card_fin, Fintype.card_bool] at hcard
  rw [← h.card_outArcs]
  omega

include h in
/-- The source and the sink are on either side of the smallest cut. -/
theorem exists_cut (hsize : 2 * (edges.length : Int) < int32Max)
    (hmax : ¬ Relation.ReflTransGen (g.network.Residual g.capacity (g.flow residual))
      g.supersource g.supersink) :
    ∃ R : Nat → Prop, ∃ _ : DecidablePred R, R (vertexOf ids a) ∧ ¬ R (vertexOf ids b) ∧
      g.network.net (g.flow residual) g.supersource = ∑ e ∈ g.network.leaving R, g.capacity e := by
  obtain ⟨R, hdec, hs, ht, _, hnet⟩ := h.isFlow.exists_minCut hmax
  have hsmall : ∀ e ∈ g.network.leaving R, g.capacity e < int32Max := by
    intro e he
    have hle := Finset.single_le_sum (fun e _ => h.shape.capacity_nonneg e) he
    have hvalue := h.value_le
    omega
  refine ⟨R, hdec, ?_, ?_, hnet⟩
  · by_contra ha
    have hfirst := hsmall h.first (Finset.mem_filter.mpr ⟨Finset.mem_univ _,
      (h.source_first ▸ hs : R (g.source h.first)), (h.target_first ▸ ha : ¬ R (g.target h.first))⟩)
    rw [h.capacity_first] at hfirst
    exact lt_irrefl _ hfirst
  · intro hb
    have hlast := hsmall h.last (Finset.mem_filter.mpr ⟨Finset.mem_univ _,
      (h.source_last ▸ hb : R (g.source h.last)), (h.target_last ▸ ht : ¬ R (g.target h.last))⟩)
    rw [h.capacity_last] at hlast
    exact lt_irrefl _ hlast

variable (hends : ∀ row ∈ edges, row.source ∈ ids ∧ row.target ∈ ids)
include hends

theorem ends_mem (l : Lane edges) :
    (tableNetwork edges).source l ∈ ids ∧ (tableNetwork edges).target l ∈ ids := by
  have hrow := hends _ (List.get_mem edges l.1)
  unfold tableNetwork
  simp only
  split
  · exact hrow.symm
  · exact hrow

/-- Ways along lanes are ways through the graph. -/
theorem joins_laneArc (hx : x ∈ ids) (p : List (Lane edges)) :
    g.network.Joins (vertexOf ids x) (p.map h.laneArc) (vertexOf ids y) ↔
      (tableNetwork edges).Joins x p y := by
  induction p generalizing x with
  | nil => exact ⟨vertexOf_inj hx, fun heq => heq ▸ rfl⟩
  | cons l p ih =>
    have hmem := ends_mem hends l
    have htail : g.network.source (h.laneArc l) = vertexOf ids x ↔
        (tableNetwork edges).source l = x := by
      rw [show g.network.source (h.laneArc l) = _ from h.source_laneArc l]
      exact ⟨vertexOf_inj hmem.1, fun heq => heq ▸ rfl⟩
    have hhead : g.network.target (h.laneArc l) = vertexOf ids ((tableNetwork edges).target l) :=
      h.target_laneArc l
    rw [List.map_cons, Joins, Joins, htail, hhead, ih hmem.2]

theorem nodes_laneArc (hx : x ∈ ids) (p : List (Lane edges)) :
    g.nodes ids (vertexOf ids x) (p.map h.laneArc) = x :: p.map (tableNetwork edges).target := by
  simp only [nodes, List.map_cons, List.map_map, idAt_vertexOf hx]
  refine congrArg _ (List.map_congr_left fun l _ => ?_)
  simp only [Function.comp_apply, h.target_laneArc, idAt_vertexOf (ends_mem hends l).2]

include h in
/-- The rows of a route. -/
theorem pathRows_spec (startId endId : Int) (p : List (Lane edges))
    (hjoins : (tableNetwork edges).Joins x p endId) :
    g.pathRows startId endId (x :: p.map (tableNetwork edges).target) =
      some (routeRows edges startId endId p) := by
  induction p generalizing x with
  | nil =>
    obtain rfl : x = endId := hjoins
    rfl
  | cons l p ih =>
    obtain ⟨rfl, hrest⟩ := hjoins
    have hmem := ends_mem hends l
    have hjoin : ∃ row ∈ edges, row.source = (tableNetwork edges).source l ∧
        row.target = (tableNetwork edges).target l ∨ row.source = (tableNetwork edges).target l ∧
        row.target = (tableNetwork edges).source l := ⟨_, List.get_mem edges l.1, row_joins l⟩
    obtain ⟨e, he, hid⟩ := edge_joiningId h.shape (fun row hrow => (hends row hrow).1)
      (fun row hrow => (hends row hrow).2) hmem.1 hmem.2 hjoin
    have hvertex : ∀ x, g.getBoostVertex x = vertexOf ids x := fun x => by
      rw [getBoostVertex, h.shape.ids_eq]
      rfl
    rw [List.map_cons, pathRows, hvertex, hvertex, he, Option.bind_eq_bind, Option.bind_some, hid,
      Option.bind_eq_bind, Option.bind_some, ih hrest]
    rfl

include h in
/-- No set of routes without a common lane is larger than the flow. -/
theorem length_le (hsize : 2 * (edges.length : Int) < int32Max)
    (hmax : ¬ Relation.ReflTransGen (g.network.Residual g.capacity (g.flow residual))
      g.supersource g.supersink) {others : List (List (Lane edges))}
    (hroutes : ∀ p ∈ others, IsLaneRoute edges directed a p b) (hnodup : others.flatten.Nodup) :
    (others.length : Int) ≤ g.network.net (g.flow residual) g.supersource := by
  obtain ⟨R, _, ha, hb, hnet⟩ := h.exists_cut hsize hmax
  have hflatten : (others.map (List.map h.laneArc)).flatten = others.flatten.map h.laneArc :=
    List.map_flatten.symm
  rw [hnet, ← List.length_map (f := List.map h.laneArc)]
  refine length_le_of_cut ha hb h.shape.capacity_nonneg (fun q hq => ?_) ?_ fun e he => ?_
  · obtain ⟨p, hp, rfl⟩ := List.mem_map.mp hq
    exact (h.joins_laneArc hends h.source_mem p).mpr (hroutes p hp).1
  · rw [hflatten]
    exact hnodup.map fun l l' heq => h.laneArc_inj heq
  · rw [hflatten] at he
    obtain ⟨l, hl, rfl⟩ := List.mem_map.mp he
    obtain ⟨p, hp, hl⟩ := List.mem_flatten.mp hl
    rw [h.capacity_laneArc, if_pos ((hroutes p hp).2 l hl)]
    exact one_pos

include h in
/-- The walks of the paths are routes. -/
theorem exists_routes {walks : List (List g.E)} (hwalks : Walks g residual ids a b walks) :
    ∃ routes : List (List (Lane edges)), routes.map (List.map h.laneArc) = walks ∧
      (∀ p ∈ routes, IsLaneRoute edges directed a p b) ∧ (routes.flatten.map Prod.fst).Nodup ∧
      ∀ p ∈ routes, ∀ l ∈ p, (edges.get l.1).source ≠ (edges.get l.1).target := by
  have hmem : ∀ p ∈ walks, ∀ e ∈ p, e ∈ flowArcs g residual ids.ids.length := fun p hp e he =>
    hwalks.carried (List.mem_toFinset.mpr (List.mem_flatten.mpr ⟨p, hp, he⟩))
  obtain ⟨routes, rfl⟩ : ∃ routes : List (List (Lane edges)),
      routes.map (List.map h.laneArc) = walks := by
    have hrange : walks ∈ Set.range (List.map (List.map h.laneArc)) := by
      rw [Set.range_list_map]
      intro p hp
      rw [Set.range_list_map]
      intro e he
      obtain ⟨l, hl, _⟩ := h.exists_laneArc (hmem p hp e he)
      exact ⟨l, hl⟩
    exact hrange
  have hcarried : ∀ p ∈ routes, ∀ l ∈ p, h.laneArc l ∈ flowArcs g residual ids.ids.length :=
    fun p hp l hl => hmem _ (List.mem_map_of_mem hp) _ (List.mem_map_of_mem hl)
  refine ⟨routes, rfl, fun p hp => ⟨?_, fun l hl => ?_⟩, ?_, fun p hp l hl hloop => ?_⟩
  · exact (h.joins_laneArc hends h.source_mem p).mp (hwalks.joins _ (List.mem_map_of_mem hp))
  · obtain ⟨l', hl', hopen⟩ := h.exists_laneArc (hcarried p hp l hl)
    rwa [h.laneArc_inj hl'] at hopen
  · have hnodup := hwalks.nodup
    rw [← List.map_flatten] at hnodup
    refine hnodup.of_map.map_on fun l hl l' hl' heq => ?_
    obtain ⟨p, hp, hl⟩ := List.mem_flatten.mp hl
    obtain ⟨p', hp', hl'⟩ := List.mem_flatten.mp hl'
    exact h.lane_unique (hcarried p hp l hl) (hcarried p' hp' l' hl') heq
  · -- A self-loop carries no flow, so that no walk takes it.
    have hends : g.network.source (h.laneArc l) = g.network.target (h.laneArc l) := by
      have hsource : g.network.source (h.laneArc l) = _ := h.source_laneArc l
      have htarget : g.network.target (h.laneArc l) = _ := h.target_laneArc l
      rw [hsource, htarget]
      obtain hrow | hrow := row_joins l
      · rw [← hrow.1, ← hrow.2, hloop]
      · rw [← hrow.1, ← hrow.2, hloop]
    have hzero := h.augmented.loop hends
    have hpos := (mem_flowArcs.mp (hcarried p hp l hl)).1
    omega

include h in
theorem getEdgeDisjointPaths_spec {fuel : Nat} (hfuel : 2 * (edges.length + 2) < fuel) :
    ∃ routes : List (List (Lane edges)),
      g.getEdgeDisjointPaths residual fuel
        (g.network.net (g.flow residual) g.supersource).toNat =
          some (routes.flatMap (routeRows edges a b)) ∧
      routes.length = (g.network.net (g.flow residual) g.supersource).toNat ∧
      (∀ p ∈ routes, IsLaneRoute edges directed a p b) ∧ (routes.flatten.map Prod.fst).Nodup ∧
      ∀ p ∈ routes, ∀ l ∈ p, (edges.get l.1).source ≠ (edges.get l.1).target := by
  have hcard : (flowArcs g residual ids.ids.length).card < fuel := by
    refine lt_of_le_of_lt (Finset.card_le_univ _) ?_
    rw [Fintype.card_prod, Fintype.card_fin, Fintype.card_bool, h.pairs, List.length_cons,
      List.length_cons, List.length_map]
    omega
  obtain ⟨walks, hrun, hwalks, hlength⟩ := h.disjointPaths_spec hcard
  obtain ⟨routes, rfl, hroutes, hnodup, hloops⟩ := h.exists_routes hends hwalks
  rw [List.length_map] at hlength
  refine ⟨routes, ?_, hlength, hroutes, hnodup, hloops⟩
  have hnodes : (routes.map (List.map h.laneArc)).map (g.nodes ids (vertexOf ids a)) =
      routes.map fun p => a :: p.map (tableNetwork edges).target := by
    rw [List.map_map]
    exact List.map_congr_left fun p _ => h.nodes_laneArc hends h.source_mem p
  have hrows : (routes.map fun p => a :: p.map (tableNetwork edges).target).mapM
      (fun path => g.pathRows (path.headD 0) (path.getLastD 0) path) =
        some (routes.map (routeRows edges a b)) := by
    rw [List.mapM_map]
    refine mapM_eq_map fun p hp => ?_
    have hjoins := (hroutes p hp).1
    show g.pathRows a ((a :: p.map (tableNetwork edges).target).getLastD 0) _ = _
    rw [List.getLastD_cons, hjoins.getLastD_target, h.pathRows_spec hends a b p hjoins]
  rw [getEdgeDisjointPaths, hrun, hnodes]
  simp only [Option.bind_eq_bind, Option.bind_some, List.length_map, hlength, guard, if_true, hrows]
  rfl

end UnitFlow

theorem ofDirected_unitFlow (hab : a ≠ b) {r : ((ofDirected edges (.add .empty a) (.add .empty b)
    directed).E → Int) × Int} (hboost : Documented _ r) :
    UnitFlow (ofDirected edges (.add .empty a) (.add .empty b) directed) r.1
      (vertexIds edges (.add .empty a) (.add .empty b)) a b
      (edges.map (disjointPair (vertexIds edges (.add .empty a) (.add .empty b)) directed)) where
  shape := ofDirected_shape edges _ _ directed
  ne := hab
  unit := by
    intro pair hpair
    obtain ⟨row, _, rfl⟩ := List.mem_map.mp hpair
    simp only [disjointPair]
    exact ⟨by split <;> decide, by split <;> decide⟩
  augmented := hboost.augmented

end PgrFlowGraph

namespace MaxFlowDriver

open PgrFlowGraph Multigraph FlowNetwork

variable {edges : List EdgeT} {a b : Int} {directed : Bool}

/-- The paths of a pair are routes from the source to the sink without a common row, and no more
    routes without a common lane are possible. -/
structure IsAnswer (edges : List EdgeT) (directed : Bool) (a b : Int)
    (routes : List (List (Lane edges))) : Prop where
  lead : ∀ p ∈ routes, IsLaneRoute edges directed a p b
  apart : (routes.flatten.map Prod.fst).Nodup
  most : ∀ others : List (List (Lane edges)), (∀ p ∈ others, IsLaneRoute edges directed a p b) →
    others.flatten.Nodup → others.length ≤ routes.length

/-- The rows of an answer are returned. -/
theorem exists_answer (boost : BoostMaxFlow) {fuel : Nat} (hab : a ≠ b)
    (hsize : 2 * (edges.length : Int) < int32Max) (hfuel : 2 * (edges.length + 2) < fuel)
    (hboost : (ofDirected edges (.add .empty a) (.add .empty b) directed).Documented
      (boost.boykovKolmogorov _)) :
    ∃ routes : List (List (Lane edges)),
      singleExecution boost fuel edges a b directed =
        some (routes.flatMap (routeRows edges a b)) ∧
      IsAnswer edges directed a b routes ∧
      ∀ p ∈ routes, ∀ l ∈ p, (edges.get l.1).source ≠ (edges.get l.1).target := by
  have h := ofDirected_unitFlow hab hboost
  have hends : ∀ row ∈ edges, row.source ∈ vertexIds edges (.add .empty a) (.add .empty b) ∧
      row.target ∈ vertexIds edges (.add .empty a) (.add .empty b) := fun row hrow =>
    edge_ends_mem hrow
  obtain ⟨routes, hrun, hlength, hroutes, hnodup, hloops⟩ :=
    h.getEdgeDisjointPaths_spec hends hfuel
  refine ⟨routes, ?_, ⟨hroutes, hnodup, fun others hothers hnodup' => ?_⟩, hloops⟩
  · rw [← hrun, ← hboost.value]
    rfl
  · have hle := h.length_le hends hsize hboost.maximal hothers hnodup'
    omega

/-- **The paths of one pair.** They lead from the source to the sink along open lanes, no row is on
    two of them or twice on one, and no more paths are possible, even if each row may be used once
    in each direction. -/
theorem singleExecution_spec (boost : BoostMaxFlow) (edges : List EdgeT) (a b : Int)
    (directed : Bool) (fuel : Nat) (hab : a ≠ b) (hsize : 2 * (edges.length : Int) < int32Max)
    (hfuel : 2 * (edges.length + 2) < fuel)
    (hboost : (ofDirected edges (.add .empty a) (.add .empty b) directed).Documented
      (boost.boykovKolmogorov _)) :
    ∃ routes : List (List (Lane edges)),
      singleExecution boost fuel edges a b directed =
        some (routes.flatMap (routeRows edges a b)) ∧
      (∀ p ∈ routes, IsLaneRoute edges directed a p b) ∧ (routes.flatten.map Prod.fst).Nodup ∧
      ∀ others : List (List (Lane edges)), (∀ p ∈ others, IsLaneRoute edges directed a p b) →
        others.flatten.Nodup → others.length ≤ routes.length := by
  obtain ⟨routes, hrun, hanswer, _⟩ := exists_answer boost hab hsize hfuel hboost
  exact ⟨routes, hrun, hanswer.lead, hanswer.apart, hanswer.most⟩

/-- The edges at some positions. -/
def arcsOf (g : PgrFlowGraph) (p : List (Nat × Bool)) : List g.E :=
  p.filterMap fun e => if h : e.1 < g.pairs.length then some (⟨e.1, h⟩, e.2) else none

/-- One unit along each path. -/
def flowAlong (g : PgrFlowGraph) (paths : List (List (Nat × Bool))) : g.E → Int :=
  paths.foldl (fun f p => g.network.push f (arcsOf g p) 1) 0

/-- Two ways from 1 to 4, one of them over 2. -/
def twoWays : List EdgeT := [⟨1, 1, 2, 1, -1⟩, ⟨2, 2, 4, 1, -1⟩, ⟨3, 1, 4, 1, -1⟩]

/-- What Boost finds there. -/
def twoPaths : BoostMaxFlow where
  pushRelabel g := (g.capacity, 0)
  edmondsKarp g := (g.capacity, 0)
  boykovKolmogorov g :=
    (fun e => g.capacity e - flowAlong g [[(0, false), (2, false), (3, false), (1, false)],
      [(0, false), (4, false), (1, false)]] e, 2)

theorem twoPaths_documented :
    (ofDirected twoWays (.add .empty 1) (.add .empty 4) true).Documented
      (twoPaths.boykovKolmogorov _) := by
  generalize hg : ofDirected twoWays (.add .empty 1) (.add .empty 4) true = g
  have hflow : g.flow (twoPaths.boykovKolmogorov g).1 =
      flowAlong g [[(0, false), (2, false), (3, false), (1, false)],
        [(0, false), (4, false), (1, false)]] := by
    funext e
    exact sub_sub_cancel _ _
  subst hg
  constructor
  · rw [hflow]
    refine .push (.push .start ⟨rfl, rfl, rfl, rfl, rfl⟩ ?_ one_pos ?_) ⟨rfl, rfl, rfl, rfl⟩ ?_
      one_pos ?_ <;> decide +kernel
  · rw [hflow]
    -- the supersource and the source are all that edges with room to spare reach
    have hclosed : ∀ e : (ofDirected twoWays (.add .empty 1) (.add .empty 4) true).E,
        (network _).source e ∈ [3, 0] → flowAlong _ [[(0, false), (2, false), (3, false),
          (1, false)], [(0, false), (4, false), (1, false)]] e < capacity _ e →
        (network _).target e ∈ [3, 0] := by
      decide +kernel
    generalize hsink : (ofDirected twoWays (.add .empty 1) (.add .empty 4) true).supersink = v
    intro hreach
    have hmem : v ∈ [3, 0] := by
      clear hsink
      induction hreach with
      | refl => decide +kernel
      | tail _ hstep ih =>
        obtain ⟨e, rfl, rfl, hroom⟩ := hstep
        exact hclosed e ih hroom
    rw [← hsink] at hmem
    exact absurd hmem (by decide +kernel)
  · rw [hflow]
    decide +kernel

/-- The two ways. -/
theorem singleExecution_spec_twoWays : ∃ routes : List (List (Lane twoWays)),
    singleExecution twoPaths 11 twoWays 1 4 true = some (routes.flatMap (routeRows twoWays 1 4)) ∧
      (∀ p ∈ routes, IsLaneRoute twoWays true 1 p 4) ∧ (routes.flatten.map Prod.fst).Nodup ∧
      ∀ others : List (List (Lane twoWays)), (∀ p ∈ others, IsLaneRoute twoWays true 1 p 4) →
        others.flatten.Nodup → others.length ≤ routes.length :=
  singleExecution_spec twoPaths twoWays 1 4 true 11 (by decide) (by decide) (by decide)
    twoPaths_documented

end MaxFlowDriver

end PgRouting
