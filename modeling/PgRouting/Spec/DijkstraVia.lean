import PgRouting.Native.DijkstraVia
import PgRouting.Spec.Route
import PgRouting.Spec.SearchVisits
import Mathlib.Algebra.BigOperators.Group.Multiset.Defs

/-!
# The legs of `dijkstraVia`

Between two legs `dijkstraVia` takes the edge by which the vertex has been reached
out of the graph. What is left are the steps that do not leave the vertex by it, so
a shortest route of the smaller graph is a shortest route of the whole one that does
not start with the edge. Putting the edge back restores the multiset of edges, on
which steps, routes and degrees depend. The function for one pair takes the first
path of an answer that is empty when the graph does not have one of the ends.

## Key results

- `step_disconnectOutGoingEdge`: the steps that are left
- `Ready.restore`: the edges are put back
- `leg_spec`: one leg
- `dijkstraVia_answers_iff`
-/

namespace PgRouting

namespace PgrBaseGraph

variable {g h : PgrBaseGraph BasicVertex BasicEdge} {u v a : Nat} {s t eid : Int}

/-! ## The steps that are left -/

/-- The edge leaves the vertex `v` and has the id. -/
def isOutGoing (directed : Bool) (v : Nat) (eid : Int) (e : BoostEdge BasicEdge) : Bool :=
  e.bundle.id = eid ∧ (e.source = v ∨ !directed ∧ e.target = v)

variable (g v eid) in
/-- The loop finds the first edge that leaves the vertex with the id. -/
theorem findOutGoing_spec (edges : List (BoostEdge BasicEdge)) : ∀ k,
    (g.findOutGoing v eid edges k = none ∧
      ∀ e ∈ edges, isOutGoing g.graph.directed v eid e = false) ∨
    ∃ before e after out, edges = before ++ e :: after ∧
      isOutGoing g.graph.directed v eid e = true ∧
      g.findOutGoing v eid edges k = some (k + before.length, out) := by
  induction edges with
  | nil => exact fun k => .inl ⟨rfl, fun e he => nomatch he⟩
  | cons e edges ih =>
    intro k
    rw [findOutGoing]
    -- In an undirected graph the edge may leave the vertex at its target.
    by_cases hs : e.bundle.id = eid ∧ e.source = v
    · refine .inr ⟨[], e, edges, e, rfl, ?_, by rw [if_pos hs]; rfl⟩
      simp [isOutGoing, hs]
    · by_cases ht : e.bundle.id = eid ∧ !g.graph.directed ∧ e.target = v
      · refine .inr ⟨[], e, edges, e.flip, rfl, ?_, by rw [if_neg hs, if_pos ht]; rfl⟩
        simp only [isOutGoing, decide_eq_true_eq]
        exact ⟨ht.1, .inr ht.2⟩
      · rw [if_neg hs, if_neg ht]
        have he : isOutGoing g.graph.directed v eid e = false := by
          simp only [isOutGoing, decide_eq_false_iff_not]
          rintro ⟨hid, hcase⟩
          obtain hcase | hcase := hcase
          · exact hs ⟨hid, hcase⟩
          · exact ht ⟨hid, hcase⟩
        obtain ⟨hnone, hall⟩ | ⟨before, x, after, out, rfl, hx, hsome⟩ := ih (k + 1)
        · refine .inl ⟨hnone, fun x hx => ?_⟩
          obtain rfl | hx := List.mem_cons.mp hx
          · exact he
          · exact hall x hx
        · refine .inr ⟨e :: before, x, after, out, rfl, hx, ?_⟩
          rw [hsome, List.length_cons]
          congr 2
          omega

/-- The loop removes every edge that leaves the vertex with the id. -/
theorem edges_disconnectOutGoingLoop (n : Nat) : ∀ g : PgrBaseGraph BasicVertex BasicEdge,
    (g.graph.edges.filter (isOutGoing g.graph.directed v eid)).length ≤ n →
    (disconnectOutGoingLoop v eid n g).graph.edges =
      g.graph.edges.filter fun e => !isOutGoing g.graph.directed v eid e := by
  induction n with
  | zero =>
    intro g hn
    have hnil := List.length_eq_zero_iff.mp (Nat.le_zero.mp hn)
    rw [disconnectOutGoingLoop, eq_comm, List.filter_eq_self]
    intro e he
    simpa using List.filter_eq_nil_iff.mp hnil e he
  | succ n ih =>
    intro g hn
    obtain ⟨hnone, hall⟩ | ⟨before, e, after, out, hedges, he, hsome⟩ :=
      findOutGoing_spec g v eid g.graph.edges 0
    · rw [disconnectOutGoingLoop, hnone, eq_comm, List.filter_eq_self]
      intro e he
      rw [hall e he]
      rfl
    · rw [disconnectOutGoingLoop, hsome]
      simp only [Nat.zero_add]
      -- The edge that has been found goes, and one fewer is left to find.
      have herase : g.graph.edges.eraseIdx before.length = before ++ after := by
        rw [hedges, List.eraseIdx_append_of_length_le (le_refl _), Nat.sub_self]
        rfl
      rw [ih]
      · show List.filter _ (g.graph.edges.eraseIdx before.length) = _
        rw [herase, hedges]
        simp only [List.filter_append, List.filter_cons, he]
        rfl
      · simp only [herase]
        rw [hedges] at hn
        simp only [List.filter_append, List.filter_cons, he, if_true, List.length_append,
          List.length_cons] at hn ⊢
        omega

/-- Disconnecting moves edges to the saved ones and loses none. -/
theorem disconnectOutGoingEdge_spec (hg : g.WellFormed) (vid eid : Int) :
    Disconnects g (g.disconnectOutGoingEdge vid eid) ∧
      (g.disconnectOutGoingEdge vid eid).pool = g.pool := by
  rw [disconnectOutGoingEdge]
  split
  · exact disconnectOutGoingLoop_spec eid _ hg
  · exact ⟨.refl g, rfl⟩

theorem edges_disconnectOutGoingEdge (hs : g.verticesMap s = some a) :
    (g.disconnectOutGoingEdge s eid).graph.edges =
      g.graph.edges.filter fun e => !isOutGoing g.graph.directed a eid e := by
  simp only [disconnectOutGoingEdge, hs]
  exact edges_disconnectOutGoingLoop _ g (List.length_filter_le _ _)

/-- The steps that are left do not leave the vertex by the edge. -/
theorem step_disconnectOutGoingEdge (hg : g.Consistent) (hwf : g.WellFormed)
    (hs : g.verticesMap s = some a) {i id j : Int} {c : ℚ} :
    (g.disconnectOutGoingEdge s eid).Step i id j c ↔ g.Step i id j c ∧
      ¬ (id = eid ∧ (i = s ∨ g.graph.directed = false ∧ j = s)) := by
  obtain ⟨hdisc, _⟩ := disconnectOutGoingEdge_spec hwf s eid
  have hsame : ∀ {k x}, g.verticesMap k = some x → (x = a ↔ k = s) := by
    intro k x hk
    constructor
    · rintro rfl
      exact (hg.vertexId_eq hk).symm.trans (hg.vertexId_eq hs)
    · rintro rfl
      exact Option.some.inj (hk.symm.trans hs)
  have hmem : ∀ {x y}, g.verticesMap i = some x → g.verticesMap j = some y →
      ((id, endVertices g.graph.directed x y, c) ∈ (g.disconnectOutGoingEdge s eid).edgeMultiset ↔
        (id, endVertices g.graph.directed x y, c) ∈ g.edgeMultiset ∧
          ¬ (id = eid ∧ (i = s ∨ g.graph.directed = false ∧ j = s))) := by
    intro x y hi hj
    rw [mem_edgeMultiset, mem_edgeMultiset, hdisc.directed, edges_disconnectOutGoingEdge hs]
    -- Whether an edge has been removed can be told from its item.
    have hout : ∀ e, item g.graph.directed e = (id, endVertices g.graph.directed x y, c) →
        (isOutGoing g.graph.directed a eid e = true ↔
          id = eid ∧ (i = s ∨ g.graph.directed = false ∧ j = s)) := by
      intro e he
      simp only [item, Prod.mk.injEq] at he
      obtain ⟨rfl, hends, rfl⟩ := he
      simp only [isOutGoing, decide_eq_true_eq, Bool.not_eq_true', ← hsame hi, ← hsame hj]
      obtain ⟨rfl, rfl⟩ | ⟨hd, rfl, rfl⟩ := endVertices_eq_iff.mp hends
      · rfl
      · simp only [hd, true_and, or_comm]
    constructor
    · rintro ⟨e, he, hitem⟩
      obtain ⟨he, hnot⟩ := List.mem_filter.mp he
      refine ⟨⟨e, he, hitem⟩, fun hcon => ?_⟩
      rw [(hout e hitem).mpr hcon] at hnot
      cases hnot
    · rintro ⟨⟨e, he, hitem⟩, hnot⟩
      refine ⟨e, List.mem_filter.mpr ⟨he, ?_⟩, hitem⟩
      rw [Bool.not_eq_true', ← Bool.not_eq_true]
      exact fun hcon => hnot ((hout e hitem).mp hcon)
  simp only [Step, hdisc.map, hdisc.directed]
  constructor
  · rintro ⟨x, y, hi, hj, h⟩
    obtain ⟨h, hnot⟩ := (hmem hi hj).mp h
    exact ⟨⟨x, y, hi, hj, h⟩, hnot⟩
  · rintro ⟨⟨x, y, hi, hj, h⟩, hnot⟩
    exact ⟨x, y, hi, hj, (hmem hi hj).mpr ⟨h, hnot⟩⟩

/-! ## Putting edges back -/

/-- The graphs have the same vertices and the same edges, in some order. -/
structure Same (g h : PgrBaseGraph BasicVertex BasicEdge) : Prop where
  directed : h.graph.directed = g.graph.directed
  vertices : h.graph.vertices = g.graph.vertices
  map : h.verticesMap = g.verticesMap
  edges : h.edgeMultiset = g.edgeMultiset

theorem Same.step (hsame : Same g h) : h.Step = g.Step := by
  unfold Step
  rw [hsame.map, hsame.directed, hsame.edges]

/-- How often the edge is an out edge of the vertex. -/
def outCount (directed : Bool) (v : Nat) (x : Item) : Nat :=
  (if x.2.1.1 = v then 1 else 0) + if !directed ∧ x.2.1.2 = v then 1 else 0

theorem length_outEdges (g : PgrBaseGraph BasicVertex BasicEdge) (v : Nat) :
    (g.graph.outEdges v).length = (g.edgeMultiset.map (outCount g.graph.directed v)).sum := by
  rw [AdjacencyList.outEdges, edgeMultiset, Multiset.map_coe, Multiset.sum_coe, List.map_map]
  induction g.graph.edges with
  | nil => rfl
  | cons e edges ih =>
    rw [List.flatMap_cons, List.length_append, ih, List.map_cons, List.sum_cons]
    congr 1
    simp only [Function.comp, outCount, item, endVertices]
    cases g.graph.directed with
    | true =>
      simp only [Bool.not_true, Bool.false_eq_true, false_and, if_true, if_false]
      split <;> rfl
    | false =>
      simp only [Bool.not_false, true_and, Bool.false_eq_true, if_false]
      obtain ⟨hmin, hmax⟩ | ⟨hmin, hmax⟩ : (min e.source e.target = e.source ∧
          max e.source e.target = e.target) ∨
          (min e.source e.target = e.target ∧ max e.source e.target = e.source) := by omega
      · rw [hmin, hmax]
        split <;> split <;> rfl
      · rw [hmin, hmax]
        split <;> split <;> rfl

theorem Same.outDegree (hsame : Same g h) (s : Int) : h.outDegree s = g.outDegree s := by
  simp only [PgrBaseGraph.outDegree, hsame.map]
  split
  · rw [length_outEdges, length_outEdges, hsame.edges, hsame.directed]
  · rfl

/-- A graph that `dijkstraVia` can be in: ids and descriptors agree, costs are not negative and no
    edge is saved. -/
structure Ready (g : PgrBaseGraph BasicVertex BasicEdge) : Prop where
  consistent : g.Consistent
  costs : ∀ e ∈ g.graph.edges, 0 ≤ e.bundle.cost
  saved : g.removedEdges = []

theorem Ready.wellFormed (hg : g.Ready) : g.WellFormed where
  ends := hg.consistent.ends
  ids v x hx := (hg.consistent.map x.id v).mpr ⟨x, hx, rfl⟩
  costs := hg.costs
  saved b hb := by
    rw [hg.saved] at hb
    cases hb

theorem ofTable_ready (directed : Bool) (es : List EdgeT) :
    (ofTable directed es : PgrBaseGraph BasicVertex BasicEdge).Ready :=
  ⟨ofTable_consistent directed es, ofTable_cost_nonneg directed es,
    ofTable_removedEdges directed es⟩

/-- Restoring edges changes nothing but the edges. -/
theorem foldl_restoreEdge (saved : List BasicEdge) : ∀ g : PgrBaseGraph BasicVertex BasicEdge,
    g.Consistent → (∀ e ∈ g.graph.edges, 0 ≤ e.bundle.cost) →
    let h := saved.foldl (fun g edge => g.restoreEdge edge) g
    h.Consistent ∧ (∀ e ∈ h.graph.edges, 0 ≤ e.bundle.cost) ∧
      h.graph.directed = g.graph.directed ∧ h.graph.vertices = g.graph.vertices ∧
      h.verticesMap = g.verticesMap := by
  induction saved with
  | nil => exact fun g hg hcosts => ⟨hg, hcosts, rfl, rfl, rfl⟩
  | cons edge saved ih =>
    intro g hg hcosts
    have hone : (g.restoreEdge edge).Consistent ∧
        (∀ e ∈ (g.restoreEdge edge).graph.edges, 0 ≤ e.bundle.cost) ∧
        (g.restoreEdge edge).graph.directed = g.graph.directed ∧
        (g.restoreEdge edge).graph.vertices = g.graph.vertices ∧
        (g.restoreEdge edge).verticesMap = g.verticesMap := by
      rw [restoreEdge]
      split
      · rename_i u v hu hv
        split
        · rename_i hcost
          refine ⟨(addNew_spec hg hu hv edge.id edge.cost).1, fun e he => ?_, rfl, rfl, rfl⟩
          obtain he | he := List.mem_append.mp he
          · exact hcosts e he
          · rw [List.mem_singleton.mp he]
            exact hcost
        · exact ⟨hg, hcosts, rfl, rfl, rfl⟩
      · exact ⟨hg, hcosts, rfl, rfl, rfl⟩
    obtain ⟨hcons, hcosts, hdir, hvert, hmap⟩ := hone
    obtain ⟨hcons', hcosts', hdir', hvert', hmap'⟩ := ih _ hcons hcosts
    exact ⟨hcons', hcosts', hdir'.trans hdir, hvert'.trans hvert, hmap'.trans hmap⟩

theorem Disconnects.consistent (hdisc : Disconnects g h) (hg : g.Consistent) : h.Consistent := by
  refine ⟨fun i v => ?_, fun e he => ?_⟩
  · rw [hdisc.map, hdisc.vertices]
    exact hg.map i v
  · rw [hdisc.vertices]
    exact hg.ends e (hdisc.edges he)

/-- After edges have been taken out and what is saved has been put back the graph is ready, and its
    vertices are the same. -/
theorem Ready.restored (hg : g.Ready) (hdisc : Disconnects g h) : h.restoreGraph.Ready ∧
    h.restoreGraph.graph.directed = g.graph.directed ∧
    h.restoreGraph.graph.vertices = g.graph.vertices ∧
    h.restoreGraph.verticesMap = g.verticesMap := by
  obtain ⟨hcons, hcosts, hdir, hvert, hmap⟩ := foldl_restoreEdge h.removedEdges h
    (hdisc.consistent hg.consistent) fun e he => hg.costs e (hdisc.edges he)
  exact ⟨⟨⟨hcons.map, hcons.ends⟩, hcosts, rfl⟩, hdir.trans hdisc.directed,
    hvert.trans hdisc.vertices, hmap.trans hdisc.map⟩

/-- After an edge has been taken out and put back the graph is the same. -/
theorem Ready.restore (hg : g.Ready) (hdisc : Disconnects g h) (hpool : h.pool = g.pool) :
    h.restoreGraph.Ready ∧ Same g h.restoreGraph := by
  obtain ⟨hready, hdir, hvert, hmap⟩ := hg.restored hdisc
  refine ⟨hready, hdir, hvert, hmap, ?_⟩
  rw [edgeMultiset_restoreGraph (hdisc.wellFormed hg.wellFormed), hpool, pool, hg.saved]
  simp

/-- The vertices are the same, and the edges are some of those of `g`. -/
structure Part (g : PgrBaseGraph BasicVertex BasicEdge)
    (h : AdjacencyList BasicVertex BasicEdge) : Prop where
  directed : h.directed = g.graph.directed
  vertices : h.vertices = g.graph.vertices
  edges : (↑(h.edges.map (item h.directed)) : Multiset Item) ≤ g.edgeMultiset

theorem Same.part (hsame : Same g h) : Part g h.graph :=
  ⟨hsame.directed, hsame.vertices, le_of_eq hsame.edges⟩

theorem Same.part_disconnect (hsame : Same g h) (hh : h.Ready) (hs : h.verticesMap s = some a) :
    Part g (h.disconnectOutGoingEdge s eid).graph := by
  obtain ⟨hdisc, _⟩ := disconnectOutGoingEdge_spec hh.wellFormed s eid
  refine ⟨hdisc.directed.trans hsame.directed, hdisc.vertices.trans hsame.vertices, ?_⟩
  rw [← hsame.edges, hdisc.directed, edges_disconnectOutGoingEdge hs, edgeMultiset,
    Multiset.coe_le]
  exact (List.filter_sublist.map _).subperm

end PgrBaseGraph

open PgrBaseGraph Path

namespace Algorithms

variable {boost : BoostDijkstra BasicVertex BasicEdge} {g h : PgrBaseGraph BasicVertex BasicEdge}
variable {s t : Int} {p prev : Path} {strict uTurn : Bool}

/-! ## One leg -/

/-- A shortest route among those that do not start with the edge `avoid`. -/
structure Shortest (g : PgrBaseGraph BasicVertex BasicEdge) (avoid : Option Int) (s t : Int)
    (p : Path) : Prop where
  route : Path.IsRoute g.Step s t p
  avoids : p.firstEdge ≠ avoid
  le : ∀ q, Path.IsRoute g.Step s t q → q.firstEdge ≠ avoid → p.rowsCost ≤ q.rowsCost

/-- There is no route that does not start with the edge `avoid`. -/
def NoRoute (g : PgrBaseGraph BasicVertex BasicEdge) (avoid : Option Int) (s t : Int) : Prop :=
  ∀ q, Path.IsRoute g.Step s t q → q.firstEdge = avoid

/-- The answer for one pair: a shortest route by the rule, or without it when the rule leaves none,
    or no row when there is no route. -/
structure Answer (g : PgrBaseGraph BasicVertex BasicEdge) (avoid : Option Int) (s t : Int)
    (p : Path) : Prop where
  startId : p.startId = s
  endId : p.endId = t
  shortest : Shortest g avoid s t p ∨ NoRoute g avoid s t ∧
    (Shortest g none s t p ∨ NoRoute g none s t ∧ p.path = [])

/-- The edge that the leg from `s` is not to start with after the leg `prev`. -/
def avoided (g : PgrBaseGraph BasicVertex BasicEdge) (uTurn : Bool) (prev : Path) (s : Int) :
    Option Int :=
  if uTurn ∨ g.outDegree s ≤ 1 then none else prev.lastEdge

/-- Without an edge to avoid the answer is what Dijkstra returns. -/
theorem answer_none (hsame : Same g h) (hh : h.Consistent) {a b : Nat}
    (hs : h.verticesMap s = some a) (ht : h.verticesMap t = some b)
    (hboost : (boost h.graph a [b]).Documented h.graph a [b]) :
    ∃ p, dijkstra boost h s t false = some p ∧ p.startId = s ∧ p.endId = t ∧
      (Shortest g none s t p ∨ NoRoute g none s t ∧ p.path = []) := by
  obtain ⟨p, hp, hps, hpt, hcase⟩ := dijkstra_route hh hs ht hboost
  rw [hsame.step] at hcase
  refine ⟨p, hp, hps, hpt, ?_⟩
  obtain ⟨hnil, hnone⟩ | ⟨hroute, hmin⟩ := hcase
  · exact .inr ⟨fun q hq => absurd hq (hnone q), hnil⟩
  · exact .inl ⟨hroute, hroute.firstEdge_ne_none, fun q hq _ => hmin q hq⟩

/-- With the edge taken out Dijkstra returns a shortest route that does not start with it. -/
theorem answer_some (hsame : Same g h) (hh : h.Ready) {a b : Nat} {eid : Int}
    (hs : h.verticesMap s = some a) (ht : h.verticesMap t = some b)
    (hboost : let h₁ := h.disconnectOutGoingEdge s eid
      (boost h₁.graph a [b]).Documented h₁.graph a [b]) :
    ∃ p, dijkstra boost (h.disconnectOutGoingEdge s eid) s t false = some p ∧
      p.startId = s ∧ p.endId = t ∧
      (Shortest g (some eid) s t p ∨ NoRoute g (some eid) s t ∧ p.path = []) := by
  obtain ⟨hdisc, _⟩ := disconnectOutGoingEdge_spec hh.wellFormed s eid
  have hstep : ∀ i id j c, (h.disconnectOutGoingEdge s eid).Step i id j c ↔ g.Step i id j c ∧
      ¬ (id = eid ∧ (i = s ∨ h.graph.directed = false ∧ j = s)) := by
    intro i id j c
    rw [step_disconnectOutGoingEdge hh.consistent hh.wellFormed hs, hsame.step]
  -- The routes of the smaller graph are those that do not start with the edge.
  have hroute : ∀ q, Path.IsRoute (h.disconnectOutGoingEdge s eid).Step s t q ↔
      Path.IsRoute g.Step s t q ∧ q.firstEdge ≠ some eid := by
    intro q
    constructor
    · intro hq
      refine ⟨hq.mono fun i id j c hst _ _ => ((hstep i id j c).mp hst).1, fun hfirst => ?_⟩
      obtain ⟨id, j, c, hid, hst⟩ := hq.firstStep
      obtain rfl : id = eid := Option.some.inj (hid.symm.trans hfirst)
      exact ((hstep s id j c).mp hst).2 ⟨rfl, .inl rfl⟩
    · rintro ⟨hq, hfirst⟩
      refine hq.mono fun i id j c hst hi hj => (hstep i id j c).mpr ⟨hst, ?_⟩
      rintro ⟨rfl, rfl | ⟨_, rfl⟩⟩
      · exact hfirst (hi rfl)
      · exact hj rfl
  obtain ⟨p, hp, hps, hpt, hcase⟩ := dijkstra_route (hdisc.consistent hh.consistent)
    (hdisc.map ▸ hs) (hdisc.map ▸ ht) hboost
  refine ⟨p, hp, hps, hpt, ?_⟩
  obtain ⟨hnil, hnone⟩ | ⟨hp, hmin⟩ := hcase
  · refine .inr ⟨fun q hq => ?_, hnil⟩
    by_contra hfirst
    exact hnone q ((hroute q).mpr ⟨hq, hfirst⟩)
  · obtain ⟨hp, hfirst⟩ := (hroute p).mp hp
    exact .inl ⟨hp, hfirst, fun q hq hne => hmin q ((hroute q).mpr ⟨hq, hne⟩)⟩

/-- The edge that is to be removed is the one by which the path has reached its end. -/
theorem lastEdge_eq (hlen : 1 < p.path.length) :
    p.lastEdge = some ((p.path[p.path.length - 2]?.map (·.edge)).getD 0) := by
  have hget : p.path.dropLast.getLast? = p.path[p.path.length - 2]? := by
    rw [List.getLast?_eq_getElem?, List.length_dropLast, List.getElem?_dropLast,
      if_pos (by omega)]
    rfl
  rw [lastEdge, hget, List.getElem?_eq_getElem (by omega)]
  rfl

theorem lastEdge_eq_none (hlen : p.path.length ≤ 1) : p.lastEdge = none := by
  have hnil : p.path.dropLast = [] := by
    rw [← List.length_eq_zero_iff, List.length_dropLast]
    omega
  rw [lastEdge, hnil]
  rfl

/-- What `dijkstraVia` relies on: Dijkstra works on the graph and on any part of it. -/
def Works (boost : BoostDijkstra BasicVertex BasicEdge)
    (g : PgrBaseGraph BasicVertex BasicEdge) : Prop :=
  ∀ h, Part g h → ∀ a < h.numVertices, ∀ b < h.numVertices, (boost h a [b]).Documented h a [b]

/-- An answer that needs no edge to be avoided. -/
theorem answer_of_none (hps : p.startId = s) (hpt : p.endId = t)
    (hcase : Shortest g none s t p ∨ NoRoute g none s t ∧ p.path = []) : Answer g none s t p :=
  ⟨hps, hpt, hcase.imp id fun hno => ⟨hno.1, .inr hno⟩⟩

theorem Works.documented (hboost : Works boost g) {a b : Nat} (hs : g.verticesMap s = some a)
    (ht : g.verticesMap t = some b) (hh : h.Consistent) (hpart : Part g h.graph)
    (hmap : h.verticesMap = g.verticesMap) : (boost h.graph a [b]).Documented h.graph a [b] :=
  hboost h.graph hpart a (hh.lt (hmap ▸ hs)) b (hh.lt (hmap ▸ ht))

/-- What Dijkstra returns with all edges in the graph. -/
theorem answer_plain (hboost : Works boost g) (hsame : Same g h) (hh : h.Ready) {a b : Nat}
    (hs : g.verticesMap s = some a) (ht : g.verticesMap t = some b) :
    ∃ p, dijkstra boost h s t false = some p ∧ p.startId = s ∧ p.endId = t ∧
      (Shortest g none s t p ∨ NoRoute g none s t ∧ p.path = []) :=
  answer_none hsame hh.consistent (hsame.map ▸ hs) (hsame.map ▸ ht)
    (hboost.documented hs ht hh.consistent hsame.part hsame.map)

/-- After the deletion, whatever it was, a path or none is found, and the edges can be put
    back. -/
theorem deleteUTurn_spec (hboost : Works boost g) (hsame : Same g h) (hh : h.Ready) {a b : Nat}
    (hs : g.verticesMap s = some a) (ht : g.verticesMap t = some b) (prev : Path) :
    let h₁ := deleteUTurn h prev s
    (h₁.restoreGraph.Ready ∧ Same g h₁.restoreGraph) ∧
      ∃ p, dijkstra boost h₁ s t false = some p ∧ p.startId = s ∧ p.endId = t ∧
        (Shortest g (avoided g false prev s) s t p ∨
          NoRoute g (avoided g false prev s) s t ∧ p.path = []) := by
  have hrestore : ∀ h₁, Disconnects h h₁ → h₁.pool = h.pool →
      h₁.restoreGraph.Ready ∧ Same g h₁.restoreGraph := by
    intro h₁ hdisc hpool
    obtain ⟨hready, hsame'⟩ := hh.restore hdisc hpool
    exact ⟨hready, hsame'.directed.trans hsame.directed, hsame'.vertices.trans hsame.vertices,
      hsame'.map.trans hsame.map, hsame'.edges.trans hsame.edges⟩
  have hkeep := hrestore h (.refl h) rfl
  have hplain := answer_plain hboost hsame hh hs ht
  intro h₁
  by_cases hlen : prev.path.length > 1
  · -- The edge goes only when it is not the only one that leaves the vertex.
    by_cases hdeg : h.outDegree s > 1
    · have hdel : h₁ = h.disconnectOutGoingEdge s
          ((prev.path[prev.path.length - 2]?.map (·.edge)).getD 0) := by
        simp only [h₁, deleteUTurn, if_pos hlen, if_pos hdeg]
      have havoid : avoided g false prev s =
          some ((prev.path[prev.path.length - 2]?.map (·.edge)).getD 0) := by
        rw [hsame.outDegree] at hdeg
        rw [avoided, if_neg, lastEdge_eq hlen]
        simp
        omega
      obtain ⟨hdisc, hpool⟩ := disconnectOutGoingEdge_spec hh.wellFormed s
        ((prev.path[prev.path.length - 2]?.map (·.edge)).getD 0)
      rw [hdel, havoid]
      exact ⟨hrestore _ hdisc hpool, answer_some hsame hh (hsame.map ▸ hs) (hsame.map ▸ ht)
        (hboost.documented hs ht (hdisc.consistent hh.consistent)
          (hsame.part_disconnect hh (hsame.map ▸ hs)) (hdisc.map.trans hsame.map))⟩
    · -- The dead end: the way back is the only way, so the edge stays.
      have hdel : h₁ = h := by
        simp only [h₁, deleteUTurn, if_pos hlen, if_neg hdeg]
      have havoid : avoided g false prev s = none := by
        rw [hsame.outDegree] at hdeg
        rw [avoided, if_pos (.inr (by omega))]
      rw [hdel, havoid]
      exact ⟨hkeep, hplain⟩
  · have hdel : h₁ = h := if_neg hlen
    have havoid : avoided g false prev s = none := by
      rw [avoided, lastEdge_eq_none (by omega), ite_self]
    rw [hdel, havoid]
    exact ⟨hkeep, hplain⟩

variable (uTurn) in
/-- One leg, from any state of the graph. -/
theorem leg_spec (hboost : Works boost g) (hsame : Same g h) (hh : h.Ready) {a b : Nat}
    (hs : g.verticesMap s = some a) (ht : g.verticesMap t = some b) {i : Nat}
    (hi : i ≤ 1 → prev.path = []) :
    ∃ p h', leg boost h uTurn i prev s t = some (p, h') ∧ Same g h' ∧ h'.Ready ∧
      Answer g (avoided g uTurn prev s) s t p := by
  by_cases hrule : (!uTurn) = true ∧ i > 1
  · have huTurn : uTurn = false := by simpa using hrule.1
    obtain ⟨⟨hh₁, hsame₁⟩, p₁, hp₁, hps₁, hpt₁, hcase₁⟩ :=
      deleteUTurn_spec hboost hsame hh hs ht prev
    rw [leg, if_pos hrule, huTurn]
    simp only [hp₁, Option.bind_eq_bind, Option.bind_some]
    by_cases hnil : p₁.path.length = 0
    · -- The edge is back in the graph and Dijkstra is asked again.
      obtain ⟨p₂, hp₂, hps₂, hpt₂, hcase₂⟩ := answer_plain hboost hsame₁ hh₁ hs ht
      rw [if_pos hnil, hp₂]
      refine ⟨p₂, _, rfl, hsame₁, hh₁, hps₂, hpt₂, .inr ⟨?_, hcase₂⟩⟩
      obtain hshort | ⟨hno, _⟩ := hcase₁
      · exact absurd (List.length_eq_zero_iff.mp hnil) hshort.route.ne_nil
      · exact hno
    · rw [if_neg hnil]
      refine ⟨p₁, _, rfl, hsame₁, hh₁, hps₁, hpt₁, hcase₁.imp id fun hno => ?_⟩
      exact absurd (List.length_eq_zero_iff.mpr hno.2) hnil
  · obtain ⟨p, hp, hps, hpt, hcase⟩ := answer_plain hboost hsame hh hs ht
    have havoid : avoided g uTurn prev s = none := by
      rw [avoided]
      split
      · rfl
      · rename_i hno
        have huTurn : uTurn = false := by simpa using fun hu => hno (.inl hu)
        have hi : prev.path = [] := hi (by simpa [huTurn] using hrule)
        exact lastEdge_eq_none (by rw [hi]; exact Nat.zero_le _)
    rw [leg, if_neg hrule, hp, havoid]
    exact ⟨p, h, rfl, hsame, hh, answer_of_none hps hpt hcase⟩

/-- A leg to or from a vertex that the graph does not have takes the first of no paths. -/
theorem leg_unknown (hsame : Same g h) (hwf : h.WellFormed)
    (hst : g.verticesMap s = none ∨ g.verticesMap t = none) (i : Nat) :
    leg boost h uTurn i prev s t = none := by
  have hdel : (deleteUTurn h prev s).verticesMap = g.verticesMap := by
    rw [← hsame.map, deleteUTurn]
    split
    · simp only
      split
      · exact (disconnectOutGoingEdge_spec hwf s _).1.map
      · rfl
    · rfl
  rw [leg]
  split
  · show (dijkstra boost (deleteUTurn h prev s) s t false).bind _ = none
    rw [dijkstra_unknown (hdel ▸ hst)]
    rfl
  · rw [dijkstra_unknown (hsame.map ▸ hst)]
    rfl

/-! ## All legs -/

/-- One answer for every two vertices that follow each other; `prev` is the leg before them. -/
def Answers (g : PgrBaseGraph BasicVertex BasicEdge) (uTurn : Bool) :
    Path → List Int → List Path → Prop
  | prev, s :: t :: via, p :: paths =>
    Answer g (avoided g uTurn prev s) s t p ∧ Answers g uTurn p (t :: via) paths
  | _, _ :: _ :: _, [] => False
  | _, _, paths => paths = []

/-- There is no route for some two vertices that follow each other. -/
def SomeLegFails (g : PgrBaseGraph BasicVertex BasicEdge) : List Int → Prop
  | s :: t :: via => NoRoute g none s t ∨ SomeLegFails g (t :: via)
  | _ => False

/-- The graph has both ends of every leg up to the one that ends a strict run. -/
def LegsKnown (g : PgrBaseGraph BasicVertex BasicEdge) (strict : Bool) : List Int → Prop
  | s :: t :: via => (g.hasVertex s ∧ g.hasVertex t) ∧
      (strict = true ∧ NoRoute g none s t ∨ LegsKnown g strict (t :: via))
  | _ => True

/-- An answer has no row exactly when there is no route at all. -/
theorem Answer.nil_iff {avoid : Option Int} (hp : Answer g avoid s t p) :
    p.path = [] ↔ NoRoute g none s t := by
  have hroute : ∀ {avoid}, Shortest g avoid s t p → p.path ≠ [] ∧ ¬ NoRoute g none s t :=
    fun hshort => ⟨hshort.route.ne_nil,
      fun hno => hshort.route.firstEdge_ne_none (hno p hshort.route)⟩
  obtain hshort | ⟨_, hshort | ⟨hno, hnil⟩⟩ := hp.shortest
  · exact iff_of_false (hroute hshort).1 (hroute hshort).2
  · exact iff_of_false (hroute hshort).1 (hroute hshort).2
  · exact iff_of_true hnil hno

/-- What is to be returned after the leg `prev`: nothing when strict ends the run, and an answer for
    each leg otherwise. -/
structure Result (g : PgrBaseGraph BasicVertex BasicEdge) (strict uTurn : Bool) (prev : Path)
    (via : List Int) (before paths : List Path) : Prop where
  ended : strict = true ∧ SomeLegFails g via → paths = []
  answers : ¬ (strict = true ∧ SomeLegFails g via) →
    ∃ legs, paths = before ++ legs ∧ Answers g uTurn prev via legs

variable (strict uTurn) in
/-- The loop over the vertices, from any of its states. -/
theorem dijkstraViaLoop_spec (hboost : Works boost g) (via : List Int) :
    ∀ (i : Nat) (s : Int) (prev : Path) (before : List Path)
      (h : PgrBaseGraph BasicVertex BasicEdge), Same g h → h.Ready → 1 ≤ i →
      (i ≤ 1 → prev.path = []) →
    (LegsKnown g strict (s :: via) → ∃ paths h',
      dijkstraViaLoop boost strict uTurn via i s prev before h = some (paths, h') ∧
      Same g h' ∧ Result g strict uTurn prev (s :: via) before paths) ∧
    (¬ LegsKnown g strict (s :: via) →
      dijkstraViaLoop boost strict uTurn via i s prev before h = none) := by
  induction via with
  | nil =>
    intro i s prev before h hsame _ _ _
    refine ⟨fun _ => ⟨before, h, rfl, hsame, fun hend => hend.2.elim, fun _ => ?_⟩,
      fun hno => absurd trivial hno⟩
    exact ⟨[], (List.append_nil _).symm, rfl⟩
  | cons t via ih =>
    intro i s prev before h hsame hh hi hprev
    by_cases hst : g.hasVertex s = true ∧ g.hasVertex t = true
    · obtain ⟨a, ha⟩ := Option.isSome_iff_exists.mp hst.1
      obtain ⟨b, hb⟩ := Option.isSome_iff_exists.mp hst.2
      obtain ⟨p, h₁, hleg, hsame₁, hh₁, hanswer⟩ :=
        leg_spec uTurn hboost hsame hh ha hb hprev
      rw [dijkstraViaLoop, hleg]
      simp only [Option.bind_eq_bind, Option.bind_some, List.length_eq_zero_iff]
      by_cases hend : strict = true ∧ p.path = []
      · -- A strict run ends with the leg that has no route.
        rw [if_pos hend]
        have hno := hanswer.nil_iff.mp hend.2
        refine ⟨fun _ => ⟨[], h₁, rfl, hsame₁, fun _ => rfl, fun hgo => ?_⟩, fun hunknown => ?_⟩
        · exact absurd ⟨hend.1, .inl hno⟩ hgo
        · exact absurd ⟨hst, .inl ⟨hend.1, hno⟩⟩ hunknown
      · rw [if_neg hend]
        have hgo : ¬ (strict = true ∧ NoRoute g none s t) :=
          fun hno => hend ⟨hno.1, hanswer.nil_iff.mpr hno.2⟩
        obtain ⟨hknown, hunknown⟩ := ih (i + 1) t p (before ++ [p]) h₁ hsame₁ hh₁ (by omega)
          (fun hle => by omega)
        constructor
        · intro hlegs
          obtain ⟨paths, h', hloop, hsame', hended, hanswers⟩ := hknown (hlegs.2.resolve_left hgo)
          refine ⟨paths, h', hloop, hsame', fun hfail => hended ⟨hfail.1, ?_⟩, fun hnofail => ?_⟩
          · exact hfail.2.resolve_left fun hno => hgo ⟨hfail.1, hno⟩
          · obtain ⟨legs, rfl, hlegs⟩ := hanswers fun hfail => hnofail ⟨hfail.1, .inr hfail.2⟩
            exact ⟨p :: legs, by simp, hanswer, hlegs⟩
        · intro hlegs
          exact hunknown fun hrest => hlegs ⟨hst, .inr hrest⟩
    · -- A vertex that is not in the graph has no descriptor to search from.
      have hnone : g.verticesMap s = none ∨ g.verticesMap t = none := by
        simp only [hasVertex, not_and_or, Bool.not_eq_true, Option.isSome_eq_false_iff,
          Option.isNone_iff_eq_none] at hst
        exact hst
      refine ⟨fun hlegs => absurd hlegs.1 hst, fun _ => ?_⟩
      rw [dijkstraViaLoop, leg_unknown hsame hh.wellFormed hnone]
      rfl

variable (strict uTurn) in
/-- The run from the first vertex. -/
theorem dijkstraVia_spec (hg : g.Ready) (hboost : Works boost g) (via : List Int) :
    (LegsKnown g strict via → ∃ paths h, dijkstraVia boost g via strict uTurn = some (paths, h) ∧
      Same g h ∧ Result g strict uTurn {} via [] paths) ∧
    (¬ LegsKnown g strict via → dijkstraVia boost g via strict uTurn = none) := by
  cases via with
  | nil =>
    refine ⟨fun _ => ⟨[], g, rfl, ⟨rfl, rfl, rfl, rfl⟩, fun _ => rfl, fun _ => ⟨[], rfl, rfl⟩⟩, ?_⟩
    exact fun hlegs => absurd trivial hlegs
  | cons s via =>
    exact dijkstraViaLoop_spec strict uTurn hboost via 1 s {} [] g ⟨rfl, rfl, rfl, rfl⟩ hg
      (le_refl 1) (fun _ => rfl)

/-- `dijkstraVia` answers every leg, or ends a strict run with no answer, and leaves the graph its
    multiset of edges, exactly when the graph has both ends of every leg that it comes to. -/
theorem dijkstraVia_answers_iff (boost : BoostDijkstra BasicVertex BasicEdge)
    (g : PgrBaseGraph BasicVertex BasicEdge) (hg : g.Ready) (hboost : Works boost g)
    (via : List Int) (strict uTurn : Bool) :
    (∃ paths h, dijkstraVia boost g via strict uTurn = some (paths, h) ∧
      (strict = true ∧ SomeLegFails g via → paths = []) ∧
      (¬ (strict = true ∧ SomeLegFails g via) → Answers g uTurn {} via paths) ∧
      h.edgeMultiset = g.edgeMultiset) ↔ LegsKnown g strict via := by
  obtain ⟨hknown, hunknown⟩ := dijkstraVia_spec strict uTurn hg hboost via
  constructor
  · rintro ⟨paths, h, hrun, _⟩
    by_contra hlegs
    rw [hunknown hlegs] at hrun
    cases hrun
  · intro hlegs
    obtain ⟨paths, h, hrun, hsame, hended, hanswers⟩ := hknown hlegs
    refine ⟨paths, h, hrun, hended, fun hgo => ?_, hsame.edges⟩
    obtain ⟨legs, rfl, hlegs⟩ := hanswers hgo
    exact hlegs

/-! ## The graph of a table -/

/-- A search that goes by the labels works on the graph of every table. -/
theorem searchPaths_works (directed : Bool) (es : List EdgeT) :
    Works searchPaths (.ofTable directed es) := by
  intro h hpart a _ b _
  refine searchPaths_documented (fun e he => ?_) a [b]
  exact ofTable_item_nonneg (Multiset.mem_of_le hpart.edges
    (Multiset.mem_coe.mpr (List.mem_map_of_mem he)))

/-- Two ways from 1 to 2, a row beside the longer one, and no way back. -/
def viaTable : PgrBaseGraph BasicVertex BasicEdge :=
  .ofTable true [⟨7, 1, 2, 3, -1⟩, ⟨8, 1, 2, 5, -1⟩, ⟨9, 1, 3, 1, 1⟩, ⟨10, 3, 2, 1, -1⟩]

/-- The leg from 2 to 1 is empty, and the others are answered. -/
theorem dijkstraVia_answers_iff_table :
    ∃ paths h, dijkstraVia searchPaths viaTable [3, 1, 2, 1, 3] false false = some (paths, h) ∧
      Answers viaTable false {} [3, 1, 2, 1, 3] paths ∧
      h.edgeMultiset = viaTable.edgeMultiset := by
  have hvertex : ∀ i ∈ [(1 : Int), 2, 3], viaTable.hasVertex i := by decide +kernel
  have hlegs : LegsKnown viaTable false [3, 1, 2, 1, 3] := by
    refine ⟨⟨?_, ?_⟩, .inr ⟨⟨?_, ?_⟩, .inr ⟨⟨?_, ?_⟩, .inr ⟨⟨?_, ?_⟩, .inr trivial⟩⟩⟩⟩
    all_goals exact hvertex _ (by decide)
  obtain ⟨paths, h, hrun, _, hanswers, hedges⟩ := (dijkstraVia_answers_iff searchPaths viaTable
    (ofTable_ready true _) (searchPaths_works true _) [3, 1, 2, 1, 3] false false).mpr hlegs
  exact ⟨paths, h, hrun, hanswers fun hstrict => Bool.false_ne_true hstrict.1, hedges⟩

/-- The vertex 99 is not in the graph, and nothing is returned. -/
theorem dijkstraVia_no_path :
    Works searchPaths viaTable ∧ viaTable.Ready ∧
      ¬ ∃ paths h, dijkstraVia searchPaths viaTable [1, 99] false true = some (paths, h) := by
  have hready : viaTable.Ready := ofTable_ready true _
  refine ⟨searchPaths_works true _, hready, ?_⟩
  have hleg : leg searchPaths viaTable true 1 {} 1 99 = none :=
    leg_unknown ⟨rfl, rfl, rfl, rfl⟩ hready.wellFormed (.inr (by decide +kernel)) 1
  rintro ⟨paths, h, hrun⟩
  rw [dijkstraVia, dijkstraViaLoop, hleg] at hrun
  cases hrun

end Algorithms

end PgRouting
