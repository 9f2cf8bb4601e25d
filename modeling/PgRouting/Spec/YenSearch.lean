import PgRouting.Spec.YenSpurs
import Mathlib.Algebra.Group.Submonoid.BigOperators
import Mathlib.Algebra.Group.Submonoid.Operations
import Mathlib.Algebra.Order.Ring.Cast

/-!
# The search of Yen

The paths that have been found are as cheap as all routes that have not, and for every prefix of
one of them some candidate is as cheap as all routes that deviate after it; while a cycle runs,
for every prefix that is none of the last path or that the cycle has dealt with. So the first
candidate is a cheapest route that has not been found.

All this holds as long as what the cycles disconnect can be restored well enough, no visitor stops
a cycle, and the comparison can tell the total costs apart.

## Key results

- `candidate_spec`: the path that a spur adds to the candidates
- `spurStep_spec`, `cycleLoop_spec`, `round_spec`: one spur, one cycle and one round
- `executeYen_spec`: the paths that are found
-/

namespace PgRouting

open PgrBaseGraph Path

namespace Ksp

variable {σ : Type} {g h : PgrBaseGraph BasicVertex BasicEdge} {s t : Int} {i : Nat}
variable {curr p q r : Path} {R H : List Path} {x y : PathT} {st st' : Ksp σ}
variable {boost : BoostDijkstra BasicVertex BasicEdge} {vis : KspVisitor σ}
variable {J : Path → σ → Prop} {I : σ → Prop} {D D' : List Int → Prop}
variable {G : PgrBaseGraph BasicVertex BasicEdge → Prop}
variable {C : PgrBaseGraph BasicVertex BasicEdge → List Disconnect → Prop}
variable {Q : Int → Int → Prop}

/-! ## What the search relies on -/

/-- A route that is the cheapest with its nodes, with its total cost. -/
structure Listed (g : PgrBaseGraph BasicVertex BasicEdge) (s t : Int) (p : Path) : Prop where
  route : Path.IsRoute g.Step s t p
  totCost : p.totCost = p.rowsCost
  cheapest : Cheapest g.Step s t p

/-- The comparison of paths can tell the costs of routes apart when they are different. -/
def CostsApart (g : PgrBaseGraph BasicVertex BasicEdge) (s t : Int) : Prop :=
  ∀ p q, Path.IsRoute g.Step s t p → Path.IsRoute g.Step s t q → Cheapest g.Step s t p →
    Cheapest g.Step s t q → p.rowsCost = q.rowsCost ∨ epsilon ≤ |q.rowsCost - p.rowsCost|

/-- `Q` holds of the nodes of each step of the path. -/
def Dealt (Q : Int → Int → Prop) (p : Path) : Prop :=
  ∀ i x y, p.path[i]? = some x → p.path[i + 1]? = some y → Q x.node y.node

/-- The graphs `G` stand for `g`, and Dijkstra works on what is left of them. The graph is one of
    these again after calls of which `C` holds, and `Q` holds of the nodes that `disconnect_edge`
    was called for. -/
structure Recovers (boost : BoostDijkstra BasicVertex BasicEdge)
    (g : PgrBaseGraph BasicVertex BasicEdge) (G : PgrBaseGraph BasicVertex BasicEdge → Prop)
    (C : PgrBaseGraph BasicVertex BasicEdge → List Disconnect → Prop) (Q : Int → Int → Prop) :
    Prop where
  stands : ∀ h, G h → StandsFor g h
  ready : ∀ h, G h → h.Ready
  search : ∀ h ops s t a b, G h → g.verticesMap s = some a → g.verticesMap t = some b →
    (boost (h.disconnectAll ops).graph a [b]).Documented (h.disconnectAll ops).graph a [b]
  restore : ∀ h ops, G h → C h ops → G (h.disconnectAll ops).restoreGraph
  edge : ∀ h x y (ys : List Int) ops, G h → C h (ys.map (.edge x) ++ ops) → y ∈ ys → Q x y

/-- The state of the visitor keeps `I`, and `J` of each path that the visitor has been told
    about. -/
structure Accounts (vis : KspVisitor σ) (J : Path → σ → Prop) (I : σ → Prop) : Prop where
  first : ∀ p v, p.path ≠ [] → J p (vis.onInsertFirstSolution p v).2
  heap : ∀ p v, p.path ≠ [] → J p (vis.onInsertToHeap p v).2
  keep : ∀ p q v, J p v → J p (vis.onInsertToHeap q v).2
  bare : ∀ p q v, q.path.map bare = p.path.map bare → J p v → J q v
  firstInv : ∀ p v, I v → I (vis.onInsertFirstSolution p v).2
  heapInv : ∀ p v, I v → I (vis.onInsertToHeap p v).2

/-- `C` holds of the calls for each spur of a cycle from here on, and the visitor does not stop
    the cycle. -/
def CleanCycle (C : PgrBaseGraph BasicVertex BasicEdge → List Disconnect → Prop)
    (boost : BoostDijkstra BasicVertex BasicEdge) (vis : KspVisitor σ) (mEnd : Int) :
    List Nat → Ksp σ → Prop
  | [], _ => True
  | i :: rest, st =>
    C st.graph (spurOps st.currResultPath st.resultSet i) ∧
    ∀ thrown st', spurStep boost vis mEnd i st = some (thrown, st') →
      thrown = false ∧ CleanCycle C boost vis mEnd rest st'

/-- The cost of a route of integer steps is an integer. -/
theorem rowsCost_integral (hint : ∀ i id j c, g.Step i id j c → ∃ z : ℤ, c = z)
    (hp : Path.IsRoute g.Step s t p) : ∃ z : ℤ, p.rowsCost = z := by
  have hrow : ∀ c ∈ p.path.map (·.cost), c ∈ AddMonoidHom.mrange (Int.castAddHom ℚ) := by
    intro c hc
    obtain ⟨x, hx, rfl⟩ := List.mem_map.mp hc
    obtain ⟨k, hk, rfl⟩ := List.getElem_of_mem hx
    by_cases hlast : k + 1 < p.path.length
    · obtain ⟨z, hz⟩ := hint _ _ _ _ (hp.step_getElem (List.getElem?_eq_getElem hk)
        (List.getElem?_eq_getElem hlast))
      exact ⟨z, hz.symm⟩
    · obtain ⟨rows, agg, _, hshape⟩ := hp.shape
      have hlen : k = rows.length := by
        rw [hshape, List.length_append, List.length_singleton] at hk hlast
        omega
      have hget : p.path[k]? = some ⟨t, -1, 0, agg⟩ := by
        rw [hshape, hlen]
        simp
      rw [Option.some.inj ((List.getElem?_eq_getElem hk).symm.trans hget)]
      exact zero_mem _
  obtain ⟨z, hz⟩ := list_sum_mem hrow
  exact ⟨z, hz.symm⟩

/-- Integer costs can be told apart. -/
theorem costsApart_of_integral (hint : ∀ i id j c, g.Step i id j c → ∃ z : ℤ, c = z) :
    CostsApart g s t := by
  intro p q hp hq _ _
  obtain ⟨m, hm⟩ := rowsCost_integral hint hp
  obtain ⟨n, hn⟩ := rowsCost_integral hint hq
  rw [hm, hn]
  by_cases heq : m = n
  · exact .inl (congrArg _ heq)
  · have habs : (1 : ℤ) ≤ |n - m| := Int.one_le_abs (sub_ne_zero.mpr (Ne.symm heq))
    have hcast : (1 : ℚ) ≤ |(n : ℚ) - m| := by exact_mod_cast habs
    have heps : epsilon ≤ 1 := by decide +kernel
    exact .inr (heps.trans hcast)

theorem Listed.apart (hapart : CostsApart g s t) (hp : Listed g s t p) (hq : Listed g s t q) :
    Apart p q := by
  rw [Apart, hp.totCost, hq.totCost]
  exact hapart p q hp.route hq.route hp.cheapest hq.cheapest

theorem Listed.compares (hapart : CostsApart g s t) (hp : Listed g s t p) (hq : Listed g s t q) :
    ComparesKeys compPathsLess key p q :=
  compPathsLess_iff (hp.apart hapart hq)

/-- Listed paths with the same nodes have the same key. -/
theorem Listed.key_eq (hp : Listed g s t p) (hq : Listed g s t q) (h : p.nodes = q.nodes) :
    key p = key q := by
  have hcost : p.rowsCost = q.rowsCost :=
    le_antisymm (hp.cheapest q hq.route h.symm) (hq.cheapest p hp.route h)
  have hlen : p.path.length = q.path.length := by
    have hlen := congrArg List.length h
    rwa [nodes, nodes, List.length_map, List.length_map] at hlen
  rw [key, key, hp.totCost, hq.totCost, hcost, hlen, h]

/-- Recalculating the aggregate costs changes neither the nodes nor the cost. -/
theorem Listed.recalculate (hp : Listed g s t p) : Listed g s t p.recalculateAggCost where
  route := hp.route.recalculate
  totCost := by
    obtain ⟨htot, hrows⟩ := recalculateAggCost_spec p
    rw [htot, hrows]
  cheapest := by
    intro q hq hnodes
    rw [(recalculateAggCost_spec p).2]
    rw [recalculateAggCost_nodes] at hnodes
    exact hp.cheapest q hq hnodes

/-! ## One spur -/

/-- A route leaves no rest at its end. -/
theorem lt_of_ne_end (hp : Path.IsRoute g.Step s t p) (hx : p.path[i]? = some x)
    (hne : x.node ≠ t) : i + 1 < p.path.length := by
  obtain ⟨hi, rfl⟩ := List.getElem?_eq_some_iff.mp hx
  obtain ⟨rows, agg, _, hp'⟩ := hp.shape
  by_contra hlast
  have hlen : i = rows.length := by
    rw [hp', List.length_append, List.length_singleton] at hi hlast
    omega
  have hget : p.path[i]? = some ⟨t, -1, 0, agg⟩ := by
    rw [hp', hlen]
    simp
  rw [Option.some.inj (hx.symm.trans hget)] at hne
  exact hne rfl

/-- The root continued by a shortest route of the graph of the spur is a cheapest route that
    deviates after the root from the paths found so far. -/
theorem candidate_spec (hstands : StandsFor g h) (hh : h.Ready) (hcurr : Listed g s t curr)
    (hx : curr.path[i]? = some x)
    (hr : Path.IsRoute (h.disconnectAll (spurOps curr R i)).Step x.node t r)
    (hle : ∀ q, Path.IsRoute (h.disconnectAll (spurOps curr R i)).Step x.node t q →
      r.rowsCost ≤ q.rowsCost) :
    Listed g s t ((curr.getSubpath i).appendPath r) ∧
    Deviates nodes R (curr.nodes.take (i + 1)) ((curr.getSubpath i).appendPath r) ∧
    ∀ q, Path.IsRoute g.Step s t q → Deviates nodes R (curr.nodes.take (i + 1)) q →
      ((curr.getSubpath i).appendPath r).rowsCost ≤ q.rowsCost := by
  have hlt := lt_of_ne_end hcurr.route hx hr.ne
  obtain ⟨hroute, havoid, hnew⟩ := spur_route hh.consistent hh.wellFormed hx hr
  have hroute := hstands.route_of hroute
  have hc := hcurr.route.appendPath hx hroute havoid
  obtain ⟨htot, hrows⟩ := appendPath_cost curr r i
  have hdev : Deviates nodes R (curr.nodes.take (i + 1)) ((curr.getSubpath i).appendPath r) := by
    obtain ⟨l, hl, _, hne⟩ := hroute.nodes_eq
    obtain ⟨a, l, rfl⟩ := List.exists_cons_of_ne_nil hne
    obtain ⟨m, hm⟩ := hroute.start_prefix
    have ha : a = x.node := by
      rw [hl] at hm
      exact (List.cons.inj hm).1.symm
    obtain ⟨b, l', hl'⟩ : ∃ b l', l ++ [t] = b :: l' :=
      List.exists_cons_of_ne_nil (List.append_ne_nil_of_right_ne_nil _ (List.cons_ne_nil _ _))
    have hnodes : r.nodes = x.node :: b :: l' := by
      rw [hl, List.cons_append, hl', ha]
    refine ⟨b, ⟨l', ?_⟩, fun p hp hpre => hnew p hp ?_⟩
    · rw [appendPath_nodes, hnodes, nodes_take_succ hx]
      simp
    · rw [hnodes]
      rw [nodes_take_succ hx] at hpre
      simpa using hpre
  have hmin : ∀ q, Path.IsRoute g.Step s t q → Deviates nodes R (curr.nodes.take (i + 1)) q →
      ((curr.getSubpath i).appendPath r).rowsCost ≤ q.rowsCost := by
    intro q hq hqdev
    -- The graph has a route with the nodes of `q` that costs no more.
    obtain ⟨q', hq', hnodes, hcost⟩ := hstands.exists_route hq
    have hqdev' : Deviates nodes R (curr.nodes.take (i + 1)) q' := by
      obtain ⟨a, hpre, hnot⟩ := hqdev
      exact ⟨a, hnodes ▸ hpre, hnot⟩
    obtain ⟨y, hy, hyx, hqlt, hrest⟩ :=
      spur_rest hh.consistent hh.wellFormed hx hq' hqdev'
    have hroot : curr.nodes.take (i + 1) = q'.nodes.take (i + 1) := by
      obtain ⟨a, hpre, _⟩ := hqdev'
      have hpre' := (List.prefix_append (curr.nodes.take (i + 1)) [a]).trans hpre
      rw [List.prefix_iff_eq_take] at hpre'
      rw [hpre', List.length_take, nodes, List.length_map, Nat.min_eq_left hlt.le]
    refine le_trans ?_ hcost
    rw [hrows, q'.rowsCost_split i y]
    exact add_le_add (hcurr.route.root_le hcurr.cheapest (hstands.route_of hq') hlt hroot)
      (hle _ hrest)
  refine ⟨⟨hc, htot.trans hrows.symm, fun q hq hnodes => hmin q hq ?_⟩, hdev, hmin⟩
  obtain ⟨a, hpre, hnot⟩ := hdev
  exact ⟨a, hnodes ▸ hpre, hnot⟩

/-- The state of the search, with the prefixes whose deviations are covered. -/
structure Searching (g : PgrBaseGraph BasicVertex BasicEdge) (s t : Int)
    (G : PgrBaseGraph BasicVertex BasicEdge → Prop) (J : Path → σ → Prop) (I : σ → Prop)
    (D : List Int → Prop) (st : Ksp σ) : Prop where
  graph : G st.graph
  result : ∀ p ∈ st.resultSet, Listed g s t p
  heap : ∀ p ∈ st.heap, Listed g s t p
  curr : st.currResultPath ∈ st.resultSet
  resultSorted : st.resultSet.Pairwise fun p q => key p < key q
  heapSorted : st.heap.Pairwise fun p q => key p < key q
  new : ∀ p ∈ st.heap, ∀ q ∈ st.resultSet, q.nodes ≠ p.nodes
  least : ∀ p ∈ st.resultSet, ∀ q, Path.IsRoute g.Step s t q →
    (∀ r ∈ st.resultSet, r.nodes ≠ q.nodes) → p.rowsCost ≤ q.rowsCost
  last : ∀ p ∈ st.resultSet, p.rowsCost ≤ st.currResultPath.rowsCost
  covers : Covers nodes rowsCost (Path.IsRoute g.Step s t) D st.resultSet st.heap
  account : ∀ p, p ∈ st.resultSet ∨ p ∈ st.heap → J p st.vis
  inv : I st.vis

theorem Searching.anti (h : Searching g s t G J I D st) (hD : ∀ π, D' π → D π) :
    Searching g s t G J I D' st :=
  { h with covers := h.covers.anti hD }

/-- The new candidates of a spur. -/
theorem Searching.insert (hapart : CostsApart g s t) (hvis : Accounts vis J I)
    (hst : Searching g s t G J I D st) {c : Path} {π : List Int} (hc : Listed g s t c)
    (hdev : Deviates nodes st.resultSet π c)
    (hmin : ∀ q, Path.IsRoute g.Step s t q → Deviates nodes st.resultSet π q →
      c.rowsCost ≤ q.rowsCost) (hh : G h) :
    Searching g s t G J I (fun π' => D π' ∨ π' = π)
      { st with graph := h, heap := insertPath c st.heap,
                vis := (vis.onInsertToHeap c st.vis).2 } := by
  -- Candidates have costs far enough apart for the comparison to be one by keys.
  have hkeys : ∀ y ∈ st.heap, ComparesKeys compPathsLess key c y := fun y hy =>
    hc.compares hapart (hst.heap y hy)
  have hkeys' : ∀ y ∈ st.heap, ComparesKeys compPathsLess key y c := fun y hy =>
    (hst.heap y hy).compares hapart hc
  constructor
  case graph => exact hh
  case result => exact hst.result
  case heap =>
    intro p hp
    obtain rfl | hp := mem_of_mem_orderedInsert hp
    · exact hc
    · exact hst.heap p hp
  case curr => exact hst.curr
  case resultSorted => exact hst.resultSorted
  case heapSorted => exact orderedInsert_sorted hkeys hkeys' hst.heapSorted
  case new =>
    intro p hp q hq
    obtain rfl | hp := mem_of_mem_orderedInsert hp
    · exact hdev.not_mem q hq
    · exact hst.new p hp q hq
  case least => exact hst.least
  case last => exact hst.last
  case covers =>
    refine Covers.union (hst.covers.mono fun x hx => mem_orderedInsert_of_mem hx) ?_
    rintro π' rfl _ q hq hqdev
    obtain hmem | ⟨y, hy, hkey⟩ := exists_mem_orderedInsert hkeys hkeys'
    · exact ⟨c, hmem, hdev, hmin q hq hqdev⟩
    · -- A candidate with the same nodes is there already, at the same cost.
      have hnodes := nodes_eq_of_key_eq hkey
      obtain ⟨a, hpre, hnot⟩ := hdev
      refine ⟨y, mem_orderedInsert_of_mem hy, ⟨a, hnodes ▸ hpre, hnot⟩, ?_⟩
      exact ((hst.heap y hy).cheapest c hc.route hnodes.symm).trans (hmin q hq hqdev)
  case account =>
    intro p hp
    obtain hp | hp := hp
    · exact hvis.keep p c _ (hst.account p (.inl hp))
    · obtain rfl | hp := mem_of_mem_orderedInsert hp
      · exact hvis.heap p _ hc.route.ne_nil
      · exact hvis.keep p c _ (hst.account p (.inr hp))
  case inv => exact hvis.heapInv c _ hst.inv

/-- Nothing deviates after a prefix without a route in the graph of its spur. -/
theorem Searching.none (hst : Searching g s t G J I D st) {π : List Int}
    (hnone : ∀ q, Path.IsRoute g.Step s t q → ¬ Deviates nodes st.resultSet π q)
    (hh : G h) : Searching g s t G J I (fun π' => D π' ∨ π' = π) { st with graph := h } where
  graph := hh
  result := hst.result
  heap := hst.heap
  curr := hst.curr
  resultSorted := hst.resultSorted
  heapSorted := hst.heapSorted
  new := hst.new
  least := hst.least
  last := hst.last
  covers := hst.covers.union fun _ hπ _ q hq hdev => absurd (hπ ▸ hdev) (hnone q hq)
  account := hst.account
  inv := hst.inv

/-- A vertex of a route is in the graph. -/
theorem known_of_mem (hp : Path.IsRoute g.Step s t p) (hx : x ∈ p.path) :
    ∃ a, g.verticesMap x.node = some a := by
  obtain ⟨y, z, ⟨u, v, hu, hv, _⟩, rfl | rfl⟩ := hp.exists_step hx
  · exact ⟨u, hu⟩
  · exact ⟨v, hv⟩

/-- The vertices of a route are in the graph. -/
theorem known_of_route (hq : Path.IsRoute g.Step s t q) :
    g.hasVertex s = true ∧ g.hasVertex t = true := by
  have hmem : ∀ n ∈ q.nodes, g.hasVertex n = true := by
    intro n hn
    obtain ⟨x, hx, rfl⟩ := List.mem_map.mp hn
    obtain ⟨a, ha⟩ := known_of_mem hq hx
    exact Option.isSome_iff_exists.mpr ⟨a, ha⟩
  obtain ⟨l, hl, _⟩ := hq.nodes_eq
  refine ⟨hmem s (hq.start_prefix.subset (List.mem_singleton_self s)), hmem t ?_⟩
  rw [hl]
  exact List.mem_append_right _ (List.mem_singleton_self t)

/-- One spur. -/
theorem spurStep_spec {b : Nat} (hrec : Recovers boost g G C Q) (hapart : CostsApart g s t)
    (hvis : Accounts vis J I) (ht : g.verticesMap t = some b)
    (hst : Searching g s t G J I D st) (hx : st.currResultPath.path[i]? = some x)
    (hops : C st.graph (spurOps st.currResultPath st.resultSet i)) :
    ∃ thrown st', spurStep boost vis t i st = some (thrown, st') ∧ (thrown = false →
      Searching g s t G J I (fun π => D π ∨ π = st.currResultPath.nodes.take (i + 1)) st' ∧
      st'.currResultPath = st.currResultPath ∧ st'.resultSet = st.resultSet) := by
  have hcurr := hst.result _ hst.curr
  obtain ⟨a, ha⟩ := known_of_mem hcurr.route (List.mem_of_getElem? hx)
  have hready := hrec.ready _ hst.graph
  have hstands := hrec.stands _ hst.graph
  have hrestored := hrec.restore _ _ hst.graph hops
  have hdisc := disconnects_disconnectAll hready.wellFormed
    (spurOps st.currResultPath st.resultSet i)
  have hmap := hdisc.map.trans hstands.map
  have hcons := hdisc.consistent hready.consistent
  obtain ⟨r, hrun, _, _, hr⟩ := Algorithms.dijkstra_route hcons (hmap ▸ ha) (hmap ▸ ht)
    (hrec.search _ _ _ _ _ _ hst.graph ha ht)
  rw [spurStep, hx]
  simp only [Option.map_some, Option.bind_eq_bind, Option.bind_some, graph_spur hx, hrun]
  obtain ⟨hnil, hnone⟩ | ⟨hroute, hmin⟩ := hr
  · rw [hnil]
    refine ⟨_, _, rfl, fun _ => ⟨hst.none (fun q hq hdev => ?_) hrestored, rfl, rfl⟩⟩
    obtain ⟨q', hq', hnodes, _⟩ := hstands.exists_route hq
    obtain ⟨c, hpre, hnot⟩ := hdev
    obtain ⟨y, _, _, _, hrest⟩ := spur_rest hready.consistent hready.wellFormed hx hq'
      ⟨c, hnodes ▸ hpre, hnot⟩
    exact hnone _ hrest
  · obtain ⟨hc, hdev, hcmin⟩ := candidate_spec hstands hready hcurr hx hroute hmin
    rw [if_pos (List.length_pos_iff.mpr hroute.ne_nil)]
    refine ⟨_, _, rfl, fun hthrown => ⟨?_, rfl, rfl⟩⟩
    rw [hthrown]
    exact hst.insert hapart hvis hc hdev hcmin hrestored

/-! ## One cycle -/

/-- What is known of the step at which a spur leaves the last path. -/
theorem edge_spur (hrec : Recovers boost g G C Q) (hst : Searching g s t G J I D st)
    (hops : C st.graph (spurOps st.currResultPath st.resultSet i))
    (hx : st.currResultPath.path[i]? = some x) (hy : st.currResultPath.path[i + 1]? = some y) :
    Q x.node y.node := by
  have hnode : (st.currResultPath.nodes[i]?).getD 0 = x.node := by
    rw [nodes, List.getElem?_map, hx]
    rfl
  have hmem : y.node ∈ spurNodes (st.currResultPath.nodes.take (i + 1)) st.resultSet := by
    refine mem_spurNodes.mpr ⟨_, hst.curr, ?_⟩
    have htake := nodes_take_succ hy
    rw [← htake]
    exact List.take_prefix _ _
  rw [spurOps, hnode] at hops
  exact hrec.edge _ _ _ _ _ hst.graph hops hmem

/-- The spurs of a cycle, one after the other. -/
theorem cycleLoop_spec {b : Nat} (hrec : Recovers boost g G C Q) (hapart : CostsApart g s t)
    (hvis : Accounts vis J I) (ht : g.verticesMap t = some b) {l : List Nat}
    (hst : Searching g s t G J I D st) (hl : ∀ i ∈ l, i < st.currResultPath.path.length)
    (hclean : CleanCycle C boost vis t l st) :
    ∃ st', cycleLoop boost vis t l st = some (false, st') ∧
      Searching g s t G J I
        (fun π => D π ∨ ∃ i ∈ l, π = st.currResultPath.nodes.take (i + 1)) st' ∧
      st'.currResultPath = st.currResultPath ∧ st'.resultSet = st.resultSet ∧
      ∀ i ∈ l, ∀ x y, st.currResultPath.path[i]? = some x →
        st.currResultPath.path[i + 1]? = some y → Q x.node y.node := by
  induction l generalizing st D with
  | nil =>
    refine ⟨st, rfl, hst.anti fun π hπ => hπ.resolve_right ?_, rfl, rfl, fun i hi => nomatch hi⟩
    rintro ⟨i, hi, _⟩
    cases hi
  | cons i l ih =>
    obtain ⟨hops, hnext⟩ := hclean
    have hxi : st.currResultPath.path[i]? = some _ :=
      List.getElem?_eq_getElem (hl i List.mem_cons_self)
    obtain ⟨thrown, st₁, hrun, hst₁⟩ := spurStep_spec hrec hapart hvis ht hst hxi hops
    obtain ⟨rfl, hclean₁⟩ := hnext _ _ hrun
    obtain ⟨hst₁, hcurr, hresult⟩ := hst₁ rfl
    obtain ⟨st₂, hrun₂, hst₂, hcurr₂, hresult₂, hdealt⟩ := ih hst₁
      (fun j hj => hcurr ▸ hl j (List.mem_cons_of_mem _ hj)) hclean₁
    refine ⟨st₂, ?_, hst₂.anti fun π hπ => ?_, hcurr₂.trans hcurr, hresult₂.trans hresult, ?_⟩
    · rw [cycleLoop, hrun]
      exact hrun₂
    · rw [hcurr]
      obtain hπ | ⟨j, hj, hπ⟩ := hπ
      · exact .inl (.inl hπ)
      · obtain rfl | hj := List.mem_cons.mp hj
        · exact .inl (.inr hπ)
        · exact .inr ⟨j, hj, hπ⟩
    · -- The edges at the first spur are those that its step has taken out.
      intro j hj x y hx hy
      obtain rfl | hj := List.mem_cons.mp hj
      · exact edge_spur hrec hst hops hx hy
      · exact hdealt j hj x y (hcurr ▸ hx) (hcurr ▸ hy)

/-- After a cycle all prefixes are covered. -/
theorem doNextCycle_spec {b : Nat} (hrec : Recovers boost g G C Q) (hapart : CostsApart g s t)
    (hvis : Accounts vis J I) (ht : g.verticesMap t = some b)
    (hst : Searching g s t G J I (fun π => π ≠ [] ∧ ¬ π <+: st.currResultPath.nodes) st)
    (hclean : CleanCycle C boost vis t (List.range st.currResultPath.path.length) st) :
    ∃ st', doNextCycle boost vis t st = some (false, st') ∧
      Searching g s t G J I (· ≠ []) st' ∧ st'.currResultPath = st.currResultPath ∧
      st'.resultSet = st.resultSet ∧ Dealt Q st.currResultPath := by
  obtain ⟨st', hrun, hst', hcurr, hresult, hdealt⟩ := cycleLoop_spec hrec hapart hvis ht hst
    (fun i hi => List.mem_range.mp hi) hclean
  refine ⟨st', hrun, hst'.anti fun π hπ => ?_, hcurr, hresult, fun i x y hx hy => ?_⟩
  · by_cases hpre : π <+: st.currResultPath.nodes
    · right
      have hlen := List.length_pos_iff.mpr hπ
      have hle := hpre.length_le
      rw [nodes, List.length_map] at hle
      refine ⟨π.length - 1, List.mem_range.mpr (by omega), ?_⟩
      rw [Nat.sub_add_cancel hlen]
      exact List.prefix_iff_eq_take.mp hpre
    · exact .inl ⟨hπ, hpre⟩
  · exact hdealt i (List.mem_range.mpr (List.getElem?_eq_some_iff.mp hx).1) x y hx hy

/-! ## One round -/

/-- The first candidate is a cheapest route that has not been found. -/
theorem Searching.le_candidate {rest : List Path} (hst : Searching g s t G J I (· ≠ []) st)
    (hheap : st.heap = p :: rest) (hq : Path.IsRoute g.Step s t q)
    (hnew : ∀ r ∈ st.resultSet, r.nodes ≠ q.nodes) : p.rowsCost ≤ q.rowsCost := by
  have hp := hst.heap p (by rw [hheap]; exact List.mem_cons_self)
  obtain ⟨x, hx, hle⟩ := hst.covers.exists_le (List.ne_nil_of_mem hst.curr)
    (fun r hr => (hst.result r hr).route.start_prefix) hq hq.start_prefix
    fun r hr hpre => hnew r hr (hq.nodes_eq_of_prefix (hst.result r hr).route hpre).symm
  have hx' := hst.heap x hx
  have hsorted := hst.heapSorted
  rw [hheap] at hx hsorted
  refine le_trans ?_ hle
  obtain rfl | hx := List.mem_cons.mp hx
  · exact le_refl _
  · rw [← hp.totCost, ← hx'.totCost]
    exact totCost_le_of_key_lt ((List.pairwise_cons.mp hsorted).1 x hx)

/-- The first candidate moves to the paths that have been found. -/
theorem Searching.found {rest : List Path} (hapart : CostsApart g s t) (hvis : Accounts vis J I)
    (hst : Searching g s t G J I (· ≠ []) st) (hheap : st.heap = p :: rest) :
    Searching g s t G J I (fun π => π ≠ [] ∧ ¬ π <+: p.recalculateAggCost.nodes)
      { st with currResultPath := p.recalculateAggCost
                resultSet := insertPath p.recalculateAggCost st.resultSet
                heap := rest } ∧
    (insertPath p.recalculateAggCost st.resultSet).length = st.resultSet.length + 1 := by
  have hmem : p ∈ st.heap := by
    rw [hheap]
    exact List.mem_cons_self
  have hrest : ∀ x ∈ rest, x ∈ st.heap := fun x hx => by
    rw [hheap]
    exact List.mem_cons_of_mem _ hx
  have hp := hst.heap p hmem
  have hpath := hp.recalculate
  have hnodes := recalculateAggCost_nodes p
  have hcost : p.recalculateAggCost.rowsCost = p.rowsCost := (recalculateAggCost_spec p).2
  -- No path that has been found has the nodes of the candidate, so the set takes it.
  have hnew : ∀ q ∈ st.resultSet, q.nodes ≠ p.recalculateAggCost.nodes := by
    rw [hnodes]
    exact hst.new p hmem
  have hkeys : ∀ y ∈ st.resultSet, ComparesKeys compPathsLess key p.recalculateAggCost y :=
    fun y hy => hpath.compares hapart (hst.result y hy)
  have hkeys' : ∀ y ∈ st.resultSet, ComparesKeys compPathsLess key y p.recalculateAggCost :=
    fun y hy => (hst.result y hy).compares hapart hpath
  have hin : p.recalculateAggCost ∈ insertPath p.recalculateAggCost st.resultSet := by
    refine (exists_mem_orderedInsert hkeys hkeys').resolve_right fun h => ?_
    obtain ⟨y, hy, hkey⟩ := h
    exact hnew y hy (nodes_eq_of_key_eq hkey)
  have hiff : ∀ q, q ∈ p.recalculateAggCost :: st.resultSet ↔
      q ∈ insertPath p.recalculateAggCost st.resultSet := by
    intro q
    rw [List.mem_cons]
    constructor
    · rintro (rfl | hq)
      · exact hin
      · exact mem_orderedInsert_of_mem hq
    · exact mem_of_mem_orderedInsert
  have hsorted := hst.heapSorted
  rw [hheap, List.pairwise_cons] at hsorted
  -- The candidates that are left go along other nodes: the heap is in the strict order of the keys.
  have hother : ∀ x ∈ rest, p.nodes ≠ x.nodes := by
    intro x hx heq
    have hlt := hsorted.1 x hx
    rw [hp.key_eq (hst.heap x (hrest x hx)) heq] at hlt
    exact lt_irrefl _ hlt
  refine ⟨?_, length_orderedInsert hkeys hkeys' fun y hy hkey =>
    hnew y hy (nodes_eq_of_key_eq hkey)⟩
  constructor
  case graph => exact hst.graph
  case result =>
    intro q hq
    obtain rfl | hq := mem_of_mem_orderedInsert hq
    · exact hpath
    · exact hst.result q hq
  case heap => exact fun x hx => hst.heap x (hrest x hx)
  case curr => exact hin
  case resultSorted => exact orderedInsert_sorted hkeys hkeys' hst.resultSorted
  case heapSorted => exact hsorted.2
  case new =>
    intro x hx q hq
    obtain rfl | hq := mem_of_mem_orderedInsert hq
    · rw [hnodes]
      exact hother x hx
    · exact hst.new x (hrest x hx) q hq
  -- The new path is the cheapest of what was left, which is also what bounds the candidates to
  -- come.
  case least =>
    intro r hr q hq hqnew
    obtain rfl | hr := mem_of_mem_orderedInsert hr
    · rw [hcost]
      exact hst.le_candidate hheap hq fun r hr => hqnew r (mem_orderedInsert_of_mem hr)
    · exact hst.least r hr q hq fun r hr => hqnew r (mem_orderedInsert_of_mem hr)
  case last =>
    intro r hr
    obtain rfl | hr := mem_of_mem_orderedInsert hr
    · exact le_refl _
    · exact hst.least r hr _ hpath.route hnew
  -- The candidate covered itself; now it is one of the results.
  case covers =>
    refine Covers.congr (Covers.found hst.covers fun x hx hne => ?_) hiff
    rw [hheap] at hx
    obtain rfl | hx := List.mem_cons.mp hx
    · exact absurd hnodes.symm hne
    · exact hx
  case account =>
    intro q hq
    obtain hq | hq := hq
    · obtain rfl | hq := mem_of_mem_orderedInsert hq
      · exact hvis.bare p _ _ (recalculateAggCost_bare p) (hst.account p (.inr hmem))
      · exact hst.account q (.inl hq)
    · exact hst.account q (.inr (hrest q hq))
  case inv => exact hst.inv

/-- The paths found, at the end of the search. Each has been dealt with in a cycle, or no route
    that is found costs more. -/
structure Found (g : PgrBaseGraph BasicVertex BasicEdge) (s t : Int)
    (G : PgrBaseGraph BasicVertex BasicEdge → Prop) (Q : Int → Int → Prop)
    (J : Path → σ → Prop) (I : σ → Prop) (k : Nat) (st : Ksp σ) : Prop where
  graph : G st.graph
  result : ∀ p ∈ st.resultSet, Listed g s t p
  sorted : st.resultSet.Pairwise fun p q => key p < key q
  nonempty : st.resultSet ≠ []
  size : st.resultSet.length ≤ k
  nodes : ∀ q, Path.IsRoute g.Step s t q → (∃ p ∈ st.resultSet, p.nodes = q.nodes) ∨
    st.resultSet.length = k ∧ ∀ p ∈ st.resultSet, p.rowsCost ≤ q.rowsCost
  dealt : ∀ p ∈ st.resultSet, Dealt Q p ∨
    st.resultSet.length = k ∧ ∀ r ∈ st.resultSet, r.rowsCost ≤ p.rowsCost
  account : ∀ p ∈ st.resultSet, J p st.vis
  inv : I st.vis

/-- One round of the search. -/
theorem round_spec {b k : Nat} (hrec : Recovers boost g G C Q) (hapart : CostsApart g s t)
    (hvis : Accounts vis J I) (ht : g.verticesMap t = some b)
    (hst : Searching g s t G J I (fun π => π ≠ [] ∧ ¬ π <+: st.currResultPath.nodes) st)
    (hdealt : ∀ p ∈ st.resultSet, p ≠ st.currResultPath → Dealt Q p)
    (hsize : st.resultSet.length ≤ k)
    (hclean : st.resultSet.length < k →
      CleanCycle C boost vis t (List.range st.currResultPath.path.length) st) :
    (∃ st', round boost vis t k st = .next st' ∧
      Searching g s t G J I (fun π => π ≠ [] ∧ ¬ π <+: st'.currResultPath.nodes) st' ∧
      (∀ p ∈ st'.resultSet, p ≠ st'.currResultPath → Dealt Q p) ∧
      st'.resultSet.length = st.resultSet.length + 1 ∧ st'.resultSet.length ≤ k) ∨
    ∃ st', round boost vis t k st = .done (some (false, st')) ∧ Found g s t G Q J I k st' := by
  rw [round]
  by_cases hlt : st.resultSet.length < k
  · rw [if_pos hlt]
    obtain ⟨st₁, hrun, hst₁, hcurr, hresult, hcurrDealt⟩ :=
      doNextCycle_spec hrec hapart hvis ht hst (hclean hlt)
    rw [hrun]
    simp only
    have hall : ∀ p ∈ st₁.resultSet, Dealt Q p := by
      intro p hp
      by_cases heq : p = st.currResultPath
      · rw [heq]
        exact hcurrDealt
      · exact hdealt p (hresult ▸ hp) heq
    -- Nothing is left in the heap: all paths have been found.
    cases hheap : st₁.heap with
    | nil =>
      refine .inr ⟨st₁, rfl, hst₁.graph, hst₁.result, hst₁.resultSorted,
        List.ne_nil_of_mem hst₁.curr, hresult ▸ hlt.le, fun q hq => .inl ?_,
        fun p hp => .inl (hall p hp), fun p hp => hst₁.account p (.inl hp), hst₁.inv⟩
      by_contra hno
      obtain ⟨x, hx, _⟩ := hst₁.covers.exists_le (List.ne_nil_of_mem hst₁.curr)
        (fun r hr => (hst₁.result r hr).route.start_prefix) hq hq.start_prefix
        fun r hr hpre => hno ⟨r, hr, hq.nodes_eq_of_prefix (hst₁.result r hr).route hpre |>.symm⟩
      rw [hheap] at hx
      cases hx
    | cons p rest =>
      obtain ⟨hnext, hlen⟩ := hst₁.found hapart hvis hheap
      refine .inl ⟨_, rfl, hnext, fun q hq hne => ?_, hlen.trans (by rw [hresult]), ?_⟩
      · obtain rfl | hq := mem_of_mem_orderedInsert hq
        · exact absurd rfl hne
        · exact hall q hq
      · rw [← hresult] at hlt
        exact hlen.trans_le hlt
  · -- Enough paths have been found.
    rw [if_neg hlt]
    have hk : st.resultSet.length = k := Nat.le_antisymm hsize (Nat.not_lt.mp hlt)
    refine .inr ⟨st, rfl, hst.graph, hst.result, hst.resultSorted,
      List.ne_nil_of_mem hst.curr, hsize, fun q hq => ?_, fun p hp => ?_,
      fun p hp => hst.account p (.inl hp), hst.inv⟩
    · by_cases hin : ∃ p ∈ st.resultSet, p.nodes = q.nodes
      · exact .inl hin
      · exact .inr ⟨hk, fun p hp => hst.least p hp q hq fun r hr hnodes => hin ⟨r, hr, hnodes⟩⟩
    · by_cases heq : p = st.currResultPath
      · exact .inr ⟨hk, heq ▸ hst.last⟩
      · exact .inl (hdealt p hp heq)

/-! ## The whole search -/

/-- In every cycle of the run on the graph `C` holds of the calls, and the visitor does not stop
    it. -/
def CleanRun (C : PgrBaseGraph BasicVertex BasicEdge → List Disconnect → Prop)
    (boost : BoostDijkstra BasicVertex BasicEdge) (vis : KspVisitor σ)
    (g : PgrBaseGraph BasicVertex BasicEdge) (s t : Int) (k : Nat) (v : σ) : Prop :=
  ∀ st₀, firstSolution boost vis t g s v = some (false, st₀) →
    ∀ st, Reaches (round boost vis t k) st₀ st → st.resultSet.length < k →
      CleanCycle C boost vis t (List.range st.currResultPath.path.length) st

/-- The first path. -/
theorem firstSolution_spec {a b : Nat} {v : σ} (hh : G h) (hrec : Recovers boost g G C Q)
    (hvis : Accounts vis J I) (hs : g.verticesMap s = some a) (ht : g.verticesMap t = some b)
    (hv : I v) :
    ∃ p st₀, firstSolution boost vis t h s v =
        some ((vis.onInsertFirstSolution p v).1, st₀) ∧
      st₀.graph = h ∧ st₀.vis = (vis.onInsertFirstSolution p v).2 ∧
      ((p.path = [] ∧ st₀.resultSet = [] ∧ ∀ q, ¬ Path.IsRoute g.Step s t q) ∨
        Searching g s t G J I (fun π => π ≠ [] ∧ ¬ π <+: st₀.currResultPath.nodes) st₀ ∧
          st₀.resultSet = [st₀.currResultPath]) := by
  have hstands := hrec.stands _ hh
  obtain ⟨p, hrun, _, _, hp⟩ := Algorithms.dijkstra_route (hrec.ready _ hh).consistent
    (hstands.map ▸ hs) (hstands.map ▸ ht) (hrec.search _ [] _ _ _ _ hh hs ht)
  have hbare := recalculateAggCost_bare p
  rw [firstSolution, hrun]
  simp only [Option.bind_eq_bind, Option.bind_some]
  refine ⟨p.recalculateAggCost, _, rfl, rfl, rfl, ?_⟩
  obtain ⟨hnil, hnone⟩ | ⟨hroute, hle⟩ := hp
  · -- No path: the search ends with an empty result.
    rw [hnil, List.map_nil, List.map_eq_nil_iff] at hbare
    refine .inl ⟨hbare, by rw [hbare]; rfl, fun q hq => ?_⟩
    obtain ⟨q', hq', _⟩ := hstands.exists_route hq
    exact hnone q' hq'
  · -- The first path is a shortest one, and all spurs of it are still to come.
    have hmin : ∀ q, Path.IsRoute g.Step s t q → p.rowsCost ≤ q.rowsCost := by
      intro q hq
      obtain ⟨q', hq', _, hcost⟩ := hstands.exists_route hq
      exact (hle q' hq').trans hcost
    have hlisted : Listed g s t p.recalculateAggCost := by
      obtain ⟨htot, hrows⟩ := recalculateAggCost_spec p
      refine ⟨(hstands.route_of hroute).recalculate, htot.trans hrows.symm, fun q hq _ => ?_⟩
      rw [hrows]
      exact hmin q hq
    have hcost := (recalculateAggCost_spec p).2
    have hset : (if p.recalculateAggCost.path.isEmpty then [] else
        insertPath p.recalculateAggCost []) = [p.recalculateAggCost] := by
      rw [if_neg (by simpa using hlisted.route.ne_nil)]
      rfl
    refine .inr ⟨?_, hset⟩
    rw [hset]
    constructor
    case graph => exact hh
    case result =>
      intro q hq
      rw [List.mem_singleton.mp hq]
      exact hlisted
    case heap => exact fun q hq => nomatch hq
    case curr => exact List.mem_singleton_self _
    case resultSorted => exact List.pairwise_singleton _ _
    case heapSorted => exact .nil
    case new => exact fun q hq => nomatch hq
    case least =>
      intro r hr q hq _
      rw [List.mem_singleton.mp hr, hcost]
      exact hmin q hq
    case last =>
      intro r hr
      rw [List.mem_singleton.mp hr]
    case covers =>
      intro π hπ hcommon
      obtain ⟨r, hr, hpre⟩ := hcommon
      rw [List.mem_singleton.mp hr] at hpre
      exact absurd hpre hπ.2
    case account =>
      intro q hq
      obtain hq | hq := hq
      · rw [List.mem_singleton.mp hq]
        exact hvis.first _ _ hlisted.route.ne_nil
      · cases hq
    case inv => exact hvis.firstInv _ _ hv

/-- The rounds of a run that is clean. -/
theorem runLoop_spec {b k : Nat} (hrec : Recovers boost g G C Q) (hapart : CostsApart g s t)
    (hvis : Accounts vis J I) (ht : g.verticesMap t = some b)
    (hst : Searching g s t G J I (fun π => π ≠ [] ∧ ¬ π <+: st.currResultPath.nodes) st)
    (hdealt : ∀ p ∈ st.resultSet, p ≠ st.currResultPath → Dealt Q p)
    (hsize : st.resultSet.length ≤ k)
    (hclean : ∀ st', Reaches (round boost vis t k) st st' → st'.resultSet.length < k →
      CleanCycle C boost vis t (List.range st'.currResultPath.path.length) st') :
    ∃ N st', (∀ n ≥ N, runLoop (round boost vis t k) n st = some (some (false, st'))) ∧
      Found g s t G Q J I k st' := by
  have hstep : ∀ st', (Reaches (round boost vis t k) st st' ∧
      Searching g s t G J I (fun π => π ≠ [] ∧ ¬ π <+: st'.currResultPath.nodes) st' ∧
      (∀ p ∈ st'.resultSet, p ≠ st'.currResultPath → Dealt Q p) ∧ st'.resultSet.length ≤ k) →
      (∃ st₁, (Reaches (round boost vis t k) st st₁ ∧
        Searching g s t G J I (fun π => π ≠ [] ∧ ¬ π <+: st₁.currResultPath.nodes) st₁ ∧
        (∀ p ∈ st₁.resultSet, p ≠ st₁.currResultPath → Dealt Q p) ∧ st₁.resultSet.length ≤ k) ∧
        k - st₁.resultSet.length < k - st'.resultSet.length ∧
        ∃ N, ∀ n ≥ N, (fun _ : Nat => round boost vis t k) n st' = .next st₁) ∨
      ∃ r, (∃ st₁, r = some (false, st₁) ∧ Found g s t G Q J I k st₁) ∧
        ∃ N, ∀ n ≥ N, (fun _ : Nat => round boost vis t k) n st' = .done r := by
    intro st' hst'
    obtain ⟨hreach, hsearch, hdealt', hsize'⟩ := hst'
    obtain ⟨st₁, hnext, hst₁, hdealt₁, hlen, hle⟩ | ⟨st₁, hdone, hfound⟩ :=
      round_spec hrec hapart hvis ht hsearch hdealt' hsize' (hclean st' hreach)
    · refine .inl ⟨st₁, ⟨hreach.tail hnext, hst₁, hdealt₁, hle⟩, ?_, 0, fun _ _ => hnext⟩
      omega
    · exact .inr ⟨_, ⟨st₁, rfl, hfound⟩, 0, fun _ _ => hdone⟩
  obtain ⟨r, ⟨st', rfl, hfound⟩, N, hN⟩ := runLoop_eventually _ hstep ⟨.refl, hst, hdealt, hsize⟩
  exact ⟨N, st', fun n hn => hN n hn n hn, hfound⟩

/-- The result of a search does not depend on the bound. -/
theorem executeYen_mono {m n k : Nat} {v : σ} {r : Bool × Ksp σ}
    (hrun : executeYen boost vis t n g s k v = some r) (hle : n ≤ m) :
    executeYen boost vis t m g s k v = some r := by
  rw [executeYen] at hrun ⊢
  cases hfirst : firstSolution boost vis t g s v with
  | none =>
    rw [hfirst] at hrun
    cases hrun
  | some first =>
    rw [hfirst] at hrun
    simp only [Option.bind_eq_bind, Option.bind_some] at hrun ⊢
    split at hrun
    · rename_i hstop
      rw [if_pos hstop]
      exact hrun
    · rename_i hgo
      rw [if_neg hgo, runLoop_mono (Option.join_eq_some_iff.mp hrun) hle]
      rfl

/-- The paths that are found in a clean run, when there is a route and the visitor does not stop
    at the first one. -/
theorem executeYen_spec {a b k : Nat} {v : σ} (hh : G h) (hrec : Recovers boost g G C Q)
    (hapart : CostsApart g s t) (hvis : Accounts vis J I) (hs : g.verticesMap s = some a)
    (ht : g.verticesMap t = some b) (hv : I v) (hk : 1 ≤ k)
    (hclean : CleanRun C boost vis h s t k v) :
    ∃ N thrown st, (∀ n ≥ N, executeYen boost vis t n h s k v = some (thrown, st)) ∧
      ((∃ p, (vis.onInsertFirstSolution p v).1 = thrown ∧ st.graph = h ∧
          st.vis = (vis.onInsertFirstSolution p v).2 ∧
          (thrown = true ∨ p.path = [] ∧ st.resultSet = [] ∧ ∀ q, ¬ Path.IsRoute g.Step s t q)) ∨
        thrown = false ∧ Found g s t G Q J I k st) := by
  obtain ⟨p, st₀, hfirst, hgraph, hvis₀, hp⟩ := firstSolution_spec hh hrec hvis hs ht hv
  have hcode : ∀ n, executeYen boost vis t n h s k v =
      if (vis.onInsertFirstSolution p v).1 = true ∨ st₀.resultSet.isEmpty = true then
        some ((vis.onInsertFirstSolution p v).1, st₀)
      else (runLoop (round boost vis t k) n st₀).join := by
    intro n
    rw [executeYen, hfirst]
    rfl
  -- The loop is not reached when the visitor throws or there is no first path.
  by_cases hstop : (vis.onInsertFirstSolution p v).1 = true ∨ st₀.resultSet.isEmpty = true
  · refine ⟨0, _, st₀, fun n _ => (hcode n).trans (if_pos hstop), .inl ⟨p, rfl, hgraph, hvis₀, ?_⟩⟩
    obtain hnone | ⟨_, hset⟩ := hp
    · exact .inr hnone
    · rw [hset] at hstop
      exact .inl (hstop.resolve_right Bool.false_ne_true)
  · obtain ⟨hgo, hne⟩ := not_or.mp hstop
    obtain ⟨_, hnil, _⟩ | ⟨hst₀, hset⟩ := hp
    · rw [hnil] at hne
      exact absurd rfl hne
    · rw [Bool.not_eq_true] at hgo
      rw [hgo] at hfirst
      have hdealt : ∀ q ∈ st₀.resultSet, q ≠ st₀.currResultPath → Dealt Q q := by
        intro q hq hqne
        rw [hset] at hq
        exact absurd (List.mem_singleton.mp hq) hqne
      have hsize : st₀.resultSet.length ≤ k := by
        rw [hset]
        exact hk
      obtain ⟨N, st, hrun, hfound⟩ :=
        runLoop_spec hrec hapart hvis ht hst₀ hdealt hsize (hclean st₀ hfirst)
      refine ⟨N, false, st, fun n hn => ?_, .inr ⟨rfl, hfound⟩⟩
      rw [hcode, if_neg hstop, hrun n hn]
      rfl

instance decidableCleanCycle [∀ h ops, Decidable (C h ops)]
    (boost : BoostDijkstra BasicVertex BasicEdge) (vis : KspVisitor σ) (mEnd : Int) :
    ∀ (l : List Nat) (st : Ksp σ), Decidable (CleanCycle C boost vis mEnd l st)
  | [], _ => isTrue trivial
  | i :: rest, st =>
    have : ∀ st' : Ksp σ, Decidable (CleanCycle C boost vis mEnd rest st') :=
      decidableCleanCycle boost vis mEnd rest
    decidable_of_iff (C st.graph (spurOps st.currResultPath st.resultSet i) ∧
        ∀ r ∈ spurStep boost vis mEnd i st, r.1 = false ∧ CleanCycle C boost vis mEnd rest r.2)
      (and_congr_right fun _ => Prod.forall)

/-- A run of few rounds can be checked. -/
theorem CleanRun.of_holdsFor {k n : Nat} {v : σ}
    (h : ∀ r ∈ firstSolution boost vis t g s v, r.1 = false →
      HoldsFor (round boost vis t k) (fun st => st.resultSet.length < k →
        CleanCycle C boost vis t (List.range st.currResultPath.path.length) st) n r.2) :
    CleanRun C boost vis g s t k v := by
  intro st₀ hfirst st hr
  exact (h _ hfirst rfl).reaches hr

end Ksp

end PgRouting
