import PgRouting.Spec.TspDummy

/-!
# The costs of the rows that are returned

The cost of a row is right when the rows of the matrix give a cost between the two ids.
When they do not, it is the sum of the distances of the vertices on the way, in the graph
that has the dummy vertex when start and end are different. This is the distance between
the two only when the last edge on the way weighs as much as is counted too often before.

## Key results

- `evalTour_isTour`: the ids of a tour of Boost
- `rowRight_path_iff`: the costs that are right without an edge
- `doTsp_plain`, `tspBetween_spec`: what `do_tsp` returns
- `doTsp_rows_iff`
-/

namespace PgRouting

open UndirectedHasCostBG

namespace Tsp

variable {boost : BoostTsp} {g : UndirectedHasCostBG} {ds : List IIDT} {u v d : Nat} {i j s : Int}

/-! ## Tours -/

/-- The tour starts and ends in the vertex and visits every vertex of the graph once. -/
def IsTour (g : UndirectedHasCostBG) (v : Nat) (tour : List Nat) : Prop :=
  ∃ mid, tour = v :: mid ++ [v] ∧ (v :: mid).Perm (List.range g.graph.numVertices)

/-- A tour visits vertices of the graph. -/
theorem IsTour.lt {tour : List Nat} (h : IsTour g v tour) :
    ∀ x ∈ tour, x < g.graph.numVertices := by
  obtain ⟨mid, rfl, hperm⟩ := h
  intro x hx
  have hx : x ∈ v :: mid := by
    rw [List.mem_append, List.mem_singleton] at hx
    exact hx.elim id fun h => h ▸ List.mem_cons_self
  exact List.mem_range.mp (hperm.subset hx)

theorem filterMap_range (l : List Int) : (List.range l.length).filterMap (fun k => l[k]?) = l := by
  induction l with
  | nil => rfl
  | cons a l ih =>
    rw [List.length_cons, List.range_succ_eq_map, List.filterMap_cons, List.filterMap_map]
    simp only [List.getElem?_cons_zero]
    congr 1

/-- The ids of a tour, and the tour can be given its costs. -/
theorem evalTour_isTour (hall : AllCosts boost g) {tour : List Nat} (htour : IsTour g v tour)
    (hv : g.graph.vertices[v]? = some s) :
    ∃ rows mid, evalTour boost g none tour = .ok rows ∧ rows.map (·.1) = s :: mid ++ [s] ∧
      (s :: mid).Perm g.graph.vertices := by
  have hlt := htour.lt
  obtain ⟨mid, rfl, hperm⟩ := htour
  obtain ⟨rows, hrun, hids⟩ := evalTour_spec hall (v :: mid ++ [v]) none (fun _ h => by cases h) hlt
  refine ⟨rows, mid.filterMap fun k => g.graph.vertices[k]?, hrun, ?_, ?_⟩
  · rw [hids, List.filterMap_append, List.filterMap_cons, hv, List.filterMap_cons, hv]
    rfl
  · have hmap := hperm.filterMap fun k => g.graph.vertices[k]?
    rw [List.filterMap_cons, hv, AdjacencyList.numVertices, filterMap_range] at hmap
    exact hmap

/-- The first row and the last ones are those of the tour that is improved. -/
theorem SameFrame.exists_mid {limit : Nat} {mid last l' : List Int} (hlast : last.length = limit)
    (h : SameFrame limit (s :: mid ++ last) l') :
    ∃ mid', l' = s :: mid' ++ last ∧ mid'.Perm mid := by
  have hlen := h.perm.length_eq
  have hfirst := h.first
  have hdrop := h.last
  rw [List.length_append, hlast, Nat.add_sub_cancel, List.drop_left' rfl] at hdrop
  cases l' with
  | nil => simp at hlen
  | cons s' l' =>
    simp only [List.cons_append, List.take_succ_cons, List.take_zero, List.cons.injEq,
      and_true] at hfirst
    subst hfirst
    rw [List.length_cons, List.drop_succ_cons] at hdrop
    obtain hsplit := List.take_append_drop mid.length l'
    rw [hdrop] at hsplit
    have hl' : s' :: l' = s' :: l'.take mid.length ++ last := by
      rw [List.cons_append, hsplit]
    refine ⟨l'.take mid.length, hl', ?_⟩
    have hperm := h.perm
    rw [hl'] at hperm
    exact (List.perm_append_right_iff last).mp ((List.perm_cons s').mp hperm)

/-- What `do_tsp` returns from a tour that only has to be improved. -/
theorem doTsp_plain (hall : AllCosts boost g) {tour : List Nat} (htour : IsTour g v tour)
    (hv : g.graph.vertices[v]? = some s) :
    ∃ rows, (do let result ← evalTour boost g none tour
                crossoverOptimize boost g result 1) = .ok rows ∧
      Costed boost g none rows := by
  obtain ⟨result, mid, hrun, hids, hperm⟩ := evalTour_isTour hall htour hv
  have hmem : ∀ row ∈ result, row.1 ∈ g.graph.vertices := by
    intro row hrow
    have hid : row.1 ∈ s :: mid ++ [s] := hids ▸ List.mem_map_of_mem hrow
    rw [List.mem_append, List.mem_singleton] at hid
    exact hperm.subset (hid.elim id fun h => h ▸ List.mem_cons_self)
  obtain ⟨_, rows, _, hopt, _, hcosted, _⟩ := crossoverOptimize_spec hall result hmem 1
  refine ⟨rows, ?_, hcosted⟩
  rw [hrun]
  exact hopt

/-- What `do_tsp` returns for a start and an end that are different: the ids that Boost has before
    and after the dummy vertex change places, and the rows from the second to the last but two are
    put into another order. -/
theorem tspBetween_spec {G : UndirectedHasCostBG} {startVid endVid : Int} {tour : List Nat}
    (hstart : startVid ∈ G.graph.vertices) (hend : endVid ∈ G.graph.vertices)
    (hs : startVid ≠ 0) (hne : startVid ≠ endVid)
    (hg : insertDummy G (G.graph.vertices.idxOf startVid) (G.graph.vertices.idxOf endVid) = g)
    (hdummy : Dummy G g (G.graph.vertices.idxOf startVid) (G.graph.vertices.idxOf endVid) d)
    (hall : AllCosts boost g)
    (hboost : boost.metricTspApproxTourFromVertex g.graph (G.graph.vertices.idxOf startVid) = tour)
    (htour : IsTour g (G.graph.vertices.idxOf startVid) tour) :
    ∃ a b result handed before rows, evalTour boost g none tour = .ok result ∧
      result.map (·.1) = startVid :: (a ++ 0 :: b) ++ [startVid] ∧
      (startVid :: (a ++ 0 :: b)).Perm g.graph.vertices ∧
      startVidEndVidAreFixed result endVid = .ok handed ∧
      handed.map (·.1) = startVid :: (b ++ a).reverse ++ [startVid] ∧
      evalRows boost g none 0 handed = .ok ((before.map (·.2)).sum, before) ∧
      tspBetween boost G startVid endVid = .ok rows ∧ Costed boost g none rows ∧
      SameFrame 2 (startVid :: (b ++ a).reverse ++ [startVid]) (rows.map (·.1)) ∧
      (rows.map (·.2)).sum ≤ (before.map (·.2)).sum := by
  have hv : g.graph.vertices[G.graph.vertices.idxOf startVid]? = some startVid := by
    rw [hdummy.vertices, List.getElem?_append_left (List.idxOf_lt_length_iff.mpr hstart)]
    exact getElem?_idxOf hstart
  obtain ⟨result, mid, hrun, hids, hperm⟩ := evalTour_isTour hall htour hv
  -- The tour visits the dummy vertex.
  have hzero : (0 : Int) ∈ mid := by
    have h0 : (0 : Int) ∈ startVid :: mid :=
      hperm.symm.subset (List.mem_of_getElem? hdummy.dummy)
    exact (List.mem_cons.mp h0).resolve_left hs.symm
  obtain ⟨a, b, rfl⟩ := List.append_of_mem hzero
  have hnodup : (startVid :: (a ++ 0 :: b)).Nodup := hperm.nodup_iff.mpr g.nodup
  have ha : (0 : Int) ∉ a := by
    intro ha
    exact (List.nodup_append.mp (List.nodup_cons.mp hnodup).2).2.2 0 ha 0 List.mem_cons_self rfl
  obtain ⟨handed, hfixed, hhanded⟩ := startVidEndVidAreFixed_spec hids hs ha hne
  -- The rows that are handed to the optimisation are vertices of the graph.
  have hmem : ∀ row ∈ handed, row.1 ∈ g.graph.vertices := by
    intro row hrow
    have hid : row.1 ∈ startVid :: (b ++ a).reverse ++ [startVid] :=
      hhanded ▸ List.mem_map_of_mem hrow
    apply hperm.subset
    simp only [List.cons_append, List.mem_cons, List.mem_append, List.mem_reverse,
      List.not_mem_nil, or_false] at hid ⊢
    tauto
  obtain ⟨before, rows, hbefore, hopt, hframe, hcosted, hle⟩ :=
    crossoverOptimize_spec hall handed hmem 2
  refine ⟨a, b, result, handed, before, rows, hrun, hids, hperm, hfixed, hhanded, hbefore, ?_,
    hcosted, hhanded ▸ hframe, hle⟩
  have hhas : g.hasVertex startVid = true := decide_eq_true (List.mem_of_getElem? hv)
  have hpos : g.graph.vertices.idxOf startVid = G.graph.vertices.idxOf startVid :=
    (eq_idxOf hv).symm
  -- The dummy vertex does not move the start, so Boost is asked for the tour from it.
  have hfrom : tspFrom boost g startVid = .ok result := by
    rw [tspFrom, hhas, if_neg (by simp), getBoostVertex, if_pos (List.mem_of_getElem? hv)]
    show evalTour boost g none (boost.metricTspApproxTourFromVertex g.graph _) = _
    rw [hpos, hboost, hrun]
  rw [tspBetween, getBoostVertex, if_pos hstart, getBoostVertex, if_pos hend]
  show (do let result ← tspFrom boost (insertDummy G _ _) startVid
           let result ← startVidEndVidAreFixed result endVid
           crossoverOptimize boost (insertDummy G _ _) result 2) = _
  rw [hg, hfrom]
  show (startVidEndVidAreFixed result endVid).bind _ = _
  rw [hfixed]
  exact hopt

/-! ## Right costs -/

/-- The graph in which `do_tsp` looks for the tour and its costs. -/
def searched (g : UndirectedHasCostBG) (startVid endVid : Int) : UndirectedHasCostBG :=
  if startVid = 0 ∨ endVid = 0 ∨ startVid = endVid then g
  else insertDummy g (g.graph.vertices.idxOf startVid) (g.graph.vertices.idxOf endVid)

/-- What Boost documents about its tours. -/
structure ReturnsTours (boost : BoostTsp) (g : UndirectedHasCostBG) : Prop where
  fromFirst : ∃ v, IsTour g v (boost.metricTspApproxTour g.graph)
  fromVertex : ∀ v < g.graph.numVertices, IsTour g v (boost.metricTspApproxTourFromVertex g.graph v)

/-- What Boost documents about its search, for the vertices that have no edge between them. -/
def FindsGoals (boost : BoostTsp) (g : UndirectedHasCostBG) : Prop :=
  ∀ u < g.graph.numVertices, ∀ v < g.graph.numVertices, g.weights u v = [] →
    Reachable g.WArc u v → FindsGoal g.WArc u v (boost.dijkstraShortestPaths g.graph u v)

/-- The cost of a row after `i` is that of the edge from `i` to `j` when the rows of the matrix give
    one, and the distance otherwise. -/
def RowRight (ds : List IIDT) (i j : Int) (cost : Weight) : Prop :=
  ∃ c : ℚ, cost = c ∧ ((∃ c', RowArc ds i j c') → IsLeast {c | RowArc ds i j c} c) ∧
    ((∀ c', ¬ RowArc ds i j c') → IsDist (RowArc ds) i j c)

/-- On the path by which the search comes from `i` to `j` the last edge weighs as much as the edges
    before it, each as often as there are edges between it and the last one, less what the path
    saves by way of the dummy vertex: the distance between the two is `D` in the matrix, and `d` in
    the graph that is searched. -/
def LastMakesUp (boost : BoostTsp) (ds : List IIDT) (g : UndirectedHasCostBG) (i j : Int) : Prop :=
  let u := g.graph.vertices.idxOf i
  let v := g.graph.vertices.idxOf j
  ∃ (ws : List ℚ) (w d D : ℚ),
    LedBack g.WArc (boost.dijkstraShortestPaths g.graph u v).predecessors u (ws ++ [w]) v ∧
    IsDist g.WArc u v d ∧ IsDist (RowArc ds) i j D ∧ w + (D - d) = earlier ws

theorem rowArc_nonneg {c : ℚ} (h : RowArc ds i j c) : 0 ≤ c := by
  obtain ⟨_, d, _, hc, _, rfl⟩ := h
  exact hc

theorem isDist_self (ds : List IIDT) (i : Int) : IsDist (RowArc ds) i i 0 :=
  ⟨.nil i, fun _ hw => hw.nonneg fun _ _ _ => rowArc_nonneg⟩

/-- The cost of a row between two vertices without an edge, from the weights on the path that is
    found. -/
theorem rowRight_path_iff {cost : Weight} (hends : g.EndsIn)
    (hi : i ∈ g.graph.vertices) (hj : j ∈ g.graph.vertices)
    (hnil : g.weights (g.graph.vertices.idxOf i) (g.graph.vertices.idxOf j) = [])
    (hno : ∀ c, ¬ RowArc ds i j c)
    (hfind : FindsGoal g.WArc (g.graph.vertices.idxOf i) (g.graph.vertices.idxOf j)
      (boost.dijkstraShortestPaths g.graph (g.graph.vertices.idxOf i) (g.graph.vertices.idxOf j)))
    (hcost : getMinCost boost g (g.graph.vertices.idxOf i) (g.graph.vertices.idxOf j) = .ok cost) :
    RowRight ds i j cost ↔ i = j ∨ LastMakesUp boost ds g i j := by
  obtain ⟨hfound, ⟨l, htree⟩, hmin⟩ := hfind
  rw [getMinCost_path hends (List.idxOf_lt_length_iff.mpr hi) hnil rfl hfound htree] at hcost
  obtain rfl := Except.ok.inj hcost
  -- Without a row for the pair the right cost is the distance.
  have hright : ∀ D : ℚ, RowRight ds i j (D : Weight) ↔ IsDist (RowArc ds) i j D := by
    intro D
    constructor
    · rintro ⟨c, hc, _, hdist⟩
      obtain rfl := WithTop.coe_injective hc
      exact hdist hno
    · exact fun hdist => ⟨D, rfl, fun ⟨c, hc⟩ => absurd hc (hno c), fun _ => hdist⟩
  by_cases hij : i = j
  · -- The path has no edge.
    subst hij
    have hnil : l.dropLast = [] := by
      cases htree with
      | source => rfl
      | step htree hv => exact absurd htree.source_mem hv
    rw [hnil]
    exact iff_of_true ((hright 0).mpr (isDist_self ds i)) (.inl rfl)
  · have hne : g.graph.vertices.idxOf i ≠ g.graph.vertices.idxOf j := fun heq =>
      hij (Option.some.inj ((getElem?_idxOf hi).symm.trans (heq ▸ getElem?_idxOf hj)))
    obtain ⟨ws, w, hback, hdist, hsum⟩ := sum_of_treePath htree hne hmin
    rw [hsum, hright, or_iff_right hij]
    constructor
    · intro hD
      refine ⟨ws, w, _, _, hback, hdist, hD, ?_⟩
      rw [List.sum_append, List.sum_singleton]
      ring
    · -- The path and the two distances are unique.
      rintro ⟨ws', w', d, D, hback', hdist', hD, heq⟩
      obtain ⟨rfl, hw⟩ := List.append_inj' (hback.unique hback') rfl
      obtain rfl := List.singleton_injective hw
      obtain rfl := hdist.unique hdist'
      rw [List.sum_append, List.sum_singleton] at heq
      have hD' : earlier ws + ws.sum = D := by
        rw [← heq]
        ring
      rw [hD']
      exact hD

/-- A row that follows another one, in a graph that has the weights of the matrix for the two. -/
theorem rowRight_iff (hends : g.EndsIn)
    (hfinds : FindsGoals boost g)
    (hreach : ∀ u < g.graph.numVertices, ∀ v < g.graph.numVertices, Reachable g.WArc u v)
    (hi : i ∈ g.graph.vertices) (hj : j ∈ g.graph.vertices)
    (hweights : (g.weights (g.graph.vertices.idxOf i) (g.graph.vertices.idxOf j) = [] ∧
        ∀ c, ¬ RowArc ds i j c) ∨
      ∃ c : ℚ, g.weights (g.graph.vertices.idxOf i) (g.graph.vertices.idxOf j) = [(c : Weight)] ∧
        IsLeast {c | RowArc ds i j c} c) {cost : Weight}
    (hcost : getMinCost boost g (g.graph.vertices.idxOf i) (g.graph.vertices.idxOf j) = .ok cost) :
    RowRight ds i j cost ↔ (∃ c, RowArc ds i j c) ∨ i = j ∨ LastMakesUp boost ds g i j := by
  have hu : g.graph.vertices.idxOf i < g.graph.numVertices := List.idxOf_lt_length_iff.mpr hi
  have hv : g.graph.vertices.idxOf j < g.graph.numVertices := List.idxOf_lt_length_iff.mpr hj
  obtain ⟨hnil, hno⟩ | ⟨c, hone, hleast⟩ := hweights
  · rw [or_iff_right fun ⟨c, hc⟩ => hno c hc]
    exact rowRight_path_iff hends hi hj hnil hno (hfinds _ hu _ hv hnil (hreach _ hu _ hv)) hcost
  · rw [getMinCost_edge hone] at hcost
    obtain rfl := Except.ok.inj hcost
    exact iff_of_true ⟨c, rfl, fun _ => hleast, fun hno => absurd hleast.1 (hno c)⟩
      (.inl ⟨c, hleast.1⟩)

/-- There is a cost between any two vertices when each can be reached from each. -/
theorem allCosts_of_finds (hends : g.EndsIn) (hfinds : FindsGoals boost g)
    (hreach : ∀ u < g.graph.numVertices, ∀ v < g.graph.numVertices, Reachable g.WArc u v) :
    AllCosts boost g := by
  intro u hu v hv
  cases hw : g.weights u v with
  | nil =>
    obtain ⟨hfound, ⟨l, htree⟩, _⟩ := hfinds u hu v hv hw (hreach u hu v hv)
    exact ⟨_, getMinCost_path hends hu hw rfl hfound htree⟩
  | cons w rest => exact ⟨w, getMinCost_edge hw⟩

/-- In a connected matrix every vertex of the graph can be reached. -/
theorem reachable_ofRows
    (hconn : ∀ i ∈ matrixIds ds, ∀ j ∈ matrixIds ds, Reachable (RowArc ds) i j) :
    ∀ u < (ofRows ds).graph.numVertices, ∀ v < (ofRows ds).graph.numVertices,
      Reachable (ofRows ds).WArc u v := by
  obtain ⟨hrep, hends, hids⟩ := ofRows_spec ds
  intro u hu v hv
  obtain ⟨i, hi⟩ := exists_id hu
  obtain ⟨j, hj⟩ := exists_id hv
  have hmem : ∀ k, k ∈ (ofRows ds).graph.vertices → k ∈ matrixIds ds := fun k hk =>
    mem_matrixIds.mpr ((hids k).mp hk)
  obtain ⟨c, hc⟩ := hconn i (hmem i (List.mem_of_getElem? hi)) j (hmem j (List.mem_of_getElem? hj))
  obtain ⟨c', _, hw⟩ := hrep.exists_walk hids hc hi hj
  exact ⟨c', hw⟩

/-- The dummy vertex can be reached from the start. -/
theorem reachable_dummy {G : UndirectedHasCostBG} (hu : u < G.graph.numVertices)
    (hdummy : Dummy G g u v d)
    (hreach : ∀ x < G.graph.numVertices, ∀ y < G.graph.numVertices, Reachable G.WArc x y) :
    ∀ x < g.graph.numVertices, ∀ y < g.graph.numVertices, Reachable g.WArc x y := by
  have hold : ∀ {x y}, Reachable G.WArc x y → Reachable g.WArc x y := by
    rintro x y ⟨c, hc⟩
    exact ⟨c, hc.mono fun a b w hw => hdummy.mem a b w hw⟩
  have hstart : g.WArc u d 0 := hdummy.start
  have hstart' : g.WArc d u 0 := by
    rw [WArc, weights_comm]
    exact hdummy.start
  -- Every vertex is one of the matrix or the dummy vertex.
  have hcase : ∀ x < g.graph.numVertices, x < G.graph.numVertices ∨ x = d := by
    intro x hx
    by_cases hlt : x < G.graph.numVertices
    · exact .inl hlt
    · obtain ⟨k, hk⟩ := exists_id hx
      have hk0 : k = 0 := by
        rw [hdummy.vertices, List.getElem?_append_right (not_lt.mp hlt)] at hk
        split at hk
        · cases hk
        · exact List.mem_singleton.mp (List.mem_of_getElem? hk)
      exact .inr ((eq_idxOf (hk0 ▸ hk)).trans (eq_idxOf hdummy.dummy).symm)
  have hto : ∀ x < g.graph.numVertices, Reachable g.WArc u x := by
    intro x hx
    obtain hx | rfl := hcase x hx
    · exact hold (hreach u hu x hx)
    · exact ⟨0, .single hstart⟩
  intro x hx y hy
  obtain ⟨c, hc⟩ := hto y hy
  obtain hx | rfl := hcase x hx
  · obtain ⟨c', hc'⟩ := hold (hreach x hx u hu)
    exact ⟨_, hc'.append hc⟩
  · exact ⟨_, (Walk.single hstart').append hc⟩

/-! ## Runs -/

theorem tspFrom_eq (hs : s ∈ g.graph.vertices) :
    tspFrom boost g s = evalTour boost g none
      (boost.metricTspApproxTourFromVertex g.graph (g.graph.vertices.idxOf s)) := by
  have hhas : g.hasVertex s = true := decide_eq_true hs
  rw [tspFrom, hhas, if_neg (by simp), getBoostVertex, if_pos hs]
  rfl

variable (boost) in
/-- `do_tsp` refuses a start or an end that is not in the matrix. -/
theorem doTsp_error {startVid endVid : Int}
    (h : ¬ ((startVid = 0 ∨ startVid ∈ g.graph.vertices) ∧
      (endVid = 0 ∨ endVid ∈ g.graph.vertices))) :
    ∃ e, doTsp boost g startVid endVid = .error e := by
  have hno : ∀ s e : Int, ¬ ((s = 0 ∨ s ∈ g.graph.vertices) ∧ (e = 0 ∨ e ∈ g.graph.vertices)) →
      (s ≠ 0 ∧ (!g.hasVertex s) = true) ∨ (e ≠ 0 ∧ (!g.hasVertex e) = true) := by
    intro s e hse
    simp only [hasVertex, Bool.not_eq_true', decide_eq_false_iff_not]
    tauto
  rw [doTsp]
  by_cases h0 : startVid = 0
  · rw [if_pos h0]
    simp only
    have hcase := hno endVid startVid fun hse => h ⟨hse.2, hse.1⟩
    by_cases hfirst : endVid ≠ 0 ∧ (!g.hasVertex endVid) = true
    · rw [if_pos hfirst]
      exact ⟨_, rfl⟩
    · rw [if_neg hfirst, if_pos (hcase.resolve_left hfirst)]
      exact ⟨_, rfl⟩
  · rw [if_neg h0]
    simp only
    by_cases hfirst : startVid ≠ 0 ∧ (!g.hasVertex startVid) = true
    · rw [if_pos hfirst]
      exact ⟨_, rfl⟩
    · rw [if_neg hfirst, if_pos ((hno startVid endVid h).resolve_left hfirst)]
      exact ⟨_, rfl⟩

/-- A start and an end that are both given, different and in the matrix. -/
theorem doTsp_between {startVid endVid : Int} (hstart : startVid ∈ g.graph.vertices)
    (hend : endVid ∈ g.graph.vertices) (hs : startVid ≠ 0) (he : endVid ≠ 0)
    (hne : startVid ≠ endVid) :
    doTsp boost g startVid endVid = tspBetween boost g startVid endVid := by
  have hhas : ∀ k ∈ g.graph.vertices, g.hasVertex k = true := fun k hk => decide_eq_true hk
  rw [doTsp, if_neg hs]
  simp only
  rw [hhas _ hstart, hhas _ hend]
  simp [hs, he, hne]

/-- `do_tsp` returns rows with their costs in the graph it searches, and no row of the dummy
    vertex when there is one. -/
theorem doTsp_spec {startVid endVid : Int} (hends : g.EndsIn)
    (hstart : startVid = 0 ∨ startVid ∈ g.graph.vertices)
    (hend : endVid = 0 ∨ endVid ∈ g.graph.vertices)
    (htours : ReturnsTours boost (searched g startVid endVid))
    (hall : AllCosts boost (searched g startVid endVid)) :
    ∃ rows, doTsp boost g startVid endVid = .ok rows ∧
      Costed boost (searched g startVid endVid) none rows ∧
      (¬ (startVid = 0 ∨ endVid = 0 ∨ startVid = endVid) → ∀ row ∈ rows, row.1 ≠ 0) := by
  have hhas : ∀ k ∈ g.graph.vertices, g.hasVertex k = true := fun k hk => decide_eq_true hk
  by_cases hplain : startVid = 0 ∨ endVid = 0 ∨ startVid = endVid
  · rw [searched, if_pos hplain] at htours hall ⊢
    -- The tour starts in the one vertex that is given, or in the first of the graph.
    have hfrom : ∀ k ∈ g.graph.vertices, ∃ rows,
        (do let result ← tspFrom boost g k
            crossoverOptimize boost g result 1) = .ok rows ∧ Costed boost g none rows := by
      intro k hk
      rw [tspFrom_eq hk]
      exact doTsp_plain hall (htours.fromVertex _ (List.idxOf_lt_length_iff.mpr hk))
        (getElem?_idxOf hk)
    suffices hrun : ∃ rows, doTsp boost g startVid endVid = .ok rows ∧ Costed boost g none rows by
      obtain ⟨rows, hrun, hcosted⟩ := hrun
      exact ⟨rows, hrun, hcosted, fun hno => absurd hplain hno⟩
    rw [doTsp]
    -- Which tour is asked for depends on the vertices that are given.
    by_cases h0 : startVid = 0
    · by_cases h1 : endVid = 0
      · obtain ⟨v, hv⟩ := htours.fromFirst
        have hlt : v < g.graph.numVertices := by
          obtain ⟨mid, _, hperm⟩ := hv
          exact List.mem_range.mp (hperm.subset List.mem_cons_self)
        obtain ⟨i, hi⟩ := exists_id hlt
        rw [h0, h1]
        exact doTsp_plain hall hv hi
      · have hk := hend.resolve_left h1
        rw [h0, if_pos rfl]
        simp only
        rw [hhas _ hk]
        simp only [Bool.not_true, Bool.false_eq_true, and_false, if_false, ne_eq, not_true_eq_false,
          false_and, if_neg h1, true_or, if_true]
        exact hfrom endVid hk
    · have hk := hstart.resolve_left h0
      have hrest : endVid = 0 ∨ startVid = endVid := hplain.resolve_left h0
      have hok : ¬ (endVid ≠ 0 ∧ (!g.hasVertex endVid) = true) := by
        rintro ⟨h1, hno⟩
        rw [hhas _ (hend.resolve_left h1)] at hno
        cases hno
      rw [if_neg h0]
      simp only
      rw [hhas _ hk, if_neg hok, if_neg h0, if_pos hrest]
      simp only [Bool.not_true, Bool.false_eq_true, and_false, if_false]
      exact hfrom startVid hk
  · rw [searched, if_neg hplain] at htours hall ⊢
    rw [not_or, not_or] at hplain
    -- The start and the end differ: the dummy vertex joins them.
    obtain ⟨hs, he, hne⟩ := hplain
    have hk := hstart.resolve_left hs
    have hk' := hend.resolve_left he
    have hdummy := insertDummy_spec hends (List.idxOf_lt_length_iff.mpr hk)
      (List.idxOf_lt_length_iff.mpr hk')
    have hlt : g.graph.vertices.idxOf startVid <
        (insertDummy g (g.graph.vertices.idxOf startVid)
          (g.graph.vertices.idxOf endVid)).graph.numVertices := by
      rw [AdjacencyList.numVertices, hdummy.vertices, List.length_append]
      have := List.idxOf_lt_length_iff.mpr hk
      omega
    obtain ⟨a, b, _, _, _, rows, _, _, hperm, _, _, _, hrun, hcosted, hframe, _⟩ :=
      tspBetween_spec hk hk' hs hne rfl hdummy hall rfl (htours.fromVertex _ hlt)
    refine ⟨rows, (doTsp_between hk hk' hs he hne).trans hrun, hcosted, fun _ row hrow h0 => ?_⟩
    -- The dummy vertex has been deleted from the tour.
    have hnodup := hperm.nodup_iff.mpr (insertDummy g _ _).nodup
    have hid : row.1 ∈ startVid :: (b ++ a).reverse ++ [startVid] :=
      hframe.perm.subset (List.mem_map_of_mem hrow)
    rw [h0] at hid
    rw [List.nodup_cons, List.nodup_append, List.nodup_cons] at hnodup
    simp only [List.cons_append, List.mem_cons, List.mem_append, List.mem_reverse,
      List.not_mem_nil, or_false] at hid
    obtain hid | (hid | hid) | hid := hid
    · exact hs hid.symm
    · exact hnodup.2.2.1.1 hid
    · exact hnodup.2.2.2 0 hid 0 List.mem_cons_self rfl
    · exact hs hid.symm

/-- The weights between two ids other than the dummy vertex are those of the matrix. -/
theorem weights_searched {startVid endVid : Int}
    (hstart : startVid = 0 ∨ startVid ∈ (ofRows ds).graph.vertices)
    (hend : endVid = 0 ∨ endVid ∈ (ofRows ds).graph.vertices)
    (hi : i ∈ (searched (ofRows ds) startVid endVid).graph.vertices)
    (hj : j ∈ (searched (ofRows ds) startVid endVid).graph.vertices)
    (h0 : ¬ (startVid = 0 ∨ endVid = 0 ∨ startVid = endVid) → i ≠ 0 ∧ j ≠ 0) :
    let S := searched (ofRows ds) startVid endVid
    (S.weights (S.graph.vertices.idxOf i) (S.graph.vertices.idxOf j) = [] ∧
        ∀ c, ¬ RowArc ds i j c) ∨
      ∃ c : ℚ, S.weights (S.graph.vertices.idxOf i) (S.graph.vertices.idxOf j) = [(c : Weight)] ∧
        IsLeast {c | RowArc ds i j c} c := by
  obtain ⟨hrep, hends, _⟩ := ofRows_spec ds
  by_cases hplain : startVid = 0 ∨ endVid = 0 ∨ startVid = endVid
  · simp only [searched, if_pos hplain] at hi hj ⊢
    exact hrep _ _ _ _ (getElem?_idxOf hi) (getElem?_idxOf hj)
  · simp only [searched, if_neg hplain] at hi hj ⊢
    obtain ⟨hi0, hj0⟩ := h0 hplain
    rw [not_or, not_or] at hplain
    obtain ⟨hs, he, _⟩ := hplain
    have hdummy := insertDummy_spec hends
      (List.idxOf_lt_length_iff.mpr (hstart.resolve_left hs))
      (List.idxOf_lt_length_iff.mpr (hend.resolve_left he))
    set S := insertDummy (ofRows ds) ((ofRows ds).graph.vertices.idxOf startVid)
      ((ofRows ds).graph.vertices.idxOf endVid) with hS
    -- The other ids keep their positions.
    have hold : ∀ k, k ∈ S.graph.vertices → k ≠ 0 →
        (ofRows ds).graph.vertices[S.graph.vertices.idxOf k]? = some k ∧
          S.graph.vertices.idxOf k ≠ S.graph.vertices.idxOf 0 := by
      intro k hk hk0
      constructor
      · have hmem : k ∈ (ofRows ds).graph.vertices := by
          rw [hdummy.vertices, List.mem_append] at hk
          obtain hk | hk := hk
          · exact hk
          · split at hk
            · cases hk
            · exact absurd (List.mem_singleton.mp hk) hk0
        rw [hdummy.vertices, List.idxOf_append_of_mem hmem]
        exact getElem?_idxOf hmem
      · intro heq
        have hget := getElem?_idxOf hk
        rw [heq, hdummy.dummy] at hget
        exact hk0 (Option.some.inj hget).symm
    obtain ⟨hgi, hdi⟩ := hold i hi hi0
    obtain ⟨hgj, hdj⟩ := hold j hj hj0
    rw [hdummy.weights _ _ hdi hdj]
    exact hrep _ _ _ _ hgi hgj

/-- The rows that `do_tsp` returns carry the right costs exactly where the matrix gives a cost, or
    the row is for the vertex before it again, or the last edge of the path between the two makes
    up for what is counted too often. -/
theorem doTsp_rows_iff (boost : BoostTsp) (ds : List IIDT) (startVid endVid : Int)
    (hconn : ∀ i ∈ matrixIds ds, ∀ j ∈ matrixIds ds, Reachable (RowArc ds) i j)
    (htours : ReturnsTours boost (searched (ofRows ds) startVid endVid))
    (hfinds : FindsGoals boost (searched (ofRows ds) startVid endVid)) :
    ((startVid = 0 ∨ startVid ∈ matrixIds ds) ∧ (endVid = 0 ∨ endVid ∈ matrixIds ds) →
      ∃ rows, doTsp boost (ofRows ds) startVid endVid = .ok rows) ∧
    ∀ rows, doTsp boost (ofRows ds) startVid endVid = .ok rows →
      ∀ before x y after, rows = before ++ x :: y :: after →
        (RowRight ds x.1 y.1 y.2 ↔ (∃ c, RowArc ds x.1 y.1 c) ∨ x.1 = y.1 ∨
          LastMakesUp boost ds (searched (ofRows ds) startVid endVid) x.1 y.1) := by
  obtain ⟨hrep, hends, hids⟩ := ofRows_spec ds
  have hmem : ∀ k, k ∈ (ofRows ds).graph.vertices ↔ k ∈ matrixIds ds := fun k =>
    (hids k).trans mem_matrixIds.symm
  have hreach := reachable_ofRows hconn
  have hrun : (startVid = 0 ∨ startVid ∈ (ofRows ds).graph.vertices) →
      (endVid = 0 ∨ endVid ∈ (ofRows ds).graph.vertices) →
      (searched (ofRows ds) startVid endVid).EndsIn ∧
      (∀ u < (searched (ofRows ds) startVid endVid).graph.numVertices,
        ∀ v < (searched (ofRows ds) startVid endVid).graph.numVertices,
        Reachable (searched (ofRows ds) startVid endVid).WArc u v) := by
    intro hstart hend
    by_cases hplain : startVid = 0 ∨ endVid = 0 ∨ startVid = endVid
    · rw [searched, if_pos hplain]
      exact ⟨hends, hreach⟩
    · rw [searched, if_neg hplain]
      rw [not_or, not_or] at hplain
      have hu := List.idxOf_lt_length_iff.mpr (hstart.resolve_left hplain.1)
      have hdummy := insertDummy_spec hends hu
        (List.idxOf_lt_length_iff.mpr (hend.resolve_left hplain.2.1))
      exact ⟨hdummy.ends, reachable_dummy hu hdummy hreach⟩
  constructor
  · rintro ⟨hstart, hend⟩
    rw [← hmem] at hstart hend
    obtain ⟨hends', hreach'⟩ := hrun hstart hend
    obtain ⟨rows, hok, _⟩ := doTsp_spec hends hstart hend htours
      (allCosts_of_finds hends' hfinds hreach')
    exact ⟨rows, hok⟩
  · rintro rows hrows before x y after rfl
    -- Rows are returned for a start and an end of the matrix only.
    obtain ⟨hstart, hend⟩ : (startVid = 0 ∨ startVid ∈ (ofRows ds).graph.vertices) ∧
        (endVid = 0 ∨ endVid ∈ (ofRows ds).graph.vertices) := by
      by_contra hno
      obtain ⟨e, he⟩ := doTsp_error boost hno
      rw [he] at hrows
      cases hrows
    obtain ⟨hends', hreach'⟩ := hrun hstart hend
    obtain ⟨rows', hok, hcosted, hzero⟩ := doTsp_spec hends hstart hend htours
      (allCosts_of_finds hends' hfinds hreach')
    obtain rfl := Except.ok.inj (hrows.symm.trans hok)
    obtain ⟨hx, hy, hcost⟩ := hcosted.getMinCost
    exact rowRight_iff hends' hfinds hreach' hx hy
      (weights_searched hstart hend hx hy fun hno =>
        ⟨hzero hno x (by simp), hzero hno y (by simp)⟩) hcost

/-! ## A chain -/

/-- The rows of a matrix that does not say what it costs from 1 to 3. -/
def chainRows : List IIDT := [⟨1, 2, 1⟩, ⟨2, 3, 1⟩]

/-- How far apart two vertices of the chain are. -/
def gap (u x : Nat) : Nat := (x - u) + (u - x)

/-- Boost for the chain. -/
def chainBoost : BoostTsp where
  metricTspApproxTour := fun _ => [0, 1, 2, 0]
  metricTspApproxTourFromVertex := fun _ v => if v = 1 then [1, 0, 2, 1] else [v, 1, 2 - v, v]
  dijkstraShortestPaths := fun _ u v =>
    ⟨fun x => if x < u then x + 1 else if u < x then x - 1 else x,
      fun x => ((gap u x : ℚ) : Weight), some [v]⟩

theorem rowArc_chain {c : ℚ} :
    RowArc chainRows i j c ↔
      c = 1 ∧ (i = 1 ∧ j = 2 ∨ i = 2 ∧ j = 1 ∨ i = 2 ∧ j = 3 ∨ i = 3 ∧ j = 2) := by
  have hpos : (0 : ℚ) ≤ 1 := by decide +kernel
  simp only [RowArc, chainRows, List.mem_cons, List.not_mem_nil, or_false, exists_eq_or_imp,
    exists_eq_left, IIDT.Joins, hpos, true_and, eq_comm (b := c)]
  constructor
  · rintro ⟨_, ⟨hj, rfl⟩ | ⟨hj, rfl⟩⟩
    · exact ⟨rfl, by omega⟩
    · exact ⟨rfl, by omega⟩
  · rintro ⟨rfl, hj⟩
    refine ⟨by omega, ?_⟩
    simp only [and_true]
    omega

theorem chain_connected :
    ∀ i ∈ matrixIds chainRows, ∀ j ∈ matrixIds chainRows, Reachable (RowArc chainRows) i j := by
  have h12 : RowArc chainRows 1 2 1 := rowArc_chain.mpr (by decide)
  have h21 : RowArc chainRows 2 1 1 := rowArc_chain.mpr (by decide)
  have h23 : RowArc chainRows 2 3 1 := rowArc_chain.mpr (by decide)
  have h32 : RowArc chainRows 3 2 1 := rowArc_chain.mpr (by decide)
  -- All ids are neighbours of 2.
  have hid : ∀ k, k ∈ matrixIds chainRows →
      (∃ c, Walk (RowArc chainRows) k 2 c) ∧ ∃ c, Walk (RowArc chainRows) 2 k c := by
    intro k hk
    obtain ⟨d, hd, hk⟩ := mem_matrixIds.mp hk
    simp only [chainRows, List.mem_cons, List.not_mem_nil, or_false] at hd
    obtain rfl | rfl := hd
    · obtain rfl | rfl := hk
      · exact ⟨⟨_, .single h12⟩, _, .single h21⟩
      · exact ⟨⟨_, .nil 2⟩, _, .nil 2⟩
    · obtain rfl | rfl := hk
      · exact ⟨⟨_, .nil 2⟩, _, .nil 2⟩
      · exact ⟨⟨_, .single h32⟩, _, .single h23⟩
  intro i hi j hj
  obtain ⟨⟨c, hc⟩, _⟩ := hid i hi
  obtain ⟨_, c', hc'⟩ := hid j hj
  exact ⟨_, hc.append hc'⟩

theorem searched_chain : searched (ofRows chainRows) 0 0 = ofRows chainRows := if_pos (.inl rfl)

theorem chain_numVertices : (ofRows chainRows).graph.numVertices = 3 := by decide +kernel

theorem chain_tours : ReturnsTours chainBoost (searched (ofRows chainRows) 0 0) := by
  rw [searched_chain]
  constructor
  · exact ⟨0, [1, 2], rfl, by rw [chain_numVertices]; decide⟩
  · intro v hv
    rw [chain_numVertices] at hv
    obtain rfl | rfl | rfl : v = 0 ∨ v = 1 ∨ v = 2 := by omega
    · exact ⟨[1, 2], rfl, by rw [chain_numVertices]; decide⟩
    · exact ⟨[0, 2], rfl, by rw [chain_numVertices]; decide⟩
    · exact ⟨[1, 0], rfl, by rw [chain_numVertices]; decide⟩

theorem wArc_chain {x y : Nat} {w : ℚ} :
    (ofRows chainRows).WArc x y w ↔ w = 1 ∧ x < 3 ∧ y < 3 ∧ gap x y = 1 := by
  have hedges : (ofRows chainRows).graph.edges = [⟨1, 0, 1⟩, ⟨2, 1, 1⟩] := by decide +kernel
  simp only [WArc, weights, List.mem_map, List.mem_filter,
    AdjacencyList.joins_iff_ends (ofRows chainRows).undirected, hedges, List.mem_cons,
    List.not_mem_nil, or_false, gap]
  constructor
  · rintro ⟨e, ⟨rfl | rfl, hj⟩, hw⟩
    · exact ⟨(WithTop.coe_injective hw).symm, by simp only at hj; omega⟩
    · exact ⟨(WithTop.coe_injective hw).symm, by simp only at hj; omega⟩
  · rintro ⟨rfl, hxy⟩
    by_cases h01 : x = 0 ∨ y = 0
    · exact ⟨⟨1, 0, 1⟩, ⟨.inl rfl, by simp only; omega⟩, rfl⟩
    · exact ⟨⟨2, 1, 1⟩, ⟨.inr rfl, by simp only; omega⟩, rfl⟩

theorem chain_finds : FindsGoals chainBoost (searched (ofRows chainRows) 0 0) := by
  rw [searched_chain]
  intro u hu v hv _ _
  rw [chain_numVertices] at hu hv
  set r := chainBoost.dijkstraShortestPaths (ofRows chainRows).graph u v with hr
  have hdist : ∀ x, r.distances x = ((gap u x : ℚ) : Weight) := fun _ => rfl
  -- A vertex is one step further than its predecessor.
  have hstep : ∀ n x, x < 3 → gap u x = n →
      ∃ l, TreePath (ofRows chainRows).WArc r.predecessors r.distances u l x ∧
        ∀ y ∈ l, gap u y ≤ n := by
    intro n
    induction n with
    | zero =>
      intro x _ hx
      obtain rfl : x = u := by
        rw [gap] at hx
        omega
      refine ⟨[x], .source ?_, fun y hy => ?_⟩
      · rw [hdist, hx]
        rfl
      · rw [List.mem_singleton.mp hy, hx]
    | succ n ih =>
      intro x hx hgap
      have hp : r.predecessors x = if x < u then x + 1 else if u < x then x - 1 else x := rfl
      obtain ⟨p, hpx, hplt, hpgap, hpx1⟩ : ∃ p, r.predecessors x = p ∧ p < 3 ∧ gap u p = n ∧
          gap p x = 1 := by
        refine ⟨_, rfl, ?_⟩
        rw [hp]
        simp only [gap] at hgap ⊢
        split
        · omega
        · split <;> omega
      obtain ⟨l, htree, hl⟩ := ih p hplt hpgap
      refine ⟨l ++ [x], .step htree (fun hmem => ?_) hpx
        (wArc_chain.mpr ⟨rfl, hplt, hx, hpx1⟩) ?_, fun y hy => ?_⟩
      · have := hl x hmem
        omega
      · rw [hdist, hdist, hgap, hpgap, Nat.cast_succ]
        rfl
      · obtain hy | hy := List.mem_append.mp hy
        · exact (hl y hy).trans (Nat.le_succ n)
        · rw [List.mem_singleton.mp hy, hgap]
  obtain ⟨l, htree, _⟩ := hstep _ v hv rfl
  refine ⟨rfl, ⟨l, htree⟩, fun d hd => ?_⟩
  have hle := hd.potential_le (φ := fun x => (gap u x : ℚ)) fun x y w hw => by
    obtain ⟨rfl, _, _, hxy⟩ := wArc_chain.mp hw
    have : gap u y ≤ gap u x + 1 := by
      rw [gap] at hxy
      simp only [gap]
      omega
    exact_mod_cast this
  have hzero : gap u u = 0 := by
    simp [gap]
  rw [hzero, Nat.cast_zero, zero_add] at hle
  rw [hdist]
  exact WithTop.coe_le_coe.mpr hle

theorem doTsp_rows_iff_chain :
    ∃ rows, doTsp chainBoost (ofRows chainRows) 0 0 = .ok rows ∧
      ∀ before x y after, rows = before ++ x :: y :: after →
        (RowRight chainRows x.1 y.1 y.2 ↔ (∃ c, RowArc chainRows x.1 y.1 c) ∨ x.1 = y.1 ∨
          LastMakesUp chainBoost chainRows (searched (ofRows chainRows) 0 0) x.1 y.1) := by
  obtain ⟨hok, hrows⟩ :=
    doTsp_rows_iff chainBoost chainRows 0 0 chain_connected chain_tours chain_finds
  obtain ⟨rows, hrun⟩ := hok ⟨.inl rfl, .inl rfl⟩
  exact ⟨rows, hrun, hrows rows hrun⟩

/-- The row from 3 to 1 carries the cost 1 for a distance of 2. -/
theorem doTsp_wrong_cost :
    (∀ i ∈ matrixIds chainRows, ∀ j ∈ matrixIds chainRows, Reachable (RowArc chainRows) i j) ∧
    ReturnsTours chainBoost (searched (ofRows chainRows) 0 0) ∧
    FindsGoals chainBoost (searched (ofRows chainRows) 0 0) ∧
    ¬ ∀ rows, doTsp chainBoost (ofRows chainRows) 0 0 = .ok rows →
      ∀ before x y after, rows = before ++ x :: y :: after →
        RowRight chainRows x.1 y.1 y.2 := by
  refine ⟨chain_connected, chain_tours, chain_finds, fun hall => ?_⟩
  have hrun : doTsp chainBoost (ofRows chainRows) 0 0 = .ok [(1, 0), (2, 1), (3, 1), (1, 1)] := by
    decide +kernel
  obtain ⟨c, hc, _, hdist⟩ := hall _ hrun [(1, 0), (2, 1)] (3, 1) (1, 1) [] rfl
  obtain rfl : (1 : ℚ) = c := WithTop.coe_injective hc
  have hwalk := (hdist fun c' hc' => by
    have := (rowArc_chain.mp hc').2
    omega).walk
  -- Each row leads one id further.
  have hle := hwalk.potential_le (φ := fun k : Int => -(k : ℚ)) fun k k' w hw => by
    obtain ⟨rfl, hk⟩ := rowArc_chain.mp hw
    have : -k' ≤ -k + 1 := by omega
    exact_mod_cast this
  exact absurd hle (by decide +kernel)

end Tsp

end PgRouting
