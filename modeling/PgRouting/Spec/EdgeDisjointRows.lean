import PgRouting.Spec.EdgeDisjoint

/-!
# The rows of `pgr_edgeDisjointPaths`

The driver takes the costs of the rows from the edges with their ids, and adds them up until the
last row of a path. When the ids tell the rows apart and no two rows join the same vertices, each
path has the ids and the costs of the rows that it goes along.

## Key results

- `setCosts_eq`: the costs of the rows
- `setAggCosts_ways`: the aggregate costs
- `doEdgeDisjointPaths_spec`: the answer
-/

namespace PgRouting

namespace MaxFlowDriver

open PgrFlowGraph FlowNetwork ShortestPathDriver

variable {edges : List EdgeT} {a b : Int} {e : EdgeT} {r prev : PathRt} {rows : List PathRt}

/-- The ids tell the rows apart, and no two rows join the same vertices. -/
structure Plain (edges : List EdgeT) : Prop where
  ids : (edges.map EdgeT.id).Nodup
  nonneg : ∀ e ∈ edges, 0 ≤ e.id
  apart : edges.Pairwise fun e e' => ¬ (e.source = e'.source ∧ e.target = e'.target ∨
    e.source = e'.target ∧ e.target = e'.source)

/-- No row has the id of the last row of a path. -/
theorem Plain.no_end (h : Plain edges) : (-1 : Int) ∉ edges.map EdgeT.id := by
  intro hmem
  obtain ⟨e, he, hid⟩ := List.mem_map.mp hmem
  have := h.nonneg e he
  omega

/-- The cost of a lane. -/
def laneCost (l : Lane edges) : ℚ :=
  if l.2 then (edges.get l.1).reverseCost else (edges.get l.1).cost

/-- The rows of a route, with the ids and the costs of its lanes. -/
def costedRows (edges : List EdgeT) (a b : Int) : ℚ → List (Lane edges) → List PathRt
  | aggCost, [] => [⟨a, b, b, -1, 0, aggCost⟩]
  | aggCost, l :: p =>
    ⟨a, b, (tableNetwork edges).source l, (edges.get l.1).id, laneCost l, aggCost⟩ ::
      costedRows edges a b (aggCost + laneCost l) p

/-! ## Costs -/

/-- A row with the cost of an edge. -/
def costOf (e : EdgeT) (r : PathRt) : PathRt :=
  { r with cost := if r.node = e.source then e.cost else e.reverseCost }

/-- A row with the cost of the edge that it names. -/
def costRow (edges : List EdgeT) (r : PathRt) : PathRt :=
  ((edges.find? fun e => e.id = r.edge).map fun e => costOf e r).getD r

theorem costRow_of_mem (hids : (edges.map EdgeT.id).Nodup) (he : e ∈ edges) (hr : r.edge = e.id) :
    costRow edges r = costOf e r := by
  have hfind : edges.find? (fun e => e.id = r.edge) = some e := by
    obtain ⟨e', he'⟩ := Option.isSome_iff_exists.mp
      (List.find?_isSome.mpr ⟨e, he, decide_eq_true hr.symm⟩ :
        (edges.find? fun e => e.id = r.edge).isSome)
    have hid : e'.id = r.edge := by simpa using List.find?_some he'
    rw [he', List.inj_on_of_nodup_map hids (List.mem_of_find?_eq_some he') he (hid.trans hr)]
  rw [costRow, hfind]
  rfl

theorem costRow_of_not_mem (hr : r.edge ∉ edges.map EdgeT.id) : costRow edges r = r := by
  have hfind : edges.find? (fun e => e.id = r.edge) = none := by
    rw [List.find?_eq_none]
    intro e he hid
    exact hr (List.mem_map.mpr ⟨e, he, by simpa using hid⟩)
  rw [costRow, hfind]
  rfl

/-- The rows that name one of the edges. -/
theorem countP_cons (hnot : e.id ∉ edges.map EdgeT.id) (rows : List PathRt) :
    rows.countP (fun r => r.edge ∈ (e :: edges).map EdgeT.id) =
      rows.countP (fun r => r.edge = e.id) + rows.countP fun r => r.edge ∈ edges.map EdgeT.id := by
  induction rows with
  | nil => rfl
  | cons r rows ih =>
    rw [List.countP_cons, List.countP_cons, List.countP_cons, ih]
    by_cases hr : r.edge = e.id
    · simp [hr, hnot]
      omega
    · simp [hr]
      omega

/-- **Costs.** As long as some row names no edge, the loop comes to all edges, and each row has the
    cost of the edge that it names. -/
theorem setCosts_eq (hids : (edges.map EdgeT.id).Nodup) {found : Int} (rows : List PathRt)
    (hfound : (rows.countP fun r => r.edge ∈ edges.map EdgeT.id : Int) < found) :
    setCosts edges found rows = rows.map (costRow edges) := by
  induction edges generalizing found rows with
  | nil => exact (List.map_id' rows).symm
  | cons e edges ih =>
    obtain ⟨hnot, hids'⟩ := List.nodup_cons.mp hids
    have hcount := countP_cons hnot rows
    have hedge : ∀ r : PathRt, (if r.edge = e.id then costOf e r else r).edge = r.edge := by
      intro r
      split <;> rfl
    rw [setCosts, if_neg (by omega)]
    show setCosts edges _ (rows.map fun r => if r.edge = e.id then costOf e r else r) = _
    rw [ih hids', List.map_map]
    · refine List.map_congr_left fun r _ => ?_
      rw [Function.comp_apply]
      by_cases hr : r.edge = e.id
      · rw [if_pos hr, costRow_of_mem hids List.mem_cons_self hr]
        exact costRow_of_not_mem fun hmem => hnot (hr ▸ hmem)
      · rw [if_neg hr, costRow, costRow, List.find?_cons_of_neg]
        simpa using Ne.symm hr
    · rw [List.countP_map]
      simp only [Function.comp_def, hedge]
      omega

/-! ## Aggregate costs -/

/-- The rows of a route, before their costs are added up. -/
def wayRows (edges : List EdgeT) (a b : Int) (p : List (Lane edges)) : List PathRt :=
  p.map (fun l => ⟨a, b, (tableNetwork edges).source l, (edges.get l.1).id, laneCost l, 0⟩) ++
    [⟨a, b, b, -1, 0, 0⟩]

/-- What the row after `prev` starts from. -/
def nextCost (prev : PathRt) : ℚ := if prev.edge < 0 then 0 else prev.aggCost + prev.cost

/-- The costs of a route are added up until its last row. -/
theorem setAggCosts_way (hids : ∀ e ∈ edges, 0 ≤ e.id) (p : List (Lane edges)) (prev : PathRt)
    (rows : List PathRt) :
    ∃ last : PathRt, last.edge = -1 ∧ setAggCosts prev (wayRows edges a b p ++ rows) =
      costedRows edges a b (nextCost prev) p ++ setAggCosts last rows := by
  induction p generalizing prev with
  | nil => exact ⟨⟨a, b, b, -1, 0, nextCost prev⟩, rfl, rfl⟩
  | cons l p ih =>
    obtain ⟨last, hlast, hrows⟩ := ih
      ⟨a, b, (tableNetwork edges).source l, (edges.get l.1).id, laneCost l, nextCost prev⟩
    have hnext : nextCost ⟨a, b, (tableNetwork edges).source l, (edges.get l.1).id, laneCost l,
        nextCost prev⟩ = nextCost prev + laneCost l :=
      if_neg (not_lt.mpr (hids _ (List.get_mem edges l.1)))
    refine ⟨last, hlast, ?_⟩
    rw [hnext] at hrows
    exact congrArg _ hrows

/-- **Aggregate costs.** Each route starts anew. -/
theorem setAggCosts_ways (hids : ∀ e ∈ edges, 0 ≤ e.id) (hprev : prev.edge < 0)
    (ways : List ((Int × Int) × List (Lane edges))) :
    setAggCosts prev (ways.flatMap fun way => wayRows edges way.1.1 way.1.2 way.2) =
      ways.flatMap fun way => costedRows edges way.1.1 way.1.2 0 way.2 := by
  induction ways generalizing prev with
  | nil => rfl
  | cons way ways ih =>
    obtain ⟨last, hlast, hrows⟩ := setAggCosts_way (a := way.1.1) (b := way.1.2) hids way.2 prev
      (ways.flatMap fun way => wayRows edges way.1.1 way.1.2 way.2)
    rw [List.flatMap_cons, hrows, ih (by rw [hlast]; decide), List.flatMap_cons, nextCost,
      if_pos hprev]

/-! ## The answer -/

/-- The row that is named is the one that is used. -/
theorem joiningId_eq (h : Plain edges) (l : Lane edges) :
    joiningId edges ((tableNetwork edges).source l) ((tableNetwork edges).target l) =
      (edges.get l.1).id := by
  have hjoin := row_joins l
  obtain ⟨e, he⟩ := Option.isSome_iff_exists.mp
    (List.find?_isSome.mpr ⟨_, List.get_mem edges l.1, decide_eq_true hjoin⟩ :
      (edges.find? fun e => e.source = (tableNetwork edges).source l ∧
        e.target = (tableNetwork edges).target l ∨ e.source = (tableNetwork edges).target l ∧
        e.target = (tableNetwork edges).source l).isSome)
  have hjoin' := List.find?_some he
  rw [decide_eq_true_eq] at hjoin'
  have hsymm : Std.Symm fun e e' : EdgeT => ¬ (e.source = e'.source ∧ e.target = e'.target ∨
      e.source = e'.target ∧ e.target = e'.source) :=
    ⟨fun _ _ hne heq =>
      hne (heq.imp (fun h => ⟨h.1.symm, h.2.symm⟩) fun h => ⟨h.2.symm, h.1.symm⟩)⟩
  have hsame : e = edges.get l.1 := by
    by_contra hne
    refine h.apart.forall (List.mem_of_find?_eq_some he) (List.get_mem edges l.1) hne ?_
    obtain ⟨h1, h2⟩ | ⟨h1, h2⟩ := hjoin' <;> obtain ⟨h3, h4⟩ | ⟨h3, h4⟩ := hjoin
    · exact .inl ⟨h1.trans h3.symm, h2.trans h4.symm⟩
    · exact .inr ⟨h1.trans h4.symm, h2.trans h3.symm⟩
    · exact .inr ⟨h1.trans h4.symm, h2.trans h3.symm⟩
    · exact .inl ⟨h1.trans h3.symm, h2.trans h4.symm⟩
  rw [joiningId, he, hsame]
  rfl

/-- The rows of a route have the costs of its lanes. -/
theorem map_costRow (h : Plain edges) (p : List (Lane edges))
    (hloops : ∀ l ∈ p, (edges.get l.1).source ≠ (edges.get l.1).target) :
    (routeRows edges a b p).map (costRow edges) = wayRows edges a b p := by
  rw [routeRows, List.map_append, List.map_map, wayRows, List.map_singleton,
    costRow_of_not_mem h.no_end]
  refine congrArg (· ++ _) (List.map_congr_left fun l hl => ?_)
  rw [Function.comp_apply, costRow_of_mem h.ids (List.get_mem edges l.1) (joiningId_eq h l),
    costOf, joiningId_eq h l]
  obtain ⟨k, back⟩ := l
  cases back
  · exact congrArg (PathRt.mk _ _ _ _ · _) (if_pos rfl)
  · exact congrArg (PathRt.mk _ _ _ _ · _) (if_neg (hloops _ hl).symm)

/-- The routes with their pairs. -/
def ways (routes : Int × Int → List (List (Lane edges))) (pairs : List (Int × Int)) :
    List ((Int × Int) × List (Lane edges)) :=
  pairs.flatMap fun c => (routes c).map fun p => (c, p)

/-- The loop over the edges is not left before all rows have their costs. -/
theorem setCosts_ways (h : Plain edges) (ways : List ((Int × Int) × List (Lane edges)))
    (hloops : ∀ way ∈ ways, ∀ l ∈ way.2, (edges.get l.1).source ≠ (edges.get l.1).target) :
    setCosts edges (ways.flatMap fun way => routeRows edges way.1.1 way.1.2 way.2).length
      (ways.flatMap fun way => routeRows edges way.1.1 way.1.2 way.2) =
        ways.flatMap fun way => wayRows edges way.1.1 way.1.2 way.2 := by
  have hmap : (ways.flatMap fun way => routeRows edges way.1.1 way.1.2 way.2).map (costRow edges) =
      ways.flatMap fun way => wayRows edges way.1.1 way.1.2 way.2 := by
    rw [List.map_flatMap]
    exact List.flatMap_congr fun way hway => map_costRow h way.2 (hloops way hway)
  cases ways with
  | nil =>
    cases edges with
    | nil => rfl
    | cons e edges => rfl
  | cons way ways =>
    rw [← hmap]
    refine setCosts_eq h.ids _ (Int.ofNat_lt.mpr (List.countP_lt_length_iff.mpr
      ⟨⟨way.1.1, way.1.2, way.1.2, -1, 0, 0⟩, ?_, ?_⟩))
    · rw [List.flatMap_cons]
      exact List.mem_append_left _ (List.mem_append_right _ (List.mem_singleton_self _))
    · exact decide_eq_false h.no_end

/-- The pairs that the driver looks at. -/
def askedPairs (combinations : List (Int × List Int)) : List (Int × Int) :=
  (combinations.flatMap fun c => c.2.map fun t => (c.1, t)).filter fun c => c.1 ≠ c.2

/-- **The answer.** For each pair, as many paths as possible that have no row in common, and each is
    returned with the ids, the costs and the aggregate costs of the rows that it goes along. -/
theorem doEdgeDisjointPaths_spec (boost : BoostMaxFlow) (fuel : Nat) (edges : List EdgeT)
    (combinationsSql : Option (List (Int × Int))) (starts ends : Option (List Int))
    (directed : Bool) (hplain : Plain edges) (hedges : edges ≠ [])
    (hpairs : ¬ ((getCombinationsSql combinationsSql starts ends true).isEmpty ∧
      combinationsSql.isSome))
    (hsize : 2 * (edges.length : Int) < int32Max) (hfuel : 2 * (edges.length + 2) < fuel)
    (hboost : ∀ c ∈ askedPairs (getCombinationsSql combinationsSql starts ends true),
      (ofDirected edges (.add .empty c.1) (.add .empty c.2) directed).Documented
        (boost.boykovKolmogorov _)) :
    ∃ routes : Int × Int → List (List (Lane edges)),
      doEdgeDisjointPaths boost fuel edges combinationsSql starts ends directed =
        some (.rows ((askedPairs (getCombinationsSql combinationsSql starts ends true)).flatMap
          fun c => (routes c).flatMap (costedRows edges c.1 c.2 0))) ∧
      ∀ c ∈ askedPairs (getCombinationsSql combinationsSql starts ends true),
        IsAnswer edges directed c.1 c.2 (routes c) := by
  generalize hcombinations : getCombinationsSql combinationsSql starts ends true = combinations at *
  have hone : ∀ c : Int × Int, ∃ routes : List (List (Lane edges)), c ∈ askedPairs combinations →
      singleExecution boost fuel edges c.1 c.2 directed =
          some (routes.flatMap (routeRows edges c.1 c.2)) ∧
        IsAnswer edges directed c.1 c.2 routes ∧
        ∀ p ∈ routes, ∀ l ∈ p, (edges.get l.1).source ≠ (edges.get l.1).target := by
    intro c
    by_cases hc : c ∈ askedPairs combinations
    · have hne : c.1 ≠ c.2 := by simpa using (List.mem_filter.mp hc).2
      obtain ⟨routes, hanswer⟩ := exists_answer boost hne hsize hfuel (hboost c hc)
      exact ⟨routes, fun _ => hanswer⟩
    · exact ⟨[], fun h => absurd h hc⟩
  choose routes hroutes using hone
  refine ⟨routes, ?_, fun c hc => (hroutes c hc).2.1⟩
  have hrun : (askedPairs combinations).mapM
      (fun c => singleExecution boost fuel edges c.1 c.2 directed) =
        some ((askedPairs combinations).map fun c =>
          (routes c).flatMap (routeRows edges c.1 c.2)) :=
    mapM_eq_map fun c hc => (hroutes c hc).1
  -- The pairs one after the other, each with its routes.
  have hways : ∀ f : (Int × Int) × List (Lane edges) → List PathRt,
      (ways routes (askedPairs combinations)).flatMap f =
        (askedPairs combinations).flatMap fun c => (routes c).flatMap fun p => f (c, p) := by
    intro f
    simp only [ways, List.flatMap_assoc, List.flatMap_map]
  have hrows : ((askedPairs combinations).map fun c =>
      (routes c).flatMap (routeRows edges c.1 c.2)).flatten =
        (ways routes (askedPairs combinations)).flatMap fun way =>
          routeRows edges way.1.1 way.1.2 way.2 := by
    rw [← List.flatMap_def, hways]
  have hcosts := setCosts_ways hplain (ways routes (askedPairs combinations))
    fun way hway => by
      obtain ⟨c, hc, hway⟩ := List.mem_flatMap.mp hway
      obtain ⟨p, hp, rfl⟩ := List.mem_map.mp hway
      exact (hroutes c hc).2.2 p hp
  -- A route starts where the edge before was -1, so each counts from 0 again.
  have htotal : setAggCosts ⟨0, 0, 0, -1, 0, 0⟩ ((ways routes (askedPairs combinations)).flatMap
      fun way => wayRows edges way.1.1 way.1.2 way.2) =
        (askedPairs combinations).flatMap fun c =>
          (routes c).flatMap (costedRows edges c.1 c.2 0) :=
    (setAggCosts_ways hplain.nonneg (show (-1 : Int) < 0 by decide) _).trans (hways _)
  rw [doEdgeDisjointPaths, hcombinations, if_neg hpairs, if_neg (by simpa using hedges)]
  show ((askedPairs combinations).mapM fun c =>
    singleExecution boost fuel edges c.1 c.2 directed).bind _ = _
  rw [hrun, Option.bind_some, hrows, hcosts]
  rw [← htotal]
  cases (ways routes (askedPairs combinations)).flatMap fun way =>
    wayRows edges way.1.1 way.1.2 way.2 <;> rfl

/-- The two ways. -/
theorem doEdgeDisjointPaths_spec_twoWays : ∃ routes : Int × Int → List (List (Lane twoWays)),
    doEdgeDisjointPaths twoPaths 11 twoWays none (some [1]) (some [4]) true =
      some (.rows ((askedPairs (getCombinationsSql none (some [1]) (some [4]) true)).flatMap
        fun c => (routes c).flatMap (costedRows twoWays c.1 c.2 0))) ∧
      ∀ c ∈ askedPairs (getCombinationsSql none (some [1]) (some [4]) true),
        IsAnswer twoWays true c.1 c.2 (routes c) := by
  refine doEdgeDisjointPaths_spec twoPaths 11 twoWays none (some [1]) (some [4]) true
    ⟨by decide, by decide, by decide⟩ (by decide) (by decide) (by decide) (by decide)
    fun c hc => ?_
  obtain rfl : c = (1, 4) := List.mem_singleton.mp hc
  exact twoPaths_documented

example : doEdgeDisjointPaths twoPaths 11 twoWays none (some [1]) (some [4]) true =
    some (.rows [⟨1, 4, 1, 1, 1, 0⟩, ⟨1, 4, 2, 2, 1, 1⟩, ⟨1, 4, 4, -1, 0, 2⟩,
      ⟨1, 4, 1, 3, 1, 0⟩, ⟨1, 4, 4, -1, 0, 1⟩]) := by decide +kernel

end MaxFlowDriver

end PgRouting
