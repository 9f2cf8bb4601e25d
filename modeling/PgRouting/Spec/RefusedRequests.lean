import PgRouting.Spec.ShortestPath

/-!
# The requests that are refused

`check_points` and `create_new_edges` set an error, and the driver answers with it, in two cases:
two different points have the same number, or a point on one of the edges is not between its ends.

## Key results

- `checkPoints_error_iff` / `createNewEdgesLoop_error_iff`: when the two functions set an error
- `doShortestPath_error_iff`: the requests that are refused
-/

namespace PgRouting

namespace PgPointsGraph

variable {d : Side} {p q : PointOnEdge} {points l : List PointOnEdge} {es : List EdgeT} {e : EdgeT}
variable {g : PgPointsGraph}

/-! ## Points with the same number -/

/-- The points lie at the same place, on the same side. -/
def SamePlace (p q : PointOnEdge) : Prop :=
  p.edgeId = q.edgeId ∧ p.fraction = q.fraction ∧ p.side = q.side

/-- Two different points have the same number. -/
def Clash (points : List PointOnEdge) : Prop :=
  ∃ p ∈ points, ∃ q ∈ points, p.pid = q.pid ∧ ¬ SamePlace p q

theorem Side.rank_inj {s s' : Side} : s.rank = s'.rank ↔ s = s' := by
  cases s <;> cases s' <;> decide

instance (p q : PointOnEdge) : Decidable (SamePlace p q) :=
  inferInstanceAs (Decidable (_ ∧ _ ∧ _))

theorem sortKey_eq_iff : sortKey p = sortKey q ↔ p.pid = q.pid ∧ SamePlace p q := by
  simp only [sortKey, SamePlace, toLex_inj, Prod.mk.injEq, Side.rank_inj]

/-- The points that are left when those that are listed twice are taken out. -/
def listedOnce (points : List PointOnEdge) : List PointOnEdge :=
  unique (fun a b => a.pid = b.pid ∧ a.edgeId = b.edgeId ∧ a.fraction = b.fraction ∧
    a.side = b.side) (sortPoints points)

theorem listedOnce_sorted (points : List PointOnEdge) :
    (listedOnce points).Pairwise fun p q => sortKey p < sortKey q :=
  unique_sorted (fun _ _ => decide_eq_true_iff.trans sortKey_eq_iff.symm) (sortPoints_sorted points)

theorem mem_of_mem_listedOnce (hp : p ∈ listedOnce points) : p ∈ points :=
  (sortPoints_perm points).mem_iff.mp ((unique_sublist _ _).subset hp)

theorem exists_mem_listedOnce (hp : p ∈ points) :
    ∃ q ∈ listedOnce points, q.pid = p.pid ∧ SamePlace q p := by
  obtain ⟨q, hq, hkey⟩ := exists_mem_unique sortKey
    (fun _ _ => decide_eq_true_iff.trans sortKey_eq_iff.symm)
    ((sortPoints_perm points).mem_iff.mpr hp)
  exact ⟨q, hq, sortKey_eq_iff.mp hkey⟩

/-- Points are lost to others with the same number exactly when two of them differ. -/
theorem clash_iff : Clash points ↔
    ¬ (listedOnce points).Pairwise fun p q => p.pid ≠ q.pid := by
  constructor
  · intro hclash hne
    obtain ⟨p, hp, q, hq, hpid, hplace⟩ := hclash
    obtain ⟨p', hp', hpid', hplace'⟩ := exists_mem_listedOnce hp
    obtain ⟨q', hq', hpid'', hplace''⟩ := exists_mem_listedOnce hq
    have hsame : p' = q' := by
      refine List.inj_on_of_nodup_map (List.pairwise_map.mpr hne) hp' hq' ?_
      exact hpid'.trans (hpid.trans hpid''.symm)
    subst hsame
    exact hplace ⟨hplace'.1.symm.trans hplace''.1, hplace'.2.1.symm.trans hplace''.2.1,
      hplace'.2.2.symm.trans hplace''.2.2⟩
  · intro hnot
    by_contra hclash
    refine hnot ((listedOnce_sorted points).imp_of_mem fun {p q} hp hq hlt hpid => ?_)
    refine hclash ⟨p, mem_of_mem_listedOnce hp, q, mem_of_mem_listedOnce hq, hpid, fun hplace => ?_⟩
    exact hlt.ne (sortKey_eq_iff.mpr ⟨hpid, hplace⟩)

theorem checkPoints_listedOnce (g : PgPointsGraph) : g.checkPoints =
    { g with
      points := unique (fun a b => a.pid = b.pid) (listedOnce g.points)
      error := if (unique (fun a b => a.pid = b.pid) (listedOnce g.points)).length ≠
          (listedOnce g.points).length then g.error ++ "Unexpected point(s) with same pid" ++
            " but different edge/fraction/side combination found."
        else g.error } := rfl

/-- When no two points clash, each of them is left. -/
theorem checkPoints_of_not_clash (h : ¬ Clash g.points) :
    g.checkPoints = { g with points := listedOnce g.points } := by
  have hne := not_not.mp (mt clash_iff.mpr h)
  have hunique := unique_eq_self (fun a b => a.pid = b.pid) (listedOnce g.points)
    (hne.imp fun hne => decide_eq_false hne)
  rw [checkPoints_listedOnce, hunique, if_neg (not_not.mpr rfl)]

theorem checkPoints_error_iff (h : g.error = "") : g.checkPoints.error ≠ "" ↔ Clash g.points := by
  constructor
  · intro herror
    by_contra hclash
    rw [checkPoints_of_not_clash hclash] at herror
    exact herror h
  · intro hclash
    have hlost : (unique (fun a b => a.pid = b.pid) (listedOnce g.points)).length ≠
        (listedOnce g.points).length := by
      intro hlen
      have hsorted := unique_sorted pid_equal ((listedOnce_sorted g.points).imp fun hlt =>
        pid_le_of_sortKey_le hlt.le)
      rw [(unique_sublist _ _).eq_of_length hlen] at hsorted
      exact clash_iff.mp hclash (hsorted.imp fun hlt => hlt.ne)
    rw [checkPoints_listedOnce, if_pos hlost, h]
    show "" ++ _ ++ _ ≠ ""
    decide

/-! ## Points that are not on their edge -/

/-- The fraction is not between the ends of an edge. -/
def Outside (p : PointOnEdge) : Prop := p.fraction < 0 ∨ 1 < p.fraction

theorem splitLoop_snd (s : Splitting) :
    (splitLoop e d s l).2 = false ↔ ∃ p ∈ l, Outside p := by
  induction l generalizing s with
  | nil => simp [splitLoop]
  | cons p l ih =>
    rw [splitLoop]
    split
    · rename_i hout
      exact iff_of_true rfl ⟨p, List.mem_cons_self, hout⟩
    · rename_i hin
      rw [ih]
      simp [List.mem_cons, show ¬ Outside p from hin]

/-- The loop over the edges goes through when all edges have points, and none outside. -/
theorem createNewEdgesLoop_error_iff (newPoints : List PointOnEdge) :
    (createNewEdgesLoop g es newPoints).error = "" ↔ g.error = "" ∧
      ∀ e ∈ es, pointsOnEdge g.points e ≠ [] ∧ ∀ p ∈ pointsOnEdge g.points e, ¬ Outside p := by
  induction es generalizing g newPoints with
  | nil => exact (and_iff_left fun _ he => absurd he List.not_mem_nil).symm
  | cons e es ih =>
    rw [createNewEdgesLoop, List.forall_mem_cons]
    cases hpoints : pointsOnEdge g.points e with
    | nil =>
      refine iff_of_false (fun herror => ?_) fun h => h.2.1.1 rfl
      exact absurd (String.append_eq_empty_iff.mp herror).2 (by decide)
    | cons p l =>
      have hout := splitLoop_snd (e := e) (d := g.drivingSide) (l := p :: l) (startSplitting e)
      cases hloop : splitLoop e g.drivingSide (startSplitting e) (p :: l) with
      | mk s ok =>
        rw [hloop] at hout
        cases ok with
        | false =>
          obtain ⟨q, hq, hout⟩ := hout.mp rfl
          refine iff_of_false (fun herror => ?_) fun h => h.2.1.2 q hq hout
          simp only [hloop] at herror
          exact absurd (String.append_eq_empty_iff.mp herror).2 (by decide)
        | true =>
          have hin : p :: l ≠ [] ∧ ∀ q ∈ p :: l, ¬ Outside q :=
            ⟨List.cons_ne_nil p l, fun q hq h =>
              absurd (hout.mpr ⟨q, hq, h⟩) Bool.noConfusion⟩
          simp only [hloop]
          rw [and_iff_right hin]
          exact ih _

/-- The edges that `create_new_edges` goes through have points. -/
theorem mem_pointsOnEdge (g : PgPointsGraph) (e : EdgeT) :
    p ∈ pointsOnEdge g.checkPoints.points e ↔ p ∈ g.checkPoints.points ∧ p.edgeId = e.id := by
  obtain ⟨hset, _, hfold⟩ := inserts_pointCompare
    (inserts_foldl pointCompare (g.checkPoints.points.filter (e.id = ·.edgeId)))
    ((checkPoints_points g).filter _)
  rw [pointsOnEdge, ← hfold, hset.mem_iff, List.mem_filter, decide_eq_true_eq, eq_comm]

/-- The error of the whole graph. -/
theorem new_error_iff (directed : Bool) (hes : ∀ e ∈ es, ∃ p ∈ points, p.edgeId = e.id) :
    (new points es true d directed).error ≠ "" ↔
      Clash points ∨ ∃ e ∈ es, ∃ p ∈ points, p.edgeId = e.id ∧ Outside p := by
  let g : PgPointsGraph :=
    { points := points, edgesOfPoints := es, newEdges := [],
      drivingSide := effectiveSide d directed, directed := directed, error := "" }
  have hnew : new points es true d directed = g.checkPoints.createNewEdges := by
    cases directed <;> rfl
  rw [hnew, ne_eq, createNewEdges, createNewEdgesLoop_error_iff]
  -- The points are checked first; an error that is there stays.
  by_cases hclash : Clash points
  · have herror : g.checkPoints.error ≠ "" := (checkPoints_error_iff rfl).mpr hclash
    exact iff_of_true (fun h => herror h.1) (.inl hclash)
  · have hcheck : g.checkPoints = { g with points := listedOnce points } :=
      checkPoints_of_not_clash hclash
    have hpoints : ∀ e p, p ∈ pointsOnEdge g.checkPoints.points e ↔
        p ∈ listedOnce points ∧ p.edgeId = e.id := by
      intro e p
      rw [mem_pointsOnEdge, hcheck]
    -- Of two equal points one stays, so that each edge keeps a point.
    have hne : ∀ e ∈ es, pointsOnEdge g.checkPoints.points e ≠ [] := by
      intro e he
      obtain ⟨p, hp, hid⟩ := hes e he
      obtain ⟨q, hq, _, hplace⟩ := exists_mem_listedOnce hp
      exact List.ne_nil_of_mem ((hpoints e q).mpr ⟨hq, hplace.1.trans hid⟩)
    have herror : g.checkPoints.error = "" := by rw [hcheck]
    rw [or_iff_right hclash, and_iff_right herror]
    constructor
    · intro h
      by_contra hin
      refine h fun e he => ⟨hne e he, fun p hp hout => hin ⟨e, he, p, ?_⟩⟩
      obtain ⟨hp, hid⟩ := (hpoints e p).mp hp
      exact ⟨mem_of_mem_listedOnce hp, hid, hout⟩
    · intro ⟨e, he, p, hp, hid, hout⟩ h
      obtain ⟨q, hq, _, hplace⟩ := exists_mem_listedOnce hp
      refine (h e he).2 q ((hpoints e q).mpr ⟨hq, hplace.1.trans hid⟩) ?_
      rw [Outside, hplace.2.1]
      exact hout

/-- Turning the points round changes neither kind of error. -/
theorem clash_turn (normal : Bool) : Clash (points.map (turnPoint normal)) ↔ Clash points := by
  have hplace : ∀ p q, SamePlace (turnPoint normal p) (turnPoint normal q) ↔ SamePlace p q := by
    intro p q
    cases normal with
    | true => exact Iff.rfl
    | false =>
      show p.edgeId = q.edgeId ∧ 1 - p.fraction = 1 - q.fraction ∧
        p.side.reverse = q.side.reverse ↔ _
      rw [sub_right_inj, Side.reverse_inj]
      exact Iff.rfl
  simp only [Clash, List.mem_map, exists_exists_and_eq_and, turnPoint_pid, hplace]

theorem outside_turn (normal : Bool) : Outside (turnPoint normal p) ↔ Outside p := by
  cases normal with
  | true => exact Iff.rfl
  | false =>
    show 1 - p.fraction < 0 ∨ 1 < 1 - p.fraction ↔ p.fraction < 0 ∨ 1 < p.fraction
    rw [sub_neg, lt_sub_comm, sub_self, or_comm]

end PgPointsGraph

namespace ShortestPathDriver

open PgPointsGraph

variable {r : Request}

/-- The side is refused. -/
theorem estimateDrivingSide_error_iff (c : Char) (which : Int) :
    (∃ e, estimateDrivingSide c which = .error e) ↔
      which = 1 ∧ c.toLower ≠ 'r' ∧ c.toLower ≠ 'l' ∧ c.toLower ≠ 'b' := by
  simp only [estimateDrivingSide]
  by_cases h0 : which = 0
  · subst h0
    simp
  · rw [if_neg h0]
    by_cases h1 : which = 1
    · subst h1
      rw [if_pos rfl, and_iff_right rfl]
      by_cases hr : c.toLower = 'r'
      · simp [hr]
      · by_cases hl : c.toLower = 'l'
        · simp [hl]
        · by_cases hb : c.toLower = 'b'
          · simp [hb]
          · simp [hr, hl, hb]
    · rw [if_neg h1, ← apply_ite Except.ok]
      simp [h1]

/-- The error of the points of a request. -/
theorem new_error_request (r : Request) (d : Side) :
    (new r.stops r.read.2 r.normal d r.directed).error ≠ "" ↔
      Clash r.stops ∨ ∃ e ∈ r.edges, ∃ p ∈ r.stops, p.edgeId = e.id ∧ Outside p := by
  obtain ⟨hes, hothers, hdivided⟩ := read_spec r
  rw [new_turned, new_error_iff, clash_turn]
  · apply or_congr_right
    constructor
    · intro ⟨e, he, p, hp, hid, hout⟩
      obtain ⟨p, hpold, rfl⟩ := List.mem_map.mp hp
      obtain ⟨e, heold, rfl⟩ := List.mem_map.mp ((hes e).mpr (.inr he))
      rw [turnPoint_edgeId, fetchEdge_id] at hid
      exact ⟨e, heold, p, hpold, hid, (outside_turn r.normal).mp hout⟩
    · intro ⟨e, he, p, hp, hid, hout⟩
      have hid : p.edgeId = (fetchEdge r.normal e).id := hid.trans (fetchEdge_id r.normal).symm
      obtain hread | hread := (hes _).mp (List.mem_map_of_mem he)
      · exact absurd hid (hothers _ hread p hp)
      · exact ⟨_, hread, _, List.mem_map_of_mem hp, (turnPoint_edgeId r.normal).trans hid,
          (outside_turn r.normal).mpr hout⟩
  · intro e he
    obtain ⟨p, hp, hid⟩ := hdivided e he
    exact ⟨_, List.mem_map_of_mem hp, (turnPoint_edgeId r.normal).trans hid⟩

/-- No edges have been read when there are none. -/
theorem read_isEmpty_iff (r : Request) : r.read.1.isEmpty ∧ r.read.2.isEmpty ↔ r.edges = [] := by
  rw [List.isEmpty_iff, List.isEmpty_iff]
  constructor
  · intro ⟨hleft, hright⟩
    rw [List.eq_nil_iff_forall_not_mem]
    intro e he
    have hmem := ((read_spec r).1 _).mp (List.mem_map_of_mem he)
    rw [hleft, hright] at hmem
    exact hmem.elim List.not_mem_nil List.not_mem_nil
  · intro hnil
    have hmem : ∀ e, ¬ (e ∈ r.read.1 ∨ e ∈ r.read.2) := by
      intro e he
      have he := ((read_spec r).1 e).mpr he
      rw [hnil] at he
      exact List.not_mem_nil he
    exact ⟨List.eq_nil_iff_forall_not_mem.mpr fun e he => hmem e (.inl he),
      List.eq_nil_iff_forall_not_mem.mpr fun e he => hmem e (.inr he)⟩

/-- **Refusals.** A request for some pairs, on some edges if there are points, is answered with an
    error exactly when `pgr_withPoints` does not know the driving side, two different points have
    the same number, or a point on one of the edges is not between its ends. -/
theorem doShortestPath_error_iff (boost : BoostDijkstraVisits BasicVertex BasicEdge)
    (unset : Nat → Nat → ℚ) (r : Request) :
    (∃ message log, doShortestPath boost unset r = some (.error message log)) ↔
      ¬ (r.rows = [] ∧ r.searchStarts = [] ∧ r.combinationsSql.isSome) ∧
      ¬ (r.points.isSome ∧ r.edges = []) ∧
      (r.which = 1 ∧ r.drivingSide.toLower ≠ 'r' ∧ r.drivingSide.toLower ≠ 'l' ∧
          r.drivingSide.toLower ≠ 'b' ∨
        Clash r.stops ∨ ∃ e ∈ r.edges, ∃ p ∈ r.stops, p.edgeId = e.id ∧ Outside p) := by
  have hpairs : r.combinations.isEmpty ∧ r.combinationsSql.isSome ↔
      r.rows = [] ∧ r.searchStarts = [] ∧ r.combinationsSql.isSome := by
    rw [List.isEmpty_iff, r.getCombinations_spec.2.1, and_assoc]
  have hnotice : ∀ notice, ¬ ∃ message log, some (Answer.notice notice) =
      some (.error message log) := by simp
  rw [doShortestPath]
  by_cases hnone : r.combinations.isEmpty ∧ r.combinationsSql.isSome
  · rw [if_pos hnone]
    exact iff_of_false (hnotice _) fun h => h.1 (hpairs.mp hnone)
  · rw [if_neg hnone, and_iff_right (fun h => hnone (hpairs.mpr h))]
    -- The checks are made in the order of the driver: pairs, edges, driving side, points.
    simp only [read_isEmpty_iff]
    by_cases hedges : r.points.isSome ∧ r.edges = []
    · rw [if_pos hedges]
      exact iff_of_false (hnotice _) fun h => h.1 hedges
    · rw [if_neg hedges, and_iff_right hedges, ← estimateDrivingSide_error_iff]
      cases hside : estimateDrivingSide r.drivingSide r.which with
      | error e => exact iff_of_true ⟨e.1, e.2, rfl⟩ (.inl ⟨e, rfl⟩)
      | ok side =>
        have hpoints := new_error_request r (side.getD .both)
        rw [or_iff_right (by simp), ← hpoints]
        simp only
        split
        · rename_i herror
          exact iff_of_true ⟨_, _, rfl⟩ herror
        · rename_i herror
          refine iff_of_false ?_ herror
          split
          · exact hnotice _
          · simp

end ShortestPathDriver

end PgRouting
