import PgRouting.Native.WithPoints
import PgRouting.Lib.SearchTree

/-!
# The order of the points on an edge

`pointCompare` is no order, but the points come in the order of their numbers. A new point then
compares less than exactly those that are further along the edge, and the point in front of its
place always compares less than it. So no point is taken for a duplicate, and the points end up
in the order of their fractions.

## Key results

- `checkPoints_points`: the points are sorted by their numbers
- `pointCompare_of_pid_lt`: what the comparison says of a later point
- `checkPoints_perm`: points with distinct numbers are kept
- `inserts_pointCompare`: the points are inserted in the order `Before`
- `inserts_pointsOnEdge`: the set of the points on an edge
-/

namespace PgRouting

namespace PgPointsGraph

variable {p q point : PointOnEdge} {l rest : List PointOnEdge}

/-! ## The points that `check_points` leaves -/

theorem insertSorted_perm (point : PointOnEdge) (l : List PointOnEdge) :
    (insertSorted point l).Perm (point :: l) := by
  induction l with
  | nil => exact List.Perm.refl _
  | cons p l ih =>
    rw [insertSorted]
    split
    · exact List.Perm.refl _
    · exact (ih.cons p).trans (List.Perm.swap point p l)

theorem sortPoints_perm (l : List PointOnEdge) : (sortPoints l).Perm l := by
  induction l with
  | nil => exact .nil
  | cons p l ih => exact (insertSorted_perm p _).trans (ih.cons p)

theorem insertSorted_sorted (hl : l.Pairwise fun p q => sortKey p ≤ sortKey q) :
    (insertSorted point l).Pairwise fun p q => sortKey p ≤ sortKey q := by
  induction l with
  | nil => exact List.pairwise_singleton _ point
  | cons p l ih =>
    obtain ⟨hp, hrest⟩ := List.pairwise_cons.mp hl
    rw [insertSorted]
    split
    · rename_i hle
      apply List.pairwise_cons.mpr ⟨fun q hq => ?_, hl⟩
      obtain rfl | hq := List.mem_cons.mp hq
      · exact hle
      · exact le_trans hle (hp q hq)
    · rename_i hgt
      apply List.pairwise_cons.mpr ⟨fun q hq => ?_, ih hrest⟩
      obtain rfl | hq := List.mem_cons.mp ((insertSorted_perm point l).mem_iff.mp hq)
      · exact (not_le.mp hgt).le
      · exact hp q hq

theorem sortPoints_sorted (l : List PointOnEdge) :
    (sortPoints l).Pairwise fun p q => sortKey p ≤ sortKey q := by
  induction l with
  | nil => exact .nil
  | cons p l ih => exact insertSorted_sorted ih

theorem pid_le_of_sortKey_le (h : sortKey p ≤ sortKey q) : p.pid ≤ q.pid := by
  rw [sortKey, sortKey, Prod.Lex.toLex_le_toLex] at h
  obtain hlt | ⟨heq, _⟩ := h
  · exact hlt.le
  · exact heq.le

section Unique

variable (equal : PointOnEdge → PointOnEdge → Bool)

theorem uniqueAfter_sublist (p : PointOnEdge) (l : List PointOnEdge) :
    (uniqueAfter equal p l).Sublist l := by
  induction l generalizing p with
  | nil => exact List.Sublist.refl []
  | cons q l ih =>
    rw [uniqueAfter]
    split
    · exact (ih p).cons q
    · exact (ih q).cons_cons q

theorem unique_sublist (l : List PointOnEdge) : (unique equal l).Sublist l := by
  cases l with
  | nil => exact List.Sublist.refl []
  | cons p l => exact (uniqueAfter_sublist equal p l).cons_cons p

/-- Nothing is lost of points that are pairwise different. -/
theorem uniqueAfter_eq_self (p : PointOnEdge) (l : List PointOnEdge)
    (h : (p :: l).Pairwise fun p q => equal p q = false) : uniqueAfter equal p l = l := by
  induction l generalizing p with
  | nil => rfl
  | cons q l ih =>
    obtain ⟨hp, hql⟩ := List.pairwise_cons.mp h
    rw [uniqueAfter, hp q List.mem_cons_self, if_neg Bool.false_ne_true, ih q hql]

theorem unique_eq_self (l : List PointOnEdge)
    (h : l.Pairwise fun p q => equal p q = false) : unique equal l = l := by
  cases l with
  | nil => rfl
  | cons p l => rw [unique, uniqueAfter_eq_self equal p l h]

end Unique

section UniqueKey

variable {κ : Type} [LinearOrder κ] {key : PointOnEdge → κ}
variable {equal : PointOnEdge → PointOnEdge → Bool}
variable (hequal : ∀ p q, equal p q = true ↔ key p = key q)

include hequal

/-- Of points in the order of a key, one of each key is left. -/
theorem uniqueAfter_sorted (hl : (p :: l).Pairwise fun p q => key p ≤ key q) :
    (p :: uniqueAfter equal p l).Pairwise fun p q => key p < key q := by
  induction l generalizing p with
  | nil => exact List.pairwise_singleton _ p
  | cons q l ih =>
    obtain ⟨hp, hql⟩ := List.pairwise_cons.mp hl
    obtain ⟨hq, hrest⟩ := List.pairwise_cons.mp hql
    rw [uniqueAfter]
    split
    · refine ih (List.pairwise_cons.mpr ⟨fun r hr => ?_, hrest⟩)
      exact hp r (List.mem_cons_of_mem q hr)
    · rename_i hne
      have hlt : key p < key q :=
        lt_of_le_of_ne (hp q List.mem_cons_self) fun heq => hne ((hequal p q).mpr heq)
      have htail := ih hql
      apply List.pairwise_cons.mpr ⟨fun r hr => ?_, htail⟩
      obtain rfl | hr := List.mem_cons.mp hr
      · exact hlt
      · exact lt_trans hlt ((List.pairwise_cons.mp htail).1 r hr)

theorem unique_sorted (hl : l.Pairwise fun p q => key p ≤ key q) :
    (unique equal l).Pairwise fun p q => key p < key q := by
  cases l with
  | nil => exact .nil
  | cons p l => exact uniqueAfter_sorted hequal hl

omit [LinearOrder κ] in
variable (key) in
/-- No key is lost. -/
theorem exists_mem_unique (hq : q ∈ l) : ∃ r ∈ unique equal l, key r = key q := by
  cases l with
  | nil => exact absurd hq List.not_mem_nil
  | cons p l =>
    show ∃ r ∈ p :: uniqueAfter equal p l, key r = key q
    induction l generalizing p with
    | nil => exact ⟨p, List.mem_cons_self, congrArg key (List.mem_singleton.mp hq).symm⟩
    | cons p' l ih =>
      rw [uniqueAfter]
      split
      · rename_i heq
        obtain rfl | hq := List.mem_cons.mp hq
        · exact ⟨_, List.mem_cons_self, rfl⟩
        · obtain rfl | hq := List.mem_cons.mp hq
          · exact ⟨p, List.mem_cons_self, (hequal _ _).mp heq⟩
          · exact ih p (List.mem_cons_of_mem p hq)
      · obtain rfl | hq := List.mem_cons.mp hq
        · exact ⟨_, List.mem_cons_self, rfl⟩
        · obtain ⟨r, hr, hkey⟩ := ih p' hq
          exact ⟨r, List.mem_cons_of_mem p hr, hkey⟩

end UniqueKey

theorem pid_equal (p q : PointOnEdge) : decide (p.pid = q.pid) = true ↔ p.pid = q.pid :=
  decide_eq_true_iff

/-- `check_points` leaves the points in the order of their numbers, which are distinct. -/
theorem checkPoints_points (g : PgPointsGraph) :
    g.checkPoints.points.Pairwise fun p q => p.pid < q.pid := by
  have hsorted : (unique (fun a b => a.pid = b.pid ∧ a.edgeId = b.edgeId ∧
      a.fraction = b.fraction ∧ a.side = b.side) (sortPoints g.points)).Pairwise
      fun p q => p.pid ≤ q.pid :=
    ((sortPoints_sorted g.points).imp pid_le_of_sortKey_le).sublist (unique_sublist _ _)
  exact unique_sorted pid_equal hsorted

/-- Points with distinct numbers are sorted and nothing else. -/
theorem checkPoints_eq {g : PgPointsGraph} (h : (g.points.map (·.pid)).Nodup) :
    g.checkPoints = { g with points := sortPoints g.points } := by
  have hne : (sortPoints g.points).Pairwise fun p q => p.pid ≠ q.pid :=
    List.pairwise_map.mp (((sortPoints_perm g.points).map PointOnEdge.pid).nodup_iff.mpr h)
  have hfirst := unique_eq_self (fun a b => a.pid = b.pid ∧ a.edgeId = b.edgeId ∧
    a.fraction = b.fraction ∧ a.side = b.side) (sortPoints g.points)
    (hne.imp fun hne => decide_eq_false fun heq => hne heq.1)
  have hsecond := unique_eq_self (fun a b => a.pid = b.pid) (sortPoints g.points)
    (hne.imp fun hne => decide_eq_false hne)
  simp only [checkPoints, hfirst, hsecond, ne_eq, not_true_eq_false, if_false]

/-- Points with distinct numbers are all left. -/
theorem checkPoints_perm {g : PgPointsGraph} (h : (g.points.map (·.pid)).Nodup) :
    g.checkPoints.points.Perm g.points := by
  rw [checkPoints_eq h]
  exact sortPoints_perm g.points

/-! ## The set of the points on an edge -/

/-- A point with a larger number compares less than what is further along the edge. -/
theorem pointCompare_of_pid_lt (h : q.pid < p.pid) :
    pointCompare p q = true ↔ p.fraction < q.fraction := by
  unfold pointCompare
  split
  · rename_i hlt
    exact iff_of_true rfl hlt
  · rename_i hle
    rw [decide_eq_true_eq]
    exact iff_of_false (not_lt.mpr h.le) hle

/-- A point with a smaller number compares less than it. -/
theorem pointCompare_self_of_pid_lt (h : q.pid < p.pid) : pointCompare q p = true := by
  unfold pointCompare
  split
  · rfl
  · exact decide_eq_true h

theorem insertAfter_eq (point : PointOnEdge) (prev : Option PointOnEdge) (l : List PointOnEdge) :
    insertAfter point prev l = insertScan pointCompare point prev l := by
  induction l generalizing prev with
  | nil => rfl
  | cons p l ih => rw [insertAfter, insertScan, ih]

/-- Whether a point comes before another one on the edge: it is nearer to the source, or at the
    same place with a smaller number. -/
def Before (p q : PointOnEdge) : Prop :=
  p.fraction < q.fraction ∨ p.fraction = q.fraction ∧ p.pid < q.pid

instance (p q : PointOnEdge) : Decidable (Before p q) := inferInstanceAs (Decidable (_ ∨ _ ∧ _))

theorem Before.le (h : Before p q) : p.fraction ≤ q.fraction := by
  obtain hlt | ⟨heq, _⟩ := h
  · exact hlt.le
  · exact heq.le

theorem Before.irrefl (p : PointOnEdge) : ¬ Before p p := by
  intro h
  obtain hlt | ⟨_, hlt⟩ := h
  · exact lt_irrefl _ hlt
  · exact lt_irrefl _ hlt

theorem Before.asymm (h : Before p q) : ¬ Before q p := by
  intro h'
  obtain hlt | ⟨heq, hlt⟩ := h
  · exact absurd hlt (not_lt.mpr h'.le)
  · obtain hlt' | ⟨_, hlt'⟩ := h'
    · exact absurd hlt' (not_lt.mpr heq.le)
    · exact lt_asymm hlt hlt'

/-- The scan inserts the point before those that are further along the edge. -/
theorem insertScan_point (prev : Option PointOnEdge)
    (hprev : ∀ p ∈ prev, p.pid < point.pid ∧ p.fraction ≤ point.fraction)
    (hpid : ∀ p ∈ l, p.pid < point.pid) (hl : l.Pairwise Before) :
    (insertScan pointCompare point prev l).Perm (point :: l) ∧
      (insertScan pointCompare point prev l).Pairwise Before := by
  have hall : prev.all (pointCompare · point) = true := by
    cases prev with
    | none => rfl
    | some p => exact pointCompare_self_of_pid_lt (hprev p rfl).1
  induction l generalizing prev with
  | nil =>
    rw [insertScan, if_pos hall]
    exact ⟨List.Perm.refl _, List.pairwise_singleton _ point⟩
  | cons p l ih =>
    obtain ⟨hp, hrest⟩ := List.pairwise_cons.mp hl
    have hppid := hpid p List.mem_cons_self
    rw [insertScan]
    by_cases hlt : pointCompare point p
    · rw [if_pos hlt, if_pos hall]
      have hfrac := (pointCompare_of_pid_lt hppid).mp hlt
      refine ⟨List.Perm.refl _, List.pairwise_cons.mpr ⟨fun q hq => ?_, hl⟩⟩
      obtain rfl | hq := List.mem_cons.mp hq
      · exact .inl hfrac
      · exact .inl (hfrac.trans_le (hp q hq).le)
    · rw [if_neg hlt]
      have hfrac : p.fraction ≤ point.fraction :=
        not_lt.mp fun h => hlt ((pointCompare_of_pid_lt hppid).mpr h)
      -- The point that was passed is the new predecessor, and the new point goes after it.
      have hsome : ∀ q ∈ some p, q.pid < point.pid ∧ q.fraction ≤ point.fraction := by
        intro q hq
        obtain rfl := Option.mem_some.mp hq
        exact ⟨hppid, hfrac⟩
      obtain ⟨hperm, hsorted⟩ := ih (some p) hsome
        (fun q hq => hpid q (List.mem_cons_of_mem p hq)) hrest
        (pointCompare_self_of_pid_lt hppid)
      refine ⟨(hperm.cons p).trans (List.Perm.swap point p l), ?_⟩
      apply List.pairwise_cons.mpr ⟨fun q hq => ?_, hsorted⟩
      obtain rfl | hq := List.mem_cons.mp (hperm.mem_iff.mp hq)
      · obtain hlt | heq := lt_or_eq_of_le hfrac
        · exact .inl hlt
        · exact .inr ⟨heq, hppid⟩
      · exact hp q hq

/-- However the tree is balanced, points that come in the order of their numbers are all
    inserted and end up in the order of their fractions. -/
theorem inserts_pointCompare {t : BinaryTree PointOnEdge} (h : Inserts pointCompare l t)
    (hl : l.Pairwise fun p q => p.pid < q.pid) :
    (inorder t).Perm l ∧ (inorder t).Pairwise Before ∧
      inorder t = l.foldl (fun set point => insertAfter point none set) [] := by
  induction h with
  | nil => exact ⟨.nil, .nil, rfl⟩
  | @snoc l t t' x h hbalance ih =>
    rw [List.pairwise_append] at hl
    obtain ⟨hl, _, hx⟩ := hl
    obtain ⟨hperm, hsorted, hfold⟩ := ih hl
    have hpid : ∀ p ∈ inorder t, p.pid < x.pid := fun p hp =>
      hx p (hperm.mem_iff.mp hp) x List.mem_cons_self
    have hup : (inorder t).Pairwise fun p q =>
        pointCompare x p = true → pointCompare x q = true := by
      apply hsorted.imp_of_mem
      intro p q hp hq hpq hlt
      rw [pointCompare_of_pid_lt (hpid p hp)] at hlt
      exact (pointCompare_of_pid_lt (hpid q hq)).mpr (hlt.trans_le hpq.le)
    rw [inorder_insertDown t hup] at hbalance
    obtain ⟨hperm', hsorted'⟩ := insertScan_point none (by simp) hpid hsorted
    rw [hbalance]
    refine ⟨?_, hsorted', ?_⟩
    · exact hperm'.trans ((hperm.cons x).trans (List.perm_append_singleton x l).symm)
    · rw [List.foldl_append, ← hfold, List.foldl_cons, List.foldl_nil, insertAfter_eq]

/-- Of points with distinct numbers the set has those on the edge, in their order. -/
theorem pointsOnEdge_spec {g : PgPointsGraph} (edge : EdgeT) (h : (g.points.map (·.pid)).Nodup) :
    (pointsOnEdge g.checkPoints.points edge).Perm (g.points.filter (edge.id = ·.edgeId)) ∧
      (pointsOnEdge g.checkPoints.points edge).Pairwise Before := by
  obtain ⟨hset, hsorted, hfold⟩ := inserts_pointCompare
    (inserts_foldl pointCompare (g.checkPoints.points.filter (edge.id = ·.edgeId)))
    ((checkPoints_points g).filter _)
  rw [pointsOnEdge, ← hfold]
  exact ⟨hset.trans ((checkPoints_perm h).filter _), hsorted⟩

/-- **No point is lost.** Whatever the balance of the tree after each insertion, the set of the
    points on an edge has each of them once, in the order of their fractions, and it is what
    `create_new_edges` goes through. -/
theorem inserts_pointsOnEdge (g : PgPointsGraph) (edge : EdgeT) (t : BinaryTree PointOnEdge)
    (h : Inserts pointCompare (g.checkPoints.points.filter (edge.id = ·.edgeId)) t) :
    (∀ point, (inorder t).count point =
      if point ∈ g.checkPoints.points ∧ edge.id = point.edgeId then 1 else 0) ∧
    (inorder t).Pairwise (fun p q => p.fraction ≤ q.fraction) ∧
    inorder t = pointsOnEdge g.checkPoints.points edge := by
  have hpids : (g.checkPoints.points.filter (edge.id = ·.edgeId)).Pairwise
      fun p q => p.pid < q.pid := (checkPoints_points g).filter _
  obtain ⟨hperm, hsorted, hfold⟩ := inserts_pointCompare h hpids
  refine ⟨fun point => ?_, hsorted.imp Before.le, hfold⟩
  have hnodup : (g.checkPoints.points.filter (edge.id = ·.edgeId)).Nodup :=
    hpids.imp fun hlt heq => absurd (congrArg PointOnEdge.pid heq) hlt.ne
  rw [hperm.count_eq, hnodup.count]
  simp [List.mem_filter]

/-- Three points, of which those with the numbers 1 and 3 each compare less than the other: all of
    them are in the set. -/
theorem inserts_pointsOnEdge_three :
    let g : PgPointsGraph := ⟨[⟨3, 7, .both, 1 / 4, 0⟩, ⟨1, 7, .both, 1 / 2, 0⟩,
      ⟨2, 7, .both, 3 / 4, 0⟩], [], [], .both, true, ""⟩
    let edge : EdgeT := ⟨7, 10, 20, 1, 1⟩
    let t := (g.checkPoints.points.filter (edge.id = ·.edgeId)).foldl
      (fun t x => insertDown pointCompare x none t) .nil
    (∀ point, (inorder t).count point =
      if point ∈ g.checkPoints.points ∧ edge.id = point.edgeId then 1 else 0) ∧
    (inorder t).Pairwise (fun p q => p.fraction ≤ q.fraction) ∧
    inorder t = pointsOnEdge g.checkPoints.points edge :=
  inserts_pointsOnEdge _ _ _ (inserts_foldl pointCompare _)

end PgPointsGraph

end PgRouting
