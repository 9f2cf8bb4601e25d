import PgRouting.Native.PathOps
import PgRouting.Spec.NearestPaths
import Mathlib.Tactic.Ring

/-!
# The total cost of a path

`m_tot_cost` is kept next to the rows. Two things make it differ from the sum of
their costs: a constructor that does not set it before it adds to it, and an
operation that drops a row and leaves the total as it is. What has been added and
dropped so is counted along any sequence of operations; recalculating the costs
starts the count anew.

## Key results

- `Produced.totCost_eq`: the total cost is the sum of the costs and what is stale of it
- `Produced.totCost_iff`: when the total cost that is read is the sum
-/

namespace PgRouting

namespace Path

/-- The sum of the costs of the rows. -/
def rowsCost {K : Type} [AddCommGroup K] (p : Path K) : K := (p.path.map (·.cost)).sum

/-- The cost of the last row. -/
def lastCost (p : Path) : ℚ := (p.path.getLast?.map (·.cost)).getD 0

/-- The cost that `reverse` drops with the edge of the last row. -/
def reverseDrops (p : Path) : ℚ := if p.path.length ≤ 1 then 0 else p.lastCost

/-- What is stale of the total cost after `append`. -/
def appendStale (p : Path) (stale : ℚ) (other : Path) (otherStale : ℚ) : ℚ :=
  if other.startId = other.endId then stale
  else if p.startId = p.endId then otherStale
  else stale + p.lastCost

/-- The paths that the constructors and the operations produce, with what is stale of their total
    costs. -/
inductive Produced : Path → ℚ → Prop
  | default : Produced {} 0
  | new (sId eId : Int) : Produced (.new sId eId) 0
  | ofGraph {V E : Type} [TVertex V] [TEdge E] {g : PgrBaseGraph V E} {original p : Path}
      {onlyCost : Bool} : newOfGraph g original onlyCost = some p → Produced p 0
  | ofPredecessors {V E : Type} [TVertex V] [TEdge E] {unset : ℚ} {g : PgrBaseGraph V E}
      {vSource vTarget : Nat} {predecessors : Nat → Nat} {distances : Nat → WithTop ℚ}
      {onlyCost normal : Bool} {p : Path} :
      newOfPredecessors unset g vSource vTarget predecessors distances onlyCost normal = some p →
      Produced p unset
  | ofDistances {V E : Type} [TVertex V] [TEdge E] (unset : ℚ) (g : PgrBaseGraph V E)
      (source : Int) (distance : ℚ) (predecessors : Nat → Nat) (distances : Nat → WithTop ℚ) :
      Produced (newOfDistances unset g source distance predecessors distances) unset
  | ofVertexDistances {V E : Type} [TVertex V] [TEdge E] (unset : ℚ) (g : PgrBaseGraph V E)
      (vSource : Nat) (distance : ℚ) (predecessors : Nat → Nat) (distances : Nat → WithTop ℚ) :
      Produced (newOfVertexDistances unset g vSource distance predecessors distances) unset
  | pushFront {p : Path} {stale : ℚ} (data : PathT) :
      Produced p stale → Produced (p.pushFront data) stale
  | pushBack {p : Path} {stale : ℚ} (data : PathT) :
      Produced p stale → Produced (p.pushBack data) stale
  | append {p other q : Path} {stale otherStale : ℚ} : Produced p stale →
      Produced other otherStale → p.append other = some q →
      Produced q (p.appendStale stale other otherStale)
  | appendPath {p other : Path} {stale otherStale : ℚ} : Produced p stale →
      Produced other otherStale → Produced (p.appendPath other) 0
  | reverse {p : Path} {stale : ℚ} : Produced p stale → Produced p.reverse (stale + p.reverseDrops)
  | recalculate {p : Path} {stale : ℚ} : Produced p stale → Produced p.recalculateAggCost 0

variable {p q other : Path} {stale : ℚ}

/-! ## One operation -/

theorem pushFront_rowsCost {K : Type} [AddCommGroup K] {p : Path K} (data : PathT K) :
    (p.pushFront data).rowsCost = data.cost + p.rowsCost := by
  simp [rowsCost, pushFront]

theorem pushBack_rowsCost (data : PathT) :
    (p.pushBack data).rowsCost = p.rowsCost + data.cost := by
  simp [rowsCost, pushBack]

/-- Recalculating sets the total cost to the sum and keeps the costs. -/
theorem recalculateAggCost_spec (p : Path) :
    p.recalculateAggCost.totCost = p.rowsCost ∧ p.recalculateAggCost.rowsCost = p.rowsCost := by
  constructor
  · show (recalculateLoop 0 p.path).2 = _
    rw [recalculateLoop_total, zero_add]
    rfl
  · show ((recalculateLoop 0 p.path).1.map (·.cost)).sum = _
    rw [recalculateLoop_costs]
    rfl

/-- A path with a row is the rows before the last one and the last one. -/
theorem rowsCost_dropLast (h : p.path ≠ []) :
    p.rowsCost = (p.path.dropLast.map (·.cost)).sum + p.lastCost := by
  rw [rowsCost, lastCost, List.getLast?_eq_getLast_of_ne_nil h]
  conv_lhs => rw [← List.dropLast_concat_getLast h]
  simp

theorem reverse_totCost (p : Path) : p.reverse.totCost = p.totCost := by
  simp only [reverse]
  split <;> rfl

/-- Turning a path round drops the cost of the last row. -/
theorem reverse_rowsCost (p : Path) : p.reverse.rowsCost + p.reverseDrops = p.rowsCost := by
  rw [reverseDrops]
  by_cases hshort : p.path.length ≤ 1
  · rw [if_pos hshort, add_zero, rowsCost, reverse_sum p (.inl hshort), rowsCost]
  · have hne : p.path ≠ [] := by
      intro h
      rw [h] at hshort
      simp at hshort
    rw [if_neg hshort, rowsCost_dropLast hne]
    congr 1
    have hrev : p.reverse.path = (recalculateLoop 0 (reverseLoop (-1) 0 p.path [])).1 := by
      simp only [reverse, if_neg hshort]
    rw [rowsCost, hrev, recalculateLoop_costs]
    conv_lhs => rw [← List.dropLast_concat_getLast hne]
    rw [reverseLoop_sum]
    simp

/-- What a loop of `push_back` adds. -/
theorem foldl_pushBack {α K : Type} [AddCommGroup K] (f : α → PathT K) (l : List α) :
    ∀ p : Path K,
    l.foldl (fun p a => p.pushBack (f a)) p =
      { p with
        path := p.path ++ l.map f
        totCost := p.totCost + ((l.map f).map (·.cost)).sum } := by
  induction l with
  | nil => simp
  | cons a l ih =>
    intro p
    rw [List.foldl_cons, ih]
    simp [pushBack, add_assoc]

/-! ## Sequences of operations -/

/-- The constructor adds the costs of its rows to what it finds. -/
theorem completePathLoop_rowsCost {V E : Type} [TVertex V] [TEdge E] (g : PgrBaseGraph V E)
    (vSource : Nat) (predecessors : Nat → Nat) (distances : Nat → WithTop ℚ) (normal : Bool)
    (n : Nat) : ∀ (target : Nat) (p q : Path),
    completePathLoop g vSource predecessors distances normal n target p = some q →
    p.totCost = p.rowsCost → q.totCost = q.rowsCost := by
  induction n with
  | zero =>
    intro target p q h
    cases h
  | succ n ih =>
    intro target p q h hp
    rw [completePathLoop] at h
    split at h
    · rwa [← Option.some.inj h]
    · split at h
      · rwa [← Option.some.inj h]
      · apply ih _ _ _ h
        rw [pushFront_rowsCost, ← hp, add_comm]
        rfl

theorem ofPredecessors_rowsCost {V E : Type} [TVertex V] [TEdge E] {g : PgrBaseGraph V E}
    {vSource vTarget : Nat} {predecessors : Nat → Nat} {distances : Nat → WithTop ℚ}
    {onlyCost normal : Bool}
    (h : ofPredecessors g vSource vTarget predecessors distances onlyCost normal = some p) :
    p.totCost = p.rowsCost := by
  simp only [ofPredecessors, completePath] at h
  split at h
  · split at h
    · rw [← Option.some.inj h]
      rfl
    · apply completePathLoop_rowsCost _ _ _ _ _ _ _ _ _ h
      rw [pushFront_rowsCost]
      show _ + _ = _ + _
      rw [add_comm]
      rfl
  · split at h
    · rw [← Option.some.inj h, pushFront_rowsCost]
      show _ + _ = _ + _
      rw [add_comm]
      rfl
    · rw [← Option.some.inj h]
      rfl

theorem newOfGraph_rowsCost {V E : Type} [TVertex V] [TEdge E] {g : PgrBaseGraph V E}
    {original : Path} {onlyCost : Bool} (h : newOfGraph g original onlyCost = some p) :
    p.totCost = p.rowsCost := by
  simp only [newOfGraph] at h
  split at h
  · rw [← Option.some.inj h]
    rfl
  · obtain ⟨q, _, rfl⟩ := Option.map_eq_some_iff.mp h
    obtain ⟨htot, hrows⟩ := recalculateAggCost_spec q
    cases onlyCost with
    | true => simp [rowsCost]
    | false =>
      show q.recalculateAggCost.totCost = q.recalculateAggCost.rowsCost
      rw [htot, hrows]

/-- The total cost is the sum of the costs of the rows and what is stale of it. -/
theorem Produced.totCost_eq (h : Produced p stale) : p.totCost = p.rowsCost + stale := by
  have hdistances : ∀ {V E : Type} [TVertex V] [TEdge E] (unset : ℚ) (g : PgrBaseGraph V E)
      (source : Int) (distance : ℚ) (predecessors : Nat → Nat) (distances : Nat → WithTop ℚ),
      (newOfDistances unset g source distance predecessors distances).totCost =
        (newOfDistances unset g source distance predecessors distances).rowsCost + unset := by
    intro V E _ _ unset g source distance predecessors distances
    have hfold := foldl_pushBack id (distanceRows g distance predecessors distances)
      { startId := source, endId := source, totCost := unset }
    simp only [id_eq, List.map_id] at hfold
    rw [newOfDistances, hfold, rowsCost, List.nil_append, add_comm]
  induction h with
  | default => simp [rowsCost]
  | new => simp [rowsCost, Path.new]
  | ofGraph h => rw [newOfGraph_rowsCost h, add_zero]
  | ofPredecessors h =>
    obtain ⟨q, hq, rfl⟩ := Option.map_eq_some_iff.mp h
    show _ + q.totCost = q.rowsCost + _
    rw [ofPredecessors_rowsCost hq, add_comm]
  | ofDistances unset g source distance predecessors distances =>
    exact hdistances unset g source distance predecessors distances
  | ofVertexDistances unset g vSource distance predecessors distances =>
    exact hdistances unset g (g.vertexId vSource) distance predecessors distances
  | @pushFront p stale data _ ih =>
    rw [pushFront_rowsCost]
    show p.totCost + data.cost = _
    rw [ih]
    ring
  | @pushBack p stale data _ ih =>
    rw [pushBack_rowsCost]
    show p.totCost + data.cost = _
    rw [ih]
    ring
  -- A loop is dropped from the joined path together with what is stale of it.
  | @append p other q stale otherStale _ _ heq ihp iho =>
    simp only [Path.append, appendStale] at heq ⊢
    split at heq
    · rw [if_pos ‹_›, ← Option.some.inj heq, ihp]
    · rw [if_neg ‹_›]
      split at heq
      · rw [if_pos ‹_›, ← Option.some.inj heq, iho]
      · rw [if_neg ‹_›]
        obtain ⟨last, hlast, rfl⟩ := Option.map_eq_some_iff.mp heq
        have hne : p.path ≠ [] := by
          intro h
          rw [h] at hlast
          cases hlast
        -- The items keep their costs, and the last row of `p` goes.
        rw [foldl_pushBack, rowsCost, List.map_append, List.sum_append, List.map_map]
        show p.totCost + other.rowsCost = (p.path.dropLast.map (·.cost)).sum + other.rowsCost + _
        rw [ihp, rowsCost_dropLast hne]
        ring
  | @appendPath p other _ _ _ _ _ _ =>
    obtain ⟨htot, hrows⟩ := recalculateAggCost_spec { p with path := p.path ++ other.path }
    rw [Path.appendPath, htot, hrows, add_zero]
  -- Reversing copies the total and moves the costs among the rows.
  | @reverse p stale _ ih =>
    rw [reverse_totCost, ih, ← reverse_rowsCost p]
    ring
  | @recalculate p _ _ _ =>
    obtain ⟨htot, hrows⟩ := recalculateAggCost_spec p
    rw [htot, hrows, add_zero]

/-- The total cost of a path is never stale, that is the sum of the costs of the rows when it is
    read, exactly when the start values and the dropped costs cancel out: as `compPathsLess` reads
    it, and as `post_process` reads it after its own operations. -/
theorem Produced.totCost_iff (h : Produced p stale) :
    (p.totCost = p.rowsCost ↔ stale = 0) ∧
    ∀ onlyCost normal, ((DijkstraNear.finishPath onlyCost normal p).totCost =
        (DijkstraNear.finishPath onlyCost normal p).rowsCost ↔
      onlyCost = false ∨ stale + (if normal then 0 else p.reverseDrops) = 0) := by
  refine ⟨by rw [h.totCost_eq, add_eq_left], fun onlyCost normal => ?_⟩
  obtain ⟨q, hq, hread⟩ : ∃ q, DijkstraNear.finishPath onlyCost normal p =
      (if !onlyCost then q.recalculateAggCost else q) ∧
      Produced q (stale + if normal then 0 else p.reverseDrops) := by
    cases normal with
    | true => exact ⟨p, rfl, by simpa using h⟩
    | false => exact ⟨p.reverse, rfl, h.reverse⟩
  rw [hq]
  cases onlyCost with
  | true =>
    show q.totCost = q.rowsCost ↔ _
    rw [hread.totCost_eq, add_eq_left]
    simp
  | false =>
    obtain ⟨htot, hrows⟩ := recalculateAggCost_spec q
    exact iff_of_true (htot.trans hrows.symm) (.inl rfl)

/-- The rows 1 → 2 → 3 with a cost in the row of the end. -/
def endingInCost : Path := ((Path.new 1 3).pushBack ⟨1, 7, 1, 0⟩).pushBack ⟨3, 8, 2, 1⟩

theorem Produced.totCost_iff_endingInCost :
    (endingInCost.totCost = endingInCost.rowsCost ↔ (0 : ℚ) = 0) ∧
    ∀ onlyCost normal, ((DijkstraNear.finishPath onlyCost normal endingInCost).totCost =
        (DijkstraNear.finishPath onlyCost normal endingInCost).rowsCost ↔
      onlyCost = false ∨ 0 + (if normal then 0 else endingInCost.reverseDrops) = 0) :=
  Produced.totCost_iff (((Produced.new 1 3).pushBack ⟨1, 7, 1, 0⟩).pushBack ⟨3, 8, 2, 1⟩)

/-- The predecessors and the distances from the vertex 0 over one edge of cost 3. -/
def oneEdgeCost (unset : ℚ) : Option Path :=
  newOfPredecessors unset (PgrBaseGraph.ofTable true [⟨1, 10, 20, 3, -1⟩] :
    PgrBaseGraph BasicVertex BasicEdge) 0 1 (fun _ => 0) (fun v => if v = 0 then 0 else 3) true true

/-- The constructor that reads the predecessors adds 3 to the 5 that it finds in memory, and
    turning the rows round leaves a total of 3 to rows that cost 1. -/
theorem totCost_stale :
    (∃ p, oneEdgeCost 5 = some p ∧ Produced p 5 ∧ p.totCost = 8 ∧ p.rowsCost = 3) ∧
    ∃ stale, Produced endingInCost.reverse stale ∧ endingInCost.reverse.totCost = 3 ∧
      endingInCost.reverse.rowsCost = 1 := by
  constructor
  · have hrun : (oneEdgeCost 5).map (fun p => (p.totCost, p.rowsCost)) = some (8, 3) := by
      decide +kernel
    obtain ⟨p, hp, heq⟩ := Option.map_eq_some_iff.mp hrun
    obtain ⟨htot, hrows⟩ := Prod.mk.injEq _ _ _ _ ▸ heq
    exact ⟨p, hp, .ofPredecessors hp, htot, hrows⟩
  · exact ⟨_, .reverse (((Produced.new 1 3).pushBack _).pushBack _), by decide +kernel,
      by decide +kernel⟩

end Path

end PgRouting
