import PgRouting.Spec.PointOrder
import PgRouting.Spec.GraphRows
import PgRouting.Lib.Walk
import Mathlib.Tactic.Linarith
import Mathlib.Tactic.Ring

/-!
# The arcs of a divided edge

`create_new_edges` goes through the points on an edge in their order and remembers where the
next edge begins, for each of the two directions. The arcs that the new edges give to a directed
graph are listed here point by point, and what the loop remembers is told from the points that it
has seen.

## Key results

- `latest_forward` / `latest_backward`: where the next edge begins
- `spent_forward` / `spent_backward`: how much of the costs has been spent
- `tableArc_new`: the arcs of the new edges
-/

namespace PgRouting

variable {rows rows' : List EdgeT} {u v : Int} {w : ℚ}

/-- The arcs of the directed graph of the rows. -/
def TableArc (rows : List EdgeT) (u v : Int) (w : ℚ) : Prop := ∃ e ∈ rows, e.Passes true u v w

theorem tableArc_nil : ¬ TableArc [] u v w := fun ⟨_, he, _⟩ => nomatch he

theorem tableArc_append :
    TableArc (rows ++ rows') u v w ↔ TableArc rows u v w ∨ TableArc rows' u v w := by
  simp only [TableArc, List.mem_append, or_and_right, exists_or]

theorem tableArc_ite {c : Prop} [Decidable c] :
    TableArc (if c then rows else []) u v w ↔ c ∧ TableArc rows u v w := by
  split
  · simp [*]
  · simp [*, tableArc_nil]

section OneRow

variable {id s t : Int} {c : ℚ}

theorem tableArc_singleton {e : EdgeT} : TableArc [e] u v w ↔
    0 ≤ w ∧ (e.source = u ∧ e.target = v ∧ e.cost = w ∨
      e.target = u ∧ e.source = v ∧ e.reverseCost = w) := by
  simp [TableArc, EdgeT.Passes]

/-- A row for the way from its source. -/
theorem tableArc_forward : TableArc [⟨id, s, t, c, -1⟩] u v w ↔ 0 ≤ c ∧ u = s ∧ v = t ∧ w = c := by
  rw [tableArc_singleton]
  constructor
  · intro h
    obtain ⟨hw, ⟨rfl, rfl, rfl⟩ | ⟨_, _, hneg⟩⟩ := h
    · exact ⟨hw, rfl, rfl, rfl⟩
    · have hneg : -1 = w := hneg
      linarith
  · intro h
    obtain ⟨hc, rfl, rfl, rfl⟩ := h
    exact ⟨hc, .inl ⟨rfl, rfl, rfl⟩⟩

/-- A row for the way to its source. -/
theorem tableArc_backward : TableArc [⟨id, s, t, -1, c⟩] u v w ↔ 0 ≤ c ∧ u = t ∧ v = s ∧ w = c := by
  rw [tableArc_singleton]
  constructor
  · intro h
    obtain ⟨hw, ⟨_, _, hneg⟩ | ⟨rfl, rfl, rfl⟩⟩ := h
    · have hneg : -1 = w := hneg
      linarith
    · exact ⟨hw, rfl, rfl, rfl⟩
  · intro h
    obtain ⟨hc, rfl, rfl, rfl⟩ := h
    exact ⟨hc, .inr ⟨rfl, rfl, rfl⟩⟩

/-- A row that costs nothing. -/
theorem tableArc_zero : TableArc [⟨id, s, t, 0, 0⟩] u v w ↔
    w = 0 ∧ (u = s ∧ v = t ∨ u = t ∧ v = s) := by
  rw [tableArc_singleton]
  constructor
  · intro h
    obtain ⟨_, ⟨rfl, rfl, rfl⟩ | ⟨rfl, rfl, rfl⟩⟩ := h
    · exact ⟨rfl, .inl ⟨rfl, rfl⟩⟩
    · exact ⟨rfl, .inr ⟨rfl, rfl⟩⟩
  · intro h
    obtain ⟨rfl, ⟨rfl, rfl⟩ | ⟨rfl, rfl⟩⟩ := h
    · exact ⟨le_rfl, .inl ⟨rfl, rfl, rfl⟩⟩
    · exact ⟨le_rfl, .inr ⟨rfl, rfl, rfl⟩⟩

end OneRow

namespace PgPointsGraph

variable {edge : EdgeT} {d : Side} {s : Splitting} {p q : PointOnEdge}
variable {done rest l points : List PointOnEdge}

/-! ## One point -/

/-- The point divides the way from the source to the target. -/
def cutsForward (edge : EdgeT) (d : Side) (p : PointOnEdge) : Bool :=
  bothWays edge d p ∨ d = p.side

/-- The point divides the way from the target to the source. -/
def cutsBackward (edge : EdgeT) (d : Side) (p : PointOnEdge) : Bool :=
  bothWays edge d p ∨ d ≠ p.side

theorem cutsForward_of_bothWays (h : bothWays edge d p = true) : cutsForward edge d p = true := by
  simp [cutsForward, h]

theorem cutsBackward_of_bothWays (h : bothWays edge d p = true) :
    cutsBackward edge d p = true := by
  simp [cutsBackward, h]

theorem cutsForward_of_side (h : d = p.side) : cutsForward edge d p = true := by
  simp [cutsForward, h]

theorem cutsBackward_of_side (h : d ≠ p.side) : cutsBackward edge d p = true := by
  simp [cutsBackward, h]

theorem cutsForward_eq_false (hboth : ¬ bothWays edge d p = true) (h : d ≠ p.side) :
    cutsForward edge d p = false :=
  decide_eq_false (not_or.mpr ⟨hboth, h⟩)

theorem cutsBackward_eq_false (hboth : ¬ bothWays edge d p = true) (h : d = p.side) :
    cutsBackward edge d p = false :=
  decide_eq_false (not_or.mpr ⟨hboth, not_not.mpr h⟩)

/-- A point that divides both ways does so because of the road or its own side. -/
theorem bothWays_of_cuts (hf : cutsForward edge d p = true) (hb : cutsBackward edge d p = true) :
    bothWays edge d p = true := by
  by_contra hboth
  by_cases hside : d = p.side
  · rw [cutsBackward_eq_false hboth hside] at hb
    exact Bool.false_ne_true hb
  · rw [cutsForward_eq_false hboth hside] at hf
    exact Bool.false_ne_true hf

/-- Each point divides one of the ways. -/
theorem cutsForward_or_cutsBackward (edge : EdgeT) (d : Side) (p : PointOnEdge) :
    cutsForward edge d p = true ∨ cutsBackward edge d p = true := by
  by_cases hside : d = p.side
  · exact .inl (cutsForward_of_side hside)
  · exact .inr (cutsBackward_of_side hside)

theorem splitAtPoint_prevTarget : (splitAtPoint edge d s p).prevTarget =
    if cutsForward edge d p then -p.pid else s.prevTarget := by
  unfold splitAtPoint cutsForward
  split_ifs <;> simp_all

theorem splitAtPoint_prevFraction : (splitAtPoint edge d s p).prevFraction =
    if cutsForward edge d p then p.fraction else s.prevFraction := by
  unfold splitAtPoint cutsForward
  split_ifs <;> simp_all

theorem splitAtPoint_prevRtarget : (splitAtPoint edge d s p).prevRtarget =
    if cutsBackward edge d p then -p.pid else s.prevRtarget := by
  unfold splitAtPoint cutsBackward
  split_ifs <;> simp_all

theorem splitAtPoint_prevRfraction : (splitAtPoint edge d s p).prevRfraction =
    if cutsBackward edge d p then p.fraction else s.prevRfraction := by
  unfold splitAtPoint cutsBackward
  split_ifs <;> simp_all

theorem costs_of_not_bothWays (h : ¬ bothWays edge d p = true) :
    0 ≤ edge.cost ∧ 0 ≤ edge.reverseCost := by
  simp only [bothWays, decide_eq_true_eq, not_or, not_lt] at h
  exact ⟨h.1, h.2.1⟩

theorem splitAtPoint_lastCost : (splitAtPoint edge d s p).lastCost =
    if cutsForward edge d p ∧ p.inside ∧ 0 ≤ edge.cost then
      (p.fraction - s.prevFraction) * edge.cost
    else s.lastCost := by
  by_cases hboth : bothWays edge d p = true
  · simp [splitAtPoint, hboth, cutsForward_of_bothWays hboth]
  · have hc := (costs_of_not_bothWays hboth).1
    by_cases hside : d = p.side
    · rw [splitAtPoint, if_neg hboth, if_pos hside, cutsForward_of_side hside]
      simp [hc]
    · rw [splitAtPoint, if_neg hboth, if_neg hside, cutsForward_eq_false hboth hside]
      simp

theorem splitAtPoint_aggCost : (splitAtPoint edge d s p).aggCost =
    if cutsForward edge d p then s.aggCost + (splitAtPoint edge d s p).lastCost
    else s.aggCost := by
  unfold splitAtPoint cutsForward
  split_ifs <;> simp_all

theorem splitAtPoint_lastRcost : (splitAtPoint edge d s p).lastRcost =
    if cutsBackward edge d p ∧ p.inside ∧ 0 ≤ edge.reverseCost then
      (p.fraction - s.prevRfraction) * edge.reverseCost
    else s.lastRcost := by
  by_cases hboth : bothWays edge d p = true
  · simp [splitAtPoint, hboth, cutsBackward_of_bothWays hboth]
  · have hr := (costs_of_not_bothWays hboth).2
    by_cases hside : d = p.side
    · rw [splitAtPoint, if_neg hboth, if_pos hside, cutsBackward_eq_false hboth hside]
      simp
    · rw [splitAtPoint, if_neg hboth, if_neg hside, cutsBackward_of_side hside]
      simp [hr]

theorem splitAtPoint_aggRcost : (splitAtPoint edge d s p).aggRcost =
    if cutsBackward edge d p then s.aggRcost + (splitAtPoint edge d s p).lastRcost
    else s.aggRcost := by
  unfold splitAtPoint cutsBackward
  split_ifs <;> simp_all

/-- The arcs that one point adds. -/
inductive PointArc (edge : EdgeT) (d : Side) (s : Splitting) (p : PointOnEdge) :
    Int → Int → ℚ → Prop
  | fromSource (h : p.fraction = 0) : PointArc edge d s p edge.source (-p.pid) 0
  | toSource (h : p.fraction = 0) : PointArc edge d s p (-p.pid) edge.source 0
  | fromTarget (h : p.fraction = 1) : PointArc edge d s p edge.target (-p.pid) 0
  | toTarget (h : p.fraction = 1) : PointArc edge d s p (-p.pid) edge.target 0
  | forward (hin : p.inside = true) (hcuts : cutsForward edge d p = true) (hc : 0 ≤ edge.cost)
      (hw : 0 ≤ (p.fraction - s.prevFraction) * edge.cost) :
      PointArc edge d s p s.prevTarget (-p.pid) ((p.fraction - s.prevFraction) * edge.cost)
  | backward (hin : p.inside = true) (hcuts : cutsBackward edge d p = true)
      (hr : 0 ≤ edge.reverseCost)
      (hw : 0 ≤ (p.fraction - s.prevRfraction) * edge.reverseCost) :
      PointArc edge d s p (-p.pid) (if bothWays edge d p then s.prevTarget else s.prevRtarget)
        ((p.fraction - s.prevRfraction) * edge.reverseCost)

/-- The rows for a point at an end. -/
theorem tableArc_endEdges : TableArc (endEdges edge p) u v w ↔
    w = 0 ∧ (p.fraction = 0 ∧ (u = edge.source ∧ v = -p.pid ∨ u = -p.pid ∧ v = edge.source) ∨
      p.fraction = 1 ∧ (u = edge.target ∧ v = -p.pid ∨ u = -p.pid ∧ v = edge.target)) := by
  rw [endEdges, tableArc_append, tableArc_ite, tableArc_ite, tableArc_zero, tableArc_zero]
  tauto

/-- The arcs of a point, told by the rows. -/
theorem pointArc_iff : PointArc edge d s p u v w ↔ TableArc (endEdges edge p) u v w ∨
    (p.inside = true ∧ cutsForward edge d p = true ∧ 0 ≤ edge.cost ∧
      TableArc [⟨edge.id, s.prevTarget, -p.pid, (p.fraction - s.prevFraction) * edge.cost, -1⟩]
        u v w) ∨
    (p.inside = true ∧ cutsBackward edge d p = true ∧ 0 ≤ edge.reverseCost ∧
      TableArc [⟨edge.id, if bothWays edge d p then s.prevTarget else s.prevRtarget, -p.pid, -1,
        (p.fraction - s.prevRfraction) * edge.reverseCost⟩] u v w) := by
  rw [tableArc_endEdges, tableArc_forward, tableArc_backward]
  constructor
  · intro h
    cases h with
    | fromSource h => exact .inl ⟨rfl, .inl ⟨h, .inl ⟨rfl, rfl⟩⟩⟩
    | toSource h => exact .inl ⟨rfl, .inl ⟨h, .inr ⟨rfl, rfl⟩⟩⟩
    | fromTarget h => exact .inl ⟨rfl, .inr ⟨h, .inl ⟨rfl, rfl⟩⟩⟩
    | toTarget h => exact .inl ⟨rfl, .inr ⟨h, .inr ⟨rfl, rfl⟩⟩⟩
    | forward hin hcuts hc hw => exact .inr (.inl ⟨hin, hcuts, hc, hw, rfl, rfl, rfl⟩)
    | backward hin hcuts hr hw => exact .inr (.inr ⟨hin, hcuts, hr, hw, rfl, rfl, rfl⟩)
  · intro h
    obtain ⟨rfl, hend⟩ | ⟨hin, hcuts, hc, hw, rfl, rfl, rfl⟩ |
      ⟨hin, hcuts, hr, hw, rfl, rfl, rfl⟩ := h
    · obtain ⟨h, ⟨rfl, rfl⟩ | ⟨rfl, rfl⟩⟩ | ⟨h, ⟨rfl, rfl⟩ | ⟨rfl, rfl⟩⟩ := hend
      · exact .fromSource h
      · exact .toSource h
      · exact .fromTarget h
      · exact .toTarget h
    · exact .forward hin hcuts hc hw
    · exact .backward hin hcuts hr hw

/-- One round of the loop adds the arcs of the point. -/
theorem tableArc_splitAtPoint : TableArc (splitAtPoint edge d s p).newEdges u v w ↔
    TableArc s.newEdges u v w ∨ PointArc edge d s p u v w := by
  rw [pointArc_iff]
  by_cases hboth : bothWays edge d p = true
  · have hforward := cutsForward_of_bothWays hboth
    have hbackward := cutsBackward_of_bothWays hboth
    simp only [splitAtPoint, hboth, hforward, hbackward, if_true, true_and, tableArc_append,
      tableArc_ite, decide_eq_true_eq, and_assoc, or_assoc]
    by_cases hin : p.inside = true
    · by_cases hc : 0 ≤ edge.cost <;> by_cases hr : 0 ≤ edge.reverseCost <;> simp [hin, hc, hr]
    · simp [hin]
  · have hcosts := costs_of_not_bothWays hboth
    by_cases hside : d = p.side
    · have hforward : cutsForward edge d p = true := cutsForward_of_side hside
      have hbackward := cutsBackward_eq_false hboth hside
      simp only [splitAtPoint, if_neg hboth, if_pos hside, hforward, hbackward, true_and,
        Bool.false_eq_true, false_and, and_false, or_false, tableArc_append, tableArc_ite, hcosts.1,
        or_assoc]
      by_cases hin : p.inside = true <;> simp [hin]
    · have hforward : cutsForward edge d p ≠ true := by simp [cutsForward, hboth, hside]
      have hbackward : cutsBackward edge d p = true := by simp [cutsBackward, hside]
      simp only [splitAtPoint, if_neg hboth, if_neg hside, hforward, hbackward, true_and,
        Bool.false_eq_true, false_and, and_false, false_or, tableArc_append, tableArc_ite, hcosts.2,
        or_assoc]
      by_cases hin : p.inside = true <;> simp [hin]

/-! ## What the loop remembers -/

/-- The variables after the points `done`. -/
def splitting (edge : EdgeT) (d : Side) (done : List PointOnEdge) : Splitting :=
  done.foldl (splitAtPoint edge d) (startSplitting edge)

@[simp] theorem splitting_nil : splitting edge d [] = startSplitting edge := rfl

@[simp] theorem splitting_concat : splitting edge d (done ++ [p]) =
    splitAtPoint edge d (splitting edge d done) p := by
  rw [splitting, List.foldl_append]
  rfl

/-- The vertex and the fraction of the last of the points that divide the way, or those of the
    source when none does. -/
inductive Latest (cuts : PointOnEdge → Bool) (source : Int) (done : List PointOnEdge) :
    Int → ℚ → Prop
  | source (hnone : ∀ q ∈ done, cuts q = false) : Latest cuts source done source 0
  | point {y : PointOnEdge} (hmem : y ∈ done) (hcuts : cuts y = true)
      (hlast : ∀ q ∈ done, cuts q = true → q = y ∨ Before q y) :
      Latest cuts source done (-y.pid) y.fraction

section Latest

variable {cuts : PointOnEdge → Bool} {source : Int} {f : ℚ}

/-- A point that comes after the others is the last one if it divides the way. -/
theorem Latest.concat (h : Latest cuts source done v f) (hp : ∀ q ∈ done, Before q p) :
    Latest cuts source (done ++ [p]) (if cuts p then -p.pid else v)
      (if cuts p then p.fraction else f) := by
  by_cases hcuts : cuts p = true
  · rw [if_pos hcuts, if_pos hcuts]
    refine .point (List.mem_append_right done List.mem_cons_self) hcuts fun q hq _ => ?_
    obtain hq | hq := List.mem_append.mp hq
    · exact .inr (hp q hq)
    · exact .inl (List.mem_singleton.mp hq)
  · rw [if_neg hcuts, if_neg hcuts]
    cases h with
    | source hnone =>
      refine .source fun q hq => ?_
      obtain hq | hq := List.mem_append.mp hq
      · exact hnone q hq
      · rw [List.mem_singleton.mp hq]
        exact Bool.not_eq_true _ |>.mp hcuts
    | point hmem hcuts' hlast =>
      refine .point (List.mem_append_left _ hmem) hcuts' fun q hq hq' => ?_
      obtain hq | hq := List.mem_append.mp hq
      · exact hlast q hq hq'
      · rw [List.mem_singleton.mp hq] at hq'
        exact absurd hq' hcuts

/-- No point that divides the way is further than the last one. -/
theorem Latest.le (h : Latest cuts source done v f) (hq : q ∈ done) (hcuts : cuts q = true) :
    q.fraction ≤ f := by
  cases h with
  | source hnone => exact absurd hcuts (by rw [hnone q hq]; exact Bool.false_ne_true)
  | point _ _ hlast =>
    obtain rfl | hbefore := hlast q hq hcuts
    · exact le_rfl
    · exact hbefore.le

/-- The last point is not further than a bound of all points. -/
theorem Latest.fraction_le {b : ℚ} (h : Latest cuts source done v f) (hb : 0 ≤ b)
    (hdone : ∀ q ∈ done, q.fraction ≤ b) : f ≤ b := by
  cases h with
  | source _ => exact hb
  | point hmem _ _ => exact hdone _ hmem

theorem Latest.lt_one (h : Latest cuts source done v f)
    (hdone : ∀ q ∈ done, cuts q = true → q.fraction < 1) : f < 1 := by
  cases h with
  | source _ => exact one_pos
  | point hmem hcuts _ => exact hdone _ hmem hcuts

theorem Latest.nonneg (h : Latest cuts source done v f) (hdone : ∀ q ∈ done, 0 ≤ q.fraction) :
    0 ≤ f := by
  cases h with
  | source _ => exact le_rfl
  | point hmem _ _ => exact hdone _ hmem

end Latest

variable (edge d) in
/-- Where the next edge from the source begins. -/
theorem latest_forward (h : done.Pairwise Before) :
    Latest (cutsForward edge d) edge.source done (splitting edge d done).prevTarget
      (splitting edge d done).prevFraction := by
  induction done using List.reverseRecOn with
  | nil => exact .source fun q hq => nomatch hq
  | append_singleton done p ih =>
    rw [List.pairwise_append] at h
    rw [splitting_concat, splitAtPoint_prevTarget, splitAtPoint_prevFraction]
    exact (ih h.1).concat fun q hq => h.2.2 q hq p List.mem_cons_self

variable (edge d) in
/-- Where the next edge to the source ends. -/
theorem latest_backward (h : done.Pairwise Before) :
    Latest (cutsBackward edge d) edge.source done (splitting edge d done).prevRtarget
      (splitting edge d done).prevRfraction := by
  induction done using List.reverseRecOn with
  | nil => exact .source fun q hq => nomatch hq
  | append_singleton done p ih =>
    rw [List.pairwise_append] at h
    rw [splitting_concat, splitAtPoint_prevRtarget, splitAtPoint_prevRfraction]
    exact (ih h.1).concat fun q hq => h.2.2 q hq p List.mem_cons_self

/-- A point that is neither inside nor at the target is at the source. -/
theorem fraction_eq_zero (h0 : 0 ≤ p.fraction) (h1 : p.fraction < 1) (hin : ¬ p.inside = true) :
    p.fraction = 0 := by
  simp only [PointOnEdge.inside, decide_eq_true_eq, not_and] at hin
  by_contra hne
  exact hin (lt_of_le_of_ne h0 (Ne.symm hne)) h1

/-- So much of the cost `c` has been spent up to the fraction `f`. -/
def Spent (c f agg last : ℚ) : Prop := agg = f * c ∧ (f = 0 → last = 0)

/-- What a point spends that is not at the target or does not divide the way. -/
theorem Spent.concat {c f agg last : ℚ} {cuts : Bool} (h : Spent c f agg last) (hf : 0 ≤ f)
    (hfp : f ≤ p.fraction) (h0 : 0 ≤ p.fraction) (h1 : cuts = true → p.fraction < 1)
    (hc : 0 ≤ c) : Spent c (if cuts then p.fraction else f)
      (if cuts then agg + (if cuts ∧ p.inside ∧ 0 ≤ c then (p.fraction - f) * c else last) else agg)
      (if cuts ∧ p.inside ∧ 0 ≤ c then (p.fraction - f) * c else last) := by
  obtain ⟨hagg, hlast⟩ := h
  by_cases hcuts : cuts = true
  · rw [if_pos hcuts, if_pos hcuts]
    by_cases hin : p.inside = true
    · rw [if_pos ⟨hcuts, hin, hc⟩, hagg]
      refine ⟨by ring, fun hzero => ?_⟩
      rw [PointOnEdge.inside, decide_eq_true_eq] at hin
      exact absurd hzero hin.1.ne'
    · have hzero := fraction_eq_zero h0 (h1 hcuts) hin
      have hprev : f = 0 := le_antisymm (hzero ▸ hfp) hf
      rw [if_neg fun hand => hin hand.2.1, hagg, hlast hprev, hprev, hzero, zero_mul, zero_add]
      exact ⟨(zero_mul c).symm, fun _ => rfl⟩
  · rw [if_neg hcuts, if_neg hcuts, if_neg fun hand => hcuts hand.1]
    exact ⟨hagg, hlast⟩

variable (edge d) in
/-- The cost that has been spent on the way from the source, as long as no point that divides it
    is at the target. -/
theorem spent_forward (h : done.Pairwise Before) (h0 : ∀ q ∈ done, 0 ≤ q.fraction)
    (h1 : ∀ q ∈ done, cutsForward edge d q = true → q.fraction < 1) (hc : 0 ≤ edge.cost) :
    Spent edge.cost (splitting edge d done).prevFraction (splitting edge d done).aggCost
      (splitting edge d done).lastCost := by
  induction done using List.reverseRecOn with
  | nil => exact ⟨(zero_mul _).symm, fun _ => rfl⟩
  | append_singleton done p ih =>
    rw [List.pairwise_append] at h
    have hbefore : ∀ q ∈ done, q.fraction ≤ p.fraction :=
      fun q hq => (h.2.2 q hq p List.mem_cons_self).le
    have hp : p ∈ done ++ [p] := List.mem_append_right done List.mem_cons_self
    have h0' : ∀ q ∈ done, 0 ≤ q.fraction := fun q hq => h0 q (List.mem_append_left _ hq)
    have hlatest := latest_forward edge d h.1
    rw [splitting_concat, splitAtPoint_aggCost, splitAtPoint_lastCost, splitAtPoint_prevFraction]
    exact (ih h.1 h0' fun q hq => h1 q (List.mem_append_left _ hq)).concat (hlatest.nonneg h0')
      (hlatest.fraction_le (h0 p hp) hbefore) (h0 p hp) (h1 p hp) hc

variable (edge d) in
/-- The cost that has been spent on the way to the source. -/
theorem spent_backward (h : done.Pairwise Before) (h0 : ∀ q ∈ done, 0 ≤ q.fraction)
    (h1 : ∀ q ∈ done, cutsBackward edge d q = true → q.fraction < 1)
    (hr : 0 ≤ edge.reverseCost) :
    Spent edge.reverseCost (splitting edge d done).prevRfraction (splitting edge d done).aggRcost
      (splitting edge d done).lastRcost := by
  induction done using List.reverseRecOn with
  | nil => exact ⟨(zero_mul _).symm, fun _ => rfl⟩
  | append_singleton done p ih =>
    rw [List.pairwise_append] at h
    have hbefore : ∀ q ∈ done, q.fraction ≤ p.fraction :=
      fun q hq => (h.2.2 q hq p List.mem_cons_self).le
    have hp : p ∈ done ++ [p] := List.mem_append_right done List.mem_cons_self
    have h0' : ∀ q ∈ done, 0 ≤ q.fraction := fun q hq => h0 q (List.mem_append_left _ hq)
    have hlatest := latest_backward edge d h.1
    rw [splitting_concat, splitAtPoint_aggRcost, splitAtPoint_lastRcost,
      splitAtPoint_prevRfraction]
    exact (ih h.1 h0' fun q hq => h1 q (List.mem_append_left _ hq)).concat (hlatest.nonneg h0')
      (hlatest.fraction_le (h0 p hp) hbefore) (h0 p hp) (h1 p hp) hr

/-- Nothing is spent on a way that is closed or costs nothing. -/
theorem aggCost_eq_zero (hc : edge.cost ≤ 0) :
    (splitting edge d done).aggCost = 0 ∧ (splitting edge d done).lastCost = 0 := by
  induction done using List.reverseRecOn with
  | nil => exact ⟨rfl, rfl⟩
  | append_singleton done p ih =>
    have hlast : (splitAtPoint edge d (splitting edge d done) p).lastCost = 0 := by
      rw [splitAtPoint_lastCost]
      split
      · rename_i hopen
        rw [le_antisymm hc hopen.2.2, mul_zero]
      · exact ih.2
    rw [splitting_concat, splitAtPoint_aggCost, hlast, ih.1]
    simp

theorem aggRcost_eq_zero (hr : edge.reverseCost ≤ 0) :
    (splitting edge d done).aggRcost = 0 ∧ (splitting edge d done).lastRcost = 0 := by
  induction done using List.reverseRecOn with
  | nil => exact ⟨rfl, rfl⟩
  | append_singleton done p ih =>
    have hlast : (splitAtPoint edge d (splitting edge d done) p).lastRcost = 0 := by
      rw [splitAtPoint_lastRcost]
      split
      · rename_i hopen
        rw [le_antisymm hr hopen.2.2, mul_zero]
      · exact ih.2
    rw [splitting_concat, splitAtPoint_aggRcost, hlast, ih.1]
    simp

/-! ## All points -/

/-- The arcs that the points and the last segments add. -/
inductive SplitArc (edge : EdgeT) (d : Side) (l : List PointOnEdge) : Int → Int → ℚ → Prop
  | point {done rest : List PointOnEdge} {p : PointOnEdge} {u v : Int} {w : ℚ}
      (hl : l = done ++ p :: rest) (harc : PointArc edge d (splitting edge d done) p u v w) :
      SplitArc edge d l u v w
  | lastForward (hw : 0 ≤ edge.cost - (splitting edge d l).aggCost) :
      SplitArc edge d l (splitting edge d l).prevTarget edge.target
        (edge.cost - (splitting edge d l).aggCost)
  | lastBackward (hw : 0 ≤ edge.reverseCost - (splitting edge d l).aggRcost) :
      SplitArc edge d l edge.target (splitting edge d l).prevRtarget
        (edge.reverseCost - (splitting edge d l).aggRcost)

/-- The arcs of the loop are those of its points. -/
theorem tableArc_splitting : TableArc (splitting edge d l).newEdges u v w ↔
    ∃ done p rest, l = done ++ p :: rest ∧
      PointArc edge d (splitting edge d done) p u v w := by
  induction l using List.reverseRecOn with
  | nil =>
    constructor
    · exact fun h => absurd h tableArc_nil
    · intro h
      obtain ⟨done, p, rest, hl, _⟩ := h
      exact absurd hl.symm (List.append_ne_nil_of_right_ne_nil done (List.cons_ne_nil p rest))
  | append_singleton l q ih =>
    rw [splitting_concat, tableArc_splitAtPoint, ih]
    constructor
    · intro h
      obtain ⟨done, p, rest, rfl, harc⟩ | harc := h
      · exact ⟨done, p, rest ++ [q], by rw [List.append_assoc, List.cons_append], harc⟩
      · exact ⟨l, q, [], rfl, harc⟩
    · intro h
      obtain ⟨done, p, rest, hl, harc⟩ := h
      obtain rfl | ⟨rest, r, rfl⟩ := List.eq_nil_or_concat rest
      · obtain ⟨rfl, hq⟩ := List.append_inj' hl rfl
        obtain rfl := List.singleton_inj.mp hq
        exact .inr harc
      · rw [List.concat_eq_append, ← List.cons_append, ← List.append_assoc] at hl
        exact .inl ⟨done, p, rest, (List.append_inj' hl rfl).1, harc⟩

theorem splitLoop_eq (h : ∀ q ∈ l, 0 ≤ q.fraction ∧ q.fraction ≤ 1) :
    splitLoop edge d s l = (l.foldl (splitAtPoint edge d) s, true) := by
  induction l generalizing s with
  | nil => rfl
  | cons p l ih =>
    obtain ⟨h0, h1⟩ := h p List.mem_cons_self
    rw [splitLoop, if_neg (not_or.mpr ⟨not_lt.mpr h0, not_lt.mpr h1⟩),
      ih fun q hq => h q (List.mem_cons_of_mem p hq)]
    rfl

/-- The rows that an edge is replaced by. -/
def splitRows (edge : EdgeT) (d : Side) (l : List PointOnEdge) : List EdgeT :=
  (splitting edge d l).newEdges ++ lastSegments edge (splitting edge d l)

/-- The arcs of the rows that an edge is replaced by. -/
theorem tableArc_splitRows : TableArc (splitRows edge d l) u v w ↔ SplitArc edge d l u v w := by
  show TableArc (_ ++ ([_] ++ [_])) u v w ↔ _
  rw [tableArc_append, tableArc_append, tableArc_splitting, tableArc_forward, tableArc_backward]
  constructor
  · intro h
    obtain ⟨done, p, rest, hl, harc⟩ | ⟨hw, rfl, rfl, rfl⟩ | ⟨hw, rfl, rfl, rfl⟩ := h
    · exact .point hl harc
    · exact .lastForward hw
    · exact .lastBackward hw
  · intro h
    cases h with
    | point hl harc => exact .inl ⟨_, _, _, hl, harc⟩
    | lastForward hw => exact .inr (.inl ⟨hw, rfl, rfl, rfl⟩)
    | lastBackward hw => exact .inr (.inr ⟨hw, rfl, rfl, rfl⟩)

/-- Each edge is replaced by the rows for the points on it. -/
theorem createNewEdgesLoop_spec {g : PgPointsGraph} {edges : List EdgeT}
    (newPoints : List PointOnEdge) (hne : ∀ e ∈ edges, pointsOnEdge g.points e ≠ [])
    (hfrac : ∀ e ∈ edges, ∀ q ∈ pointsOnEdge g.points e, 0 ≤ q.fraction ∧ q.fraction ≤ 1) :
    (createNewEdgesLoop g edges newPoints).newEdges = g.newEdges ++
        edges.flatMap (fun e => splitRows e g.drivingSide (pointsOnEdge g.points e)) ∧
      (createNewEdgesLoop g edges newPoints).error = g.error := by
  induction edges generalizing g newPoints with
  | nil => exact ⟨(List.append_nil _).symm, rfl⟩
  | cons e edges ih =>
    have hl := hne e List.mem_cons_self
    have hq := hfrac e List.mem_cons_self
    rw [createNewEdgesLoop]
    cases hpoints : pointsOnEdge g.points e with
    | nil => exact absurd hpoints hl
    | cons p l =>
      rw [hpoints] at hq
      simp only [splitLoop_eq hq]
      let s := (p :: l).foldl (splitAtPoint e g.drivingSide) (startSplitting e)
      let next : PgPointsGraph :=
        { g with newEdges := g.newEdges ++ s.newEdges ++ lastSegments e s }
      obtain ⟨hnew, herror⟩ := ih (g := next) (newPoints ++ s.newPoints)
        (fun e' he' => hne e' (List.mem_cons_of_mem e he'))
        fun e' he' => hfrac e' (List.mem_cons_of_mem e he')
      refine ⟨hnew.trans ?_, herror⟩
      rw [List.flatMap_cons, hpoints, splitRows, splitting, List.append_assoc, List.append_assoc,
        List.append_assoc]

/-- The side on which a graph takes vehicles to drive. -/
def effectiveSide (d : Side) (directed : Bool) : Side := if directed then d else .both

/-- The arcs of the new edges, for the points in their order on the edge. -/
theorem tableArc_new (directed : Bool) (hne : points ≠ [])
    (hpids : (points.map (·.pid)).Nodup) (hedge : ∀ p ∈ points, p.edgeId = edge.id)
    (hfrac : ∀ p ∈ points, 0 ≤ p.fraction ∧ p.fraction ≤ 1) :
    ∃ l : List PointOnEdge, l.Perm points ∧ l.Pairwise Before ∧ ∀ u v w,
      TableArc (new points [edge] true d directed).newEdges u v w ↔
        SplitArc edge (effectiveSide d directed) l u v w := by
  let g : PgPointsGraph :=
    { points := points, edgesOfPoints := [edge], newEdges := [],
      drivingSide := effectiveSide d directed, directed := directed, error := "" }
  have hall : points.filter (edge.id = ·.edgeId) = points :=
    List.filter_eq_self.mpr fun p hp => decide_eq_true (hedge p hp).symm
  obtain ⟨hperm, hsorted⟩ := pointsOnEdge_spec (g := g) edge hpids
  rw [show g.points.filter (edge.id = ·.edgeId) = points from hall] at hperm
  refine ⟨_, hperm, hsorted, fun u v w => ?_⟩
  have hnew : new points [edge] true d directed = g.checkPoints.createNewEdges := by
    cases directed <;> rfl
  have hl : pointsOnEdge g.checkPoints.points edge ≠ [] := by
    intro hnil
    rw [hnil] at hperm
    exact hne hperm.nil_eq.symm
  have hrows := (@createNewEdgesLoop_spec g.checkPoints [edge] []
    (by simpa using hl) (by simpa using fun q hq => hfrac q (hperm.mem_iff.mp hq))).1
  have hnewEdges : (new points [edge] true d directed).newEdges =
      splitRows edge (effectiveSide d directed) (pointsOnEdge g.checkPoints.points edge) := by
    rw [hnew]
    refine hrows.trans ?_
    rw [List.flatMap_singleton]
    rfl
  rw [hnewEdges, tableArc_splitRows]

end PgPointsGraph

end PgRouting
