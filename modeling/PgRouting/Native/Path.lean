import Mathlib.Algebra.Order.Ring.Rat
import Mathlib.Tactic.Abel

/-!
# Paths

`class Path`: the rows of a path, from its first node to its last one, with the
ids of its ends and its total cost. The last row is the end of the path and has
the edge -1.

Costs are exact rationals. The searches that are guided by estimates build paths over
the field of their estimates.
-/

namespace PgRouting

/-- `struct Path_t`: a row of a path. -/
structure PathT (K : Type := ℚ) where
  node : Int
  edge : Int
  cost : K
  aggCost : K := by exact 0
deriving DecidableEq, Repr

/-- `class Path` -/
structure Path (K : Type := ℚ) where
  path : List (PathT K) := []
  startId : Int := 0
  endId : Int := 0
  totCost : K := by exact 0
deriving DecidableEq, Repr

namespace Path

section Operations

variable {K : Type} [AddCommGroup K]

/-- `Path(s_id, e_id)` -/
def new (sId eId : Int) : Path K := { startId := sId, endId := eId }

/-- `push_back` -/
def pushBack (p : Path K) (data : PathT K) : Path K :=
  { p with path := p.path ++ [data], totCost := p.totCost + data.cost }

/-- `push_front` -/
def pushFront (p : Path K) (data : PathT K) : Path K :=
  { p with path := data :: p.path, totCost := p.totCost + data.cost }

/-- The loop of `recalculate_agg_cost`: the rows with their aggregate costs and the total. -/
def recalculateLoop (totCost : K) : List (PathT K) → List (PathT K) × K
  | [] => ([], totCost)
  | p :: rest =>
    let (rows, total) := recalculateLoop (totCost + p.cost) rest
    ({ p with aggCost := totCost } :: rows, total)

/-- `recalculate_agg_cost` -/
def recalculateAggCost (p : Path K) : Path K :=
  let (rows, total) := recalculateLoop 0 p.path
  { p with path := rows, totCost := total }

/-- The first loop of `reverse`, which turns the rows round: a row takes over the edge and the
    cost of the row that was before it. -/
def reverseLoop (edge : Int) (cost : K) : List (PathT K) → List (PathT K) → List (PathT K)
  | [], newpath => newpath
  | r :: rest, newpath =>
    reverseLoop r.edge r.cost rest ({ node := r.node, edge := edge, cost := cost } :: newpath)

/-- `reverse`, which leaves the total cost as it is -/
def reverse (p : Path K) : Path K :=
  let p := { p with startId := p.endId, endId := p.startId }
  if p.path.length ≤ 1 then p
  else { p with path := (recalculateLoop 0 (reverseLoop (-1) 0 p.path [])).1 }

/-- Recalculating the aggregate costs keeps the costs. -/
theorem recalculateLoop_costs (totCost : K) (rows : List (PathT K)) :
    (recalculateLoop totCost rows).1.map (·.cost) = rows.map (·.cost) := by
  induction rows generalizing totCost with
  | nil => rfl
  | cons r rest ih => simp [recalculateLoop, ih]

/-- The total is the sum of the costs. -/
theorem recalculateLoop_total (totCost : K) (rows : List (PathT K)) :
    (recalculateLoop totCost rows).2 = totCost + (rows.map (·.cost)).sum := by
  induction rows generalizing totCost with
  | nil => simp [recalculateLoop]
  | cons r rest ih => simp [recalculateLoop, ih, add_assoc]

theorem recalculateLoop_length (totCost : K) (rows : List (PathT K)) :
    (recalculateLoop totCost rows).1.length = rows.length := by
  have hcosts := congrArg List.length (recalculateLoop_costs totCost rows)
  simpa using hcosts

/-- Turning the rows round drops the cost of the last row. -/
theorem reverseLoop_sum (edge : Int) (cost : K) (rows newpath : List (PathT K))
    (last : PathT K) :
    ((reverseLoop edge cost (rows ++ [last]) newpath).map (·.cost)).sum =
      cost + (rows.map (·.cost)).sum + (newpath.map (·.cost)).sum := by
  induction rows generalizing edge cost newpath with
  | nil => simp [reverseLoop]
  | cons r rest ih =>
    rw [List.cons_append, reverseLoop, ih]
    simp only [List.map_cons, List.sum_cons]
    abel

theorem reverseLoop_length (edge : Int) (cost : K) (rows newpath : List (PathT K)) :
    (reverseLoop edge cost rows newpath).length = rows.length + newpath.length := by
  induction rows generalizing edge cost newpath with
  | nil => simp [reverseLoop]
  | cons r rest ih =>
    rw [reverseLoop, ih, List.length_cons, List.length_cons]
    omega

theorem reverse_length (p : Path K) : p.reverse.path.length = p.path.length := by
  simp only [reverse]
  split
  · rfl
  · simp [recalculateLoop_length, reverseLoop_length]

/-- Reversing a path whose last row costs nothing keeps the sum of the costs. -/
theorem reverse_sum (p : Path K)
    (h : p.path.length ≤ 1 ∨ ∃ rows last, p.path = rows ++ [last] ∧ last.cost = 0) :
    (p.reverse.path.map (·.cost)).sum = (p.path.map (·.cost)).sum := by
  simp only [reverse]
  split
  · rfl
  · rename_i hlong
    obtain ⟨rows, last, heq, hzero⟩ := h.resolve_left hlong
    rw [recalculateLoop_costs, heq, reverseLoop_sum]
    simp [hzero]

end Operations

/-- `renumber_vertices`; it throws when a vertex is not in the map. -/
def renumberVertices (idxToId : List (Int × Int)) (p : Path) : Option Path := do
  let rows ← p.path.mapM fun r => do
    let node ← idxToId.lookup r.node
    pure { r with node := node }
  let startId ← idxToId.lookup p.startId
  let endId ← idxToId.lookup p.endId
  pure { p with path := rows, startId := startId, endId := endId }

end Path

end PgRouting
