import PgRouting.Native.ShortestPath
import Mathlib.Data.List.Destutter

/-!
# Rows along the same edge

`eliminate_details` puts the rows along the same edge together: of each run it keeps the first
node, and the costs of the run are added up. What has been spent up to the nodes that are left is
what it was.

## Key results

- `condense_aggCost`: the rows that are left
- `eliminateDetails_rows`: `eliminate_details` keeps the first row of each run
-/

namespace PgRouting

namespace PgPointsGraph

variable {node edge : Int} {cost : ℚ} {rows : List PathT} {p : Path}

/-! ## The loop -/

/-- The rows of the loop, from the row that is being put together. -/
def condense (node edge : Int) (cost : ℚ) : List PathT → List PathT
  | [] => [⟨node, edge, cost, 0⟩]
  | row :: rest =>
    if row.edge = edge then condense node edge (cost + row.cost) rest
    else ⟨node, edge, cost, 0⟩ :: condense row.node row.edge row.cost rest

theorem eliminateDetailsLoop_eq (rows : List PathT) (node edge : Int) (cost : ℚ) (p : Path) :
    (eliminateDetailsLoop node edge cost rows p).path = p.path ++ condense node edge cost rows ∧
      (eliminateDetailsLoop node edge cost rows p).startId = p.startId ∧
      (eliminateDetailsLoop node edge cost rows p).endId = p.endId := by
  induction rows generalizing node edge cost p with
  | nil => exact ⟨rfl, rfl, rfl⟩
  | cons row rest ih =>
    rw [eliminateDetailsLoop, condense]
    split
    · exact ih node edge (cost + row.cost) p
    · obtain ⟨hpath, hstart, hend⟩ :=
        ih row.node row.edge row.cost (p.pushBack ⟨node, edge, cost, 0⟩)
      refine ⟨?_, hstart, hend⟩
      rw [hpath]
      show (p.path ++ [_]) ++ _ = _
      rw [List.append_assoc, List.singleton_append]

theorem condense_sum (rows : List PathT) (node edge : Int) (cost : ℚ) :
    ((condense node edge cost rows).map (·.cost)).sum = cost + (rows.map (·.cost)).sum := by
  induction rows generalizing node edge cost with
  | nil => simp [condense]
  | cons row rest ih =>
    rw [condense, List.map_cons, List.sum_cons]
    split
    · rw [ih, add_assoc]
    · rw [List.map_cons, List.sum_cons, ih]

/-- What `eliminate_details` keeps of a row. -/
def kept (row : PathT) : Int × Int × ℚ := (row.node, row.edge, row.aggCost)

/-- Whether a row begins a new run after another one. -/
def NewRun (row next : PathT) : Prop := row.edge ≠ next.edge

instance : DecidableRel NewRun := fun row next => inferInstanceAs (Decidable (row.edge ≠ next.edge))

/-- The rows are the first rows of the runs, with what had been spent before them. -/
theorem condense_aggCost (rows : List PathT) (node edge : Int) (cost c agg : ℚ) :
    (Path.recalculateLoop agg (condense node edge cost rows)).1.map kept =
      (List.destutter' NewRun ⟨node, edge, c, agg⟩
        (Path.recalculateLoop (agg + cost) rows).1).map kept := by
  induction rows generalizing node edge cost c agg with
  | nil => rfl
  | cons row rest ih =>
    rw [condense, Path.recalculateLoop]
    split
    · rename_i hedge
      rw [List.destutter'_cons_neg _ fun hnew : NewRun _ _ => hnew hedge.symm, ih, add_assoc]
    · rename_i hedge
      rw [List.destutter'_cons_pos _ (show NewRun _ _ from fun heq => hedge heq.symm),
        Path.recalculateLoop, List.map_cons, List.map_cons]
      congr 1
      exact ih row.node row.edge row.cost row.cost (agg + cost)

/-- Rows that are runs of their own stay as they are. -/
theorem condense_of_isChain (rows : List PathT) {row : PathT}
    (h : (row :: rows).IsChain NewRun) (agg : ℚ) :
    (Path.recalculateLoop agg (condense row.node row.edge row.cost rows)).1 =
      (Path.recalculateLoop agg (row :: rows)).1 := by
  induction rows generalizing row agg with
  | nil => rfl
  | cons next rest ih =>
    obtain ⟨hnew, hrest⟩ := List.isChain_cons_cons.mp h
    rw [condense, if_neg (Ne.symm hnew)]
    show ⟨row.node, row.edge, row.cost, agg⟩ ::
      (Path.recalculateLoop (agg + row.cost) (condense next.node next.edge next.cost rest)).1 =
        { row with aggCost := agg } :: (Path.recalculateLoop (agg + row.cost) (next :: rest)).1
    rw [ih hrest]

/-! ## The whole path -/

/-- The function on a path with rows. -/
theorem eliminateDetails_cons {first : PathT} {rest : List PathT} (h : p.path = first :: rest) :
    eliminateDetails p =
      let rows := condense first.node first.edge first.cost rest
      ⟨(Path.recalculateLoop 0 rows).1, p.startId, p.endId, (p.path.map (·.cost)).sum⟩ := by
  obtain ⟨hpath, hstart, hend⟩ := eliminateDetailsLoop_eq (first :: rest) first.node first.edge 0
    (.new p.startId p.endId)
  have hrows : (eliminateDetailsLoop first.node first.edge 0 (first :: rest)
      (.new p.startId p.endId)).path = condense first.node first.edge first.cost rest := by
    rw [hpath, condense, if_pos rfl, zero_add]
    rfl
  simp only [eliminateDetails, h, Path.recalculateAggCost, hrows, hstart, hend,
    Path.recalculateLoop_total, condense_sum, zero_add, List.map_cons, List.sum_cons]
  rfl

theorem eliminateDetails_nil (h : p.path = []) : eliminateDetails p = p := by
  rw [eliminateDetails, h]

theorem eliminateDetails_ends (p : Path) :
    (eliminateDetails p).startId = p.startId ∧ (eliminateDetails p).endId = p.endId := by
  cases h : p.path with
  | nil => rw [eliminateDetails_nil h]; exact ⟨rfl, rfl⟩
  | cons first rest => rw [eliminateDetails_cons h]; exact ⟨rfl, rfl⟩

theorem eliminateDetails_sum (p : Path) :
    ((eliminateDetails p).path.map (·.cost)).sum = (p.path.map (·.cost)).sum := by
  cases h : p.path with
  | nil => rw [eliminateDetails_nil h, h]
  | cons first rest =>
    rw [eliminateDetails_cons h]
    show ((Path.recalculateLoop 0 _).1.map (·.cost)).sum = _
    rw [Path.recalculateLoop_costs, condense_sum, List.map_cons, List.sum_cons]

/-- The rows that are left. -/
theorem eliminateDetails_kept (p : Path) (h : p.path ≠ []) :
    (eliminateDetails p).path.map kept =
      (p.recalculateAggCost.path.destutter NewRun).map kept := by
  obtain ⟨first, rest, hpath⟩ := List.exists_cons_of_ne_nil h
  rw [eliminateDetails_cons hpath]
  show _ = (List.destutter _ (Path.recalculateLoop 0 p.path).1).map _
  rw [hpath, Path.recalculateLoop, List.destutter_cons']
  exact (condense_aggCost rest first.node first.edge first.cost first.cost 0).trans
    (by rw [zero_add])

/-- No two rows that are left one after the other are along the same edge. -/
theorem eliminateDetails_isChain (p : Path) (h : p.path ≠ []) :
    (eliminateDetails p).path.IsChain NewRun := by
  have hchain : ((p.recalculateAggCost.path.destutter NewRun).map kept).IsChain
      fun k k' => k.2.1 ≠ k'.2.1 :=
    (List.isChain_map kept).mpr (List.isChain_destutter NewRun p.recalculateAggCost.path)
  rw [← eliminateDetails_kept p h] at hchain
  exact (List.isChain_map kept).mp hchain

/-- Rows that are runs of their own only have their aggregate costs recalculated. -/
theorem eliminateDetails_of_isChain (h : p.path.IsChain NewRun) (hne : p.path ≠ []) :
    eliminateDetails p = p.recalculateAggCost := by
  obtain ⟨first, rest, hpath⟩ := List.exists_cons_of_ne_nil hne
  rw [hpath] at h
  rw [eliminateDetails_cons hpath]
  show Path.mk (Path.recalculateLoop 0 (condense _ _ _ rest)).1 _ _ _ = Path.mk _ _ _ _
  rw [condense_of_isChain rest h, ← hpath, Path.recalculateLoop_total, zero_add]

theorem recalculateLoop_idem (rows : List PathT) (agg : ℚ) :
    (Path.recalculateLoop agg (Path.recalculateLoop agg rows).1).1 =
      (Path.recalculateLoop agg rows).1 := by
  induction rows generalizing agg with
  | nil => rfl
  | cons row rest ih =>
    show _ :: _ = _ :: _
    rw [ih]

theorem recalculateAggCost_eliminateDetails (p : Path) (h : p.path ≠ []) :
    (eliminateDetails p).recalculateAggCost = eliminateDetails p := by
  obtain ⟨first, rest, hpath⟩ := List.exists_cons_of_ne_nil h
  have hsum := eliminateDetails_sum p
  rw [eliminateDetails_cons hpath] at hsum ⊢
  show Path.mk (Path.recalculateLoop 0 (Path.recalculateLoop 0 _).1).1 _ _
    (Path.recalculateLoop 0 (Path.recalculateLoop 0 _).1).2 = _
  rw [recalculateLoop_idem, Path.recalculateLoop_total, zero_add]
  exact congrArg _ hsum

/-- **Eliminating details.** `eliminate_details` leaves the ends and the total of a path as they
    are and keeps the first row of each run along the same edge, with its node and what has been
    spent before it. To do it again changes nothing. -/
theorem eliminateDetails_rows (p : Path) (h : p.path ≠ []) :
    (eliminateDetails p).startId = p.startId ∧ (eliminateDetails p).endId = p.endId ∧
    ((eliminateDetails p).path.map fun row => (row.node, row.edge, row.aggCost)) =
      (p.recalculateAggCost.path.destutter fun row next => row.edge ≠ next.edge).map
        (fun row => (row.node, row.edge, row.aggCost)) ∧
    ((eliminateDetails p).path.map (·.cost)).sum = (p.path.map (·.cost)).sum ∧
    (eliminateDetails p).totCost = (p.path.map (·.cost)).sum ∧
    eliminateDetails (eliminateDetails p) = eliminateDetails p := by
  obtain ⟨first, rest, hpath⟩ := List.exists_cons_of_ne_nil h
  refine ⟨(eliminateDetails_ends p).1, (eliminateDetails_ends p).2, eliminateDetails_kept p h,
    eliminateDetails_sum p, ?_, ?_⟩
  · rw [eliminateDetails_cons hpath]
  · have hne : (eliminateDetails p).path ≠ [] := by
      intro hnil
      have hkept := eliminateDetails_kept p h
      rw [hnil, List.map_nil, eq_comm, List.map_eq_nil_iff, List.destutter_eq_nil] at hkept
      exact h (List.length_eq_zero_iff.mp ((Path.recalculateLoop_length 0 p.path).symm.trans
        (List.length_eq_zero_iff.mpr hkept)))
    rw [eliminateDetails_of_isChain (eliminateDetails_isChain p h) hne,
      recalculateAggCost_eliminateDetails p h]

/-- A path over the point 5 on the edge 7, and then along the edge 8. -/
def overPoint : Path :=
  ⟨[⟨1, 7, 4, 0⟩, ⟨-5, 7, 4, 4⟩, ⟨2, 8, 3, 8⟩, ⟨3, -1, 0, 11⟩], 1, 3, 11⟩

/-- The row at the point goes. -/
theorem eliminateDetails_rows_overPoint :
    (eliminateDetails overPoint).startId = 1 ∧ (eliminateDetails overPoint).endId = 3 ∧
    ((eliminateDetails overPoint).path.map fun row => (row.node, row.edge, row.aggCost)) =
      (overPoint.recalculateAggCost.path.destutter fun row next => row.edge ≠ next.edge).map
        (fun row => (row.node, row.edge, row.aggCost)) ∧
    ((eliminateDetails overPoint).path.map (·.cost)).sum =
      (overPoint.path.map (·.cost)).sum ∧
    (eliminateDetails overPoint).totCost = (overPoint.path.map (·.cost)).sum ∧
    eliminateDetails (eliminateDetails overPoint) = eliminateDetails overPoint :=
  eliminateDetails_rows overPoint (by decide)

example : (eliminateDetails overPoint).path =
    [⟨1, 7, 8, 0⟩, ⟨2, 8, 3, 8⟩, ⟨3, -1, 0, 11⟩] := by
  decide +kernel

end PgPointsGraph

end PgRouting
