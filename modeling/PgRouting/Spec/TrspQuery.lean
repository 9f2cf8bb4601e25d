import PgRouting.Spec.TrspGraph

/-!
# The steps of a turn restricted search

Inversion lemmas for the steps of a query, and the state in which the loop of
`dijkstra_exploration` starts on a fresh handler.

## Key results

- `explorationRound_next`, `explorationRound_done`: what a round does
- `relax_parent`: what relaxing a traversal does to the predecessors
-/

namespace PgRouting

@[simp] theorem CostHolder.get_set (c : CostHolder) (x : WithTop ℚ) (slot slot' : Slot) :
    (c.set x slot).get slot' = if slot' = slot then x else c.get slot' := by
  cases slot <;> cases slot' <;> rfl

namespace TrspQuery

variable {g : TrspGraph} {q q' : TrspQuery}

/-- The query when the search starts on a fresh handler. -/
def searchStart (g : TrspGraph) (startVertex endVertex : Int) : Option TrspQuery := do
  let s ← g.idToIdx.lookup startVertex
  let t ← g.idToIdx.lookup endVertex
  let q ← initializeQue g { startVertex := s, endVertex := t, path := .new s t }
  pure { q with currentNode := q.startVertex }

/-- The query after the top entry, for the traversal `slot` of the edge `e`, has been taken. -/
def take (q : TrspQuery) (e : EdgeInfo) (slot : Slot) : TrspQuery :=
  { q with que := q.que.pop, currentNode := e.edge.exit slot }

/-- A round that takes the traversal `slot` of the edge `e`. -/
theorem explorationRound_eq {c : Option EdgeInfo} {k : WithTop ℚ} {i : Nat} {slot : Slot}
    {e : EdgeInfo} (htop : q.que.top? = some (toLex (k, toLex (i, !slot))))
    (he : g.edges[i]? = some e) :
    explorationRound g (q, c) =
      if e.edge.slotCost slot < 0 then .next (q.take e slot, some e)
      else if e.edge.exit slot = q.endVertex then .done (some (q.take e slot, some e))
      else match explore g (e.edge.exit slot) e slot (q.take e slot) with
        | some q => .next (q, some e)
        | none => .done none := by
  cases slot <;> simp [explorationRound, htop, he] <;> rfl

/-- An entry of the queue, in terms of traversals. -/
theorem exists_entry (pos : PDP) : ∃ k i slot, pos = toLex (k, toLex (i, !slot)) :=
  ⟨(ofLex pos).1, (ofLex (ofLex pos).2).1, !(ofLex (ofLex pos).2).2, by rw [Bool.not_not]; rfl⟩

/-- What a round that is not the last one has done. -/
theorem explorationRound_next {c c' : Option EdgeInfo}
    (h : explorationRound g (q, c) = .next (q', c')) :
    ∃ k i slot e, q.que.top? = some (toLex (k, toLex (i, !slot))) ∧ g.edges[i]? = some e ∧
      c' = some e ∧ ((e.edge.slotCost slot < 0 ∧ q' = q.take e slot) ∨
        (0 ≤ e.edge.slotCost slot ∧ e.edge.exit slot ≠ q.endVertex ∧
          explore g (e.edge.exit slot) e slot (q.take e slot) = some q')) := by
  cases htop : q.que.top? with
  | none => simp [explorationRound, htop] at h
  | some pos =>
    obtain ⟨k, i, slot, rfl⟩ := exists_entry pos
    cases he : g.edges[i]? with
    | none => simp [explorationRound, htop, he] at h
    | some e =>
      rw [explorationRound_eq htop he] at h
      split at h
      · obtain ⟨rfl, rfl⟩ := Prod.mk.inj (LoopStep.next.inj h)
        exact ⟨k, i, slot, e, rfl, he, rfl, .inl ⟨‹_›, rfl⟩⟩
      · split at h
        · cases h
        · rename_i hcost hend
          split at h
          · rename_i hexp
            obtain ⟨rfl, rfl⟩ := Prod.mk.inj (LoopStep.next.inj h)
            exact ⟨k, i, slot, e, rfl, he, rfl, .inr ⟨not_lt.mp hcost, hend, hexp⟩⟩
          · cases h

/-- What the last round has done. -/
theorem explorationRound_done {c : Option EdgeInfo} {r : Option (TrspQuery × Option EdgeInfo)}
    (h : explorationRound g (q, c) = .done r) :
    (q.que.top? = none ∧ r = some (q, c)) ∨
    ∃ k i slot, q.que.top? = some (toLex (k, toLex (i, !slot))) ∧
      ((g.edges[i]? = none ∧ r = none) ∨ ∃ e, g.edges[i]? = some e ∧ 0 ≤ e.edge.slotCost slot ∧
        ((e.edge.exit slot = q.endVertex ∧ r = some (q.take e slot, some e)) ∨
          (e.edge.exit slot ≠ q.endVertex ∧
            explore g (e.edge.exit slot) e slot (q.take e slot) = none ∧ r = none))) := by
  cases htop : q.que.top? with
  | none =>
    simp only [explorationRound, htop] at h
    exact .inl ⟨rfl, (LoopStep.done.inj h).symm⟩
  | some pos =>
    obtain ⟨k, i, slot, rfl⟩ := exists_entry pos
    refine .inr ⟨k, i, slot, rfl, ?_⟩
    cases he : g.edges[i]? with
    | none =>
      simp only [explorationRound, htop, ofLex_toLex, he] at h
      exact .inl ⟨rfl, (LoopStep.done.inj h).symm⟩
    | some e =>
      rw [explorationRound_eq htop he] at h
      refine .inr ⟨e, rfl, ?_⟩
      split at h
      · cases h
      · rename_i hcost
        refine ⟨not_lt.mp hcost, ?_⟩
        split at h
        · exact .inl ⟨‹_›, (LoopStep.done.inj h).symm⟩
        · rename_i hend
          split at h
          · cases h
          · exact .inr ⟨hend, ‹_›, (LoopStep.done.inj h).symm⟩

/-- `relax` changes the predecessor of one traversal only, to the current one. -/
theorem relax_parent (q : TrspQuery) (curIdx index : Nat) (isStart : Bool) (edge : EdgeInfo)
    (slot : Slot) (cost : ℚ) (i : Nat) (slot' : Slot) :
    (((q.relax curIdx isStart index edge slot cost).parent i).eIdx slot' =
      (q.parent i).eIdx slot' ∧
    ((q.relax curIdx isStart index edge slot cost).parent i).vPos slot' =
      (q.parent i).vPos slot') ∨
    (i = edge.idx ∧ slot' = slot ∧
    ((q.relax curIdx isStart index edge slot cost).parent i).eIdx slot' = curIdx ∧
    ((q.relax curIdx isStart index edge slot cost).parent i).vPos slot' = some isStart) := by
  unfold TrspQuery.relax
  simp only
  split
  · by_cases hi : i = edge.idx
    · subst hi
      by_cases hs : slot' = slot
      · cases isStart <;> simp [addToQue, hs]
      · simp [addToQue, hs]
    · simp [addToQue, hi]
  · exact .inl ⟨rfl, rfl⟩

end TrspQuery

end PgRouting
