import PgRouting.Lib.Loop
import PgRouting.Native.BaseGraph
import PgRouting.Native.Path
import Mathlib.Algebra.Order.Monoid.WithTop

/-!
# Searches with a queue of vertices

`Pgr_binaryBreadthFirstSearch` and `Pgr_edwardMoore` are one search: it takes a vertex from a
queue and improves the costs of the vertices behind its edges, which go into the queue. They
differ in the queue alone.

A cost of `⊤` is infinity. An edge descriptor that no edge has been assigned to is `none`. The
pairs that the paths are sorted by are different, so the order does not depend on the sort.
-/

namespace PgRouting

/-- A queue of vertices. -/
structure VertexQueue (Q : Type) where
  /-- The vertices, the next one first. -/
  items : Q → List Nat
  start : Nat → Q
  push : Q → Nat → ℚ → Q
  pop : Q → Option (Nat × Q)
  items_start : ∀ v, items (start v) = [v]
  mem_push : ∀ q v c y, y ∈ items (push q v c) ↔ y ∈ items q ∨ y = v
  pop_none : ∀ q, pop q = none → items q = []
  pop_some : ∀ q v q', pop q = some (v, q') → items q = v :: items q'

namespace PgrBinaryBreadthFirstSearch

/-- The deque of `Pgr_binaryBreadthFirstSearch`: behind an edge of cost zero a vertex goes to its
    front. -/
def dq : VertexQueue (List Nat) where
  items q := q
  start v := [v]
  push q v edgeCost := if edgeCost ≠ 0 then q ++ [v] else v :: q
  pop
    | [] => none
    | v :: q => some (v, q)
  items_start _ := rfl
  mem_push q v c y := by
    split
    · simp
    · simp [or_comm]
  pop_none q h := by
    cases q with
    | nil => rfl
    | cons v q => cases h
  pop_some q v q' h := by
    cases q with
    | nil => cases h
    | cons x q =>
      cases h
      rfl

end PgrBinaryBreadthFirstSearch

namespace PgrEdwardMoore

/-- `dq` and `isInQ` -/
structure Deque where
  dq : List Nat
  isInQ : Nat → Bool
  queued : ∀ v, isInQ v = true → v ∈ dq

/-- The deque of `Pgr_edwardMoore`: a vertex that is in it does not go into it once more. -/
def dq : VertexQueue Deque where
  items q := q.dq
  start v :=
    { dq := [v]
      isInQ := Function.update (fun _ => false) v true
      queued := fun y hy => by
        by_cases heq : y = v
        · exact List.mem_singleton.mpr heq
        · rw [Function.update_of_ne heq] at hy
          cases hy }
  push q v _ :=
    if q.isInQ v = true then q
    else
      { dq := q.dq ++ [v]
        isInQ := Function.update q.isInQ v true
        queued := fun y hy => by
          by_cases heq : y = v
          · exact List.mem_append_right _ (List.mem_singleton.mpr heq)
          · rw [Function.update_of_ne heq] at hy
            exact List.mem_append_left _ (q.queued y hy) }
  pop
    | ⟨[], _, _⟩ => none
    | ⟨v :: rest, isInQ, queued⟩ =>
      some (v,
        { dq := rest
          isInQ := Function.update isInQ v false
          queued := fun y hy => by
            by_cases heq : y = v
            · rw [heq, Function.update_self] at hy
              cases hy
            · rw [Function.update_of_ne heq] at hy
              exact (List.mem_cons.mp (queued y hy)).resolve_left heq })
  items_start _ := rfl
  mem_push q v c y := by
    split
    · rename_i hv
      refine ⟨.inl, fun h => ?_⟩
      obtain h | rfl := h
      · exact h
      · exact q.queued y hv
    · simp
  pop_none q h := by
    obtain ⟨items, _, _⟩ := q
    cases items with
    | nil => rfl
    | cons v rest => cases h
  pop_some q v q' h := by
    obtain ⟨items, _, _⟩ := q
    cases items with
    | nil => cases h
    | cons x rest =>
      cases h
      rfl

end PgrEdwardMoore

namespace QueueSearch

variable {V E Q : Type} [TVertex V] [TEdge E] (K : VertexQueue Q)

/-- The variables of `one_to_many_binaryBreadthFirstSearch` and `one_to_many_edwardMoore`. -/
structure State (E Q : Type) where
  currentCost : Nat → WithTop ℚ
  fromEdge : Nat → Option (BoostEdge E)
  dq : Q

/-- The body of the loop of `updateVertexCosts`. -/
def updateVertexCost (s : State E Q) (e : BoostEdge E) : State E Q :=
  let edgeCost := TEdge.cost e.bundle
  if s.currentCost e.target = ⊤ ∨ s.currentCost e.source + edgeCost < s.currentCost e.target then
    { currentCost := Function.update s.currentCost e.target (s.currentCost e.source + edgeCost)
      fromEdge := Function.update s.fromEdge e.target (some e)
      dq := K.push s.dq e.target edgeCost }
  else s

/-- `updateVertexCosts` -/
def updateVertexCosts (g : AdjacencyList V E) (s : State E Q) (headVertex : Nat) : State E Q :=
  (g.outEdges headVertex).foldl (updateVertexCost K) s

/-- One round of the loop over the deque. -/
def round (g : AdjacencyList V E) (s : State E Q) : LoopStep (State E Q) (State E Q) :=
  match K.pop s.dq with
  | none => .done s
  | some (headVertex, dq) => .next (updateVertexCosts K g { s with dq := dq } headVertex)

/-- The variables before the loop. -/
def start (bglStartVertex : Nat) : State E Q where
  currentCost := Function.update (fun _ => ⊤) bglStartVertex 0
  fromEdge _ := none
  dq := K.start bglStartVertex

end QueueSearch

variable {V E : Type} [TVertex V] [TEdge E]

end PgRouting
