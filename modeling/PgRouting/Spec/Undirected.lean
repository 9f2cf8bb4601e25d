import PgRouting.Spec.ContractionGraph

/-!
# The edges of an undirected graph

The out edges of a vertex of an undirected graph to another one are the edges that join
the two, in their order, and so is what `boost::edge` finds.

## Key results

- `outEdges_filter_target`: the out edges to a vertex
- `edge_spec`: the edge that is found
- `parallelCount_eq_one`: when it is the only one
-/

namespace PgRouting

namespace AdjacencyList

variable {V E : Type} {g : AdjacencyList V E} {u v x y : Nat}

theorem joins_iff_ends (hd : g.directed = false) {e : BoostEdge E} :
    g.joins x y e = true ↔ e.source = x ∧ e.target = y ∨ e.source = y ∧ e.target = x := by
  rw [joins_iff]
  simp only [hd, true_and]

theorem joins_comm (hd : g.directed = false) : g.joins x y = g.joins y x := by
  funext e
  rw [Bool.eq_iff_iff, joins_iff_ends hd, joins_iff_ends hd, or_comm]

theorem adj_comm (hd : g.directed = false) : g.Adj x y ↔ g.Adj y x :=
  ⟨fun h => h.symm hd, fun h => h.symm hd⟩

/-- The pair is not `u` and `v`. -/
def Apart (u v x y : Nat) : Prop := ¬ (x = u ∧ y = v ∨ x = v ∧ y = u)

theorem apart_of_joins (hd : g.directed = false) (hapart : Apart u v x y) {e : BoostEdge E}
    (he : g.joins x y e = true) : ¬ g.joins u v e = true := by
  rw [joins_iff_ends hd] at he ⊢
  rw [Apart] at hapart
  omega

/-- The out edges to a vertex are the edges that join the two; a self-loop is seen twice. -/
theorem outEdges_filter_target (hd : g.directed = false) (u v : Nat) :
    ((g.outEdges u).filter fun e => e.target = v).map (·.bundle) =
      (g.edges.filter (g.joins u v)).flatMap fun e =>
        if u = v then [e.bundle, e.bundle] else [e.bundle] := by
  rw [outEdges]
  induction g.edges with
  | nil => rfl
  | cons e edges ih =>
    rw [List.flatMap_cons, List.filter_append, List.map_append, ih, List.filter_cons]
    simp only [hd, Bool.not_false, true_and]
    by_cases hj : g.joins u v e = true
    · rw [if_pos hj, List.flatMap_cons]
      congr 1
      obtain ⟨rfl, rfl⟩ | ⟨rfl, rfl⟩ := (joins_iff_ends hd).mp hj
      · by_cases huv : e.source = e.target
        · simp [huv, BoostEdge.flip]
        · simp [huv, Ne.symm huv]
      · by_cases huv : e.target = e.source
        · simp [huv, BoostEdge.flip]
        · simp [huv, Ne.symm huv, BoostEdge.flip]
    · rw [if_neg hj]
      rw [joins_iff_ends hd, not_or] at hj
      -- An edge that does not join the two gives nothing, seen from either end.
      have hnil : (((if e.source = u then [e] else []) ++
          (if e.target = u then [e.flip] else [])).filter fun e => e.target = v) = [] := by
        rw [List.filter_eq_nil_iff]
        intro x hx
        rw [List.mem_append] at hx
        obtain hx | hx := hx
        · split at hx
          · rename_i hs
            obtain rfl := List.mem_singleton.mp hx
            exact fun ht => hj.1 ⟨hs, of_decide_eq_true ht⟩
          · cases hx
        · split at hx
          · rename_i ht
            obtain rfl := List.mem_singleton.mp hx
            exact fun hs => hj.2 ⟨of_decide_eq_true hs, ht⟩
          · cases hx
      rw [hnil]
      rfl

/-- `boost::edge` finds the first edge that joins the vertices, and sees it from `u`. -/
theorem edge_spec (hd : g.directed = false) (u v : Nat) :
    (g.edges.filter (g.joins u v) = [] ∧ g.edge u v = none) ∨
    ∃ e rest, g.edges.filter (g.joins u v) = e :: rest ∧ g.edge u v = some ⟨u, v, e.bundle⟩ := by
  have hlist := outEdges_filter_target hd u v
  rw [edge, ← List.head?_filter]
  cases hjoin : g.edges.filter (g.joins u v) with
  | nil =>
    rw [hjoin, List.flatMap_nil, List.map_eq_nil_iff] at hlist
    exact .inl ⟨rfl, by rw [hlist]; rfl⟩
  | cons e rest =>
    refine .inr ⟨e, rest, rfl, ?_⟩
    rw [hjoin, List.flatMap_cons] at hlist
    cases hout : (g.outEdges u).filter fun e => e.target = v with
    | nil =>
      rw [hout] at hlist
      split at hlist <;> cases hlist
    | cons o out =>
      have ho : o ∈ (g.outEdges u).filter fun e => e.target = v := hout ▸ List.mem_cons_self
      rw [List.mem_filter, decide_eq_true_eq] at ho
      have hbundle : o.bundle = e.bundle := by
        rw [hout] at hlist
        split at hlist
        · exact List.head_eq_of_cons_eq hlist
        · exact List.head_eq_of_cons_eq hlist
      rw [List.head?_cons, ← hbundle, ← source_of_mem_outEdges ho.1, ← ho.2]

/-- There is one out edge when one edge joins two different vertices. -/
theorem parallelCount_eq_one (hd : g.directed = false) (u v : Nat) :
    ((g.outEdges u).filter fun e => e.target = v).length = 1 ↔
      u ≠ v ∧ (g.edges.filter (g.joins u v)).length = 1 := by
  have hlen := congrArg List.length (outEdges_filter_target hd u v)
  rw [List.length_map, List.length_flatMap] at hlen
  by_cases huv : u = v
  · simp only [if_pos huv, List.length_cons, List.length_nil, List.map_const',
      List.sum_replicate_nat] at hlen
    omega
  · simp only [if_neg huv, List.length_cons, List.length_nil, List.map_const',
      List.sum_replicate_nat] at hlen
    omega

end AdjacencyList

end PgRouting
