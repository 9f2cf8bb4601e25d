import PgRouting.Spec.TspCosts

/-!
# The dummy vertex

For a start and an end that are different `do_tsp` inserts the vertex 0, with edges of no
cost to both and infinite ones to all others, and afterwards rotates the tour so that the
0 comes second and deletes it. The weights between other vertices stay what they are. The
tour is always reversed, for the test that is to decide about it looks at the first row,
which is that of the start.

## Key results

- `insertDummy_spec`: the graph with the dummy vertex
- `startVidEndVidAreFixed_spec`: what becomes of the tour
-/

namespace PgRouting

open UndirectedHasCostBG

namespace Tsp

variable {boost : BoostTsp} {g g' : UndirectedHasCostBG} {u v x y d : Nat} {i j : Int}

/-! ## The graph -/

/-- `g'` is the graph `g` with more edges at the vertex `d`. -/
structure GrowsAt (d : Nat) (g g' : UndirectedHasCostBG) : Prop where
  vertices : g'.graph.vertices = g.graph.vertices
  ends : g'.EndsIn
  weights : ∀ x y, x ≠ d → y ≠ d → g'.weights x y = g.weights x y
  mem : ∀ x y w, w ∈ g.weights x y → w ∈ g'.weights x y

theorem GrowsAt.trans {g₁ g₂ g₃ : UndirectedHasCostBG} (h₁ : GrowsAt d g₁ g₂)
    (h₂ : GrowsAt d g₂ g₃) : GrowsAt d g₁ g₃ :=
  ⟨h₂.vertices.trans h₁.vertices, h₂.ends,
    fun x y hx hy => (h₂.weights x y hx hy).trans (h₁.weights x y hx hy),
    fun x y w hw => h₂.mem x y w (h₁.mem x y w hw)⟩

theorem GrowsAt.addEdge (hg : g.EndsIn) (hu : u < g.graph.numVertices)
    (hd : d < g.graph.numVertices) (w : Weight) : GrowsAt d g (g.addEdge u d w) := by
  refine ⟨rfl, hg.addEdge hu hd w, fun x y hx hy => ?_, fun x y w' hw => ?_⟩
  · rw [weights_addEdge, if_neg, List.append_nil]
    rintro (⟨_, h⟩ | ⟨h, _⟩)
    · exact hy h
    · exact hx h
  · rw [weights_addEdge]
    exact List.mem_append_left _ hw

theorem mem_weights_addEdge (g : UndirectedHasCostBG) (u d : Nat) (w : Weight) :
    w ∈ (g.addEdge u d w).weights u d := by
  rw [weights_addEdge, if_pos (.inl ⟨rfl, rfl⟩)]
  exact List.mem_append_right _ (List.mem_singleton_self w)

/-- The loop over all vertices. -/
theorem foldl_infinite (l : List Nat) : ∀ g : UndirectedHasCostBG, g.EndsIn →
    d < g.graph.numVertices → (∀ v1 ∈ l, v1 < g.graph.numVertices) →
    let g' := l.foldl (fun g v1 => if v1 = u ∨ v1 = v then g else g.addEdge v1 d ⊤) g
    GrowsAt d g g' ∧ ∀ v1 ∈ l, ¬ (v1 = u ∨ v1 = v) → ⊤ ∈ g'.weights v1 d := by
  induction l with
  | nil => exact fun g hg _ _ => ⟨⟨rfl, hg, fun _ _ _ _ => rfl, fun _ _ _ hw => hw⟩, by simp⟩
  | cons v1 l ih =>
    intro g hg hd hlt
    have hlt' := fun x hx => hlt x (List.mem_cons_of_mem v1 hx)
    rw [List.foldl_cons]
    by_cases hv1 : v1 = u ∨ v1 = v
    · rw [if_pos hv1]
      obtain ⟨hgrows, hmem⟩ := ih g hg hd hlt'
      refine ⟨hgrows, fun x hx hxuv => ?_⟩
      obtain rfl | hx := List.mem_cons.mp hx
      · exact absurd hv1 hxuv
      · exact hmem x hx hxuv
    · rw [if_neg hv1]
      have hone := GrowsAt.addEdge hg (hlt v1 List.mem_cons_self) hd ⊤
      obtain ⟨hgrows, hmem⟩ := ih (g.addEdge v1 d ⊤) hone.ends hd hlt'
      refine ⟨hone.trans hgrows, fun x hx hxuv => ?_⟩
      obtain rfl | hx := List.mem_cons.mp hx
      · exact hgrows.mem _ _ _ (mem_weights_addEdge g x d ⊤)
      · exact hmem x hx hxuv

theorem insertVertex_vertices (g : UndirectedHasCostBG) (id : Int) :
    (g.insertVertex id).graph.vertices =
        g.graph.vertices ++ (if id ∈ g.graph.vertices then [] else [id]) ∧
      (g.insertVertex id).graph.edges = g.graph.edges := by
  rw [insertVertex]
  split
  · exact ⟨(List.append_nil _).symm, rfl⟩
  · exact ⟨rfl, rfl⟩

/-- The graph with the dummy vertex: the position of every id stays, the weights between other
    vertices as well, and the dummy vertex has an edge to every vertex. -/
structure Dummy (g g' : UndirectedHasCostBG) (u v d : Nat) : Prop where
  vertices : g'.graph.vertices =
    g.graph.vertices ++ (if (0 : Int) ∈ g.graph.vertices then [] else [0])
  dummy : g'.graph.vertices[d]? = some 0
  ends : g'.EndsIn
  weights : ∀ x y, x ≠ d → y ≠ d → g'.weights x y = g.weights x y
  mem : ∀ x y w, w ∈ g.weights x y → w ∈ g'.weights x y
  start : (0 : Weight) ∈ g'.weights u d
  finish : (0 : Weight) ∈ g'.weights v d
  others : ∀ x < g'.graph.numVertices, g'.weights x d ≠ []

theorem insertDummy_spec (hg : g.EndsIn) (hu : u < g.graph.numVertices)
    (hv : v < g.graph.numVertices) :
    Dummy g (insertDummy g u v) u v ((insertDummy g u v).graph.vertices.idxOf 0) := by
  obtain ⟨hvertices, hedges⟩ := insertVertex_vertices g 0
  set g₀ := g.insertVertex 0 with hg₀
  have hle : g.graph.numVertices ≤ g₀.graph.numVertices := by
    rw [AdjacencyList.numVertices, AdjacencyList.numVertices, hvertices, List.length_append]
    omega
  -- The new vertex changes no weight.
  have hweights : ∀ x y, g₀.weights x y = g.weights x y := by
    intro x y
    have hjoins : g₀.graph.joins x y = g.graph.joins x y := by
      funext e
      rw [Bool.eq_iff_iff, AdjacencyList.joins_iff_ends g₀.undirected,
        AdjacencyList.joins_iff_ends g.undirected]
    rw [UndirectedHasCostBG.weights, UndirectedHasCostBG.weights, hedges, hjoins]
  have hends : g₀.EndsIn := by
    intro e he
    rw [hedges] at he
    exact ⟨(hg e he).1.trans_le hle, (hg e he).2.trans_le hle⟩
  have hzero : (0 : Int) ∈ g₀.graph.vertices := by
    rw [hvertices]
    split
    · rename_i h
      exact List.mem_append_left _ h
    · exact List.mem_append_right _ (List.mem_singleton_self 0)
  set d := g₀.graph.vertices.idxOf 0 with hd
  have hdlt : d < g₀.graph.numVertices := List.idxOf_lt_length_iff.mpr hzero
  have h₁ := GrowsAt.addEdge hends (hu.trans_le hle) hdlt 0
  have h₂ := GrowsAt.addEdge h₁.ends (hv.trans_le hle) hdlt 0
  obtain ⟨h₃, htop⟩ := foldl_infinite (u := u) (v := v)
    (List.range ((g₀.addEdge u d 0).addEdge v d 0).graph.numVertices)
    ((g₀.addEdge u d 0).addEdge v d 0) h₂.ends hdlt (fun v1 h => List.mem_range.mp h)
  -- All edges that are added have the dummy vertex as an end.
  have hgrows := (h₁.trans h₂).trans h₃
  set g' := insertDummy g u v with hg'
  have hgraph : GrowsAt d g₀ g' := hgrows
  have hstart : (0 : Weight) ∈ g'.weights u d :=
    h₃.mem _ _ _ (h₂.mem _ _ _ (mem_weights_addEdge g₀ u d 0))
  have hfinish : (0 : Weight) ∈ g'.weights v d :=
    h₃.mem _ _ _ (mem_weights_addEdge (g₀.addEdge u d 0) v d 0)
  rw [hgraph.vertices, ← hd]
  refine ⟨hgraph.vertices.trans hvertices, ?_, hgraph.ends, fun x y hx hy => ?_,
    fun x y w hw => ?_, hstart, hfinish, fun x hx => ?_⟩
  · rw [hgraph.vertices]
    exact getElem?_idxOf hzero
  · rw [hgraph.weights x y hx hy, hweights]
  · exact hgraph.mem x y w (hweights x y ▸ hw)
  · by_cases hxu : x = u
    · exact hxu ▸ List.ne_nil_of_mem hstart
    · by_cases hxv : x = v
      · exact hxv ▸ List.ne_nil_of_mem hfinish
      · have hx' : x < ((g₀.addEdge u d 0).addEdge v d 0).graph.numVertices := by
          rw [AdjacencyList.numVertices, hgraph.vertices] at hx
          exact hx
        exact List.ne_nil_of_mem (htop x (List.mem_range.mpr hx') (by simp [hxu, hxv]))

/-! ## The tour -/

/-- The rows before and after that of the 0 change places, which is deleted, and the tour is
    reversed. -/
theorem startVidEndVidAreFixed_spec {tour : List (Int × Weight)} {s endVid : Int} {a b : List Int}
    (htour : tour.map (·.1) = s :: (a ++ 0 :: b) ++ [s]) (hs : s ≠ 0) (ha : 0 ∉ a)
    (hne : s ≠ endVid) :
    ∃ rows, startVidEndVidAreFixed tour endVid = .ok rows ∧
      rows.map (·.1) = s :: (b ++ a).reverse ++ [s] := by
  obtain ⟨first, rest, rfl⟩ : ∃ first rest, tour = first :: rest := by
    cases tour with
    | nil => cases htour
    | cons first rest => exact ⟨first, rest, rfl⟩
  rw [List.map_cons, List.cons_append, List.cons.injEq] at htour
  obtain ⟨hfirst, hrest⟩ := htour
  -- The rows of `a`, of the 0, of `b` and the last one.
  obtain ⟨ra, rest', rfl, hra, hrest'⟩ := List.map_eq_append_iff.mp
    (hrest.trans (List.append_assoc a (0 :: b) [s]))
  obtain ⟨zero, rest'', rfl, hzero, hrest''⟩ := List.map_eq_cons_iff.mp hrest'
  obtain ⟨rb, rlast, rfl, hrb, hrlast⟩ := List.map_eq_append_iff.mp hrest''
  obtain ⟨last, rfl, hlast⟩ := List.map_eq_singleton_iff.mp hrlast
  have hwhere : (first :: (ra ++ zero :: (rb ++ [last]))).findIdx (fun row => row.1 = 0) =
      ra.length + 1 := by
    rw [List.findIdx_cons, decide_eq_false (hfirst ▸ hs), cond_false, List.findIdx_append]
    have hnone : ra.findIdx (fun row => row.1 = 0) = ra.length := by
      rw [List.findIdx_eq_length]
      intro row hrow
      apply decide_eq_false
      intro h0
      exact ha (hra ▸ h0 ▸ List.mem_map_of_mem hrow)
    rw [hnone, if_neg (lt_irrefl _), List.findIdx_cons, decide_eq_true hzero]
    simp
  have hinner : (ra ++ zero :: (rb ++ [last])).dropLast = ra ++ zero :: rb := by
    rw [← List.cons_append, ← List.append_assoc, List.dropLast_concat]
  have hlast? : (ra ++ zero :: (rb ++ [last])).getLast? = some last := by
    rw [← List.cons_append, ← List.append_assoc, List.getLast?_concat]
  refine ⟨(first :: (rb ++ ra ++ [last])).reverse, ?_, ?_⟩
  · simp only [startVidEndVidAreFixed]
    rw [hwhere, if_neg, hinner, hlast?, Nat.add_sub_cancel, List.drop_left, List.take_left]
    · have hhead : some first.1 ≠ some endVid := by
        rw [hfirst]
        exact fun h => hne (Option.some.inj h)
      exact congrArg Except.ok (if_pos hhead)
    · simp
  · rw [List.map_reverse, List.map_cons, List.map_append, List.map_append, hfirst, hra, hrb,
      List.map_singleton, hlast, List.reverse_cons, List.reverse_append, List.reverse_singleton]
    rfl

end Tsp

end PgRouting
