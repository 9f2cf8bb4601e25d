import PgRouting.Native.Dijkstra
import PgRouting.Spec.BaseGraph
import Mathlib.Data.List.Chain
import Mathlib.Data.List.Perm.Subperm
import Mathlib.Data.Rat.Cast.Order

/-!
# The paths of Dijkstra

What Boost documents about `dijkstra_shortest_paths` is stated for one call: the
predecessors of a goal that can be reached lead back to the source along a
shortest path, and a vertex that cannot be reached is its own predecessor. From
this `complete_path` reads the rows of a shortest path.

## Key results

- `TreePath.completePathLoop`: the loop of `complete_path` reads the predecessors back
- `dijkstraFrom_spec`: the path for one pair is empty or a shortest path
-/

namespace PgRouting

variable {V E : Type} [TVertex V] [TEdge E]

/-- `l` is the path from the source `s` to a vertex in the tree of the predecessors. -/
inductive TreePath {K : Type} [AddMonoid K] (A : Nat → Nat → K → Prop) (predecessors : Nat → Nat)
    (distances : Nat → WithTop K) (s : Nat) : List Nat → Nat → Prop
  | source : distances s = 0 → TreePath A predecessors distances s [s] s
  | step {l : List Nat} {u v : Nat} {w : K} : TreePath A predecessors distances s l u → v ∉ l →
      predecessors v = u → A u v w → distances v = distances u + w →
      TreePath A predecessors distances s (l ++ [v]) v

/-- What `boost::dijkstra_shortest_paths` does for the source `s` and the goals. -/
structure ShortestPaths.Documented (g : AdjacencyList V E) (s : Nat) (goals : List Nat)
    (r : ShortestPaths) : Prop where
  stopped : ∀ found, r.goalsFound = some found → ∀ v ∈ goals, v ∈ found
  source : r.predecessors s = s
  unreached : ∀ v, ¬ Reachable g.Arc s v → r.predecessors v = v
  tree : ∀ v ∈ goals, Reachable g.Arc s v →
    ∃ l, TreePath g.Arc r.predecessors r.distances s l v
  distance : ∀ v ∈ goals, ∀ d, Walk g.Arc s v d → r.distances v ≤ d

namespace TreePath

variable {K : Type} [AddMonoid K] {A B : Nat → Nat → K → Prop} {predecessors : Nat → Nat}
variable {distances : Nat → WithTop K} {s u v : Nat} {l : List Nat}

theorem nodup (h : TreePath A predecessors distances s l v) : l.Nodup := by
  induction h with
  | source => exact List.nodup_singleton s
  | step _ hv _ _ _ ih => exact List.nodup_append.mpr ⟨ih, List.nodup_singleton _, by
      rintro a ha b hb rfl
      exact hv (List.mem_singleton.mp hb ▸ ha)⟩

theorem source_mem (h : TreePath A predecessors distances s l v) : s ∈ l := by
  induction h with
  | source => exact List.mem_singleton.mpr rfl
  | step _ _ _ _ _ ih => exact List.mem_append_left _ ih

theorem mem (h : TreePath A predecessors distances s l v) : v ∈ l := by
  cases h with
  | source => exact List.mem_singleton.mpr rfl
  | step => simp

theorem mono (hAB : ∀ u v w, A u v w → B u v w) (h : TreePath A predecessors distances s l v) :
    TreePath B predecessors distances s l v := by
  induction h with
  | source hzero => exact .source hzero
  | step _ hv hp harc hd ih => exact .step ih hv hp (hAB _ _ _ harc) hd

/-- The path in the tree ends with its vertex. -/
theorem eq_snoc (h : TreePath A predecessors distances s l v) : ∃ l', l = l' ++ [v] := by
  cases h with
  | source => exact ⟨[], rfl⟩
  | step => exact ⟨_, rfl⟩

/-- The predecessor of a vertex on the path is on it too. -/
theorem pred_mem (h : TreePath A predecessors distances s l v) (hu : u ∈ l) (hus : u ≠ s) :
    predecessors u ∈ l := by
  induction h with
  | source => exact absurd (List.mem_singleton.mp hu) hus
  | step htree _ hp _ _ ih =>
    obtain hu | hu := List.mem_append.mp hu
    · exact List.mem_append_left _ (ih hu)
    · obtain rfl := List.mem_singleton.mp hu
      exact List.mem_append_left _ (hp ▸ htree.mem)

/-- The path to its predecessor does not lead through a vertex. -/
theorem not_mem_of_pred (h : TreePath A predecessors distances s l (predecessors v))
    (hne : v ≠ s) : v ∉ l := by
  intro hmem
  generalize hp : predecessors v = p at h
  cases h with
  | source => exact hne (List.mem_singleton.mp hmem)
  | step htree hnot hu _ _ =>
    obtain hmem | hmem := List.mem_append.mp hmem
    · exact hnot (hp ▸ htree.pred_mem hmem hne)
    · obtain rfl := List.mem_singleton.mp hmem
      obtain rfl := hu.symm.trans hp
      exact hnot htree.mem

/-- The distance of a vertex on the path is the weight of the path. -/
theorem walk (h : TreePath A predecessors distances s l v) :
    ∃ d : K, distances v = d ∧ Walk A s v d := by
  induction h with
  | source h => exact ⟨0, h, .nil s⟩
  | step _ _ _ harc hd ih =>
    obtain ⟨d, hu, hw⟩ := ih
    exact ⟨_, by rw [hd, hu, WithTop.coe_add], hw.snoc harc⟩

end TreePath

namespace PgrBaseGraph

section EdgeId

variable {K : Type} [Field K] [LinearOrder K] [IsStrictOrderedRing K] {u v : Nat} {w : ℚ}

/-- The first edge with the exact weight is found before the cheapest one is asked for. -/
theorem getEdgeIdLoop_eq {l : List (BoostEdge E)} {e : BoostEdge E}
    (h : l.find? (fun e => u = e.source ∧ v = e.target ∧ w = TEdge.cost e.bundle) = some e) :
    ∀ minCost minEdge,
      getEdgeIdLoop u v (w : K) l minCost minEdge = (TEdge.id e.bundle, (w : K)) := by
  induction l with
  | nil => cases h
  | cons x l ih =>
    intro minCost minEdge
    simp only [getEdgeIdLoop, Rat.cast_inj]
    by_cases hx : u = x.source ∧ v = x.target ∧ w = TEdge.cost x.bundle
    · rw [List.find?_cons_of_pos (by simpa using hx)] at h
      rw [if_pos hx, Option.some.inj h]
    · rw [List.find?_cons_of_neg (by simpa using hx)] at h
      rw [if_neg hx]
      split
      · exact ih h _ _
      · exact ih h _ _

omit [TVertex V] in
/-- `get_edge_id` finds the first edge that an arc comes from, over any field of costs. -/
theorem getEdgeId_first (K : Type) [Field K] [LinearOrder K] [IsStrictOrderedRing K]
    {g : PgrBaseGraph V E} (h : g.graph.Arc u v w) :
    ∃ e ∈ g.graph.outEdges u, e.target = v ∧ TEdge.cost e.bundle = w ∧
      g.getEdgeId u v w = (TEdge.id e.bundle, w) ∧
      g.getEdgeId u v (w : K) = (TEdge.id e.bundle, (w : K)) := by
  obtain ⟨e, hmem, ht, hc⟩ := h
  have hsome : ((g.graph.outEdges u).find? fun e =>
      u = e.source ∧ v = e.target ∧ w = TEdge.cost e.bundle).isSome := by
    rw [List.find?_isSome]
    exact ⟨e, hmem, by simp [AdjacencyList.source_of_mem_outEdges hmem, ht, hc]⟩
  obtain ⟨e', he'⟩ := Option.isSome_iff_exists.mp hsome
  obtain ⟨_, ht', hc'⟩ : u = e'.source ∧ v = e'.target ∧ w = TEdge.cost e'.bundle := by
    simpa using List.find?_some he'
  have hq := getEdgeIdLoop_eq (K := ℚ) he' ⊤ (-1)
  rw [Rat.cast_id] at hq
  exact ⟨e', List.mem_of_find?_eq_some he', ht'.symm, hc'.symm, hq, getEdgeIdLoop_eq he' ⊤ (-1)⟩

omit [TVertex V] in
/-- `get_edge_id` finds an edge that an arc comes from. -/
theorem getEdgeId_arc {g : PgrBaseGraph V E} (h : g.graph.Arc u v w) :
    ∃ e ∈ g.graph.outEdges u, e.target = v ∧ TEdge.cost e.bundle = w ∧
      g.getEdgeId u v w = (TEdge.id e.bundle, w) := by
  obtain ⟨e, he, ht, hc, hid, _⟩ := getEdgeId_first ℚ h
  exact ⟨e, he, ht, hc, hid⟩

end EdgeId

/-- Arcs join vertices of the graph. -/
theorem Consistent.arc_lt {g : PgrBaseGraph V E} (hg : g.Consistent) {u v : Nat} {w : ℚ}
    (h : g.graph.Arc u v w) : u < g.graph.vertices.length ∧ v < g.graph.vertices.length := by
  obtain ⟨e, hmem, _, ⟨rfl, rfl⟩ | ⟨_, rfl, rfl⟩⟩ := AdjacencyList.arc_iff.mp h
  · exact hg.ends e hmem
  · exact (hg.ends e hmem).symm

end PgrBaseGraph

namespace Path

variable (g : PgrBaseGraph V E)

/-- The rows of a path along the vertices, without the one at its end. -/
def treeRows (distances : Nat → WithTop ℚ) : List Nat → List PathT
  | [] => []
  | [_] => []
  | u :: v :: rest =>
    let w := (distances v).untopD 0 - (distances u).untopD 0
    ⟨g.vertexId u, (g.getEdgeId u v w).1, w, (distances u).untopD 0⟩ ::
      treeRows distances (v :: rest)

variable {g}

theorem treeRows_snoc {distances : Nat → WithTop ℚ} {l : List Nat} {u v : Nat} :
    treeRows g distances (l ++ [u] ++ [v]) = treeRows g distances (l ++ [u]) ++
      [⟨g.vertexId u, (g.getEdgeId u v ((distances v).untopD 0 - (distances u).untopD 0)).1,
        (distances v).untopD 0 - (distances u).untopD 0, (distances u).untopD 0⟩] := by
  induction l with
  | nil => rfl
  | cons a l ih =>
    cases l with
    | nil => rfl
    | cons b l =>
      simp only [List.cons_append, treeRows] at ih ⊢
      rw [ih]

end Path

namespace TreePath

variable {g : AdjacencyList V E} {predecessors : Nat → Nat}
variable {distances : Nat → WithTop ℚ} {s b : Nat} {l : List Nat}

omit [TVertex V] in
/-- The path in the tree leads along an arc to each of its vertices. -/
theorem chain
    (h : TreePath g.Arc predecessors distances s l b) :
    l.IsChain fun u v => u ≠ v ∧
      g.Arc u v ((distances v).untopD 0 - (distances u).untopD 0) := by
  induction h with
  | source => exact List.isChain_singleton s
  | @step l u v w htree hv _ harc hd ih =>
    obtain ⟨l', rfl⟩ := htree.eq_snoc
    obtain ⟨du, hdu, _⟩ := htree.walk
    have hw : (distances v).untopD 0 - (distances u).untopD 0 = w := by
      rw [hd, hdu, ← WithTop.coe_add, WithTop.untopD_coe, WithTop.untopD_coe, add_sub_cancel_left]
    rw [List.isChain_append]
    refine ⟨ih, List.isChain_singleton v, fun x hx y hy => ?_⟩
    obtain rfl : u = x := by simpa using hx
    obtain rfl : v = y := by simpa using hy
    exact ⟨fun huv => hv (huv ▸ htree.mem), hw.symm ▸ harc⟩

end TreePath

namespace Path

/-- The rows of a path along arcs have its vertices, and each stands for an out edge that leads to
    the next one. -/
theorem treeRows_along {g : PgrBaseGraph V E} {distances : Nat → WithTop ℚ} {b : Nat}
    (l : List Nat) (agg : ℚ) (hl : l.getLast? = some b)
    (hchain : l.IsChain fun u v => u ≠ v ∧
      g.graph.Arc u v ((distances v).untopD 0 - (distances u).untopD 0)) :
    let rows := treeRows g distances l ++ [⟨g.vertexId b, -1, 0, agg⟩]
    rows.map (·.node) = l.map g.vertexId ∧
    rows.IsChain fun x y => ∃ u, ∃ e ∈ g.graph.outEdges u, x.node = g.vertexId u ∧
      x.edge = TEdge.id e.bundle ∧ y.node = g.vertexId e.target ∧ x.cost = TEdge.cost e.bundle := by
  induction l with
  | nil => cases hl
  | cons u l ih =>
    cases l with
    | nil =>
      obtain rfl : u = b := by simpa using hl
      exact ⟨rfl, List.isChain_singleton _⟩
    | cons v l =>
      rw [List.isChain_cons_cons] at hchain
      obtain ⟨⟨_, harc⟩, hchain⟩ := hchain
      obtain ⟨hnodes, hrest⟩ := ih (by simpa using hl) hchain
      obtain ⟨e, he, ht, hc, hid⟩ := PgrBaseGraph.getEdgeId_arc harc
      refine ⟨congrArg (g.vertexId u :: ·) hnodes, ?_⟩
      rw [treeRows, List.cons_append, List.isChain_cons]
      refine ⟨fun y hy => ⟨u, e, he, rfl, congrArg Prod.fst hid, ?_, hc.symm⟩, hrest⟩
      have hhead := congrArg List.head? hnodes
      rw [List.head?_map, hy] at hhead
      rw [ht]
      exact Option.some.inj hhead

end Path

namespace TreePath

variable {g : PgrBaseGraph V E} {predecessors : Nat → Nat} {distances : Nat → WithTop ℚ}
variable {s v : Nat} {l : List Nat}

/-- The costs of the rows are the distance. -/
theorem treeRows_cost (h : TreePath g.graph.Arc predecessors distances s l v) :
    ((Path.treeRows g distances l).map (·.cost)).sum = (distances v).untopD 0 := by
  induction h with
  | source h =>
    rw [h]
    rfl
  | @step l u v w htree _ _ _ _ ih =>
    obtain ⟨l', rfl⟩ := htree.eq_snoc
    rw [Path.treeRows_snoc, List.map_append, List.sum_append, ih]
    simp

omit [TVertex V] in
theorem head?_eq (h : TreePath g.graph.Arc predecessors distances s l v) : l.head? = some s := by
  induction h with
  | source => rfl
  | step htree _ _ _ _ ih =>
    rw [List.head?_append_of_ne_nil _ (List.ne_nil_of_mem htree.mem)]
    exact ih

/-- The loop of `complete_path` pushes the rows of the path in the tree. -/
theorem completePathLoop (h : TreePath g.graph.Arc predecessors distances s l v) {n : Nat}
    (hn : l.length ≤ n) (p : Path) :
    ∃ d : ℚ, distances v = d ∧
      Path.completePathLoop g s predecessors distances true n v p =
        some { p with
          path := Path.treeRows g distances l ++ p.path
          totCost := p.totCost + d } := by
  induction h generalizing n p with
  | source h =>
    obtain ⟨n, rfl⟩ : ∃ k, n = k + 1 := ⟨n - 1, by simp only [List.length_singleton] at hn; omega⟩
    exact ⟨0, h, by simp [Path.completePathLoop, Path.treeRows]⟩
  | @step l u v w htree hv hpred harc hd ih =>
    obtain ⟨n, rfl⟩ : ∃ k, n = k + 1 := ⟨n - 1, by simp at hn; omega⟩
    have hvs : v ≠ s := fun h => hv (h ▸ htree.source_mem)
    have hvu : v ≠ u := fun h => hv (h ▸ htree.mem)
    obtain ⟨du, hdu, _⟩ := htree.walk
    have hdv : distances v = ((du + w : ℚ) : WithTop ℚ) := by rw [hd, hdu, WithTop.coe_add]
    have hw : (distances v).untopD 0 - (distances u).untopD 0 = w := by
      rw [hdv, hdu, WithTop.untopD_coe, WithTop.untopD_coe, add_sub_cancel_left]
    obtain ⟨e, _, _, _, hid⟩ := PgrBaseGraph.getEdgeId_arc harc
    obtain ⟨d, hd', hloop⟩ := ih (n := n) (by simp at hn; omega)
      (p.pushFront ⟨g.vertexId u, TEdge.id e.bundle, w, du⟩)
    obtain rfl : du = d := WithTop.coe_injective (hdu.symm.trans hd')
    obtain ⟨l', rfl⟩ := htree.eq_snoc
    refine ⟨du + w, hdv, ?_⟩
    have hagg : (distances v).untopD 0 - w = du := by
      rw [hdv, WithTop.untopD_coe, add_sub_cancel_right]
    rw [Path.completePathLoop, if_neg hvs, hpred, if_neg hvu]
    simp only [if_true, hw, hid, hagg]
    rw [hloop, Path.treeRows_snoc, hw, hid, hdu, WithTop.untopD_coe]
    simp [Path.pushFront, add_assoc, add_comm w du]

omit [TVertex V] in
/-- The path in the tree is a sequence of vertices of the graph. -/
theorem lt (hends : ∀ e ∈ g.graph.edges, e.source < g.graph.vertices.length ∧
    e.target < g.graph.vertices.length) (h : TreePath g.graph.Arc predecessors distances s l v)
    (hs : s < g.graph.vertices.length) : ∀ u ∈ l, u < g.graph.vertices.length := by
  induction h with
  | source => simpa using hs
  | step _ _ _ harc _ ih =>
    intro x hx
    obtain hx | hx := List.mem_append.mp hx
    · exact ih x hx
    · obtain rfl := List.mem_singleton.mp hx
      obtain ⟨e, hmem, _, ⟨rfl, rfl⟩ | ⟨_, rfl, rfl⟩⟩ := AdjacencyList.arc_iff.mp harc
      · exact (hends e hmem).2
      · exact (hends e hmem).1

end TreePath

namespace Algorithms

variable {boost : BoostDijkstra V E} {g : PgrBaseGraph V E} {a b : Nat} {s t : Int}

/-- The rows and the cost of a path along the vertices `l`. -/
def pathAlong (g : PgrBaseGraph V E) (distances : Nat → WithTop ℚ) (s t : Int) (l : List Nat)
    (b : Nat) : Path :=
  ⟨Path.treeRows g distances l ++ [⟨t, -1, 0, (distances b).untopD 0⟩], s, t,
    (distances b).untopD 0⟩

/-- `complete_path` leaves the path empty when the ends are equal or there is no walk, and reads a
    shortest path otherwise. -/
theorem completePath_spec (hg : g.Consistent) (hs : g.verticesMap s = some a)
    (ht : g.verticesMap t = some b) {r : ShortestPaths} (hr : r.Documented g.graph a [b]) :
    ((a = b ∨ ¬ Reachable g.graph.Arc a b) ∧
      Path.completePath g a b r.predecessors r.distances true (.new s t) = some (.new s t)) ∨
    (a ≠ b ∧ ∃ l, TreePath g.graph.Arc r.predecessors r.distances a l b ∧
      (∀ d, Walk g.graph.Arc a b d → r.distances b ≤ d) ∧
      Path.completePath g a b r.predecessors r.distances true (.new s t) =
        some (pathAlong g r.distances s t l b)) := by
  by_cases hreach : a ≠ b ∧ Reachable g.graph.Arc a b
  · obtain ⟨hne, hreach⟩ := hreach
    obtain ⟨l, htree⟩ := hr.tree b (List.mem_singleton.mpr rfl) hreach
    refine .inr ⟨hne, l, htree, fun d hd => hr.distance b (List.mem_singleton.mpr rfl) d hd, ?_⟩
    -- The vertices of the path are distinct, so the fuel of the loop is enough.
    have hlen : l.length ≤ g.graph.numVertices + 1 := by
      have hsub : l ⊆ List.range g.graph.vertices.length := fun u hu =>
        List.mem_range.mpr (htree.lt hg.ends (hg.lt hs) u hu)
      have := (htree.nodup.subperm hsub).length_le
      rw [List.length_range] at this
      exact this.trans (Nat.le_succ _)
    have hfar : b ≠ r.predecessors b := by
      cases htree with
      | source => exact absurd rfl hne
      | step htree hv hp _ _ => exact fun h => hv (h ▸ hp ▸ htree.mem)
    obtain ⟨d, hd, hloop⟩ := htree.completePathLoop hlen
      ((Path.new s t).pushFront ⟨g.vertexId b, -1, 0, (r.distances b).untopD 0⟩)
    rw [Path.completePath, if_neg hfar, hloop, pathAlong, hg.vertexId_eq ht, hd]
    simp [Path.pushFront, Path.new]
  · refine .inl ⟨?_, ?_⟩
    · by_cases h : a = b
      · exact .inl h
      · exact .inr fun hr => hreach ⟨h, hr⟩
    · have hself : b = r.predecessors b := by
        by_cases h : a = b
        · rw [← h, hr.source]
        · exact (hr.unreached b fun hr => hreach ⟨h, hr⟩).symm
      rw [Path.completePath, if_pos hself]

/-- The path from one vertex to another is empty when they are equal or there is no walk, and
    else a shortest path. -/
theorem dijkstraFrom_spec (hg : g.Consistent) (hs : g.verticesMap s = some a)
    (ht : g.verticesMap t = some b) (hboost : (boost g.graph a [b]).Documented g.graph a [b]) :
    ((a = b ∨ ¬ Reachable g.graph.Arc a b) ∧
      dijkstraFrom boost g s [t] false = some [.new s t]) ∨
    (a ≠ b ∧ ∃ l, TreePath g.graph.Arc (boost g.graph a [b]).predecessors
        (boost g.graph a [b]).distances a l b ∧
      (∀ d, Walk g.graph.Arc a b d → (boost g.graph a [b]).distances b ≤ d) ∧
      dijkstraFrom boost g s [t] false =
        some [pathAlong g (boost g.graph a [b]).distances s t l b]) := by
  -- Every goal has been found when the visitor stops the search.
  have hpred : dijkstra1ToMany boost g.graph a [b] =
      ((boost g.graph a [b]).predecessors, (boost g.graph a [b]).distances) := by
    rw [dijkstra1ToMany]
    cases hfound : (boost g.graph a [b]).goalsFound with
    | none => rfl
    | some found =>
      have hno : ∀ v, ¬ (v ∈ [b] ∧ v ∉ found) := fun v h =>
        h.2 (hboost.stopped found hfound v h.1)
      simp only [hno, if_false]
  have hone : ([b].dedup.mergeSort fun a b => decide (a ≤ b)) = [b] := by
    rw [List.dedup_eq_self.mpr (List.nodup_singleton b), List.mergeSort_singleton]
  have hrun : dijkstraFrom boost g s [t] false = (Path.completePath g a b
      (boost g.graph a [b]).predecessors (boost g.graph a [b]).distances true (.new s t)).map
        fun p => [p] := by
    simp only [dijkstraFrom, hs, List.filterMap_cons, ht, List.filterMap_nil,
      hone, hpred, List.mapM_cons, List.mapM_nil,
      Path.ofPredecessors, hg.vertexId_eq hs, hg.vertexId_eq ht]
    rw [Option.map_eq_bind, Bool.not_false, if_pos rfl]
    rfl
  rw [hrun]
  obtain ⟨hnone, hpath⟩ | ⟨hne, l, htree, hmin, hpath⟩ := completePath_spec hg hs ht hboost
  · rw [hpath]
    exact .inl ⟨hnone, rfl⟩
  · rw [hpath]
    exact .inr ⟨hne, l, htree, hmin, rfl⟩

end Algorithms

end PgRouting
