import PgRouting.Spec.TspGraph
import Mathlib.Tactic.Linarith
import Mathlib.Tactic.Ring

/-!
# The costs of a tour

`get_min_cost` takes the weight of an edge between the two vertices. When there is none it
follows the predecessors back and adds up the distances of the vertices it comes to, not
the weights of the edges: an edge is counted once for every edge after it, and the last
one not at all. `eval_tour` puts these costs into the rows, and
`crossover_optimize` keeps the first row and the last ones, and a tour only for another
that costs less.

## Key results

- `minCostLoop_eq`: the sum of the distances along the path
- `ledBack_of_treePath`: the sum in the weights of the edges
- `evalRows_spec`: the costs of the rows
- `crossoverOptimize_spec`: what becomes of a tour
-/

namespace PgRouting

open UndirectedHasCostBG

namespace Tsp

variable {boost : BoostTsp} {g : UndirectedHasCostBG} {u v : Nat} {i j : Int}

/-! ## The cost between two vertices -/

/-- What `boost::dijkstra_shortest_paths` does until the goal is found: the predecessors lead back
    from the goal to the source along a path whose length is its distance. -/
structure FindsGoal (A : Nat → Nat → ℚ → Prop) (u v : Nat) (r : ShortestPaths) : Prop where
  found : r.goalsFound = some [v]
  tree : ∃ l, TreePath A r.predecessors r.distances u l v
  distance : ∀ d, Walk A u v d → r.distances v ≤ d

/-- The last vertex of the path is the goal. -/
theorem treePath_snoc {A : Nat → Nat → ℚ → Prop} {r : ShortestPaths} {l : List Nat}
    (h : TreePath A r.predecessors r.distances u l v) : l = l.dropLast ++ [v] := by
  cases h with
  | source => rfl
  | step => rw [List.dropLast_concat]

/-- The loop adds up the distances of the vertices before the goal. -/
theorem minCostLoop_eq {A : Nat → Nat → ℚ → Prop} {r : ShortestPaths} {l : List Nat}
    (h : TreePath A r.predecessors r.distances u l v) :
    ∀ (fuel : Nat) (aggCost : Weight), l.length ≤ fuel + 1 →
      minCostLoop r u fuel v aggCost =
        .ok (aggCost + (l.dropLast.map r.distances).sum) := by
  induction h with
  | source =>
    intro fuel aggCost _
    have hsum : aggCost + (([u].dropLast).map r.distances).sum = aggCost := add_zero aggCost
    rw [hsum]
    cases fuel with
    | zero => rw [minCostLoop, if_pos rfl]
    | succ fuel => rw [minCostLoop, if_pos rfl]
  | @step l p v w htree hv hp _ _ ih =>
    intro fuel aggCost hlen
    rw [List.length_append, List.length_singleton] at hlen
    have hpos : 0 < l.length := List.length_pos_of_mem htree.mem
    obtain ⟨fuel, rfl⟩ : ∃ n, fuel = n + 1 := ⟨fuel - 1, by omega⟩
    have hne : v ≠ u := fun h => hv (h ▸ htree.source_mem)
    rw [minCostLoop, if_neg hne, hp, ih fuel _ (by omega), List.dropLast_concat]
    -- The vertex before the goal comes first in the sum.
    have hsum : (l.map r.distances).sum = r.distances p + (l.dropLast.map r.distances).sum := by
      have hl := treePath_snoc htree
      rw [add_comm]
      conv_lhs => rw [hl]
      rw [List.map_append, List.sum_append, List.map_singleton, List.sum_singleton]
    rw [hsum, add_assoc]

/-- The predecessors lead back from a vertex to `u`, along edges of these weights; of parallel edges
    the lightest ones count. -/
inductive LedBack (A : Nat → Nat → ℚ → Prop) (predecessors : Nat → Nat) (u : Nat) :
    List ℚ → Nat → Prop
  | source : LedBack A predecessors u [] u
  | step {ws : List ℚ} {p v : Nat} {w : ℚ} : LedBack A predecessors u ws p → v ≠ u →
      predecessors v = p → IsLeast {c | A p v c} w → LedBack A predecessors u (ws ++ [w]) v

/-- The weights without the last one, each as often as there are edges between it and the last. -/
def earlier : List ℚ → ℚ
  | [] => 0
  | w :: ws => ws.length * w + earlier ws

theorem earlier_snoc (ws : List ℚ) (w : ℚ) : earlier (ws ++ [w]) = earlier ws + ws.sum := by
  induction ws with
  | nil => simp [earlier]
  | cons x ws ih =>
    rw [List.cons_append, earlier, earlier, ih, List.length_append, List.length_singleton,
      List.sum_cons]
    push_cast
    ring

/-- There is one way back. -/
theorem LedBack.unique {A : Nat → Nat → ℚ → Prop} {predecessors : Nat → Nat} {ws ws' : List ℚ}
    (h : LedBack A predecessors u ws v) (h' : LedBack A predecessors u ws' v) : ws = ws' := by
  induction h generalizing ws' with
  | source =>
    cases h' with
    | source => rfl
    | step _ hne => exact absurd rfl hne
  | step _ hne hp hw ih =>
    cases h' with
    | source => exact absurd rfl hne
    | step hback _ hp' hw' =>
      obtain rfl := hp.symm.trans hp'
      rw [ih hback, hw.unique hw']

/-- A shortest path of the tree goes along lightest edges. The distances of its vertices before the
    last one count each edge once for every edge after it. -/
theorem ledBack_of_treePath {A : Nat → Nat → ℚ → Prop} {r : ShortestPaths} {l : List Nat}
    (h : TreePath A r.predecessors r.distances u l v)
    (hmin : ∀ d : ℚ, Walk A u v d → r.distances v ≤ d) :
    ∃ ws : List ℚ, LedBack A r.predecessors u ws v ∧ r.distances v = (ws.sum : ℚ) ∧
      (l.map r.distances).sum = (earlier ws + ws.sum : ℚ) := by
  induction h with
  | source h0 => exact ⟨[], .source, by rw [h0]; rfl, by simp [h0, earlier]⟩
  | @step l p v w htree hv hp harc hd ih =>
    obtain ⟨c, hc, hwalk⟩ := htree.walk
    -- What comes before is a shortest path, and the last edge is a lightest one.
    obtain ⟨ws, hback, hsum, hall⟩ := ih fun d hd' => by
      have hle := hmin _ (hd'.snoc harc)
      rw [hd, hc] at hle
      rw [hc]
      exact WithTop.coe_le_coe.mpr (by linarith [WithTop.coe_le_coe.mp hle])
    have hleast : IsLeast {c | A p v c} w := by
      refine ⟨harc, fun w' hw' => ?_⟩
      have hle := hmin _ (hwalk.snoc hw')
      rw [hd, hc] at hle
      linarith [WithTop.coe_le_coe.mp hle]
    have hne : v ≠ u := fun heq => hv (heq ▸ htree.source_mem)
    refine ⟨ws ++ [w], .step hback hne hp hleast, ?_, ?_⟩
    · rw [hd, hsum, List.sum_append, List.sum_singleton]
      rfl
    · rw [List.map_append, List.sum_append, hall, List.map_singleton, List.sum_singleton, hd, hsum,
        earlier_snoc, List.sum_append, List.sum_singleton]
      norm_cast

/-- What the loop adds up for another vertex: the edges before the last one are counted too often,
    the last one is not. -/
theorem sum_of_treePath {A : Nat → Nat → ℚ → Prop} {r : ShortestPaths} {l : List Nat}
    (h : TreePath A r.predecessors r.distances u l v) (hne : u ≠ v)
    (hmin : ∀ d : ℚ, Walk A u v d → r.distances v ≤ d) :
    ∃ (ws : List ℚ) (w : ℚ), LedBack A r.predecessors u (ws ++ [w]) v ∧
      IsDist A u v (ws ++ [w]).sum ∧
      (l.dropLast.map r.distances).sum = (earlier ws + ws.sum : ℚ) := by
  obtain ⟨ws, hback, hsum, hall⟩ := ledBack_of_treePath h hmin
  obtain ⟨d, hd, hwalk⟩ := h.walk
  rw [hd] at hsum hmin
  obtain rfl := WithTop.coe_injective hsum
  cases hback with
  | source => exact absurd rfl hne
  | @step ws p _ w hback' hvu hp hw =>
    refine ⟨ws, w, .step hback' hvu hp hw,
      ⟨hwalk, fun c hc => WithTop.coe_le_coe.mp (hmin c hc)⟩, ?_⟩
    rw [treePath_snoc h, List.map_append, List.sum_append, List.map_singleton, List.sum_singleton,
      hd, earlier_snoc, List.sum_append, List.sum_singleton] at hall
    -- The last distance is the whole path.
    have hfin : (l.dropLast.map r.distances).sum + ((ws.sum + w : ℚ) : Weight) =
        ((earlier ws + ws.sum : ℚ) : Weight) + ((ws.sum + w : ℚ) : Weight) := by
      rw [hall]
      norm_cast
    exact (WithTop.add_right_inj WithTop.coe_ne_top).mp hfin

/-- A path in the graph has at most as many vertices as the graph. -/
theorem treePath_length_le (hends : g.EndsIn) {r : ShortestPaths} {l : List Nat}
    (hu : u < g.graph.numVertices) (h : TreePath g.WArc r.predecessors r.distances u l v) :
    l.length ≤ g.graph.numVertices + 1 := by
  have hlt : ∀ x ∈ l, x < g.graph.numVertices := by
    induction h with
    | source => simpa using hu
    | step _ _ _ harc _ ih =>
      intro x hx
      obtain hx | hx := List.mem_append.mp hx
      · exact ih x hx
      · rw [List.mem_singleton.mp hx]
        exact (hends.lt harc).2
  have hsub : l ⊆ List.range g.graph.numVertices := fun x hx => List.mem_range.mpr (hlt x hx)
  have hle := (h.nodup.subperm hsub).length_le
  rw [List.length_range] at hle
  omega

/-- With an edge the cost is its weight. -/
theorem getMinCost_edge {w : Weight} {rest : List Weight} (h : g.weights u v = w :: rest) :
    getMinCost boost g u v = .ok w := by
  have hedge := edge_eq g u v
  rw [h, List.head?_cons] at hedge
  obtain ⟨e, he, rfl⟩ := Option.map_eq_some_iff.mp hedge
  rw [getMinCost, he]

/-- Without an edge the cost is the sum of the distances before the goal. -/
theorem getMinCost_path (hends : g.EndsIn) (hu : u < g.graph.numVertices)
    (h : g.weights u v = []) {r : ShortestPaths}
    (hr : boost.dijkstraShortestPaths g.graph u v = r) (hfound : r.goalsFound = some [v])
    {l : List Nat} (htree : TreePath g.WArc r.predecessors r.distances u l v) :
    getMinCost boost g u v = .ok (l.dropLast.map r.distances).sum := by
  have hedge := edge_eq g u v
  rw [h, List.head?_nil, Option.map_eq_none_iff] at hedge
  rw [getMinCost, hedge]
  simp only [hr, hfound]
  rw [minCostLoop_eq htree _ 0 (treePath_length_le hends hu htree), zero_add]

/-! ## The costs of the rows -/

/-- Every row carries the cost from the vertex before it. -/
def Costed (boost : BoostTsp) (g : UndirectedHasCostBG) : Option Nat → List (Int × Weight) → Prop
  | _, [] => True
  | u, row :: rows => row.1 ∈ g.graph.vertices ∧
      stepCost boost g u (g.graph.vertices.idxOf row.1) = .ok row.2 ∧
      Costed boost g (some (g.graph.vertices.idxOf row.1)) rows

/-- What a costed tour says about two rows that follow each other. -/
theorem Costed.getMinCost {before after : List (Int × Weight)} {x y : Int × Weight} :
    ∀ {u : Option Nat}, Costed boost g u (before ++ x :: y :: after) →
      x.1 ∈ g.graph.vertices ∧ y.1 ∈ g.graph.vertices ∧
      Tsp.getMinCost boost g (g.graph.vertices.idxOf x.1) (g.graph.vertices.idxOf y.1) =
        .ok y.2 := by
  induction before with
  | nil =>
    intro u h
    obtain ⟨hx, _, hy, hcost, _⟩ := h
    exact ⟨hx, hy, hcost⟩
  | cons row before ih => exact fun h => ih h.2.2

/-- There is a cost between any two vertices. -/
def AllCosts (boost : BoostTsp) (g : UndirectedHasCostBG) : Prop :=
  ∀ u < g.graph.numVertices, ∀ v < g.graph.numVertices, ∃ c, getMinCost boost g u v = .ok c

theorem AllCosts.stepCost (h : AllCosts boost g) {u : Option Nat}
    (hu : ∀ x, u = some x → x < g.graph.numVertices) (hv : v < g.graph.numVertices) :
    ∃ c, Tsp.stepCost boost g u v = .ok c := by
  cases u with
  | none => exact ⟨0, rfl⟩
  | some u => exact h u (hu u rfl) v hv

/-- `eval_tour` keeps the ids, puts the costs into the rows and adds them up. -/
theorem evalRows_spec (hall : AllCosts boost g) (tour : List (Int × Weight)) :
    ∀ (u : Option Nat) (aggCost : Weight), (∀ x, u = some x → x < g.graph.numVertices) →
      (∀ row ∈ tour, row.1 ∈ g.graph.vertices) →
      ∃ rows, evalRows boost g u aggCost tour = .ok (aggCost + (rows.map (·.2)).sum, rows) ∧
        rows.map (·.1) = tour.map (·.1) ∧ Costed boost g u rows := by
  induction tour with
  | nil =>
    intro u aggCost _ _
    exact ⟨[], by rw [evalRows, List.map_nil, List.sum_nil, add_zero], rfl, trivial⟩
  | cons node tour ih =>
    intro u aggCost hu hids
    have hnode := hids node List.mem_cons_self
    have hlt : g.graph.vertices.idxOf node.1 < g.graph.numVertices :=
      List.idxOf_lt_length_iff.mpr hnode
    obtain ⟨c, hc⟩ := hall.stepCost hu hlt
    obtain ⟨rows, hrows, hids', hcosted⟩ := ih (some (g.graph.vertices.idxOf node.1)) (aggCost + c)
      (fun x hx => Option.some.inj hx ▸ hlt)
      (fun row hrow => hids row (List.mem_cons_of_mem _ hrow))
    refine ⟨(node.1, c) :: rows, ?_, ?_, hnode, hc, hcosted⟩
    · rw [evalRows, getBoostVertex, if_pos hnode]
      show (Tsp.stepCost boost g u _).bind _ = _
      rw [hc]
      show (evalRows boost g _ _ tour).bind _ = _
      rw [hrows, List.map_cons, List.sum_cons, ← add_assoc]
      rfl
    · rw [List.map_cons, List.map_cons, hids']

/-- `eval_tour` of the vertices gives their ids. -/
theorem evalTour_spec (hall : AllCosts boost g) (tour : List Nat) :
    ∀ u : Option Nat, (∀ x, u = some x → x < g.graph.numVertices) →
      (∀ v ∈ tour, v < g.graph.numVertices) →
      ∃ rows, evalTour boost g u tour = .ok rows ∧
        rows.map (·.1) = tour.filterMap fun v => g.graph.vertices[v]? := by
  induction tour with
  | nil => exact fun u _ _ => ⟨[], rfl, rfl⟩
  | cons v tour ih =>
    intro u hu hlt
    have hv := hlt v List.mem_cons_self
    obtain ⟨i, hi⟩ := exists_id hv
    obtain ⟨c, hc⟩ := hall.stepCost hu hv
    obtain ⟨rows, hrows, hids⟩ := ih (some v) (fun x hx => Option.some.inj hx ▸ hv)
      (fun x hx => hlt x (List.mem_cons_of_mem _ hx))
    refine ⟨(i, c) :: rows, ?_, ?_⟩
    · rw [evalTour]
      show (Tsp.stepCost boost g u v).bind _ = _
      rw [hc, getVertexId, hi]
      show (evalTour boost g (some v) tour).bind _ = _
      rw [hrows]
      rfl
    · rw [List.map_cons, List.filterMap_cons, hi, hids]

/-! ## Crossovers -/

theorem reversePart_perm {α : Type} (l : List α) {i j : Nat} (hij : i ≤ j) :
    (reversePart l i j).Perm l := by
  have hl : l = l.take i ++ (l.take j).drop i ++ l.drop j := by
    have htake : l.take i ++ (l.take j).drop i = l.take j := by
      conv_rhs => rw [← List.take_append_drop i (l.take j), List.take_take, min_eq_left hij]
    rw [htake, List.take_append_drop]
  conv_rhs => rw [hl]
  exact ((List.reverse_perm _).append_left _).append_right _

theorem take_reversePart {α : Type} (l : List α) {i j k : Nat} (hk : k ≤ i) (hi : i ≤ l.length) :
    (reversePart l i j).take k = l.take k := by
  rw [reversePart, List.append_assoc, List.take_append_of_le_length
    (by rw [List.length_take]; omega), List.take_take, min_eq_left hk]

theorem drop_reversePart {α : Type} (l : List α) {i j k : Nat} (hij : i ≤ j) (hk : j ≤ k)
    (hj : j ≤ l.length) : (reversePart l i j).drop k = l.drop k := by
  have hlen : (l.take i ++ ((l.take j).drop i).reverse).length = j := by
    rw [List.length_append, List.length_reverse, List.length_drop, List.length_take,
      List.length_take]
    omega
  rw [reversePart, List.drop_append, hlen, List.drop_eq_nil_of_le (by omega), List.nil_append,
    List.drop_drop]
  congr 1
  omega

theorem map_reversePart {α β : Type} (f : α → β) (l : List α) (i j : Nat) :
    (reversePart l i j).map f = reversePart (l.map f) i j := by
  simp [reversePart, List.map_take, List.map_drop]

theorem mem_crossovers {size limit : Nat} {round : Nat × Nat} (h : round ∈ crossovers size limit) :
    1 ≤ round.1 ∧ round.1 < round.2 ∧ round.2 ≤ size - limit := by
  obtain ⟨i, hi, h⟩ := List.mem_flatMap.mp h
  obtain ⟨j, hj, rfl⟩ := List.mem_map.mp h
  rw [List.mem_range'_1] at hi
  rw [List.mem_reverse, List.mem_range'_1] at hj
  simp only
  omega

/-- The ids of the tours that differ in their inner part only. -/
structure SameFrame (limit : Nat) (l l' : List Int) : Prop where
  perm : l'.Perm l
  first : l'.take 1 = l.take 1
  last : l'.drop (l.length - limit) = l.drop (l.length - limit)

theorem SameFrame.reversePart {limit : Nat} {l l' : List Int} (h : SameFrame limit l l')
    {round : Nat × Nat} (hround : round ∈ crossovers l.length limit) :
    SameFrame limit l (reversePart l' round.1 round.2) := by
  obtain ⟨hi, hij, hj⟩ := mem_crossovers hround
  have hlen := h.perm.length_eq
  refine ⟨(reversePart_perm l' hij.le).trans h.perm, ?_, ?_⟩
  · rw [take_reversePart l' hi (by omega), h.first]
  · rw [drop_reversePart l' hij.le hj (by omega), h.last]

/-- The rounds of `crossover_optimize`. -/
theorem foldlM_crossover (hall : AllCosts boost g) (limit : Nat) (l : List Int)
    (hl : ∀ id ∈ l, id ∈ g.graph.vertices) (rounds : List (Nat × Nat))
    (hrounds : ∀ round ∈ rounds, round ∈ crossovers l.length limit) :
    ∀ rows : List (Int × Weight), SameFrame limit l (rows.map (·.1)) → Costed boost g none rows →
      ∃ rows', rounds.foldlM (crossover boost g) (rows, (rows.map (·.2)).sum) =
          .ok (rows', (rows'.map (·.2)).sum) ∧
        SameFrame limit l (rows'.map (·.1)) ∧ Costed boost g none rows' ∧
        (rows'.map (·.2)).sum ≤ (rows.map (·.2)).sum := by
  induction rounds with
  | nil => exact fun rows hframe hcosted => ⟨rows, rfl, hframe, hcosted, le_refl _⟩
  | cons round rounds ih =>
    intro rows hframe hcosted
    have hframe' := hframe.reversePart (hrounds round List.mem_cons_self)
    rw [← map_reversePart] at hframe'
    have hids : ∀ row ∈ reversePart rows round.1 round.2, row.1 ∈ g.graph.vertices :=
      fun row hrow => hl row.1 (hframe'.perm.subset (List.mem_map_of_mem hrow))
    obtain ⟨tmp, htmp, htmpids, htmpcosted⟩ := evalRows_spec hall
      (reversePart rows round.1 round.2) none 0 (fun _ h => by cases h) hids
    rw [zero_add] at htmp
    -- The tour with the part reversed is taken when it costs less.
    have hround : crossover boost g (rows, (rows.map (·.2)).sum) round =
        .ok (if (tmp.map (·.2)).sum < (rows.map (·.2)).sum then (tmp, (tmp.map (·.2)).sum)
          else (rows, (rows.map (·.2)).sum)) := by
      rw [crossover]
      show (evalRows boost g none 0 (reversePart rows round.1 round.2)).bind _ = _
      rw [htmp]
      rfl
    have hrest := fun x hx => hrounds x (List.mem_cons_of_mem round hx)
    rw [List.foldlM_cons, hround]
    by_cases hless : (tmp.map (·.2)).sum < (rows.map (·.2)).sum
    · rw [if_pos hless]
      obtain ⟨rows', hrun, hframe', hcosted', hle⟩ := ih hrest tmp (htmpids ▸ hframe') htmpcosted
      exact ⟨rows', hrun, hframe', hcosted', hle.trans hless.le⟩
    · rw [if_neg hless]
      exact ih hrest rows hframe hcosted

/-- `crossover_optimize` returns the ids of the tour with its inner part in another order, with
    their costs, which do not add up to more than those of the tour did. -/
theorem crossoverOptimize_spec (hall : AllCosts boost g) (tour : List (Int × Weight))
    (htour : ∀ row ∈ tour, row.1 ∈ g.graph.vertices) (limit : Nat) :
    ∃ before rows, evalRows boost g none 0 tour = .ok ((before.map (·.2)).sum, before) ∧
      crossoverOptimize boost g tour limit = .ok rows ∧
      SameFrame limit (tour.map (·.1)) (rows.map (·.1)) ∧ Costed boost g none rows ∧
      (rows.map (·.2)).sum ≤ (before.map (·.2)).sum := by
  obtain ⟨before, hbefore, hids, hcosted⟩ := evalRows_spec hall tour none 0
    (fun _ h => by cases h) htour
  rw [zero_add] at hbefore
  have hlen : before.length = (tour.map (·.1)).length := by
    rw [← hids, List.length_map]
  obtain ⟨rows, hrun, hframe, hcosted', hle⟩ := foldlM_crossover hall limit
    (tour.map (·.1)) (by
      intro id hid
      obtain ⟨row, hrow, rfl⟩ := List.mem_map.mp hid
      exact htour row hrow)
    (crossovers before.length limit) (fun round hround => hlen ▸ hround) before
    (hids ▸ ⟨List.Perm.refl _, rfl, rfl⟩) hcosted
  refine ⟨before, rows, hbefore, ?_, hframe, hcosted', hle⟩
  rw [crossoverOptimize]
  show (evalRows boost g none 0 tour).bind _ = _
  rw [hbefore]
  show (List.foldlM (crossover boost g) _ _).bind _ = _
  rw [hrun]
  rfl

end Tsp

end PgRouting
