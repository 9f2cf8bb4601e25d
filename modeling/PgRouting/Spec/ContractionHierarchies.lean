import PgRouting.Native.ContractionHierarchies
import PgRouting.Spec.ContractionGraph

/-!
# Simulated and real contractions

A simulated contraction puts its shortcuts into the graph and takes them out again, but the
ids it has given to them are not given back. The metric it finds is the one of the real
contraction, whatever the ids are, because every test reads costs only.

The loop takes a vertex from the queue and then asks the queue for its top. After the last
vertex the queue is empty.

## Key results

- `addShortcuts_adds`: what a contraction adds to the graph
- `computeShortcuts_alike`, `simulation_metric`: the ids of shortcuts make no difference
- `graphToTuple_promised`: the ids of the rows that are returned
- `contractionHierarchies_ends_iff`, `vertexContraction_simulation_iff`
-/

namespace PgRouting

namespace ContractionHierarchies

open PriorityQueue PgrContractionGraph

variable {boost : BoostDijkstraVisits Unit ℚ} {graph : PgrContractionGraph} {directed : Bool}
  {s s' : State} {u v w : Nat}

/-! ## The queue -/

/-- A round that starts with a vertex in the queue leaves one in it, or it asks an empty queue for
    its top. -/
theorem round_queue (boost : BoostDijkstraVisits Unit ℚ) (graph : PgrContractionGraph)
    (directed : Bool) (h : s.minPQ ≠ []) :
    round boost graph directed s = .done none ∨
    ∃ s', round boost graph directed s = .next s' ∧ s'.minPQ ≠ [] := by
  unfold round
  cases htop : top? s.minPQ with
  | none => exact absurd (top?_eq_none.mp htop) h
  | some orderedVertex =>
    simp only
    cases hnext : top? (pop s.minPQ) with
    | none => exact .inl rfl
    | some top =>
      right
      simp only
      split
      · exact ⟨_, rfl, List.cons_ne_nil _ _⟩
      · refine ⟨_, rfl, fun hnil => ?_⟩
        rw [top?_eq_none.mpr hnil] at hnext
        cases hnext

theorem mem_start : v ∈ (start graph).minPQ.map (fun x => (ofLex x).2) ↔
    v < graph.graph.numVertices ∧ graph.isForbidden v = false := by
  -- The loop adds those vertices of the list that are not forbidden.
  have hfold : ∀ (l : List Nat) (q : PriorityQueue (Int ×ₗ Nat)),
      v ∈ (l.foldl (fun minPQ v => if !graph.isForbidden v then
        push (toLex ((graph.vertex v).id, v)) minPQ else minPQ) q).map (fun x => (ofLex x).2) ↔
      v ∈ q.map (fun x => (ofLex x).2) ∨ v ∈ l ∧ graph.isForbidden v = false := by
    intro l
    induction l with
    | nil => simp
    | cons a l ih =>
      intro q
      rw [List.foldl_cons, ih]
      cases hfree : graph.isForbidden a with
      | true =>
        have hne : graph.isForbidden v = false → v ≠ a := by
          rintro hv rfl
          rw [hv] at hfree
          cases hfree
        simp only [Bool.not_true, Bool.false_eq_true, if_false, List.mem_cons]
        tauto
      | false =>
        simp only [Bool.not_false, if_true, push, List.map_cons, List.mem_cons, ofLex_toLex]
        constructor
        · rintro ((rfl | hq) | hl)
          · exact .inr ⟨.inl rfl, hfree⟩
          · exact .inl hq
          · exact .inr ⟨.inr hl.1, hl.2⟩
        · rintro (hq | ⟨rfl | hl, hv⟩)
          · exact .inl (.inr hq)
          · exact .inl (.inl rfl)
          · exact .inr ⟨hl, hv⟩
  unfold start
  simp only
  rw [hfold, List.mem_range]
  simp

/-- With a vertex that may be contracted the loop never ends well. -/
theorem contractionHierarchies_eq_none (n : Nat) (hv : v < graph.graph.numVertices)
    (hfree : graph.isForbidden v = false) :
    contractionHierarchies boost n graph directed = none := by
  have hstart : (start graph).minPQ ≠ [] := by
    intro hnil
    have hmem := mem_start.mpr ⟨hv, hfree⟩
    rw [hnil] at hmem
    cases hmem
  have hrun : (runLoop (round boost graph directed) n (start graph)).join = none := by
    cases hloop : runLoop (round boost graph directed) n (start graph) with
    | none => rfl
    | some r =>
      obtain ⟨s', hreach, hdone⟩ := runLoop_exit hloop
      have hqueue : s'.minPQ ≠ [] := by
        refine hreach.invariant (I := fun s => s.minPQ ≠ []) (fun s t hs hnext => ?_) hstart
        obtain hfail | ⟨t', ht', hne⟩ := round_queue boost graph directed hs
        · rw [hnext] at hfail
          cases hfail
        · rw [hnext] at ht'
          cases ht'
          exact hne
      obtain hfail | ⟨t', ht', _⟩ := round_queue boost graph directed hqueue
      · rw [hdone] at hfail
        cases hfail
        rfl
      · rw [hdone] at ht'
        cases ht'
  rw [contractionHierarchies, hrun]
  rfl

/-- Each vertex that is not forbidden has really been contracted once, and no other vertex. -/
def ContractsEachOnce (graph : PgrContractionGraph) (s : State) : Prop :=
  s.contracted.Nodup ∧
    ∀ v, v ∈ s.contracted ↔ v < graph.graph.numVertices ∧ graph.isForbidden v = false

/-- The loop ends without asking an empty queue for its top and has contracted the right vertices
    exactly when there is no vertex to contract. -/
theorem contractionHierarchies_ends_iff (boost : BoostDijkstraVisits Unit ℚ)
    (graph : PgrContractionGraph) (directed : Bool) :
    (∃ n r, contractionHierarchies boost n graph directed = some r ∧
      ContractsEachOnce graph r.2) ↔
      ∀ v < graph.graph.numVertices, graph.isForbidden v = true := by
  constructor
  · rintro ⟨n, r, hrun, _⟩ v hv
    by_contra hfree
    rw [contractionHierarchies_eq_none n hv (Bool.eq_false_iff.mpr hfree)] at hrun
    cases hrun
  · intro hall
    have hnone : ∀ v, ¬ (v < graph.graph.numVertices ∧ graph.isForbidden v = false) := by
      rintro v ⟨hv, hfree⟩
      rw [hall v hv] at hfree
      cases hfree
    have hempty : (start graph).minPQ = [] := by
      rw [← List.map_eq_nil_iff (f := fun x => (ofLex x).2), List.eq_nil_iff_forall_not_mem]
      exact fun v hv => hnone v (mem_start.mp hv)
    have hround : round boost graph directed (start graph) = .done (some (start graph)) := by
      unfold round
      rw [top?_eq_none.mpr hempty]
    refine ⟨1, (graph.copyShortcuts [], start graph), ?_, List.nodup_nil, fun v => ?_⟩
    · rw [contractionHierarchies, runLoop_done hround]
      rfl
    · exact iff_of_false List.not_mem_nil (hnone v)

/-! ## What a contraction adds -/

variable {g g' h : PgrContractionGraph} {added shortcuts : List (BoostEdge CHEdge)}
  {predecessors : Nat → Nat} {distances : Nat → WithTop ℚ}
  {t t' : PgrContractionGraph × List (BoostEdge CHEdge)}

/-- The graph with some more edges, which has given an id to each of them. -/
def withAdded (g : PgrContractionGraph) (added : List (BoostEdge CHEdge)) : PgrContractionGraph :=
  { g with
    graph := { g.graph with edges := g.graph.edges ++ added }
    minEdgeId := g.minEdgeId - added.length }

@[simp] theorem withAdded_nil : withAdded g [] = g := by
  simp [withAdded]

theorem withAdded_withAdded {more : List (BoostEdge CHEdge)} :
    withAdded (withAdded g added) more = withAdded g (added ++ more) := by
  simp only [withAdded, List.append_assoc, List.length_append, Nat.cast_add, sub_sub]

/-- New edges with new ids have been added to the graph and to the list of shortcuts. -/
def Adds (t t' : PgrContractionGraph × List (BoostEdge CHEdge)) : Prop :=
  ∃ added, t' = (withAdded t.1 added, t.2 ++ added) ∧
    ∀ e ∈ added, e ∉ t.1.graph.edges ∧ e.bundle.id < t.1.minEdgeId

theorem Adds.refl : Adds t t := ⟨[], by simp, by simp⟩

theorem Adds.trans {t'' : PgrContractionGraph × List (BoostEdge CHEdge)} (h : Adds t t')
    (h' : Adds t' t'') : Adds t t'' := by
  obtain ⟨added, rfl, hnew⟩ := h
  obtain ⟨more, rfl, hmore⟩ := h'
  refine ⟨added ++ more, by rw [withAdded_withAdded, List.append_assoc], fun e he => ?_⟩
  obtain he | he := List.mem_append.mp he
  · exact hnew e he
  · obtain ⟨hfresh, hid⟩ := hmore e he
    refine ⟨fun hold => hfresh (List.mem_append_left _ hold), hid.trans_le ?_⟩
    simp only [withAdded]
    omega

theorem adds_foldl {α : Type} {f : PgrContractionGraph × List (BoostEdge CHEdge) → α →
      PgrContractionGraph × List (BoostEdge CHEdge)} (hf : ∀ t a, Adds t (f t a)) (l : List α) :
    Adds t (l.foldl f t) := by
  induction l generalizing t with
  | nil => exact .refl
  | cons a l ih => exact (hf t a).trans ih

/-- `process_ch_shortcut` adds an edge where there was none. -/
theorem processChShortcut_adds : Adds t (t.1.processChShortcut u v w t.2) := by
  unfold processChShortcut
  split
  · rename_i hpossible
    rw [Bool.and_eq_true, Bool.not_eq_true'] at hpossible
    refine ⟨[⟨u, w, t.1.shortcut u v w⟩], rfl, fun e he => ?_⟩
    obtain rfl := List.mem_singleton.mp he
    refine ⟨fun hold => ?_, Int.sub_one_lt_iff.mpr (Int.le_refl _)⟩
    have hedge : t.1.hasEdge u w = true :=
      hasEdge_iff.mpr ⟨_, hold, AdjacencyList.joins_iff.mpr (.inl ⟨rfl, rfl⟩)⟩
    rw [hpossible.2] at hedge
    cases hedge
  · exact .refl

theorem shortcutStep_adds (predecessors : Nat → Nat) (distances : Nat → WithTop ℚ) (u v : Nat)
    (t : PgrContractionGraph × List (BoostEdge CHEdge)) (w : Nat) :
    Adds t (shortcutStep predecessors distances u v t w) := by
  unfold shortcutStep
  split
  · exact processChShortcut_adds
  · exact .refl

variable (boost) in
theorem computeShortcuts_adds (u v : Nat) (outVertices : Identifiers Nat)
    (t : PgrContractionGraph × List (BoostEdge CHEdge)) :
    Adds t (computeShortcuts boost u v outVertices t) := by
  unfold computeShortcuts
  simp only
  split
  · exact adds_foldl (shortcutStep_adds _ _ u v) _
  · exact .refl

variable (boost) in
/-- The loop of `vertex_contraction`, which adds the shortcuts. -/
def addShortcuts (g : PgrContractionGraph) (directed : Bool) (v : Nat) :
    PgrContractionGraph × List (BoostEdge CHEdge) :=
  (neighbours g directed v).1.ids.foldl
    (fun s u => computeShortcuts boost u v (neighbours g directed v).2.1 s) (g, [])

variable (boost g directed v) in
theorem addShortcuts_adds : Adds (g, []) (addShortcuts boost g directed v) :=
  adds_foldl (fun t u => computeShortcuts_adds boost u v _ t) _

/-- Taking back what has been added gives back the edges, but not the ids. -/
theorem takeBack_withAdded (hnew : ∀ e ∈ added, e ∉ g.graph.edges) :
    takeBack (withAdded g added) added = { g with minEdgeId := g.minEdgeId - added.length } := by
  have hedges : ∀ (l : List (BoostEdge CHEdge)) (g' : PgrContractionGraph),
      (∀ e ∈ l, e ∉ g.graph.edges) → g'.graph.edges = g.graph.edges ++ l →
      takeBack g' l = { g' with graph := { g'.graph with edges := g.graph.edges } } := by
    intro l
    induction l with
    | nil =>
      intro g' _ hg'
      rw [List.append_nil] at hg'
      rw [← hg']
      rfl
    | cons e l ih =>
      intro g' hnew hg'
      obtain ⟨he, hl⟩ := List.forall_mem_cons.mp hnew
      have herase : g'.graph.edges.erase e = g.graph.edges ++ l := by
        rw [hg', List.erase_append_right _ he, List.erase_cons_head]
      exact ih { g' with graph := { g'.graph with edges := g'.graph.edges.erase e } } hl herase
  exact hedges added (withAdded g added) hnew rfl

/-- What a simulated contraction leaves, and its metric. -/
theorem simulation_eq (shortcuts : List CHEdge) :
    vertexContraction boost g directed v true shortcuts =
      ({ g with minEdgeId := g.minEdgeId - (addShortcuts boost g directed v).2.length }, shortcuts,
        ((addShortcuts boost g directed v).2.length : Int) - (neighbours g directed v).2.2) := by
  obtain ⟨added, hadds, hnew⟩ := addShortcuts_adds boost directed v g
  have hback := takeBack_withAdded fun e he => (hnew e he).1
  show (takeBack (addShortcuts boost g directed v).1 (addShortcuts boost g directed v).2, shortcuts,
    ((addShortcuts boost g directed v).2.length : Int) - (neighbours g directed v).2.2) = _
  rw [hadds]
  simp only [List.nil_append]
  rw [hback]

/-- The metric of a real contraction. -/
theorem contraction_metric (shortcuts : List CHEdge) :
    (vertexContraction boost g directed v false shortcuts).2.2 =
      ((addShortcuts boost g directed v).2.length : Int) - (neighbours g directed v).2.2 := rfl

/-! ## The ids of shortcuts make no difference -/

/-- An edge with its cost. -/
def toWeight (e : BoostEdge CHEdge) : BoostEdge ℚ := ⟨e.source, e.target, e.bundle.cost⟩

theorem outEdges_weights (a : AdjacencyList CHVertex CHEdge) (u : Nat) :
    a.weights.outEdges u = (a.outEdges u).map toWeight := by
  unfold AdjacencyList.outEdges AdjacencyList.weights
  simp only
  rw [List.flatMap_map, List.map_flatMap]
  congr 1
  funext e
  rw [List.map_append]
  congr 1
  · split <;> rfl
  · split <;> rfl

/-- The cost of the edge that `boost::edge` finds. -/
def costBetween (g : PgrContractionGraph) (u v : Nat) : Option ℚ :=
  (g.graph.edge u v).map fun e => e.bundle.cost

section

variable (hgh : g.graph.weights = h.graph.weights)
include hgh

theorem outEdges_congr (u : Nat) :
    (g.graph.outEdges u).map toWeight = (h.graph.outEdges u).map toWeight := by
  rw [← outEdges_weights, ← outEdges_weights, hgh]

theorem costBetween_congr (u v : Nat) : costBetween g u v = costBetween h u v := by
  have hedge : ∀ a : PgrContractionGraph, costBetween a u v =
      (((a.graph.outEdges u).map toWeight).find? (·.target = v)).map (·.bundle) := by
    intro a
    rw [costBetween, AdjacencyList.edge, List.find?_map, Option.map_map]
    rfl
  rw [hedge, hedge, outEdges_congr hgh]

theorem directed_congr : g.graph.directed = h.graph.directed := by
  show g.graph.weights.directed = h.graph.weights.directed
  rw [hgh]

theorem hasEdge_congr (u v : Nat) : g.hasEdge u v = h.hasEdge u v := by
  have hcost : ∀ a : PgrContractionGraph, a.hasEdge u v = (costBetween a u v).isSome := by
    intro a
    rw [costBetween, Option.isSome_map]
    rfl
  rw [hcost, hcost, costBetween_congr hgh]

theorem isShortcutPossible_congr (u v w : Nat) :
    g.isShortcutPossible u v w = h.isShortcutPossible u v w := by
  unfold isShortcutPossible hasUVW
  simp only [hasEdge_congr hgh, directed_congr hgh]

theorem computePmax_congr (u v : Nat) (outVertices : Identifiers Nat) :
    g.computePmax u v outVertices = h.computePmax u v outVertices := by
  -- Only the costs of the edges are read, and these are the same in both graphs.
  have hloop : ∀ (cost : ℚ) (l : List Nat) (pMax : Int),
      g.pmaxLoop u v cost l pMax = h.pmaxLoop u v cost l pMax := by
    intro cost l
    induction l with
    | nil => exact fun _ => rfl
    | cons w l ih =>
      intro pMax
      have hcost := costBetween_congr hgh v w
      unfold costBetween at hcost
      unfold pmaxLoop
      cases hg : g.graph.edge v w with
      | none =>
        rw [hg, Option.map_none, eq_comm, Option.map_eq_none_iff] at hcost
        rw [hcost]
        exact ih pMax
      | some e =>
        rw [hg, Option.map_some, eq_comm, Option.map_eq_some_iff] at hcost
        obtain ⟨f, hf, heq⟩ := hcost
        rw [hf]
        simp only
        rw [heq]
        exact ih _
  have hcost := costBetween_congr hgh u v
  unfold costBetween at hcost
  unfold computePmax
  cases hg : g.graph.edge u v with
  | none =>
    rw [hg, Option.map_none, eq_comm, Option.map_eq_none_iff] at hcost
    rw [hcost]
  | some e =>
    rw [hg, Option.map_some, eq_comm, Option.map_eq_some_iff] at hcost
    obtain ⟨f, hf, heq⟩ := hcost
    rw [hf]
    simp only
    rw [heq]
    exact hloop _ _ _

theorem isWitness_congr (u v w : Nat) : isWitness g predecessors distances u v w =
    isWitness h predecessors distances u v w := by
  have hform : ∀ a : PgrContractionGraph, isWitness a predecessors distances u v w =
      if u = w then false
      else (costBetween a u v).elim false fun e => (costBetween a v w).elim false fun f =>
        (costBetween a u w).elim true (fun x => decide (distances w < ((x : ℚ) : WithTop ℚ))) &&
        decide (predecessors w = v) && decide (predecessors v = u) &&
        decide (distances w = ((e + f : ℚ) : WithTop ℚ)) := by
    intro a
    unfold isWitness costBetween
    cases a.graph.edge u v <;> cases a.graph.edge v w <;> cases a.graph.edge u w <;> rfl
  rw [hform, hform, costBetween_congr hgh, costBetween_congr hgh, costBetween_congr hgh]

omit hgh in
/-- The cheapest edge of a list has a cost that depends on the costs only. -/
theorem getMinCostEdgeLoop_congr {l l' : List (BoostEdge CHEdge)} {x x' : CHEdge}
    {cs cs' : Identifiers Int} (hl : l.map toWeight = l'.map toWeight) (hx : x.cost = x'.cost)
    (minCost : WithTop ℚ) (found : Bool) :
    (getMinCostEdgeLoop l minCost x found cs).1.cost =
        (getMinCostEdgeLoop l' minCost x' found cs').1.cost ∧
      (getMinCostEdgeLoop l minCost x found cs).2 =
        (getMinCostEdgeLoop l' minCost x' found cs').2 := by
  induction l generalizing l' minCost x x' found cs cs' with
  | nil =>
    rw [List.map_nil, eq_comm, List.map_eq_nil_iff] at hl
    rw [hl]
    exact ⟨hx, rfl⟩
  | cons e l ih =>
    cases l' with
    | nil => cases hl
    | cons e' l' =>
      rw [List.map_cons, List.map_cons, List.cons.injEq] at hl
      obtain ⟨he, hl⟩ := hl
      have hcost : e.bundle.cost = e'.bundle.cost := congrArg BoostEdge.bundle he
      unfold getMinCostEdgeLoop
      simp only
      rw [hcost]
      split
      · exact ih hl hcost _ _
      · exact ih hl hx _ _

theorem getMinCostEdge_congr (u v : Nat) :
    (g.getMinCostEdge u v).1.cost = (h.getMinCostEdge u v).1.cost ∧
      (g.getMinCostEdge u v).2 = (h.getMinCostEdge u v).2 := by
  have hform : ∀ a : PgrContractionGraph,
      ((a.graph.outEdges u).filter fun e =>
        if a.graph.directed then e.target = v else PgrBaseGraph.adjacent u e = v).map toWeight =
      ((a.graph.outEdges u).map toWeight).filter fun e =>
        if a.graph.directed then e.target = v else PgrBaseGraph.adjacent u e = v := by
    intro a
    rw [List.filter_map]
    rfl
  refine getMinCostEdgeLoop_congr ?_ rfl _ _
  rw [hform, hform, outEdges_congr hgh, directed_congr hgh]

theorem shortcut_cost_congr (u v w : Nat) :
    (g.shortcut u v w).cost = (h.shortcut u v w).cost := by
  show (if (g.getMinCostEdge u v).2 && (g.getMinCostEdge v w).2 then
      (g.getMinCostEdge u v).1.cost + (g.getMinCostEdge v w).1.cost else dblMax) =
    (if (h.getMinCostEdge u v).2 && (h.getMinCostEdge v w).2 then
      (h.getMinCostEdge u v).1.cost + (h.getMinCostEdge v w).1.cost else dblMax)
  rw [(getMinCostEdge_congr hgh u v).1, (getMinCostEdge_congr hgh u v).2,
    (getMinCostEdge_congr hgh v w).1, (getMinCostEdge_congr hgh v w).2]

end

/-- The graphs have the same costs, and as many shortcuts have been added. -/
def Alike (t t' : PgrContractionGraph × List (BoostEdge CHEdge)) : Prop :=
  t.1.graph.weights = t'.1.graph.weights ∧ t.2.length = t'.2.length

theorem alike_foldl {α : Type} {f : PgrContractionGraph × List (BoostEdge CHEdge) → α →
      PgrContractionGraph × List (BoostEdge CHEdge)}
    (hf : ∀ t t' a, Alike t t' → Alike (f t a) (f t' a)) (l : List α) (h : Alike t t') :
    Alike (l.foldl f t) (l.foldl f t') := by
  induction l generalizing t t' with
  | nil => exact h
  | cons a l ih => exact ih (hf t t' a h)

theorem processChShortcut_alike (h : Alike t t') :
    Alike (t.1.processChShortcut u v w t.2) (t'.1.processChShortcut u v w t'.2) := by
  unfold processChShortcut
  rw [isShortcutPossible_congr h.1, hasEdge_congr h.1]
  split
  · constructor
    · have hcost := shortcut_cost_congr h.1 u v w
      have hedges := congrArg AdjacencyList.edges h.1
      have hvertices := congrArg AdjacencyList.vertices h.1
      have hdirected := directed_congr h.1
      simp only [AdjacencyList.weights, AdjacencyList.addEdge, List.map_append,
        List.map_singleton] at hedges hvertices ⊢
      rw [hedges, hvertices, hdirected, hcost]
    · simp only [List.length_append, h.2]
      rfl
  · exact h

theorem shortcutStep_alike (h : Alike t t') :
    Alike (shortcutStep predecessors distances u v t w)
      (shortcutStep predecessors distances u v t' w) := by
  unfold shortcutStep
  rw [isWitness_congr h.1]
  split
  · exact processChShortcut_alike h
  · exact h

theorem computeShortcuts_alike (outVertices : Identifiers Nat) (h : Alike t t') :
    Alike (computeShortcuts boost u v outVertices t)
      (computeShortcuts boost u v outVertices t') := by
  unfold computeShortcuts labelling
  simp only
  rw [computePmax_congr h.1, h.1]
  split
  · refine alike_foldl ?_ _ h
    exact fun _ _ _ h => shortcutStep_alike h
  · exact h

theorem neighbours_minEdgeId (id : Int) :
    neighbours { g with minEdgeId := id } directed v = neighbours g directed v := rfl

variable (boost g directed v) in
/-- As many shortcuts are added when the next id is another one. -/
theorem addShortcuts_length (id : Int) :
    (addShortcuts boost { g with minEdgeId := id } directed v).2.length =
      (addShortcuts boost g directed v).2.length := by
  have hsame : Alike ({ g with minEdgeId := id }, []) (g, []) := ⟨rfl, rfl⟩
  unfold addShortcuts
  rw [neighbours_minEdgeId]
  refine (alike_foldl ?_ _ hsame).2
  exact fun _ _ _ h => computeShortcuts_alike _ h

/-- A simulated contraction and the real contraction behind it have the same metric. -/
theorem simulation_metric (shortcuts shortcuts' : List CHEdge) :
    (vertexContraction boost g directed v true shortcuts).2.2 =
      (vertexContraction boost (vertexContraction boost g directed v true shortcuts).1 directed v
        false shortcuts').2.2 := by
  have hlength := addShortcuts_length boost directed v g
    (g.minEdgeId - (addShortcuts boost g directed v).2.length)
  rw [contraction_metric, simulation_eq]
  simp only
  rw [hlength]
  rfl

/-! ## When a simulation changes nothing -/

/-- The passage from `u` through `v` to `w` gets a shortcut: the shortest path from `u` to `w` goes
    along it, no edge leads from `u` to `w`, and `is_shortcut_possible` holds. -/
def Passage (boost : BoostDijkstraVisits Unit ℚ) (g : PgrContractionGraph) (u v : Nat)
    (outVertices : Identifiers Nat) (w : Nat) : Prop :=
  0 < g.computePmax u v outVertices ∧
  isWitness g (labelling boost g u (g.computePmax u v outVertices)).1
    (labelling boost g u (g.computePmax u v outVertices)).2 u v w = true ∧
  g.isShortcutPossible u v w = true ∧ g.hasEdge u w = false

/-- No passage through the vertex gets a shortcut. -/
def NoPassage (boost : BoostDijkstraVisits Unit ℚ) (g : PgrContractionGraph) (directed : Bool)
    (v : Nat) : Prop :=
  ∀ u ∈ (neighbours g directed v).1, ∀ w ∈ (neighbours g directed v).2.1,
    ¬ Passage boost g u v (neighbours g directed v).2.1 w

theorem Adds.eq_or_longer (h : Adds t t') : t' = t ∨ t.2.length < t'.2.length := by
  obtain ⟨added, rfl, _⟩ := h
  cases added with
  | nil => exact .inl (by simp)
  | cons e added =>
    right
    simp only [List.length_append, List.length_cons]
    omega

theorem shortcutStep_eq_self_iff : shortcutStep predecessors distances u v t w = t ↔
    ¬ (isWitness t.1 predecessors distances u v w = true ∧
      t.1.isShortcutPossible u v w = true ∧ t.1.hasEdge u w = false) := by
  unfold shortcutStep processChShortcut
  by_cases hw : isWitness t.1 predecessors distances u v w = true
  · rw [if_pos hw]
    by_cases hp : t.1.isShortcutPossible u v w = true ∧ t.1.hasEdge u w = false
    · rw [if_pos (by simp [hp])]
      refine iff_of_false (fun heq => ?_) fun h => h ⟨hw, hp⟩
      have hlength := congrArg (fun s => s.2.length) heq
      simp at hlength
    · rw [if_neg (by simpa using hp)]
      exact iff_of_true rfl fun h => hp h.2
  · rw [if_neg hw]
    exact iff_of_true rfl fun h => hw h.1

theorem computeShortcuts_eq_self_iff (outVertices : Identifiers Nat) :
    computeShortcuts boost u v outVertices t = t ↔
      ∀ w ∈ outVertices, ¬ Passage boost t.1 u v outVertices w := by
  unfold computeShortcuts Passage
  simp only
  split
  · rename_i hpos
    rw [foldl_eq_self_iff (fun s => s.2.length) fun s w =>
      (shortcutStep_adds _ _ u v s w).eq_or_longer]
    refine forall₂_congr fun w _ => ?_
    rw [shortcutStep_eq_self_iff, and_iff_right hpos]
  · rename_i hneg
    exact iff_of_true rfl fun w _ h => hneg h.1

theorem addShortcuts_eq_nil_iff : (addShortcuts boost g directed v).2.length = 0 ↔
    NoPassage boost g directed v := by
  have hself : (addShortcuts boost g directed v).2.length = 0 ↔
      addShortcuts boost g directed v = (g, []) := by
    constructor
    · intro hzero
      obtain hsame | hlt := (addShortcuts_adds boost directed v g).eq_or_longer
      · exact hsame
      · rw [hzero] at hlt
        exact absurd hlt (Nat.not_lt_zero _)
    · intro hsame
      rw [hsame]
      rfl
  rw [hself]
  unfold addShortcuts NoPassage
  rw [foldl_eq_self_iff (fun s => s.2.length) fun s u =>
    (computeShortcuts_adds boost u v _ s).eq_or_longer]
  exact forall₂_congr fun u _ => computeShortcuts_eq_self_iff _

/-! ## The ids of the rows -/

/-- The ids of the rows of shortcuts are -1, -2 and so on. -/
def Promised (rows : List ContractionHierarchiesRt) : Prop :=
  ((rows.filter (·.type = .e)).map (·.id)) =
    (List.range (rows.filter (·.type = .e)).length).map fun i : Nat => -((i : Int) + 1)

theorem shortcutRows_ids (edges : List CHEdge) (eid : Int) :
    (shortcutRows eid edges).map (·.id) =
      (List.range edges.length).map fun i : Nat => eid - ((i : Int) + 1) := by
  induction edges generalizing eid with
  | nil => rfl
  | cons edge edges ih =>
    rw [shortcutRows, List.map_cons, ih, List.length_cons, List.range_succ_eq_map, List.map_cons,
      List.map_map]
    congr 1
    refine List.map_congr_left fun i _ => ?_
    simp only [Function.comp_apply, Nat.cast_succ]
    omega

theorem shortcutRows_type (edges : List CHEdge) (eid : Int) :
    ∀ row ∈ shortcutRows eid edges, row.type = .e := by
  induction edges generalizing eid with
  | nil => exact fun _ h => absurd h List.not_mem_nil
  | cons edge edges ih =>
    intro row hrow
    obtain rfl | hrow := List.mem_cons.mp hrow
    · rfl
    · exact ih _ row hrow

/-- The ids are as promised, whatever ids the shortcuts have in the graph. -/
theorem graphToTuple_promised (graph : PgrContractionGraph) (metrics : Nat → Int × Int) :
    Promised (graphToTuple graph metrics) := by
  have hrows : (graphToTuple graph metrics).filter (·.type = .e) =
      shortcutRows 0 (getShortcuts graph) := by
    have hvertices : ((getModifiedVertices graph metrics).ids.map
        (vertexRow graph metrics)).filter (·.type = .e) = [] := by
      rw [List.filter_eq_nil_iff]
      intro row hrow
      obtain ⟨id, _, rfl⟩ := List.mem_map.mp hrow
      simp [vertexRow]
    rw [graphToTuple, List.filter_append, hvertices, List.nil_append, List.filter_eq_self]
    exact fun row hrow => decide_eq_true (shortcutRows_type _ _ row hrow)
  have hids := shortcutRows_ids (getShortcuts graph) 0
  have hlength := congrArg List.length hids
  rw [List.length_map, List.length_map, List.length_range] at hlength
  rw [Promised, hrows, hids, hlength]
  exact List.map_congr_left fun i _ => zero_sub _

/-- A simulated contraction leaves the graph, its next id and the shortcuts as they were exactly
    when no passage through the vertex gets a shortcut; the metric is always the one of the real
    contraction, and the ids of the rows that are returned are always as promised. -/
theorem vertexContraction_simulation_iff (boost : BoostDijkstraVisits Unit ℚ) :
    (∀ (g : PgrContractionGraph) (directed : Bool) (v : Nat) (shortcuts : List CHEdge),
      ((vertexContraction boost g directed v true shortcuts).1 = g ∧
        (vertexContraction boost g directed v true shortcuts).2.1 = shortcuts ∧
        (vertexContraction boost g directed v true shortcuts).2.2 =
          (vertexContraction boost (vertexContraction boost g directed v true shortcuts).1 directed
            v false shortcuts).2.2) ↔
      NoPassage boost g directed v) ∧
    ∀ (graph : PgrContractionGraph) (priorityQueue : PriorityQueue (Int ×ₗ Nat)),
      Promised (graphToTuple graph (setVerticesMetricAndHierarchy priorityQueue)) := by
  constructor
  · intro g directed v shortcuts
    rw [← addShortcuts_eq_nil_iff, ← simulation_metric, simulation_eq]
    constructor
    · rintro ⟨hsame, _⟩
      have hid := congrArg PgrContractionGraph.minEdgeId hsame
      simp only at hid
      omega
    · intro hzero
      rw [hzero]
      refine ⟨?_, rfl, rfl⟩
      simp
  · exact fun graph _ => graphToTuple_promised graph _

/-! ## Small graphs -/

/-- The road 1 → 2 → 3. -/
def wayThrough : PgrContractionGraph :=
  .ofTable true [⟨1, 1, 2, 1, -1⟩, ⟨2, 2, 3, 1, -1⟩]

/-- The search from each of the vertices of the road. -/
def wayThroughBoost : BoostDijkstraVisits Unit ℚ := fun _ u =>
  { examined := (List.range 3).drop u
    predecessors := fun _ v => if u < v then v - 1 else v
    distances := fun _ v => if u ≤ v then ((v - u : Nat) : ℚ) else ⊤ }

/-- The road has vertices to contract, so the queue gets empty. -/
theorem contractionHierarchies_wayThrough :
    ¬ ∃ n r, contractionHierarchies wayThroughBoost n wayThrough true = some r ∧
      ContractsEachOnce wayThrough r.2 := by
  rintro ⟨n, r, hrun, _⟩
  have hfree : 0 < wayThrough.graph.numVertices ∧ wayThrough.isForbidden 0 = false := by
    decide +kernel
  rw [contractionHierarchies_eq_none n hfree.1 hfree.2] at hrun
  cases hrun

/-- The simulated contraction of the vertex 2 of the road uses up the id -1. -/
theorem vertexContraction_wayThrough :
    ¬ ((vertexContraction wayThroughBoost wayThrough true 1 true []).1 = wayThrough ∧
      (vertexContraction wayThroughBoost wayThrough true 1 true []).2.1 = [] ∧
      (vertexContraction wayThroughBoost wayThrough true 1 true []).2.2 =
        (vertexContraction wayThroughBoost
          (vertexContraction wayThroughBoost wayThrough true 1 true []).1 true 1
            false []).2.2) := by
  rintro ⟨hsame, _⟩
  have hid : (vertexContraction wayThroughBoost wayThrough true 1 true []).1.minEdgeId = -1 ∧
      wayThrough.minEdgeId = 0 := by
    decide +kernel
  rw [hsame, hid.2] at hid
  exact absurd hid.1 (by decide)

end ContractionHierarchies

end PgRouting
