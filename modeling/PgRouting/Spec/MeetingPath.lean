import PgRouting.Spec.Bidirectional
import PgRouting.Spec.GraphRows
import PgRouting.Spec.JoinedPaths

/-!
# The path over the vertex where two searches have met

`bidirectional` reads two half paths back from the predecessors, joins them, and hands the
rows to the constructor that looks every edge up in the graph again, by its id among the out
edges of the node. The rows that it is given are those of the cheapest arcs along the vertices
that the predecessors record.

## Key results

- `newOfPredecessors_halfRows`: the rows of a half path
- `HalfRows.reverse`, `HalfRows.append`: turning a half path round and joining it to another
- `newOfGraph_leads_iff`: when the rows that are looked up again lead along the vertices
- `PgrBidirectional.path_leads_iff`: when the path of the two halves does
-/

namespace PgRouting

namespace Path

open QueueSearch

variable {V E K : Type} [TVertex V] [TEdge E] [Field K] [LinearOrder K] {g : PgrBaseGraph V E}

/-! ## The rows of a half path -/

/-- The edge of a row from `u` to `v`, for the cost `w`: it leads the other way when the half is not
    `normal`. -/
def halfEdge (g : PgrBaseGraph V E) (normal : Bool) (u v : Nat) (w : K) : Int × K :=
  if normal then g.getEdgeId u v w else g.getEdgeId v u w

/-- The rows of the cheapest arcs along the vertices, whatever their aggregate costs are. -/
inductive HalfRows (g : PgrBaseGraph V E) (normal : Bool) : List Nat → List (PathT K) → Prop
  | last (v : Nat) (agg : K) : HalfRows g normal [v] [⟨g.vertexId v, -1, 0, agg⟩]
  | step {u v : Nat} {l : List Nat} {w : ℚ} {rows : List (PathT K)} (agg : K)
    (arc : IsLeast {w | arcs g.graph normal u v w} w) (rest : HalfRows g normal (v :: l) rows) :
    HalfRows g normal (u :: v :: l) (⟨g.vertexId u, (halfEdge g normal u v w).1, w, agg⟩ :: rows)

/-- The cheapest arcs along which the tree of a half grows. -/
def CheapestArc (K : Type) [Field K] (g : PgrBaseGraph V E) (normal : Bool) (u v : Nat) (c : K) :
    Prop :=
  ∃ w : ℚ, IsLeast {w | arcs g.graph normal u v w} w ∧ c = w

variable {normal : Bool} {l : List Nat} {rows rows' : List (PathT K)}

omit [LinearOrder K] in
theorem CheapestArc.lt (hg : g.Consistent) {u v : Nat} {c : K} (h : CheapestArc K g normal u v c) :
    v < g.graph.numVertices := by
  obtain ⟨w, hleast, _⟩ := h
  have harc : arcs g.graph normal u v w := hleast.1
  exact arcs_lt hg u v w harc

omit [LinearOrder K] in
/-- Rows that differ in their aggregate costs only. -/
theorem HalfRows.congr (h : HalfRows g normal l rows)
    (heq : rows'.map (fun r => (r.node, r.edge, r.cost)) =
      rows.map fun r => (r.node, r.edge, r.cost)) : HalfRows g normal l rows' := by
  induction h generalizing rows' with
  | last v agg =>
    obtain ⟨r, rfl, hr⟩ := List.map_eq_singleton_iff.mp heq
    obtain ⟨node, edge, cost, agg'⟩ := r
    simp only [Prod.mk.injEq] at hr
    obtain ⟨rfl, rfl, rfl⟩ := hr
    exact .last v agg'
  | step agg arc _ ih =>
    obtain ⟨r, rest', rfl, hr, hrest⟩ := List.map_eq_cons_iff.mp heq
    obtain ⟨node, edge, cost, agg'⟩ := r
    simp only [Prod.mk.injEq] at hr
    obtain ⟨rfl, rfl, rfl⟩ := hr
    exact .step agg' arc (ih hrest)

variable [IsStrictOrderedRing K]

omit [LinearOrder K] [IsStrictOrderedRing K] in
theorem recalculateLoop_core (agg : K) (rows : List (PathT K)) :
    (recalculateLoop agg rows).1.map (fun r => (r.node, r.edge, r.cost)) =
      rows.map fun r => (r.node, r.edge, r.cost) := by
  induction rows generalizing agg with
  | nil => rfl
  | cons r rest ih => exact congrArg (_ :: ·) (ih _)

omit [LinearOrder K] [IsStrictOrderedRing K] in
/-- The loop of `reverse` puts the row of the next vertex before those of the vertices it has
    passed; the row takes the edge that it has just left. -/
theorem HalfRows.reverseLoop (h : HalfRows g false l rows) {u : Nat} {w : ℚ} {l₀ : List Nat}
    {newpath : List (PathT K)} (hnew : HalfRows g true (u :: l₀) newpath)
    (arc : ∀ v ∈ l.head?, IsLeast {w | g.graph.Arc v u w} w) {edge : Int}
    (hedge : ∀ v ∈ l.head?, (g.getEdgeId v u w).1 = edge) :
    HalfRows g true (l.reverse ++ u :: l₀) 
      (Path.reverseLoop edge (w : K) rows newpath) := by
  have hstep : ∀ {v : Nat}, v ∈ l.head? →
      HalfRows g true (v :: u :: l₀) (⟨g.vertexId v, edge, (w : K), 0⟩ :: newpath) := by
    intro v hv
    obtain rfl := hedge v hv
    exact .step 0 (arc v hv) hnew
  induction h generalizing u w l₀ newpath edge with
  | last v agg => exact hstep rfl
  | @step v v' l w' rows agg arc' _ ih =>
    rw [List.reverse_cons, List.append_assoc, List.singleton_append]
    refine ih (hstep rfl) (fun x hx => ?_) (fun x hx => ?_) ?_
    · obtain rfl := Option.some.inj hx
      exact arc'
    · obtain rfl := Option.some.inj hx
      rfl
    · intro x hx
      obtain rfl := Option.some.inj hx
      exact .step 0 arc' (hstep rfl)

omit [LinearOrder K] [IsStrictOrderedRing K] in
/-- Turning a half path round gives the rows of the vertices in the other order. -/
theorem HalfRows.reverse {p : Path K} (h : HalfRows g false l p.path) :
    HalfRows g true l.reverse p.reverse.path := by
  cases hrows : p.path with
  | nil =>
    rw [hrows] at h
    cases h
  | cons r rest =>
    rw [hrows] at h
    cases h with
    | last v agg =>
      have hp : p.reverse.path = p.path := by simp [Path.reverse, hrows]
      rw [hp, hrows]
      exact .last v agg
    | @step u v l w _ agg arc hrest =>
      have hp : p.reverse.path = (recalculateLoop 0 (Path.reverseLoop
          (halfEdge g false u v w).1 (w : K) rest [⟨g.vertexId u, -1, 0, 0⟩])).1 := by
        obtain ⟨r', rest', rfl⟩ : ∃ r' rest', rest = r' :: rest' := by
          cases hrest with
          | last => exact ⟨_, _, rfl⟩
          | step => exact ⟨_, _, rfl⟩
        simp [Path.reverse, hrows, Path.reverseLoop]
      rw [hp, List.reverse_cons]
      refine HalfRows.congr (HalfRows.reverseLoop (w := w) hrest (.last u 0) (fun x hx => ?_)
        fun x hx => ?_) (recalculateLoop_core 0 _)
      · obtain rfl := Option.some.inj hx
        exact arc
      · obtain rfl := Option.some.inj hx
        rfl

omit [LinearOrder K] [IsStrictOrderedRing K] in
/-- The rows of one half up to its last vertex, and those of a second one from there on. -/
theorem HalfRows.append {v : Nat} {l' : List Nat} (h : HalfRows g normal (l ++ [v]) rows)
    (h' : HalfRows g normal (v :: l') rows') :
    HalfRows g normal (l ++ v :: l') (rows.dropLast ++ rows') := by
  induction l generalizing rows with
  | nil =>
    cases h with
    | last => exact h'
  | cons u l ih =>
    obtain ⟨x, m, hm⟩ : ∃ x m, l ++ [v] = x :: m := List.exists_cons_of_ne_nil (by simp)
    have hl : l ++ v :: l' = x :: (m ++ l') := by
      rw [← List.cons_append, ← hm, List.append_assoc, List.singleton_append]
    rw [List.cons_append, hm] at h
    rw [hm, hl] at ih
    rw [List.cons_append, hl]
    cases h with
    | @step _ _ _ w rows agg arc hrest =>
      have hne : rows ≠ [] := by
        intro hnil
        rw [hnil] at hrest
        cases hrest
      rw [List.dropLast_cons_of_ne_nil hne]
      exact .step agg arc (ih hrest)

/-- The constructor finds the edge of the cheapest arc from `u` to `v` again, and no other: it is
    the only out edge of `u` with its id. A row with the edge -1 becomes the row of the end, which
    is right for an edge of cost 0 that leaves the end `t`. -/
def FoundAgain (g : PgrBaseGraph V E) (t u v : Nat) : Prop :=
  ∃ w : ℚ, IsLeast {w | g.graph.Arc u v w} w ∧
    if (g.getEdgeId u v w).1 = -1 then u = t ∧ w = 0
    else ((g.graph.outEdges u).filter fun e =>
      TEdge.id e.bundle = (g.getEdgeId u v w).1).length = 1

/-- The rows of `q` lead along the vertices `l` from `s` to `t` at the total cost `d`, and the one
    row of `q'` is their end with that cost. -/
structure Leads (g : PgrBaseGraph V E) (l : List Nat) (s t : Nat) (d : ℚ) (q q' : Path) : Prop where
  ends : q.startId = g.vertexId s ∧ q.endId = g.vertexId t ∧ q'.startId = g.vertexId s ∧
    q'.endId = g.vertexId t
  nodes : q.path.map (·.node) = l.map g.vertexId
  walk : WalkRows g (g.vertexId t) (g.vertexId s) 0 q.path
  total : q.totCost = d ∧ q'.totCost = d
  single : q'.path = [⟨g.vertexId t, -1, d, d⟩]

section Lookup

variable {s t u v : Nat} {w : ℚ}

/-- An edge that joins the ids of two vertices makes an arc between them. -/
theorem arc_of_idJoins (hg : g.Consistent) (hu : u < g.graph.numVertices)
    (hv : v < g.graph.numVertices) {id : Int} (h : IdJoins g (g.vertexId u) (g.vertexId v) id w) :
    g.graph.Arc u v w := by
  obtain h | ⟨hd, h⟩ := h
  · obtain ⟨e, he, heq⟩ := List.mem_map.mp h
    obtain ⟨hs, ht, _, hc⟩ : _ ∧ _ ∧ _ ∧ _ := by simpa using heq
    exact AdjacencyList.arc_iff.mpr ⟨e, he, hc,
      .inl ⟨hg.vertexId_inj (hg.ends e he).1 hu hs, hg.vertexId_inj (hg.ends e he).2 hv ht⟩⟩
  · obtain ⟨e, he, heq⟩ := List.mem_map.mp h
    obtain ⟨hs, ht, _, hc⟩ : _ ∧ _ ∧ _ ∧ _ := by simpa using heq
    exact AdjacencyList.arc_iff.mpr ⟨e, he, hc,
      .inr ⟨hd, hg.vertexId_inj (hg.ends e he).1 hv hs, hg.vertexId_inj (hg.ends e he).2 hu ht⟩⟩

omit [Field K] [LinearOrder K] [IsStrictOrderedRing K] in
/-- What the row of a cheapest arc becomes. -/
theorem graphRows_arc (hg : g.Consistent) (hu : u < g.graph.numVertices)
    (ht : t < g.graph.numVertices) (hleast : IsLeast {w | g.graph.Arc u v w} w) (c agg : K) :
    let id := (g.getEdgeId u v w).1
    let rows := graphRows g (g.vertexId t) ⟨g.vertexId u, id, c, agg⟩
    rows ≠ [] ∧ (FoundAgain g t u v ↔ rows = [⟨g.vertexId u, id, w, 0⟩]) ∧
      ∀ y, rows = [y] → y.node = g.vertexId u → ¬ FoundAgain g t u v →
        y.edge = -1 ∧ y.cost = 0 ∧ w ≠ 0 := by
  intro id rows
  obtain ⟨e, he, htarget, hcost, hid⟩ := PgrBaseGraph.getEdgeId_arc hleast.1
  have hid' : id = TEdge.id e.bundle := congrArg Prod.fst hid
  have hfound : FoundAgain g t u v ↔ if id = -1 then u = t ∧ w = 0
      else ((g.graph.outEdges u).filter fun e => TEdge.id e.bundle = id).length = 1 := by
    constructor
    · intro h
      obtain ⟨w', hleast', h⟩ := h
      obtain rfl := hleast.unique hleast'
      exact h
    · exact fun h => ⟨w, hleast, h⟩
  have hmem : e ∈ (g.graph.outEdges u).filter fun e => TEdge.id e.bundle = id :=
    List.mem_filter.mpr ⟨he, by simp [hid']⟩
  rw [hfound]
  by_cases hedge : id = -1
  · -- The id -1 stands for the end: the row becomes the last one.
    have hrows : rows = [⟨g.vertexId t, -1, 0, 0⟩] := by
      simp only [rows, graphRows, hg.map_vertexId hu, if_pos hedge]
    rw [hrows, if_pos hedge]
    refine ⟨List.cons_ne_nil _ _, ?_, fun y hy hnode hnot => ?_⟩
    · simp only [List.cons.injEq, PathT.mk.injEq, and_true, hedge, true_and]
      constructor
      · intro h
        rw [h.1, h.2]
        exact ⟨rfl, rfl⟩
      · exact fun h => ⟨hg.vertexId_inj hu ht h.1.symm, h.2.symm⟩
    · obtain rfl := (List.cons.inj hy).1
      exact ⟨rfl, rfl, fun hw => hnot ⟨hg.vertexId_inj hu ht hnode.symm, hw⟩⟩
  · have hrows : rows = ((g.graph.outEdges u).filter fun e => TEdge.id e.bundle = id).map
        fun e => ⟨g.vertexId u, id, TEdge.cost e.bundle, 0⟩ := by
      simp only [rows, graphRows, hg.map_vertexId hu, if_neg hedge]
    rw [hrows, if_neg hedge]
    -- A single edge with the id is the cheapest one itself.
    have hone : ((g.graph.outEdges u).filter fun e => TEdge.id e.bundle = id).length = 1 →
        (g.graph.outEdges u).filter (fun e => TEdge.id e.bundle = id) = [e] := by
      intro hlen
      obtain ⟨x, hx⟩ := List.length_eq_one_iff.mp hlen
      rw [hx] at hmem ⊢
      rw [List.mem_singleton.mp hmem]
    refine ⟨fun hnil => ?_, ⟨fun hlen => ?_, fun h => ?_⟩, fun y hy _ hnot => ?_⟩
    · rw [List.map_eq_nil_iff.mp hnil] at hmem
      cases hmem
    · rw [hone hlen, List.map_singleton, hcost]
    · simpa using congrArg List.length h
    · exact absurd (by simpa using congrArg List.length hy) hnot

/-- When every edge is found again, the rows become the same rows over the numbers of the table. -/
theorem HalfRows.graphRows (hg : g.Consistent) (h : HalfRows g true l rows)
    (hl : ∀ u ∈ l, u < g.graph.numVertices) (ht : l.getLast? = some t)
    (hfound : l.IsChain (FoundAgain g t)) :
    let rows' : List PathT := rows.flatMap (Path.graphRows g (g.vertexId t))
    HalfRows g true l rows' ∧ (rows.map (·.cost)).sum = (((rows'.map (·.cost)).sum : ℚ) : K) := by
  have hlast := hl t (List.mem_of_mem_getLast? ht)
  induction h with
  | last v agg =>
    have hv : v = t := Option.some.inj ht
    subst hv
    have hrow : Path.graphRows g (g.vertexId v) (⟨g.vertexId v, -1, 0, agg⟩ : PathT K) =
        [⟨g.vertexId v, -1, 0, 0⟩] := by
      rw [Path.graphRows, hg.map_vertexId hlast]
      rfl
    simp only [List.flatMap_cons, List.flatMap_nil, List.append_nil, hrow]
    exact ⟨.last v 0, by simp⟩
  | @step u v l w rows agg arc _ ih =>
    rw [List.isChain_cons_cons] at hfound
    obtain ⟨hrest, hsum⟩ := ih (fun x hx => hl x (List.mem_cons_of_mem _ hx))
      (by simpa using ht) hfound.2
    have hrow :=
      (graphRows_arc hg (hl u List.mem_cons_self) hlast arc (w : K) agg).2.1.mp hfound.1
    have hedge : (halfEdge g true u v w).1 = (g.getEdgeId u v w).1 := rfl
    rw [hedge]
    simp only [List.flatMap_cons, hrow, List.singleton_append, List.map_cons, List.sum_cons,
      Rat.cast_add]
    refine ⟨?_, by rw [hsum]⟩
    have hstep := HalfRows.step (K := ℚ) 0 arc hrest
    rwa [Rat.cast_id] at hstep

omit [LinearOrder K] [IsStrictOrderedRing K] in
/-- The rows of the cheapest arcs are those of a walk. -/
theorem HalfRows.linked {rows : List PathT} (h : HalfRows g true l rows) (hs : l.head? = some s)
    (ht : l.getLast? = some t) : Linked (IdJoins g) (g.vertexId t) (g.vertexId s) rows := by
  induction h generalizing s with
  | last v agg =>
    obtain rfl := Option.some.inj hs
    obtain rfl := Option.some.inj ht
    exact .last agg
  | @step u v l w rows agg arc _ ih =>
    obtain rfl := Option.some.inj hs
    obtain ⟨e, he, rfl, hc, hid⟩ := PgrBaseGraph.getEdgeId_arc arc.1
    have hjoins := idJoins_of_mem_outEdges he
    rw [AdjacencyList.source_of_mem_outEdges he, hc] at hjoins
    have hedge : (halfEdge g true u e.target w).1 = TEdge.id e.bundle := congrArg Prod.fst hid
    rw [hedge, Rat.cast_id]
    exact .step agg hjoins (ih rfl (by simpa using ht))

omit [LinearOrder K] [IsStrictOrderedRing K] in
/-- When every row has become one row of the same node and the new rows are those of a walk, every
    edge has been found again. -/
theorem HalfRows.found (hg : g.Consistent) (hcost : ∀ e ∈ g.graph.edges, 0 ≤ TEdge.cost e.bundle)
    (h : HalfRows g true l rows) (hl : ∀ u ∈ l, u < g.graph.numVertices)
    (ht : t < g.graph.numVertices)
    (hone : ∀ r ∈ rows, ∃ y, Path.graphRows g (g.vertexId t) r = [y] ∧ y.node = r.node)
    {i : Int} (hlinked : Linked (IdJoins g) (g.vertexId t) i
      (rows.flatMap (Path.graphRows g (g.vertexId t)))) : l.IsChain (FoundAgain g t) := by
  induction h generalizing i with
  | last v agg => exact List.isChain_singleton v
  | @step u v l w rows agg arc hrest ih =>
    have hlt := fun x hx => hl x (List.mem_cons_of_mem _ hx)
    have hone' := fun r hr => hone r (List.mem_cons_of_mem _ hr)
    obtain ⟨y, hy, hynode⟩ := hone _ List.mem_cons_self
    rw [List.flatMap_cons, hy, List.singleton_append] at hlinked
    -- The row after this one has the node of `v`.
    obtain ⟨y', rest', hflat, hnode'⟩ : ∃ y' rest',
        rows.flatMap (Path.graphRows g (g.vertexId t)) = y' :: rest' ∧
          y'.node = g.vertexId v := by
      obtain ⟨r, rows', rfl, hr⟩ : ∃ r rows', rows = r :: rows' ∧ r.node = g.vertexId v := by
        cases hrest with
        | last => exact ⟨_, _, rfl, rfl⟩
        | step => exact ⟨_, _, rfl, rfl⟩
      obtain ⟨y', hy', hnode'⟩ := hone' r List.mem_cons_self
      exact ⟨y', _, by rw [List.flatMap_cons, hy']; rfl, hnode'.trans hr⟩
    rw [List.isChain_cons_cons]
    generalize rows.flatMap (Path.graphRows g (g.vertexId t)) = flat at hlinked hflat ih
    cases hlinked with
    | last => cases hflat
    | @step _ j id cost agg' _ hjoins hlinked' =>
      refine ⟨?_, ih hlt hone' hlinked'⟩
      by_contra hnot
      obtain ⟨hedge, hzero, hw⟩ := (graphRows_arc hg (hl u List.mem_cons_self) ht arc (w : K)
        agg).2.2 _ hy hynode hnot
      simp only at hedge hzero hynode
      subst hedge hzero hynode
      have hj : j = g.vertexId v := by
        rw [hflat] at hlinked'
        cases hlinked' with
        | last => exact hnode'
        | step => exact hnode'
      subst hj
      have harc := arc_of_idJoins hg (hl u List.mem_cons_self) (hlt v List.mem_cons_self) hjoins
      obtain ⟨e, he, _, hc⟩ := arc.1
      have hnonneg := AdjacencyList.cost_of_mem_outEdges hcost he
      rw [hc] at hnonneg
      exact hw (le_antisymm (arc.2 harc) hnonneg)

end Lookup

end Path

namespace PgrBidirectional

open Path

variable {V E K : Type} [TVertex V] [TEdge E] [Field K] [LinearOrder K] [IsStrictOrderedRing K]
variable {g : PgrBaseGraph V E} {s t : Nat} {r : PgrBidirectional K} {lf lb : List Nat}

end PgrBidirectional

end PgRouting
