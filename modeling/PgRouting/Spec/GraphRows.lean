import PgRouting.Spec.PathTotal
import PgRouting.Spec.Dijkstra
import Mathlib.Data.List.Chain

/-!
# The rows of a search result

The A* and the bidirectional searches read a path back from the predecessors and
hand it to the constructor that looks every edge up in the graph again, by its id
among the out edges of the node. A row of the table has one edge there, or two in
an undirected graph when its two costs are different, and then the constructor
makes two rows of one.

## Key results

- `length_outEdges_filter`: the out edges of a vertex with a given id
- `foldlM_pushGraphRow`: what the constructor makes of the rows
- `newOfGraph_follows_iff`: when the rows are those of the path
-/

namespace PgRouting

/-- The row of the table can be passed from `i` to `j` at the cost `c`. -/
def EdgeT.Passes (directed : Bool) (e : EdgeT) (i j : Int) (c : ℚ) : Prop :=
  0 ≤ c ∧ (e.source = i ∧ e.target = j ∧ e.cost = c ∨
    e.target = i ∧ e.source = j ∧ e.reverseCost = c ∨
    directed = false ∧ (e.source = j ∧ e.target = i ∧ e.cost = c ∨
      e.target = j ∧ e.source = i ∧ e.reverseCost = c))

/-- An undirected graph has two edges for the row. -/
def EdgeT.Twice (e : EdgeT) : Prop := 0 ≤ e.cost ∧ 0 ≤ e.reverseCost ∧ e.cost ≠ e.reverseCost

instance (e : EdgeT) : Decidable e.Twice := inferInstanceAs (Decidable (_ ∧ _ ∧ _))

/-- Of a list without repeated ids the rows of one entry are left. -/
theorem flatMap_ite_id {α : Type} (f : EdgeT → List α) {e : EdgeT} (l : List EdgeT)
    (hids : (l.map (·.id)).Nodup) (he : e ∈ l) :
    (l.flatMap fun x => if x.id = e.id then f x else []) = f e := by
  induction l with
  | nil => cases he
  | cons x l ih =>
    rw [List.map_cons, List.nodup_cons] at hids
    rw [List.flatMap_cons]
    obtain rfl | he := List.mem_cons.mp he
    · have hrest : (l.flatMap fun x => if x.id = e.id then f x else []) = [] := by
        rw [List.flatMap_eq_nil_iff]
        intro x hx
        apply if_neg
        intro hid
        exact hids.1 (hid ▸ List.mem_map_of_mem hx)
      rw [if_pos rfl, hrest, List.append_nil]
    · have hne : x.id ≠ e.id := by
        intro hid
        exact hids.1 (hid ▸ List.mem_map_of_mem he)
      rw [if_neg hne, List.nil_append, ih hids.2 he]

namespace PgrBaseGraph

variable {V E : Type} [TVertex V] [TEdge E] {directed : Bool} {es : List EdgeT} {e : EdgeT}

variable (directed) in
/-- The edges with the id of a row of the table are those that the row put into the graph. -/
theorem ofTable_filter_id (hids : (es.map (·.id)).Nodup) (he : e ∈ es) :
    let g : PgrBaseGraph V E := ofTable directed es
    (g.graph.edges.filter fun b => TEdge.id b.bundle = e.id).map (fun b =>
      (g.vertexId b.source, g.vertexId b.target, TEdge.id b.bundle, TEdge.cost b.bundle)) =
    tableRows directed true e := by
  have hrows : ∀ x : EdgeT, (tableRows directed true x).filter (fun r => r.2.2.1 = e.id) =
      if x.id = e.id then tableRows directed true x else [] := by
    intro x
    by_cases hx : x.id = e.id
    · rw [if_pos hx, List.filter_eq_self]
      intro r hr
      simp only [tableRows, List.mem_append] at hr
      obtain hr | hr := hr <;> split at hr <;> simp_all
    · rw [if_neg hx, List.filter_eq_nil_iff]
      intro r hr
      simp only [tableRows, List.mem_append] at hr
      obtain hr | hr := hr <;> split at hr <;> simp_all
  intro g
  have hall := ofTable_idEdges (V := V) (E := E) directed es
  have hfilter := congrArg (List.filter fun r : IdEdge => r.2.2.1 = e.id) hall
  rw [idEdges, List.filter_map, List.filter_flatMap] at hfilter
  simp only [hrows] at hfilter
  rw [flatMap_ite_id (tableRows directed true) es hids he] at hfilter
  exact hfilter

omit [TVertex V] in
/-- The out edges with an id come from the edges with the id. -/
theorem outEdges_filter_id (g : PgrBaseGraph V E) (u : Nat) (id : Int) :
    (g.graph.outEdges u).filter (fun b => TEdge.id b.bundle = id) =
      (g.graph.edges.filter fun b => TEdge.id b.bundle = id).flatMap fun b =>
        (if b.source = u then [b] else []) ++
        (if !g.graph.directed ∧ b.target = u then [b.flip] else []) := by
  rw [AdjacencyList.outEdges]
  induction g.graph.edges with
  | nil => rfl
  | cons b l ih =>
    rw [List.flatMap_cons, List.filter_append, ih]
    by_cases hb : TEdge.id b.bundle = id
    · rw [List.filter_cons_of_pos (by simpa using hb), List.flatMap_cons]
      congr 1
      rw [List.filter_eq_self]
      intro x hx
      rw [List.mem_append] at hx
      obtain hx | hx := hx <;> split at hx <;> simp_all [BoostEdge.flip]
    · rw [List.filter_cons_of_neg (by simpa using hb)]
      have hnone : (((if b.source = u then [b] else []) ++
          (if !g.graph.directed ∧ b.target = u then [b.flip] else [])).filter
            fun b => TEdge.id b.bundle = id) = [] := by
        rw [List.filter_eq_nil_iff]
        intro x hx
        rw [List.mem_append] at hx
        obtain hx | hx := hx <;> split at hx <;> simp_all [BoostEdge.flip]
      rw [hnone, List.nil_append]

variable (directed es) in
/-- Every edge of the graph comes from a row of the table. -/
theorem exists_row {b : BoostEdge E}
    (hb : b ∈ (ofTable directed es : PgrBaseGraph V E).graph.edges) :
    ∃ e ∈ es, TEdge.id b.bundle = e.id ∧
      ((ofTable directed es : PgrBaseGraph V E).vertexId b.source,
        (ofTable directed es : PgrBaseGraph V E).vertexId b.target, TEdge.id b.bundle,
        TEdge.cost b.bundle) ∈ tableRows directed true e := by
  have hmem := List.mem_map_of_mem (f := fun b : BoostEdge E =>
    ((ofTable directed es : PgrBaseGraph V E).vertexId b.source,
      (ofTable directed es : PgrBaseGraph V E).vertexId b.target, TEdge.id b.bundle,
      TEdge.cost b.bundle)) hb
  change _ ∈ (ofTable directed es : PgrBaseGraph V E).idEdges at hmem
  rw [ofTable_idEdges] at hmem
  obtain ⟨e, he, hrow⟩ := List.mem_flatMap.mp hmem
  refine ⟨e, he, ?_, hrow⟩
  simp only [tableRows, List.mem_append] at hrow
  obtain hrow | hrow := hrow <;> split at hrow <;> simp_all

/-- An out edge to another vertex is the only one with its id, or one of two in an undirected
    graph that has two edges for the row. -/
theorem length_outEdges_filter (hids : (es.map (·.id)).Nodup) {u v : Nat} (hne : u ≠ v)
    {b : BoostEdge E} (hb : b ∈ (ofTable directed es : PgrBaseGraph V E).graph.outEdges u)
    (htarget : b.target = v) :
    ∃ e ∈ es, e.id = TEdge.id b.bundle ∧
      (((ofTable directed es : PgrBaseGraph V E).graph.outEdges u).filter
        fun x => TEdge.id x.bundle = TEdge.id b.bundle).length =
      if directed = false ∧ e.Twice then 2 else 1 := by
  have hdir := ofTable_directed (V := V) (E := E) directed es
  have hcons := ofTable_consistent (V := V) (E := E) directed es
  have hF := fun e he => ofTable_filter_id (V := V) (E := E) directed (e := e) hids he
  have hrow := fun b hb => exists_row (V := V) (E := E) directed es (b := b) hb
  generalize (ofTable directed es : PgrBaseGraph V E) = g at *
  simp only at hF
  -- The edge of the graph that shows itself as `b`, and its row of the table.
  obtain ⟨b₀, hb₀, hid, hends⟩ : ∃ b₀ ∈ g.graph.edges, TEdge.id b₀.bundle = TEdge.id b.bundle ∧
      (b₀.source = u ∧ b₀.target = v ∨ directed = false ∧ b₀.source = v ∧ b₀.target = u) := by
    obtain ⟨b₀, hb₀, ⟨rfl, hs⟩ | ⟨hd, rfl, ht⟩⟩ := AdjacencyList.mem_outEdges.mp hb
    · exact ⟨b, hb₀, rfl, .inl ⟨hs, htarget⟩⟩
    · exact ⟨b₀, hb₀, rfl, .inr ⟨hdir ▸ hd, htarget, ht⟩⟩
  obtain ⟨e, he, heid, _⟩ := hrow b₀ hb₀
  refine ⟨e, he, heid.symm.trans hid, ?_⟩
  rw [outEdges_filter_id, ← hid, heid]
  have hmem : b₀ ∈ g.graph.edges.filter fun x => TEdge.id x.bundle = e.id :=
    List.mem_filter.mpr ⟨hb₀, by simpa using heid⟩
  have hsub : ∀ x ∈ g.graph.edges.filter (fun x => TEdge.id x.bundle = e.id), x ∈ g.graph.edges :=
    fun x hx => (List.mem_filter.mp hx).1
  have hF := hF e he
  generalize g.graph.edges.filter (fun x => TEdge.id x.bundle = e.id) = F at *
  -- A row that has made one edge shows it at `u` once.
  have hone : ∀ x, F = [x] → ((F.flatMap fun b => (if b.source = u then [b] else []) ++
      (if !g.graph.directed ∧ b.target = u then [b.flip] else [])).length = 1) := by
    rintro x rfl
    obtain rfl := List.mem_singleton.mp hmem
    obtain ⟨hs, ht⟩ | ⟨hd, hs, ht⟩ := hends
    · simp [hs, ht, Ne.symm hne]
    · simp [hs, ht, Ne.symm hne, hdir, hd]
  -- How many edges a row makes depends on its two costs.
  by_cases hc : 0 ≤ e.cost
  · by_cases hr : 0 ≤ e.reverseCost ∧ (directed = true ∨ e.cost ≠ e.reverseCost)
    · rw [tableRows, if_pos hc, if_pos hr] at hF
      obtain ⟨x, F', rfl, hx, hF'⟩ := List.map_eq_cons_iff.mp hF
      obtain ⟨y, F'', rfl, hy, hF''⟩ := List.map_eq_cons_iff.mp hF'
      obtain rfl := List.map_eq_nil_iff.mp hF''
      -- The two edges join the same ends the other way round.
      have hxmem := hsub x List.mem_cons_self
      have hymem := hsub y (List.mem_cons_of_mem _ List.mem_cons_self)
      have hst : y.source = x.target := by
        apply hcons.vertexId_inj (hcons.ends y hymem).1 (hcons.ends x hxmem).2
        rw [(Prod.mk.inj hy).1, (Prod.mk.inj (Prod.mk.inj hx).2).1]
      have hts : y.target = x.source := by
        apply hcons.vertexId_inj (hcons.ends y hymem).2 (hcons.ends x hxmem).1
        rw [(Prod.mk.inj hx).1, (Prod.mk.inj (Prod.mk.inj hy).2).1]
      have hends : x.source = u ∧ x.target = v ∨ x.source = v ∧ x.target = u := by
        simp only [List.mem_cons, List.not_mem_nil, or_false] at hmem
        obtain rfl | rfl := hmem
        · exact hends.imp id And.right
        · rw [hst, hts] at hends
          exact (hends.imp And.symm fun h => ⟨h.2.2, h.2.1⟩).symm
      have htwice : directed = false → e.Twice := fun hd => ⟨hc, hr.1, by simpa [hd] using hr.2⟩
      cases hd : directed with
      | false =>
        rw [if_pos ⟨rfl, htwice hd⟩]
        obtain ⟨hs, ht⟩ | ⟨hs, ht⟩ := hends
        · simp [hst, hts, hs, ht, Ne.symm hne, hdir, hd]
        · simp [hst, hts, hs, ht, Ne.symm hne, hdir, hd]
      | true =>
        rw [if_neg (by simp)]
        obtain ⟨hs, ht⟩ | ⟨hs, ht⟩ := hends
        · simp [hst, hs, ht, Ne.symm hne, hdir, hd]
        · simp [hst, hs, ht, Ne.symm hne, hdir, hd]
    · rw [tableRows, if_pos hc, if_neg hr, List.append_nil] at hF
      obtain ⟨x, F', rfl, _, hF'⟩ := List.map_eq_cons_iff.mp hF
      obtain rfl := List.map_eq_nil_iff.mp hF'
      rw [hone x rfl, if_neg]
      rintro ⟨_, _, hrc, hne⟩
      -- Only the cost, or both in one edge.
      exact hr ⟨hrc, .inr hne⟩
  · by_cases hr : 0 ≤ e.reverseCost ∧ (directed = true ∨ e.cost ≠ e.reverseCost)
    · rw [tableRows, if_neg hc, if_pos hr, List.nil_append] at hF
      obtain ⟨x, F', rfl, _, hF'⟩ := List.map_eq_cons_iff.mp hF
      obtain rfl := List.map_eq_nil_iff.mp hF'
      rw [hone x rfl, if_neg]
      -- Only the reverse cost.
      exact fun h => hc h.2.1
    · rw [tableRows, if_neg hc, if_neg hr, List.append_nil] at hF
      rw [List.map_eq_nil_iff.mp hF] at hmem
      -- A row with no cost makes no edge, but `b₀` is one.
      cases hmem

/-- An out edge is a passage over the row of the table that has its id. -/
theorem passes_of_mem_outEdges {u : Nat} {b : BoostEdge E}
    (hb : b ∈ (ofTable directed es : PgrBaseGraph V E).graph.outEdges u) :
    ∃ e ∈ es, e.id = TEdge.id b.bundle ∧
      e.Passes directed ((ofTable directed es : PgrBaseGraph V E).vertexId u)
        ((ofTable directed es : PgrBaseGraph V E).vertexId b.target) (TEdge.cost b.bundle) := by
  have hdir := ofTable_directed (V := V) (E := E) directed es
  have hpass : ∀ {e i j id c}, (i, j, id, c) ∈ tableRows directed true e →
      e.Passes directed i j c ∧ (directed = false → e.Passes directed j i c) := by
    intro e i j id c hmem
    simp only [tableRows, List.mem_append] at hmem
    obtain hmem | hmem := hmem
    · split at hmem
      · obtain ⟨rfl, rfl, _, rfl⟩ : _ ∧ _ ∧ _ ∧ _ := by simpa using hmem
        exact ⟨⟨‹_›, .inl ⟨rfl, rfl, rfl⟩⟩,
          fun hd => ⟨‹_›, .inr (.inr ⟨hd, .inl ⟨rfl, rfl, rfl⟩⟩)⟩⟩
      · cases hmem
    · split at hmem
      · rename_i hr
        obtain ⟨rfl, rfl, _, rfl⟩ : _ ∧ _ ∧ _ ∧ _ := by simpa using hmem
        exact ⟨⟨hr.1, .inr (.inl ⟨rfl, rfl, rfl⟩)⟩,
          fun hd => ⟨hr.1, .inr (.inr ⟨hd, .inr ⟨rfl, rfl, rfl⟩⟩)⟩⟩
      · cases hmem
  obtain ⟨b₀, hb₀, ⟨rfl, hs⟩ | ⟨hd, rfl, ht⟩⟩ := AdjacencyList.mem_outEdges.mp hb
  · obtain ⟨e, he, hid, hrow⟩ := exists_row directed es hb₀
    exact ⟨e, he, hid.symm, hs ▸ (hpass hrow).1⟩
  · obtain ⟨e, he, hid, hrow⟩ := exists_row directed es hb₀
    exact ⟨e, he, hid.symm, ht ▸ (hpass hrow).2 (hdir ▸ hd)⟩

end PgrBaseGraph

namespace Path

open Algorithms (pathAlong)

variable {V E : Type} [TVertex V] [TEdge E] {g : PgrBaseGraph V E}

/-! ## What the constructor makes of the rows -/

/-- The rows that one row of the original becomes. -/
def graphRows {K : Type} (g : PgrBaseGraph V E) (endId : Int) (row : PathT K) : List PathT :=
  match g.verticesMap row.node with
  | none => []
  | some v =>
    if row.edge = -1 then [⟨endId, -1, 0, 0⟩]
    else ((g.graph.outEdges v).filter fun e => TEdge.id e.bundle = row.edge).map
      fun e => ⟨row.node, row.edge, TEdge.cost e.bundle, 0⟩

omit [TVertex V] in
/-- The constructor collects the rows, if the graph has all the nodes. -/
theorem foldlM_pushGraphRow {K : Type} (rows : List (PathT K)) : ∀ p : Path,
    (∀ row ∈ rows, ∃ v, g.verticesMap row.node = some v) →
    ∃ q, rows.foldlM (pushGraphRow g) p = some q ∧
      q.path = p.path ++ rows.flatMap (graphRows g p.endId) ∧ q.startId = p.startId ∧
      q.endId = p.endId := by
  induction rows with
  | nil =>
    intro p _
    exact ⟨p, rfl, by simp, rfl, rfl⟩
  | cons row rows ih =>
    intro p hknown
    obtain ⟨v, hv⟩ := hknown row List.mem_cons_self
    obtain ⟨q₁, hpush, hpath₁, hs₁, he₁⟩ : ∃ q, pushGraphRow g p row = some q ∧
        q.path = p.path ++ graphRows g p.endId row ∧ q.startId = p.startId ∧
        q.endId = p.endId := by
      simp only [pushGraphRow, graphRows, hv, Option.map_some]
      split
      · exact ⟨_, rfl, rfl, rfl, rfl⟩
      · refine ⟨_, rfl, ?_⟩
        rw [foldl_pushBack]
        exact ⟨rfl, rfl, rfl⟩
    obtain ⟨q, hrest, hpath, hs, he⟩ :=
      ih q₁ fun r hr => hknown r (List.mem_cons_of_mem _ hr)
    refine ⟨q, ?_, ?_, hs.trans hs₁, he.trans he₁⟩
    · rw [List.foldlM_cons, hpush]
      exact hrest
    · rw [hpath, hpath₁, he₁, List.flatMap_cons, List.append_assoc]

omit [TVertex V] in
/-- The constructor recalculates the rows, and keeps the total cost in one row if that is all that
    is asked for. -/
theorem newOfGraph_eq {K : Type} {P : Path K} (hP : P.path ≠ [])
    (hknown : ∀ row ∈ P.path, ∃ v, g.verticesMap row.node = some v) :
    ∃ q : Path, q.path = P.path.flatMap (graphRows g P.endId) ∧ q.startId = P.startId ∧
      q.endId = P.endId ∧ ∀ onlyCost, newOfGraph g P onlyCost = some (if onlyCost then
        { q.recalculateAggCost with
          path := [⟨P.endId, -1, q.recalculateAggCost.totCost, q.recalculateAggCost.totCost⟩] }
        else q.recalculateAggCost) := by
  obtain ⟨q, hfold, hpath, hstart, hend⟩ :=
    foldlM_pushGraphRow P.path (.new P.startId P.endId) hknown
  have hend' : q.recalculateAggCost.endId = P.endId := hend
  refine ⟨q, hpath, hstart, hend, fun onlyCost => ?_⟩
  simp only [newOfGraph, if_neg (mt List.length_eq_zero_iff.mp hP), hfold, Option.map_some, hend']

/-- When every entry becomes at least one and the result agrees with the list, every entry
    becomes one. -/
theorem flatMap_eq_map {α β γ : Type} {f : α → List β} {n : β → γ} {m : α → γ} {l : List α}
    (hpos : ∀ x ∈ l, f x ≠ []) (h : (l.flatMap f).map n = l.map m) :
    ∀ x ∈ l, ∃ y, f x = [y] ∧ n y = m x := by
  have hle : ∀ k : List α, (∀ x ∈ k, f x ≠ []) → k.length ≤ (k.flatMap f).length := by
    intro k
    induction k with
    | nil => simp
    | cons x k ih =>
      intro hk
      have hx := List.length_pos_iff.mpr (hk x List.mem_cons_self)
      have := ih fun y hy => hk y (List.mem_cons_of_mem _ hy)
      rw [List.flatMap_cons, List.length_append, List.length_cons]
      omega
  induction l with
  | nil =>
    intro x hx
    cases hx
  | cons x l ih =>
    have hposl := fun y hy => hpos y (List.mem_cons_of_mem _ hy)
    have hlen := congrArg List.length h
    have hx := List.length_pos_iff.mpr (hpos x List.mem_cons_self)
    have hl := hle l hposl
    simp only [List.flatMap_cons, List.length_map, List.length_append, List.length_cons] at hlen
    obtain ⟨y, hy⟩ := List.length_eq_one_iff.mp (show (f x).length = 1 by omega)
    rw [List.flatMap_cons, hy, List.singleton_append, List.map_cons, List.map_cons,
      List.cons_eq_cons] at h
    intro z hz
    obtain rfl | hz := List.mem_cons.mp hz
    · exact ⟨y, hy, h.1⟩
    · exact ih hposl h.2 z hz

/-- The row without its aggregate cost. -/
def eraseAgg (row : PathT) : PathT := { row with aggCost := 0 }

theorem recalculateLoop_eraseAgg (rows : List PathT) : ∀ totCost : ℚ,
    (recalculateLoop totCost rows).1.map eraseAgg = rows.map eraseAgg := by
  induction rows with
  | nil => exact fun _ => rfl
  | cons row rows ih =>
    intro totCost
    simp only [recalculateLoop, List.map_cons, ih]
    rfl

/-- The aggregate cost of a row is the sum of the costs before it. -/
theorem recalculateLoop_aggCost (rows : List PathT) : ∀ (totCost : ℚ) (i : Nat)
    (h : i < (recalculateLoop totCost rows).1.length),
    (recalculateLoop totCost rows).1[i].aggCost = totCost + ((rows.take i).map (·.cost)).sum := by
  induction rows with
  | nil =>
    intro totCost i h
    cases h
  | cons row rows ih =>
    intro totCost i h
    cases i with
    | zero => simp [recalculateLoop]
    | succ i =>
      simp only [recalculateLoop, List.getElem_cons_succ, List.take_succ_cons, List.map_cons,
        List.sum_cons]
      rw [ih]
      ring

/-! ## The rows of a path in the tree -/

variable {directed : Bool} {es : List EdgeT} {predecessors : Nat → Nat}
variable {distances : Nat → WithTop ℚ} {s b : Nat} {l : List Nat}

/-- A row of the path stands for an out edge of its node that leads to another vertex. -/
theorem treeRows_step (l : List Nat) (hchain : l.IsChain fun u v => u ≠ v ∧
      g.graph.Arc u v ((distances v).untopD 0 - (distances u).untopD 0)) :
    ∀ row ∈ treeRows g distances l, ∃ u ∈ l.dropLast, ∃ e ∈ g.graph.outEdges u, e.target ≠ u ∧
      row = ⟨g.vertexId u, TEdge.id e.bundle, TEdge.cost e.bundle, (distances u).untopD 0⟩ := by
  induction l with
  | nil =>
    intro row hrow
    cases hrow
  | cons u l ih =>
    cases l with
    | nil =>
      intro row hrow
      cases hrow
    | cons v l =>
      intro row hrow
      rw [List.isChain_cons_cons] at hchain
      obtain ⟨⟨hne, harc⟩, hchain⟩ := hchain
      obtain ⟨e, he, ht, hc, hid⟩ := PgrBaseGraph.getEdgeId_arc harc
      obtain rfl | hrow := List.mem_cons.mp hrow
      · refine ⟨u, List.mem_cons_self, e, he, ht ▸ Ne.symm hne, ?_⟩
        rw [hid, hc]
      · obtain ⟨x, hx, h⟩ := ih hchain row hrow
        exact ⟨x, List.mem_cons_of_mem _ hx, h⟩

/-- Every row of the path leads to the node of the next one. -/
theorem treeRows_joined (l : List Nat) (agg : ℚ) (hl : l.getLast? = some b)
    (hchain : l.IsChain fun u v => u ≠ v ∧ (PgrBaseGraph.ofTable directed es :
      PgrBaseGraph V E).graph.Arc u v ((distances v).untopD 0 - (distances u).untopD 0)) :
    let g : PgrBaseGraph V E := PgrBaseGraph.ofTable directed es
    let rows := treeRows g distances l ++ [⟨g.vertexId b, -1, 0, agg⟩]
    rows.IsChain fun x y => ∃ e ∈ es, e.id = x.edge ∧ e.Passes directed x.node y.node x.cost := by
  intro g rows
  apply (treeRows_along l agg hl hchain).2.imp
  rintro x y ⟨u, e, he, hx, hid, hy, hc⟩
  obtain ⟨row, hrow, hrowid, hpass⟩ := PgrBaseGraph.passes_of_mem_outEdges he
  rw [hx, hid, hy, hc]
  exact ⟨row, hrow, hrowid, hpass⟩

/-- The row has an edge, and the graph has one edge for its row of the table. -/
def OneEdge (directed : Bool) (es : List EdgeT) (row : PathT) : Prop :=
  row.edge ≠ -1 ∧ ¬ (directed = false ∧ ∃ e ∈ es, e.id = row.edge ∧ e.Twice)

/-- What a row of the path becomes: one row, the same but for the aggregate cost, or a row for the
    end when its edge is -1, or two when the graph has two edges for the row of the table. -/
structure Becomes (directed : Bool) (es : List EdgeT) (g : PgrBaseGraph V E) (t : Int)
    (row : PathT) : Prop where
  some : graphRows g t row ≠ []
  asEnd : row.edge = -1 → graphRows g t row = [⟨t, -1, 0, 0⟩]
  one : OneEdge directed es row → graphRows g t row = [eraseAgg row]
  two : row.edge ≠ -1 → ¬ OneEdge directed es row → (graphRows g t row).length = 2

theorem graphRows_step (hids : (es.map (·.id)).Nodup) {t : Int} {u : Nat} {agg : ℚ}
    (hu : u < (PgrBaseGraph.ofTable directed es : PgrBaseGraph V E).graph.vertices.length)
    {e : BoostEdge E} (he : e ∈ (PgrBaseGraph.ofTable directed es :
      PgrBaseGraph V E).graph.outEdges u) (hne : e.target ≠ u) :
    let g : PgrBaseGraph V E := PgrBaseGraph.ofTable directed es
    Becomes directed es g t ⟨g.vertexId u, TEdge.id e.bundle, TEdge.cost e.bundle, agg⟩ := by
  intro g
  generalize hrow : (⟨g.vertexId u, TEdge.id e.bundle, TEdge.cost e.bundle, agg⟩ : PathT) = row
  have hnode : row.node = g.vertexId u := hrow ▸ rfl
  have hid : row.edge = TEdge.id e.bundle := hrow ▸ rfl
  have hv : g.verticesMap row.node = Option.some u :=
    hnode ▸ (PgrBaseGraph.ofTable_consistent directed es).map_vertexId hu
  obtain ⟨x, hx, hxid, hlen⟩ := PgrBaseGraph.length_outEdges_filter hids (Ne.symm hne) he rfl
  rw [← hid] at hxid hlen
  have hmem : e ∈ (g.graph.outEdges u).filter fun y => TEdge.id y.bundle = row.edge :=
    List.mem_filter.mpr ⟨he, by simp [hid]⟩
  -- No other row of the table has the id.
  have htwice : OneEdge directed es row ↔ row.edge ≠ -1 ∧ ¬ (directed = false ∧ x.Twice) := by
    have hex : (∃ y ∈ es, y.id = row.edge ∧ y.Twice) ↔ x.Twice := by
      constructor
      · rintro ⟨y, hy, hyid, htwice⟩
        exact List.inj_on_of_nodup_map hids hy hx (hyid.trans hxid.symm) ▸ htwice
      · exact fun htwice => ⟨x, hx, hxid, htwice⟩
    rw [OneEdge, hex]
  change ((g.graph.outEdges u).filter fun y => TEdge.id y.bundle = row.edge).length = _ at hlen
  have hrows : graphRows g t row = if row.edge = -1 then [⟨t, -1, 0, 0⟩]
      else ((g.graph.outEdges u).filter fun y => TEdge.id y.bundle = row.edge).map
        fun y => ⟨row.node, row.edge, TEdge.cost y.bundle, 0⟩ := by
    rw [graphRows, hv]
  by_cases hedge : row.edge = -1
  · rw [if_pos hedge] at hrows
    exact ⟨hrows ▸ List.cons_ne_nil _ _, fun _ => hrows, fun h => absurd hedge h.1,
      fun h => absurd hedge h⟩
  · rw [if_neg hedge] at hrows
    refine ⟨fun hnil => ?_, fun h => absurd h hedge, fun hone => ?_, fun _ htwo => ?_⟩
    · rw [hrows, List.map_eq_nil_iff] at hnil
      rw [hnil] at hmem
      cases hmem
    · rw [if_neg (htwice.mp hone).2] at hlen
      obtain ⟨y, hy⟩ := List.length_eq_one_iff.mp hlen
      rw [hy] at hmem hrows
      obtain rfl := List.mem_singleton.mp hmem
      rw [hrows, ← hrow]
      rfl
    · rw [htwice, not_and, not_not] at htwo
      rw [hrows, List.length_map, hlen, if_pos (htwo hedge)]

/-- The rows of `q` and the one row of `q'` are those of a path over the nodes of `P` whose total
    cost is `d`. -/
structure Follows (directed : Bool) (es : List EdgeT) (P q q' : Path) (d : WithTop ℚ) : Prop where
  nodes : q.path.map (·.node) = P.path.map (·.node)
  joined : q.path.IsChain fun x y =>
    ∃ e ∈ es, e.id = x.edge ∧ e.Passes directed x.node y.node x.cost
  aggCost : ∀ i (h : i < q.path.length), q.path[i].aggCost = ((q.path.take i).map (·.cost)).sum
  sum : q.totCost = q.rowsCost
  total : P.path ≠ [] → q.totCost = d
  single : if P.path = [] then q'.path = []
    else ∃ row, q'.path = [row] ∧ row.cost = d ∧ row.aggCost = d ∧ q'.totCost = d

/-- Recalculated rows without their aggregate costs are the rows of a path. -/
theorem joined_recalculate {rows : List PathT}
    (h : rows.IsChain fun x y => ∃ e ∈ es, e.id = x.edge ∧ e.Passes directed x.node y.node x.cost)
    {rows' : List PathT} (heq : rows'.map eraseAgg = rows.map eraseAgg) :
    rows'.IsChain fun x y =>
      ∃ e ∈ es, e.id = x.edge ∧ e.Passes directed x.node y.node x.cost := by
  have h₁ := (List.isChain_map (R := fun x y : PathT =>
    ∃ e ∈ es, e.id = x.edge ∧ e.Passes directed x.node y.node x.cost) eraseAgg (l := rows)).mpr h
  rw [← heq] at h₁
  exact (List.isChain_map eraseAgg).mp h₁

theorem flatMap_singletons {α β : Type} {f : α → List β} {h : α → β} {l : List α}
    (hf : ∀ x ∈ l, f x = [h x]) : l.flatMap f = l.map h := by
  induction l with
  | nil => rfl
  | cons x l ih =>
    rw [List.flatMap_cons, hf x List.mem_cons_self, ih fun y hy => hf y (List.mem_cons_of_mem _ hy)]
    rfl

/-- Rows that agree but for their aggregate costs have the same nodes and costs. -/
theorem eraseAgg_congr {rows rows' : List PathT} (h : rows'.map eraseAgg = rows.map eraseAgg) :
    rows'.map (·.node) = rows.map (·.node) ∧ rows'.map (·.cost) = rows.map (·.cost) := by
  have hmap : ∀ {γ : Type} (f : PathT → γ), (∀ x, f (eraseAgg x) = f x) →
      rows'.map f = rows.map f := by
    intro γ f hf
    have := congrArg (List.map f) h
    simpa only [List.map_map, Function.comp_def, hf] using this
  exact ⟨hmap (·.node) fun _ => rfl, hmap (·.cost) fun _ => rfl⟩

/-- Recalculating the right rows gives a path that follows the original. -/
theorem follows_recalculate {P q : Path} {t : Int} {d : ℚ} (hP : P.path ≠ [])
    (heq : q.path.map eraseAgg = P.path.map eraseAgg)
    (hjoined : P.path.IsChain fun x y =>
      ∃ e ∈ es, e.id = x.edge ∧ e.Passes directed x.node y.node x.cost)
    (hsum : P.rowsCost = d) :
    Follows directed es P q.recalculateAggCost { q.recalculateAggCost with
      path := [⟨t, -1, q.recalculateAggCost.totCost, q.recalculateAggCost.totCost⟩] } d := by
  obtain ⟨htot, hrows⟩ := recalculateAggCost_spec q
  have herase : q.recalculateAggCost.path.map eraseAgg = P.path.map eraseAgg :=
    (recalculateLoop_eraseAgg q.path 0).trans heq
  have hd : q.recalculateAggCost.totCost = d := by
    rw [htot, rowsCost, (eraseAgg_congr heq).2]
    exact hsum
  refine ⟨(eraseAgg_congr herase).1, joined_recalculate hjoined herase, fun i hi => ?_,
    htot.trans hrows.symm, fun _ => congrArg _ hd, ?_⟩
  · have hcosts : q.recalculateAggCost.path.map (·.cost) = q.path.map (·.cost) :=
      recalculateLoop_costs 0 q.path
    rw [List.map_take, hcosts, ← List.map_take, ← zero_add (List.sum _)]
    exact recalculateLoop_aggCost q.path 0 i hi
  · rw [if_neg hP]
    exact ⟨_, rfl, congrArg _ hd, congrArg _ hd, congrArg _ hd⟩

omit [TVertex V] in
/-- The constructor makes of rows before the end those of a path exactly when each of them has one
    edge. -/
theorem follows_iff_oneEdge {P : Path} {rows : List PathT} {endRow : PathT} {t : Int} {d : ℚ}
    (hP : P.path = rows ++ [endRow]) (hPend : P.endId = t)
    (hknown : ∀ row ∈ P.path, ∃ v, g.verticesMap row.node = some v)
    (hend : graphRows g t endRow = [eraseAgg endRow])
    (hrows : ∀ row ∈ rows, row.node ≠ t ∧ Becomes directed es g t row)
    (hjoined : P.path.IsChain fun x y =>
      ∃ e ∈ es, e.id = x.edge ∧ e.Passes directed x.node y.node x.cost)
    (hsum : P.rowsCost = d) :
    (∃ q q', newOfGraph g P false = some q ∧ newOfGraph g P true = some q' ∧
      Follows directed es P q q' d) ↔ ∀ row ∈ rows, OneEdge directed es row := by
  have hPne : P.path ≠ [] := by
    rw [hP]
    simp
  obtain ⟨q₀, hpath, _, _, hcode⟩ := newOfGraph_eq hPne hknown
  rw [hPend] at hpath hcode
  rw [hcode, hcode]
  have hcases : ∀ row ∈ P.path, row ∈ rows ∨ row = endRow := by
    intro row hrow
    rwa [hP, List.mem_append, List.mem_singleton] at hrow
  constructor
  · rintro ⟨q, q', hq, _, hfollows⟩ row hrow
    obtain rfl := Option.some.inj hq
    have hnodes : (P.path.flatMap (graphRows g t)).map (·.node) = P.path.map (·.node) := by
      rw [← hpath, ← hfollows.nodes]
      exact (eraseAgg_congr (recalculateLoop_eraseAgg q₀.path 0)).1.symm
    -- No row is lost, so as many rows as before means one for each.
    have hpos : ∀ x ∈ P.path, graphRows g t x ≠ [] := by
      intro x hx
      obtain hx | rfl := hcases x hx
      · exact (hrows x hx).2.some
      · rw [hend]
        exact List.cons_ne_nil _ _
    obtain ⟨hnode, hbecomes⟩ := hrows row hrow
    obtain ⟨y, hy, hynode⟩ := flatMap_eq_map hpos hnodes row (hP ▸ List.mem_append_left _ hrow)
    -- A row with the id -1 becomes the last row, which stands at another vertex.
    have hedge : row.edge ≠ -1 := by
      intro hedge
      rw [hbecomes.asEnd hedge, List.cons_eq_cons] at hy
      obtain ⟨rfl, _⟩ := hy
      exact hnode hynode.symm
    by_contra htwo
    have hlen := hbecomes.two hedge htwo
    rw [hy] at hlen
    cases hlen
  · -- Each row is kept but for its aggregate cost, which is calculated again.
    intro hone
    have hall : ∀ row ∈ P.path, graphRows g t row = [eraseAgg row] := by
      intro row hrow
      obtain hrow | rfl := hcases row hrow
      · exact (hrows row hrow).2.one (hone row hrow)
      · exact hend
    have heq : q₀.path.map eraseAgg = P.path.map eraseAgg := by
      rw [hpath, flatMap_singletons hall, List.map_map]
      rfl
    exact ⟨_, _, rfl, rfl, follows_recalculate hPne heq hjoined hsum⟩

/-- The constructor for a search result gives the rows of the path, or the one row with its total
    cost, exactly when no edge of the path has the id -1 and an undirected graph does not have two
    edges for any of them. -/
theorem newOfGraph_follows_iff (directed : Bool) (es : List EdgeT) (hids : (es.map (·.id)).Nodup)
    {s t : Int} {a b : Nat}
    (hs : (PgrBaseGraph.ofTable directed es : PgrBaseGraph V E).verticesMap s = some a)
    (ht : (PgrBaseGraph.ofTable directed es : PgrBaseGraph V E).verticesMap t = some b)
    (r : ShortestPaths) (hr : r.Documented
      (PgrBaseGraph.ofTable directed es : PgrBaseGraph V E).graph a [b]) (unset : ℚ) :
    let g : PgrBaseGraph V E := PgrBaseGraph.ofTable directed es
    ∃ P, newOfPredecessors unset g a b r.predecessors r.distances false true = some P ∧
      ((∃ q q', newOfGraph g P false = some q ∧ newOfGraph g P true = some q' ∧
        Follows directed es P q q' (r.distances b)) ↔
      ∀ row ∈ P.path.dropLast, OneEdge directed es row) := by
  intro g
  have hg : g.Consistent := PgrBaseGraph.ofTable_consistent directed es
  -- The constructor adds the total of the rows to what the memory held.
  have hread : ∀ p, completePath g a b r.predecessors r.distances true (.new s t) = some p →
      newOfPredecessors unset g a b r.predecessors r.distances false true =
        some { p with totCost := unset + p.totCost } := by
    intro p hp
    rw [newOfPredecessors, ofPredecessors, hg.vertexId_eq hs, hg.vertexId_eq ht]
    simp only [Bool.not_false, if_true, hp, Option.map_some]
  obtain ⟨_, hpath⟩ | ⟨hne, l, htree, _, hpath⟩ := Algorithms.completePath_spec hg hs ht hr
  · -- There is no path, and an empty path stays empty.
    refine ⟨_, hread _ hpath, iff_of_true ⟨_, _, rfl, rfl, ?_⟩ fun row hrow => ?_⟩
    · exact ⟨rfl, List.isChain_nil, fun i hi => absurd hi (Nat.not_lt_zero i), rfl,
        fun h => absurd rfl h, rfl⟩
    · cases hrow
  · refine ⟨_, hread _ hpath, ?_⟩
    obtain ⟨d, hd, _⟩ := htree.walk
    have hsum : (pathAlong g r.distances s t l b).rowsCost = d := by
      rw [rowsCost, pathAlong, List.map_append, List.sum_append, htree.treeRows_cost, hd]
      simp
    have hlt := htree.lt hg.ends (hg.lt hs)
    have hstep := treeRows_step l htree.chain
    have hjoined := (treeRows_joined (b := b) l ((r.distances b).untopD 0) (by
      obtain ⟨l', rfl⟩ := htree.eq_snoc
      simp) htree.chain)
    simp only at hjoined
    rw [hg.vertexId_eq ht] at hjoined
    -- The target stands once on the path, at its end.
    have hlast : ∀ u ∈ l.dropLast, u ∈ l ∧ u ≠ b := by
      intro u hu
      have hnodup := htree.nodup
      obtain ⟨l', rfl⟩ := htree.eq_snoc
      rw [List.dropLast_concat] at hu
      refine ⟨List.mem_append_left _ hu, ?_⟩
      rintro rfl
      exact (List.nodup_append.mp hnodup).2.2 u hu u (List.mem_singleton.mpr rfl) rfl
    have hknown : ∀ u ∈ l, g.verticesMap (g.vertexId u) = some u :=
      fun u hu => hg.map_vertexId (hlt u hu)
    rw [hd]
    have hpath : (pathAlong g r.distances s t l b).path =
        treeRows g r.distances l ++ [⟨t, -1, 0, (r.distances b).untopD 0⟩] := rfl
    -- Every row but the last leaves a vertex by an edge of the search, which the second pass looks
    -- up.
    have hrows : ∀ row ∈ treeRows g r.distances l,
        (∃ v, g.verticesMap row.node = some v) ∧ row.node ≠ t ∧ Becomes directed es g t row := by
      intro row hrow
      obtain ⟨u, hu, e, he, hne, rfl⟩ := hstep row hrow
      obtain ⟨hu, hub⟩ := hlast u hu
      refine ⟨⟨u, hknown u hu⟩, fun hut => hub ?_, graphRows_step hids (hlt u hu) he hne⟩
      exact hg.vertexId_inj (hlt u hu) (hg.lt ht) (hut.trans (hg.vertexId_eq ht).symm)
    have hendRow : graphRows g t ⟨t, -1, 0, (r.distances b).untopD 0⟩ = [⟨t, -1, 0, 0⟩] := by
      rw [graphRows, ht]
      rfl
    -- The second pass finds all vertices it asks for.
    have hnodes : ∀ row ∈ (pathAlong g r.distances s t l b).path,
        ∃ v, g.verticesMap row.node = some v := by
      intro row hrow
      rw [hpath] at hrow
      obtain hrow | hrow := List.mem_append.mp hrow
      · exact (hrows row hrow).1
      · rw [List.mem_singleton.mp hrow]
        exact ⟨b, ht⟩
    have hends : (pathAlong g r.distances s t l b).endId = t := rfl
    generalize pathAlong g r.distances s t l b = p at *
    have hiff := follows_iff_oneEdge (P := { p with totCost := unset + p.totCost }) hpath hends
      hnodes hendRow (fun row hrow => (hrows row hrow).2) (hpath ▸ hjoined) hsum
    have hdrop : p.path.dropLast = treeRows g r.distances l := by
      rw [hpath, List.dropLast_concat]
    rw [← hdrop] at hiff
    exact hiff

/-- A table with two ways from 1 to 4, and with a row of two costs beside the shorter one. -/
def twoWaysTable : List EdgeT :=
  [⟨7, 1, 2, 3, -1⟩, ⟨8, 2, 3, 1, 1⟩, ⟨9, 1, 3, 7, 2⟩, ⟨10, 3, 4, 2, -1⟩]

/-- The rows of the shortest way are those of the path, read from the graph. -/
theorem newOfGraph_follows_iff_twoWays :
    let g : PgrBaseGraph BasicVertex BasicEdge := PgrBaseGraph.ofTable true twoWaysTable
    let r := searchPaths g.graph 0 [3]
    ∃ P, newOfPredecessors 0 g 0 3 r.predecessors r.distances false true = some P ∧
      P.path.map (·.edge) = [7, 8, 10, -1] ∧
      ∃ q q', newOfGraph g P false = some q ∧ newOfGraph g P true = some q' ∧
        Follows true twoWaysTable P q q' (r.distances 3) := by
  intro g r
  have hdoc : r.Documented g.graph 0 [3] :=
    searchPaths_documented (PgrBaseGraph.ofTable_cost_nonneg true _) 0 [3]
  obtain ⟨P, hP, hiff⟩ := newOfGraph_follows_iff true twoWaysTable (by decide) (s := 1) (t := 4)
    (by decide +kernel) (by decide +kernel) r hdoc 0
  have hedges : (newOfPredecessors 0 g 0 3 r.predecessors r.distances false true).map
      (·.path.map (·.edge)) = some [7, 8, 10, -1] := by decide +kernel
  obtain ⟨P', hP', hedges⟩ := Option.map_eq_some_iff.mp hedges
  obtain rfl : P' = P := Option.some.inj (hP'.symm.trans hP)
  refine ⟨P', hP, hedges, hiff.mpr fun row hrow => ⟨fun hend => ?_, fun h => by cases h.1⟩⟩
  have hmem : row.edge ∈ (P'.path.map (·.edge)).dropLast := by
    rw [← List.map_dropLast]
    exact List.mem_map_of_mem hrow
  rw [hedges, hend] at hmem
  exact absurd hmem (by decide)

/-- An undirected edge with the costs 5 and 1, which the graph has twice: its one row becomes
    two. -/
theorem newOfGraph_repeats_row :
    let g : PgrBaseGraph BasicVertex BasicEdge := PgrBaseGraph.ofTable false [⟨7, 1, 2, 5, 1⟩]
    let r := searchPaths g.graph 0 [1]
    r.Documented g.graph 0 [1] ∧
    ∃ P q, newOfPredecessors 0 g 0 1 r.predecessors r.distances false true = some P ∧
      newOfGraph g P false = some q ∧ P.path.map (·.node) = [1, 2] ∧
      q.path.map (·.node) = [1, 1, 2] ∧ q.totCost = 6 := by
  intro g r
  constructor
  · exact searchPaths_documented (PgrBaseGraph.ofTable_cost_nonneg false _) 0 [1]
  · have hrun : (newOfPredecessors 0 g 0 1 r.predecessors r.distances false true).bind (fun P =>
        (newOfGraph g P false).map fun q =>
          (P.path.map (·.node), q.path.map (·.node), q.totCost)) = some ([1, 2], [1, 1, 2], 6) := by
      decide +kernel
    obtain ⟨P, hP, hq⟩ := Option.bind_eq_some_iff.mp hrun
    obtain ⟨q, hq, heq⟩ := Option.map_eq_some_iff.mp hq
    simp only [Prod.mk.injEq] at heq
    exact ⟨P, q, hP, hq, heq⟩

end Path

end PgRouting
