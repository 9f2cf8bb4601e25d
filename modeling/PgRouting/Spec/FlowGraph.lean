import Mathlib.Data.Fintype.Prod
import PgRouting.Lib.Flow
import PgRouting.Native.MaxFlow

/-!
# The network of a flow graph

The vertices with ids come first, then the supersource and the supersink. An arc joins two vertices
with ids, or it belongs to a source or to a sink.

## Key results

- `ofDirected_shape`, `ofAlgorithm_shape`: the edges of the graphs that are built
- `Shape.kind`: where an arc leads
-/

namespace PgRouting

namespace PgrFlowGraph

variable {g : PgrFlowGraph} {edges : List EdgeT} {ids sources sinks : Identifiers Int}
  {rows : List EdgePair} {u v : Nat} {x : Int} {e : g.E}

/-! ## Arcs -/

@[simp] theorem rev_rev (e : g.E) : g.rev (g.rev e) = e := by simp [rev]

@[simp] theorem source_rev (e : g.E) : g.source (g.rev e) = g.target e := by
  cases h : e.2 <;> simp [source, target, rev, h]

@[simp] theorem target_rev (e : g.E) : g.target (g.rev e) = g.source e := by
  rw [← source_rev, rev_rev]

/-- The graph as a network. -/
def network (g : PgrFlowGraph) : FlowNetwork Nat g.E where
  source := g.source
  target := g.target
  rev := g.rev
  rev_rev := rev_rev
  source_rev := source_rev

theorem mem_inserted (e : g.E) : e ∈ g.inserted := by
  refine List.mem_flatMap.mpr ⟨e.1, List.mem_finRange _, ?_⟩
  obtain ⟨i, b⟩ := e
  cases b <;> simp

theorem nodup_inserted : g.inserted.Nodup := by
  rw [inserted, List.nodup_flatMap]
  refine ⟨fun i _ => by simp, (List.nodup_finRange _).imp fun {i j} hne => ?_⟩
  rw [Function.onFun, List.disjoint_left]
  intro e hi hj
  have h1 : e.1 = i := by
    simp only [List.mem_cons, List.not_mem_nil, or_false] at hi
    obtain rfl | rfl := hi <;> rfl
  have h2 : e.1 = j := by
    simp only [List.mem_cons, List.not_mem_nil, or_false] at hj
    obtain rfl | rfl := hj <;> rfl
  exact hne (h1.symm.trans h2)

@[simp] theorem mem_outEdges : e ∈ g.outEdges v ↔ g.source e = v := by
  simp [outEdges, mem_inserted]

theorem nodup_outEdges : (g.outEdges v).Nodup := nodup_inserted.filter _

theorem edge_isSome_iff : (g.edge u v).isSome ↔ ∃ e, g.source e = u ∧ g.target e = v := by
  simp [edge]

/-! ## How the graph is built -/

/-- A loop that adds pairs which only depend on the ids. -/
theorem foldl_pairs {α : Type} {f : PgrFlowGraph → α → PgrFlowGraph}
    (pairs : List Int → α → List EdgePair)
    (hf : ∀ g x, f g x = { g with pairs := g.pairs ++ pairs g.ids x }) (l : List α)
    (g : PgrFlowGraph) :
    l.foldl f g = { g with pairs := g.pairs ++ l.flatMap (pairs g.ids) } := by
  induction l generalizing g with
  | nil => simp
  | cons x l ih =>
    rw [List.foldl_cons, ih, hf, List.append_assoc]
    rfl

/-- The ids of the vertices. -/
def vertexIds (edges : List EdgeT) (sources sinks : Identifiers Int) : Identifiers Int :=
  edges.foldl (fun vertices e => (vertices.add e.source).add e.target)
    (sinks.ids.foldl .add sources)

theorem mem_foldl_ends {s : Identifiers Int} :
    x ∈ edges.foldl (fun vertices e => (vertices.add e.source).add e.target) s ↔
      x ∈ s ∨ ∃ e ∈ edges, x = e.source ∨ x = e.target := by
  induction edges generalizing s with
  | nil => simp
  | cons e edges ih =>
    rw [List.foldl_cons, ih, Identifiers.mem_add, Identifiers.mem_add]
    simp only [List.mem_cons, exists_eq_or_imp]
    grind

theorem mem_vertexIds : x ∈ vertexIds edges sources sinks ↔
    (x ∈ sources ∨ x ∈ sinks) ∨ ∃ e ∈ edges, x = e.source ∨ x = e.target :=
  mem_foldl_ends.trans (or_congr_left Identifiers.mem_foldl_add)

/-- The vertex of an id. -/
def vertexOf (ids : Identifiers Int) (x : Int) : Nat := ids.ids.idxOf x

/-- The pairs at the supersource. -/
def sourcePair (ids : Identifiers Int) (x : Int) : EdgePair :=
  ⟨ids.ids.length, vertexOf ids x, none, int32Max, 0⟩

/-- The pairs at the supersink. -/
def sinkPair (ids : Identifiers Int) (x : Int) : EdgePair :=
  ⟨vertexOf ids x, ids.ids.length + 1, none, int32Max, 0⟩

/-- A pair of a row of the edges. -/
structure RowPair (ids : Identifiers Int) (pair : EdgePair) : Prop where
  source : pair.source < ids.ids.length
  target : pair.target < ids.ids.length
  id : pair.id.isSome
  capacity : 0 ≤ pair.capacity
  reverseCapacity : 0 ≤ pair.reverseCapacity

/-- The graph with pairs for the rows of the edges. -/
structure Shape (g : PgrFlowGraph) (ids sources sinks : Identifiers Int)
    (rows : List EdgePair) : Prop where
  ids_eq : g.ids = ids.ids
  numVertices : g.numVertices = ids.ids.length + 2
  supersource : g.supersource = ids.ids.length
  supersink : g.supersink = ids.ids.length + 1
  pairs : g.pairs =
    sources.ids.map (sourcePair ids) ++ sinks.ids.map (sinkPair ids) ++ rows
  sources_mem : ∀ x ∈ sources, x ∈ ids
  sinks_mem : ∀ x ∈ sinks, x ∈ ids
  rowPairs : ∀ pair ∈ rows, RowPair ids pair

theorem setSupersource_eq (g : PgrFlowGraph) (s : Identifiers Int) :
    g.setSupersource s =
      { g with
        numVertices := g.numVertices + 1
        supersource := g.numVertices
        pairs := g.pairs ++ s.ids.map fun x =>
          ⟨g.numVertices, g.ids.idxOf x, none, int32Max, 0⟩ } := by
  rw [List.map_eq_flatMap]
  exact foldl_pairs (fun ids x => [⟨g.numVertices, ids.idxOf x, none, int32Max, 0⟩])
    (fun _ _ => rfl) _ _

theorem setSupersink_eq (g : PgrFlowGraph) (s : Identifiers Int) :
    g.setSupersink s =
      { g with
        numVertices := g.numVertices + 1
        supersink := g.numVertices
        pairs := g.pairs ++ s.ids.map fun x =>
          ⟨g.ids.idxOf x, g.numVertices, none, int32Max, 0⟩ } := by
  rw [List.map_eq_flatMap]
  exact foldl_pairs (fun ids x => [⟨ids.idxOf x, g.numVertices, none, int32Max, 0⟩])
    (fun _ _ => rfl) _ _

theorem addVertices_shape (edges : List EdgeT) (sources sinks : Identifiers Int) :
    Shape (addVertices edges sources sinks) (vertexIds edges sources sinks) sources sinks [] := by
  rw [addVertices, setSupersource_eq, setSupersink_eq]
  refine ⟨rfl, rfl, rfl, rfl, ?_, fun x hx => ?_, fun x hx => ?_, fun _ h => ?_⟩
  · simp only [List.nil_append, List.append_nil]
    rfl
  · exact mem_vertexIds.mpr (.inl (.inl hx))
  · exact mem_vertexIds.mpr (.inl (.inr hx))
  · exact absurd h List.not_mem_nil

/-- A loop that adds the pairs of rows. -/
theorem Shape.foldl (h : Shape g ids sources sinks rows) {α : Type}
    {f : PgrFlowGraph → α → PgrFlowGraph} (pairs : List Int → α → List EdgePair)
    (hf : ∀ g x, f g x = { g with pairs := g.pairs ++ pairs g.ids x }) (l : List α)
    (hrows : ∀ x ∈ l, ∀ pair ∈ pairs ids.ids x, RowPair ids pair) :
    Shape (l.foldl f g) ids sources sinks (rows ++ l.flatMap (pairs ids.ids)) := by
  rw [foldl_pairs pairs hf, h.ids_eq]
  refine ⟨rfl, h.numVertices, h.supersource, h.supersink, ?_, h.sources_mem, h.sinks_mem,
    fun pair hpair => ?_⟩
  · simp only [h.pairs, List.append_assoc]
  · obtain hpair | hpair := List.mem_append.mp hpair
    · exact h.rowPairs pair hpair
    · obtain ⟨x, hx, hpair⟩ := List.mem_flatMap.mp hpair
      exact hrows x hx pair hpair

theorem vertexOf_lt (h : x ∈ ids) : vertexOf ids x < ids.ids.length := List.idxOf_lt_length_of_mem h

theorem getElem?_vertexOf (h : x ∈ ids) : ids.ids[vertexOf ids x]? = some x := by
  rw [List.getElem?_eq_getElem (vertexOf_lt h)]
  exact congrArg some (List.getElem_idxOf (vertexOf_lt h))

theorem vertexOf_inj {y : Int} (hx : x ∈ ids) (h : vertexOf ids x = vertexOf ids y) : x = y :=
  (List.idxOf_inj hx).mp h

theorem edge_ends_mem {row : EdgeT} (h : row ∈ edges) :
    row.source ∈ vertexIds edges sources sinks ∧ row.target ∈ vertexIds edges sources sinks :=
  ⟨mem_vertexIds.mpr (.inr ⟨row, h, .inl rfl⟩), mem_vertexIds.mpr (.inr ⟨row, h, .inr rfl⟩)⟩

/-! ## The two kinds of graph -/

/-- Whether `pgr_edgeDisjointPaths` goes along a row, forwards or backwards. -/
def Open (directed : Bool) (row : EdgeT) (back : Bool) : Prop :=
  if directed then 0 ≤ (if back then row.reverseCost else row.cost)
  else 0 ≤ row.cost ∨ 0 ≤ row.reverseCost

instance (directed : Bool) (row : EdgeT) (back : Bool) : Decidable (Open directed row back) := by
  unfold Open
  infer_instance

/-- The pair of a row for edge disjoint paths. -/
def disjointPair (ids : Identifiers Int) (directed : Bool) (row : EdgeT) : EdgePair :=
  ⟨vertexOf ids row.source, vertexOf ids row.target, some row.id,
    if Open directed row false then 1 else 0, if Open directed row true then 1 else 0⟩

theorem ofDirected_shape (edges : List EdgeT) (sources sinks : Identifiers Int)
    (directed : Bool) :
    Shape (ofDirected edges sources sinks directed) (vertexIds edges sources sinks) sources sinks
      (edges.map (disjointPair (vertexIds edges sources sinks) directed)) := by
  rw [List.map_eq_flatMap]
  refine (addVertices_shape edges sources sinks).foldl (fun ids (row : EdgeT) =>
    [⟨ids.idxOf row.source, ids.idxOf row.target, some row.id,
      if Open directed row false then 1 else 0, if Open directed row true then 1 else 0⟩])
    (fun g row => ?_) edges fun row hrow pair hpair => ?_
  · cases directed with
    | true => rfl
    | false =>
      simp only [Open, Bool.false_eq_true, if_false, ge_iff_le, addPair, getBoostVertex]
      split <;> rfl
  · obtain rfl := List.mem_singleton.mp hpair
    obtain ⟨hsource, htarget⟩ : row.source ∈ vertexIds edges sources sinks ∧
      row.target ∈ vertexIds edges sources sinks := edge_ends_mem hrow
    refine ⟨vertexOf_lt hsource, vertexOf_lt htarget, rfl, ?_, ?_⟩
    · show 0 ≤ if Open directed row false then (1 : Int) else 0
      split <;> decide
    · show 0 ≤ if Open directed row true then (1 : Int) else 0
      split <;> decide

/-- The pairs of a row for the maximum flow. -/
def flowPairs (ids : Identifiers Int) (algorithm : Int) (row : EdgeT) : List EdgePair :=
  if algorithm = 1 then
    (if row.cost > 0 then
      [⟨vertexOf ids row.source, vertexOf ids row.target, some row.id, ⌊row.cost⌋, 0⟩] else []) ++
    (if row.reverseCost > 0 then
      [⟨vertexOf ids row.target, vertexOf ids row.source, some row.id, ⌊row.reverseCost⌋, 0⟩]
      else [])
  else [⟨vertexOf ids row.source, vertexOf ids row.target, some row.id, toCapacity row.cost,
    toCapacity row.reverseCost⟩]

theorem toCapacity_nonneg (c : ℚ) : 0 ≤ toCapacity c := by
  unfold toCapacity
  split
  · rename_i h
    exact Int.floor_nonneg.mpr h.le
  · exact le_refl 0

theorem flowPairs_rowPair {algorithm : Int} {row : EdgeT} (hsource : row.source ∈ ids)
    (htarget : row.target ∈ ids) : ∀ pair ∈ flowPairs ids algorithm row, RowPair ids pair := by
  have h1 := vertexOf_lt hsource
  have h2 := vertexOf_lt htarget
  intro pair hpair
  rw [flowPairs] at hpair
  split at hpair
  · obtain hpair | hpair := List.mem_append.mp hpair
    · split at hpair
      · rename_i hpos
        obtain rfl := List.mem_singleton.mp hpair
        exact ⟨h1, h2, rfl, Int.floor_nonneg.mpr hpos.le, le_refl 0⟩
      · exact absurd hpair List.not_mem_nil
    · split at hpair
      · rename_i hpos
        obtain rfl := List.mem_singleton.mp hpair
        exact ⟨h2, h1, rfl, Int.floor_nonneg.mpr hpos.le, le_refl 0⟩
      · exact absurd hpair List.not_mem_nil
  · obtain rfl := List.mem_singleton.mp hpair
    exact ⟨h1, h2, rfl, toCapacity_nonneg _, toCapacity_nonneg _⟩

theorem ofAlgorithm_shape (edges : List EdgeT) (sources sinks : Identifiers Int)
    (algorithm : Int) :
    Shape (ofAlgorithm edges sources sinks algorithm) (vertexIds edges sources sinks) sources sinks
      (edges.flatMap (flowPairs (vertexIds edges sources sinks) algorithm)) := by
  have hshape := addVertices_shape edges sources sinks
  have hrows : ∀ row ∈ edges, ∀ pair ∈ flowPairs (vertexIds edges sources sinks) algorithm row,
      RowPair (vertexIds edges sources sinks) pair := fun row hrow =>
    flowPairs_rowPair (edge_ends_mem hrow).1 (edge_ends_mem hrow).2
  by_cases halgorithm : algorithm = 1
  · subst halgorithm
    refine hshape.foldl (fun ids (row : EdgeT) =>
      (if row.cost > 0 then
        [⟨ids.idxOf row.source, ids.idxOf row.target, some row.id, ⌊row.cost⌋, 0⟩] else []) ++
      (if row.reverseCost > 0 then
        [⟨ids.idxOf row.target, ids.idxOf row.source, some row.id, ⌊row.reverseCost⌋, 0⟩]
        else [])) (fun g row => ?_) edges hrows
    simp only [addPair, getBoostVertex]
    split <;> split <;> simp
  · rw [ofAlgorithm, if_neg halgorithm, insertEdges]
    have hpairs : flowPairs (vertexIds edges sources sinks) algorithm = fun row =>
        [⟨vertexOf (vertexIds edges sources sinks) row.source,
          vertexOf (vertexIds edges sources sinks) row.target, some row.id, toCapacity row.cost,
          toCapacity row.reverseCost⟩] := funext fun row => if_neg halgorithm
    rw [hpairs] at hrows ⊢
    refine hshape.foldl (fun ids (row : EdgeT) => [⟨ids.idxOf row.source, ids.idxOf row.target,
      some row.id, toCapacity row.cost, toCapacity row.reverseCost⟩]) (fun g row => ?_) edges hrows
    rfl

/-! ## Where an arc leads -/

/-- The kinds of arcs. -/
inductive ArcKind (ids sources sinks : Identifiers Int) (rows : List EdgePair) (e : g.E) : Prop
  | row (hpair : g.pairs.get e.1 ∈ rows)
  | toSource (x : Int) (hx : x ∈ sources) (hsource : g.source e = ids.ids.length)
      (htarget : g.target e = vertexOf ids x) (hcapacity : g.capacity e = int32Max)
  | fromSource (x : Int) (hx : x ∈ sources) (hsource : g.source e = vertexOf ids x)
      (htarget : g.target e = ids.ids.length) (hcapacity : g.capacity e = 0)
  | fromSink (x : Int) (hx : x ∈ sinks) (hsource : g.source e = vertexOf ids x)
      (htarget : g.target e = ids.ids.length + 1) (hcapacity : g.capacity e = int32Max)
  | toSink (x : Int) (hx : x ∈ sinks) (hsource : g.source e = ids.ids.length + 1)
      (htarget : g.target e = vertexOf ids x) (hcapacity : g.capacity e = 0)

theorem Shape.kind (h : Shape g ids sources sinks rows) (e : g.E) :
    ArcKind ids sources sinks rows e := by
  have hmem : g.pairs.get e.1 ∈ g.pairs := List.get_mem _ _
  obtain ⟨i, back⟩ := e
  have hpairs := h.pairs
  generalize hpair : g.pairs.get i = pair at hmem
  rw [hpairs, List.mem_append, List.mem_append, List.mem_map, List.mem_map] at hmem
  obtain (⟨x, hx, rfl⟩ | ⟨x, hx, rfl⟩) | hrow := hmem
  · cases back
    · exact .toSource x hx (by simp only [source, hpair]; rfl) (by simp only [target, hpair]; rfl)
        (by simp only [capacity, hpair]; rfl)
    · exact .fromSource x hx (by simp only [source, hpair]; rfl)
        (by simp only [target, hpair]; rfl) (by simp only [capacity, hpair]; rfl)
  · cases back
    · exact .fromSink x hx (by simp only [source, hpair]; rfl) (by simp only [target, hpair]; rfl)
        (by simp only [capacity, hpair]; rfl)
    · exact .toSink x hx (by simp only [source, hpair]; rfl) (by simp only [target, hpair]; rfl)
        (by simp only [capacity, hpair]; rfl)
  · exact .row (hpair ▸ hrow)

theorem Shape.row_lt (h : Shape g ids sources sinks rows) (he : g.pairs.get e.1 ∈ rows) :
    g.source e < ids.ids.length ∧ g.target e < ids.ids.length := by
  have hpair := h.rowPairs _ he
  unfold source target
  cases e.2
  · exact ⟨hpair.source, hpair.target⟩
  · exact ⟨hpair.target, hpair.source⟩

theorem Shape.capacity_nonneg (h : Shape g ids sources sinks rows) (e : g.E) :
    0 ≤ g.capacity e := by
  cases h.kind e with
  | row he =>
    have hpair := h.rowPairs _ he
    unfold capacity
    cases e.2
    · exact hpair.capacity
    · exact hpair.reverseCapacity
  | toSource _ _ _ _ hcapacity => rw [hcapacity]; decide
  | fromSource _ _ _ _ hcapacity => rw [hcapacity]
  | fromSink _ _ _ _ hcapacity => rw [hcapacity]; decide
  | toSink _ _ _ _ hcapacity => rw [hcapacity]

/-- Only the edges of rows join vertices with ids. -/
theorem Shape.row_of_lt (h : Shape g ids sources sinks rows)
    (hlt : g.source e < ids.ids.length ∧ g.target e < ids.ids.length) :
    g.pairs.get e.1 ∈ rows := by
  cases h.kind e with
  | row hpair => exact hpair
  | toSource | fromSource | fromSink | toSink => omega

/-- Every source has its edge from the supersource. -/
theorem Shape.exists_toSource (h : Shape g ids sources sinks rows) (hx : x ∈ sources) :
    ∃ e : g.E, g.source e = ids.ids.length ∧ g.target e = vertexOf ids x ∧
      g.capacity e = int32Max := by
  have hmem : sourcePair ids x ∈ g.pairs := by
    rw [h.pairs]
    exact List.mem_append_left _ (List.mem_append_left _ (List.mem_map_of_mem hx))
  obtain ⟨i, hi⟩ := List.get_of_mem hmem
  refine ⟨(i, false), ?_⟩
  simp only [source, target, capacity, hi]
  exact ⟨rfl, rfl, rfl⟩

/-- Every sink has its edge to the supersink. -/
theorem Shape.exists_fromSink (h : Shape g ids sources sinks rows) (hx : x ∈ sinks) :
    ∃ e : g.E, g.source e = vertexOf ids x ∧ g.target e = ids.ids.length + 1 ∧
      g.capacity e = int32Max := by
  have hmem : sinkPair ids x ∈ g.pairs := by
    rw [h.pairs]
    exact List.mem_append_left _ (List.mem_append_right _ (List.mem_map_of_mem hx))
  obtain ⟨i, hi⟩ := List.get_of_mem hmem
  refine ⟨(i, false), ?_⟩
  simp only [source, target, capacity, hi]
  exact ⟨rfl, rfl, rfl⟩

/-- An edge to the supersource comes from a source. -/
theorem Shape.source_of_target (h : Shape g ids sources sinks rows)
    (htarget : g.target e = g.supersource) : ∃ x ∈ sources, g.source e = vertexOf ids x := by
  rw [h.supersource] at htarget
  cases h.kind e with
  | row hpair =>
    have := h.row_lt hpair
    omega
  | toSource x hx _ ht =>
    have := vertexOf_lt (h.sources_mem x hx)
    omega
  | fromSource x hx hsource => exact ⟨x, hx, hsource⟩
  | fromSink _ _ _ ht => omega
  | toSink x hx _ ht =>
    have := vertexOf_lt (h.sinks_mem x hx)
    omega

/-! ## Flows -/

/-- The flow on the edges. -/
def flow (g : PgrFlowGraph) (residual : g.E → Int) (e : g.E) : Int := g.capacity e - residual e

/-- The flow on the edges between vertices with ids. -/
def rowFlow (g : PgrFlowGraph) (residual : g.E → Int) (n : Nat) (e : g.E) : Int :=
  if g.source e < n ∧ g.target e < n then g.flow residual e else 0

theorem rowFlow_skew {residual : g.E → Int} {n : Nat}
    (hskew : ∀ e, g.flow residual (g.rev e) = -g.flow residual e) (e : g.E) :
    rowFlow g residual n (g.rev e) = -rowFlow g residual n e := by
  simp only [rowFlow, source_rev, target_rev, hskew, and_comm]
  split
  · rfl
  · exact neg_zero.symm

/-- The edges of rows that carry the flow. -/
def flowArcs (g : PgrFlowGraph) (residual : g.E → Int) (n : Nat) : Finset g.E :=
  {e | 0 < g.flow residual e ∧ g.source e < n ∧ g.target e < n}

variable {residual : g.E → Int}

theorem mem_flowArcs {n : Nat} : e ∈ flowArcs g residual n ↔
    0 < g.flow residual e ∧ g.source e < n ∧ g.target e < n := by
  simp [flowArcs]

theorem carrying_rowFlow (n : Nat) :
    FlowNetwork.carrying (rowFlow g residual n) = flowArcs g residual n := by
  ext e
  rw [FlowNetwork.carrying, Finset.mem_filter_univ, mem_flowArcs, rowFlow]
  split
  · rename_i hlt
    exact (and_iff_left hlt).symm
  · rename_i hlt
    exact iff_of_false (lt_irrefl 0) fun he => hlt he.2

/-- The id of a vertex. -/
def idAt (ids : Identifiers Int) (v : Nat) : Int := ids.ids.getD v 0

theorem idAt_vertexOf (hx : x ∈ ids) : idAt ids (vertexOf ids x) = x := by
  rw [idAt, List.getD_eq_getElem?_getD, getElem?_vertexOf hx]
  rfl

theorem idAt_mem (hv : v < ids.ids.length) : idAt ids v ∈ ids := by
  rw [idAt, List.getD_eq_getElem?_getD, List.getElem?_eq_getElem hv]
  exact List.getElem_mem hv

theorem vertexOf_idAt (hv : v < ids.ids.length) : vertexOf ids (idAt ids v) = v := by
  rw [idAt, List.getD_eq_getElem?_getD, List.getElem?_eq_getElem hv, vertexOf]
  exact List.Nodup.idxOf_getElem ids.nodup v hv

theorem idAt_eq_iff (hv : v < ids.ids.length) (hx : x ∈ ids) :
    idAt ids v = x ↔ v = vertexOf ids x :=
  ⟨fun h => h ▸ (vertexOf_idAt hv).symm, fun h => h ▸ idAt_vertexOf hx⟩

theorem getVertexId_eq (hids : g.ids = ids.ids) (hv : v < ids.ids.length) :
    g.getVertexId v = some (idAt ids v) := by
  rw [getVertexId, hids, idAt, List.getD_eq_getElem?_getD, List.getElem?_eq_getElem hv]
  rfl

end PgrFlowGraph

end PgRouting
