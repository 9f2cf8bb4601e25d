import PgRouting.Lib.Walk
import PgRouting.Native.LineGraphFull
import PgRouting.Spec.BaseGraph
import Mathlib.Data.List.Nodup
import Mathlib.Data.Set.Function

/-!
# The rows of the full line graph

A vertex of the line graph is a pair: a vertex of the graph and an edge that leaves or enters
it. `apply_transformation` numbers the pairs in the order in which it inserts them, and
`get_postgres_results_directed` gives each of them the id it is written with: the first pair
of a vertex gets the id of the vertex, the others the next negative numbers.

Different pairs are written with different ids unless an id of the graph is one of these
negative numbers.

## Key results

- `Built.applyTransformation`: the line graph, in terms of pairs
- `Distinct.renumber`: a new id is not taken
- `getPostgresResultsDirected_faithful`
-/

namespace PgRouting

namespace PgrLineGraphFull

open PgrBaseGraph

variable {g : PgrLineGraphFull} {digraph : PgrBaseGraph BasicVertex BasicEdge}
  {l : List (Int × Int)} {p q : Int × Int} {qs : List ((Int × Int) × (Int × Int))}

/-! ## Numbering the pairs -/

/-- The pairs have been inserted in this order, and edges between them have been added. -/
structure Built (l : List (Int × Int)) (qs : List ((Int × Int) × (Int × Int)))
    (g : PgrLineGraphFull) : Prop where
  vertices : g.graph.vertices.map (·.vertexId) =
    (List.range l.length).map fun k : Nat => (k : Int) + 1
  transformation : ∀ (k : Nat) (p), l[k]? = some p → g.mTransformationMap (k + 1) = some p
  index : ∀ (k : Nat) (p), l[k]? = some p → g.mVertexMap p = some ((k : Int) + 1)
  verticesMap : ∀ k < l.length, g.verticesMap (k + 1) = some k
  edges : g.graph.edges.map (fun e => (e.source, e.target)) =
    qs.map fun q => (l.idxOf q.1, l.idxOf q.2)
  members : ∀ q ∈ qs, q.1 ∈ l ∧ q.2 ∈ l

theorem Built.numVertices (h : Built l qs g) : g.graph.numVertices = l.length := by
  have hlength := congrArg List.length h.vertices
  simpa [AdjacencyList.numVertices] using hlength

theorem Built.insertVertex (h : Built l qs g) {v e : Int} (hnew : (v, e) ∉ l) :
    Built (l ++ [(v, e)]) qs (g.insertVertex v e) := by
  -- An old vertex, or the new one behind them.
  have hget : ∀ {k : Nat} {p : Int × Int}, (l ++ [(v, e)])[k]? = some p →
      l[k]? = some p ∧ k < l.length ∨ k = l.length ∧ p = (v, e) := by
    intro k p hk
    obtain hlt | hge := Nat.lt_or_ge k l.length
    · rw [List.getElem?_append_left hlt] at hk
      exact .inl ⟨hk, hlt⟩
    · rw [List.getElem?_append_right hge, List.getElem?_singleton] at hk
      split at hk
      · exact .inr ⟨by omega, (Option.some.inj hk).symm⟩
      · cases hk
  have hn := h.numVertices
  constructor
  · show (g.graph.vertices ++ [_]).map _ = _
    rw [List.map_append, h.vertices, List.length_append, List.length_singleton, List.range_succ,
      List.map_append]
    simp [hn]
  · intro k p hk
    show Function.update g.mTransformationMap ((g.graph.numVertices : Int) + 1) _ _ = _
    obtain ⟨hk, hlt⟩ | ⟨rfl, rfl⟩ := hget hk
    · rw [Function.update_of_ne (by omega)]
      exact h.transformation k p hk
    · rw [hn, Function.update_self]
  · intro k p hk
    show Function.update g.mVertexMap (v, e) _ _ = _
    obtain ⟨hk, hlt⟩ | ⟨rfl, rfl⟩ := hget hk
    · have hne : p ≠ (v, e) := fun heq => hnew (heq ▸ List.mem_of_getElem? hk)
      rw [Function.update_of_ne hne]
      exact h.index k p hk
    · rw [hn, Function.update_self]
  · intro k hk
    rw [List.length_append, List.length_singleton] at hk
    show Function.update g.verticesMap ((g.graph.numVertices : Int) + 1) _ _ = _
    obtain hlt | heq : k < l.length ∨ k = l.length := by omega
    · rw [Function.update_of_ne (by omega)]
      exact h.verticesMap k hlt
    · rw [hn, heq, Function.update_self]
  · show g.graph.edges.map _ = _
    rw [h.edges]
    refine List.map_congr_left fun q hq => ?_
    rw [List.idxOf_append_of_mem (h.members q hq).1, List.idxOf_append_of_mem (h.members q hq).2]
  · exact fun q hq =>
      ⟨List.mem_append_left _ (h.members q hq).1, List.mem_append_left _ (h.members q hq).2⟩

theorem Built.graphAddEdge (h : Built l qs g) (hp : p ∈ l) (hq : q ∈ l) :
    Built l (qs ++ [(p, q)]) (g.graphAddEdge p.1 q.1 p.2 q.2) := by
  have hindex : ∀ {p : Int × Int}, p ∈ l →
      (g.verticesMap ((g.mVertexMap p).getD 0)).getD 0 = l.idxOf p := by
    intro p hp
    rw [h.index _ p (List.getElem?_idxOf hp), Option.getD_some,
      h.verticesMap _ (List.idxOf_lt_length_of_mem hp), Option.getD_some]
  refine ⟨h.vertices, h.transformation, h.index, h.verticesMap, ?_, ?_⟩
  · show (g.graph.edges ++ [_]).map _ = _
    rw [List.map_append, List.map_append, h.edges]
    simp only [List.map_cons, List.map_nil]
    rw [hindex hp, hindex hq]
  · intro r hr
    obtain hr | hr := List.mem_append.mp hr
    · exact h.members r hr
    · obtain rfl := List.mem_singleton.mp hr
      exact ⟨hp, hq⟩

/-- A loop that inserts a pair a round. -/
theorem Built.insertVertices {α : Type} (v : Int) (f : α → Int) {as : List α} (h : Built l qs g)
    (hnew : (l ++ as.map fun a => (v, f a)).Nodup) :
    Built (l ++ as.map fun a => (v, f a)) qs (as.foldl (fun g a => g.insertVertex v (f a)) g) := by
  induction as generalizing l g with
  | nil => simpa using h
  | cons a as ih =>
    rw [List.map_cons, List.append_cons] at hnew ⊢
    have hfirst : (v, f a) ∉ l := by
      have hleft := (List.nodup_append.mp hnew).1
      exact fun hmem => (List.nodup_append.mp hleft).2.2 _ hmem _ (List.mem_singleton_self _) rfl
    exact ih (h.insertVertex hfirst) hnew

/-- A loop that adds an edge a round. -/
theorem Built.addEdges {α : Type} (f : α → (Int × Int) × (Int × Int)) {as : List α}
    (h : Built l qs g) (hmem : ∀ a ∈ as, (f a).1 ∈ l ∧ (f a).2 ∈ l) :
    Built l (qs ++ as.map f)
      (as.foldl (fun g a => g.graphAddEdge (f a).1.1 (f a).2.1 (f a).1.2 (f a).2.2) g) := by
  induction as generalizing qs g with
  | nil => simpa using h
  | cons a as ih =>
    obtain ⟨ha, hmem⟩ := List.forall_mem_cons.mp hmem
    rw [List.map_cons, List.append_cons]
    exact ih (h.graphAddEdge ha.1 ha.2) hmem

/-! ## The pairs of a graph -/

variable (digraph) in
/-- An edge at the vertex that it leaves. -/
def sourceEnd (e : BoostEdge BasicEdge) : Int × Int := (digraph.vertexId e.source, e.bundle.id)

variable (digraph) in
/-- An edge at the vertex that it enters. -/
def targetEnd (e : BoostEdge BasicEdge) : Int × Int := (digraph.vertexId e.target, e.bundle.id)

variable (digraph) in
/-- The pairs of a vertex, in the order in which they are inserted. -/
def pairsOf (v : Nat) : List (Int × Int) :=
  (digraph.graph.outEdges v).map (fun e => (digraph.vertexId v, e.bundle.id)) ++
    (digraph.graph.inEdges v).map fun e => (digraph.vertexId v, e.bundle.id)

variable (digraph) in
/-- The turns at a vertex: an edge that enters it with one that leaves it. -/
def turnsOf (v : Nat) : List ((Int × Int) × (Int × Int)) :=
  (digraph.graph.inEdges v).flatMap fun i =>
    (digraph.graph.outEdges v).map fun o =>
      ((digraph.vertexId v, i.bundle.id), (digraph.vertexId v, o.bundle.id))

variable (digraph) in
/-- The edges that enter a vertex, from their pair at one end to their pair at the other. -/
def roadsOf (v : Nat) : List ((Int × Int) × (Int × Int)) :=
  (digraph.graph.inEdges v).map fun e =>
    ((digraph.vertexId e.source, e.bundle.id), (digraph.vertexId v, e.bundle.id))

variable (digraph) in
/-- What is found at all vertices. -/
def atVertices {α : Type} (f : Nat → List α) : List α :=
  (List.range digraph.graph.numVertices).flatMap f

theorem Built.splitIn {v : Nat} {i : BoostEdge BasicEdge} (h : Built l qs g)
    (hnew : (digraph.vertexId v, i.bundle.id) ∉ l)
    (hout : ∀ o ∈ digraph.graph.outEdges v, (digraph.vertexId v, o.bundle.id) ∈ l) :
    Built (l ++ [(digraph.vertexId v, i.bundle.id)])
      (qs ++ (digraph.graph.outEdges v).map fun o =>
        ((digraph.vertexId v, i.bundle.id), (digraph.vertexId v, o.bundle.id)))
      (splitIn digraph v g i) :=
  (h.insertVertex hnew).addEdges
    (fun o => ((digraph.vertexId v, i.bundle.id), (digraph.vertexId v, o.bundle.id)))
    fun o ho => ⟨List.mem_append_right _ (List.mem_singleton_self _),
      List.mem_append_left _ (hout o ho)⟩

theorem Built.splitIns {v : Nat} {is : List (BoostEdge BasicEdge)} (h : Built l qs g)
    (hnew : (l ++ is.map fun i => (digraph.vertexId v, i.bundle.id)).Nodup)
    (hout : ∀ o ∈ digraph.graph.outEdges v, (digraph.vertexId v, o.bundle.id) ∈ l) :
    Built (l ++ is.map fun i => (digraph.vertexId v, i.bundle.id))
      (qs ++ is.flatMap fun i => (digraph.graph.outEdges v).map fun o =>
        ((digraph.vertexId v, i.bundle.id), (digraph.vertexId v, o.bundle.id)))
      (is.foldl (PgrLineGraphFull.splitIn digraph v) g) := by
  induction is generalizing l qs g with
  | nil => simpa using h
  | cons i is ih =>
    rw [List.map_cons, List.append_cons] at hnew ⊢
    rw [List.flatMap_cons, ← List.append_assoc]
    have hfirst : (digraph.vertexId v, i.bundle.id) ∉ l := by
      have hleft := (List.nodup_append.mp hnew).1
      exact fun hmem => (List.nodup_append.mp hleft).2.2 _ hmem _ (List.mem_singleton_self _) rfl
    exact ih (h.splitIn hfirst hout) hnew fun o ho => List.mem_append_left _ (hout o ho)

theorem Built.splitVertex {v : Nat} (h : Built l qs g) (hnew : (l ++ pairsOf digraph v).Nodup) :
    Built (l ++ pairsOf digraph v) (qs ++ turnsOf digraph v) (splitVertex digraph g v) := by
  rw [pairsOf, ← List.append_assoc] at hnew ⊢
  have hout := h.insertVertices (digraph.vertexId v) (fun e : BoostEdge BasicEdge => e.bundle.id)
    (List.nodup_append.mp hnew).1
  exact hout.splitIns hnew fun o ho => List.mem_append_right _ (List.mem_map_of_mem ho)

theorem Built.splitVertices {vs : List Nat} (h : Built l qs g)
    (hnew : (l ++ vs.flatMap (pairsOf digraph)).Nodup) :
    Built (l ++ vs.flatMap (pairsOf digraph)) (qs ++ vs.flatMap (turnsOf digraph))
      (vs.foldl (PgrLineGraphFull.splitVertex digraph) g) := by
  induction vs generalizing l qs g with
  | nil => simpa using h
  | cons v vs ih =>
    rw [List.flatMap_cons, ← List.append_assoc] at hnew ⊢
    rw [List.flatMap_cons, ← List.append_assoc]
    exact ih (h.splitVertex (List.nodup_append.mp hnew).1) hnew

theorem Built.connectVertices {vs : List Nat} (h : Built l qs g)
    (hmem : ∀ v ∈ vs, ∀ r ∈ roadsOf digraph v, r.1 ∈ l ∧ r.2 ∈ l) :
    Built l (qs ++ vs.flatMap (roadsOf digraph)) (vs.foldl (connectVertex digraph) g) := by
  induction vs generalizing qs g with
  | nil => simpa using h
  | cons v vs ih =>
    obtain ⟨hv, hmem⟩ := List.forall_mem_cons.mp hmem
    rw [List.flatMap_cons, ← List.append_assoc]
    exact ih (h.addEdges (fun e : BoostEdge BasicEdge =>
      ((digraph.vertexId e.source, e.bundle.id), (digraph.vertexId v, e.bundle.id)))
      fun e he => hv _ (List.mem_map_of_mem he)) hmem

/-- A directed graph without self-loops in which no two edges have one id. -/
structure LineInput (digraph : PgrBaseGraph BasicVertex BasicEdge) : Prop where
  directed : digraph.graph.directed = true
  consistent : digraph.Consistent
  ids : (digraph.graph.edges.map (·.bundle.id)).Nodup
  loops : ∀ e ∈ digraph.graph.edges, e.source ≠ e.target

namespace LineInput

variable (h : LineInput digraph) {v : Nat} {e f : BoostEdge BasicEdge}
include h

theorem outEdges_eq (v : Nat) :
    digraph.graph.outEdges v = digraph.graph.edges.filter (·.source = v) := by
  unfold AdjacencyList.outEdges
  rw [h.directed]
  induction digraph.graph.edges with
  | nil => rfl
  | cons e l ih =>
    rw [List.flatMap_cons, ih, List.filter_cons]
    by_cases he : e.source = v <;> simp [he]

theorem inEdges_eq (v : Nat) :
    digraph.graph.inEdges v = digraph.graph.edges.filter (·.target = v) := by
  rw [AdjacencyList.inEdges, h.directed]
  rfl

theorem mem_outEdges : e ∈ digraph.graph.outEdges v ↔ e ∈ digraph.graph.edges ∧ e.source = v := by
  rw [h.outEdges_eq, List.mem_filter, decide_eq_true_eq]

theorem mem_inEdges : e ∈ digraph.graph.inEdges v ↔ e ∈ digraph.graph.edges ∧ e.target = v := by
  rw [h.inEdges_eq, List.mem_filter, decide_eq_true_eq]

theorem id_inj (he : e ∈ digraph.graph.edges) (hf : f ∈ digraph.graph.edges)
    (hid : e.bundle.id = f.bundle.id) : e = f :=
  List.inj_on_of_nodup_map h.ids he hf hid

theorem edges_nodup : digraph.graph.edges.Nodup := .of_map _ h.ids

theorem source_lt (he : e ∈ digraph.graph.edges) : e.source < digraph.graph.numVertices :=
  (h.consistent.ends e he).1

theorem target_lt (he : e ∈ digraph.graph.edges) : e.target < digraph.graph.numVertices :=
  (h.consistent.ends e he).2

theorem sourceEnd_inj (he : e ∈ digraph.graph.edges) (hf : f ∈ digraph.graph.edges)
    (heq : sourceEnd digraph e = sourceEnd digraph f) : e = f :=
  h.id_inj he hf (congrArg Prod.snd heq)

theorem targetEnd_inj (he : e ∈ digraph.graph.edges) (hf : f ∈ digraph.graph.edges)
    (heq : targetEnd digraph e = targetEnd digraph f) : e = f :=
  h.id_inj he hf (congrArg Prod.snd heq)

/-- The pairs at the two ends of edges differ. -/
theorem sourceEnd_ne_targetEnd (he : e ∈ digraph.graph.edges) (hf : f ∈ digraph.graph.edges) :
    sourceEnd digraph e ≠ targetEnd digraph f := by
  intro heq
  obtain rfl := h.id_inj he hf (congrArg Prod.snd heq)
  exact h.loops e he (h.consistent.vertexId_inj (h.source_lt he) (h.target_lt he)
    (congrArg Prod.fst heq))

theorem pairsOf_eq (v : Nat) : pairsOf digraph v =
    (digraph.graph.outEdges v).map (sourceEnd digraph) ++
      (digraph.graph.inEdges v).map (targetEnd digraph) := by
  unfold pairsOf sourceEnd targetEnd
  congr 1
  · exact List.map_congr_left fun e he => by rw [(h.mem_outEdges.mp he).2]
  · exact List.map_congr_left fun e he => by rw [(h.mem_inEdges.mp he).2]

theorem turnsOf_eq (v : Nat) : turnsOf digraph v =
    (digraph.graph.inEdges v).flatMap fun i =>
      (digraph.graph.outEdges v).map fun o => (targetEnd digraph i, sourceEnd digraph o) := by
  unfold turnsOf sourceEnd targetEnd
  refine List.flatMap_congr fun i hi => List.map_congr_left fun o ho => ?_
  rw [(h.mem_outEdges.mp ho).2, (h.mem_inEdges.mp hi).2]

theorem roadsOf_eq (v : Nat) : roadsOf digraph v =
    (digraph.graph.inEdges v).map fun e => (sourceEnd digraph e, targetEnd digraph e) := by
  unfold roadsOf sourceEnd targetEnd
  exact List.map_congr_left fun e he => by rw [(h.mem_inEdges.mp he).2]

theorem mem_pairs : p ∈ atVertices digraph (pairsOf digraph) ↔
    ∃ e ∈ digraph.graph.edges, p = sourceEnd digraph e ∨ p = targetEnd digraph e := by
  simp only [atVertices, List.mem_flatMap, List.mem_range, h.pairsOf_eq, List.mem_append,
    List.mem_map, h.mem_outEdges, h.mem_inEdges]
  constructor
  · rintro ⟨v, _, ⟨e, he, rfl⟩ | ⟨e, he, rfl⟩⟩
    · exact ⟨e, he.1, .inl rfl⟩
    · exact ⟨e, he.1, .inr rfl⟩
  · rintro ⟨e, he, rfl | rfl⟩
    · exact ⟨e.source, h.source_lt he, .inl ⟨e, ⟨he, rfl⟩, rfl⟩⟩
    · exact ⟨e.target, h.target_lt he, .inr ⟨e, ⟨he, rfl⟩, rfl⟩⟩

/-- What is found at different vertices differs when it names the vertex. -/
theorem atVertices_nodup {α : Type} {f : Nat → List α} (name : α → Int)
    (hname : ∀ v, ∀ a ∈ f v, name a = digraph.vertexId v) (hf : ∀ v, (f v).Nodup) :
    (atVertices digraph f).Nodup := by
  refine List.nodup_flatMap.mpr ⟨fun v _ => hf v, ?_⟩
  refine List.Nodup.pairwise_of_forall_ne List.nodup_range fun u hu v hv huv => ?_
  intro a ha ha'
  exact huv (h.consistent.vertexId_inj (List.mem_range.mp hu) (List.mem_range.mp hv)
    ((hname u a ha).symm.trans (hname v a ha')))

theorem pairs_nodup : (atVertices digraph (pairsOf digraph)).Nodup := by
  refine h.atVertices_nodup Prod.fst (fun v p hp => ?_) fun v => ?_
  · obtain hp | hp := List.mem_append.mp hp
    · obtain ⟨e, _, rfl⟩ := List.mem_map.mp hp
      rfl
    · obtain ⟨e, _, rfl⟩ := List.mem_map.mp hp
      rfl
  · rw [h.pairsOf_eq, h.outEdges_eq, h.inEdges_eq, List.nodup_append]
    refine ⟨?_, ?_, ?_⟩
    · refine List.Nodup.map_on (fun e he f hf heq => ?_) (h.edges_nodup.filter _)
      exact h.sourceEnd_inj (List.mem_filter.mp he).1 (List.mem_filter.mp hf).1 heq
    · refine List.Nodup.map_on (fun e he f hf heq => ?_) (h.edges_nodup.filter _)
      exact h.targetEnd_inj (List.mem_filter.mp he).1 (List.mem_filter.mp hf).1 heq
    · intro p hp q hq
      obtain ⟨e, he, rfl⟩ := List.mem_map.mp hp
      obtain ⟨f, hf, rfl⟩ := List.mem_map.mp hq
      exact h.sourceEnd_ne_targetEnd (List.mem_filter.mp he).1 (List.mem_filter.mp hf).1

variable (digraph) in
omit h in
/-- The edges of the line graph, in the order in which they are added. -/
def links : List ((Int × Int) × (Int × Int)) :=
  atVertices digraph (turnsOf digraph) ++ atVertices digraph (roadsOf digraph)

theorem mem_turns {r : (Int × Int) × (Int × Int)} :
    r ∈ atVertices digraph (turnsOf digraph) ↔ ∃ e ∈ digraph.graph.edges,
      ∃ f ∈ digraph.graph.edges, e.target = f.source ∧
        r = (targetEnd digraph e, sourceEnd digraph f) := by
  simp only [atVertices, List.mem_flatMap, List.mem_range, h.turnsOf_eq, List.mem_map,
    h.mem_outEdges, h.mem_inEdges]
  constructor
  · rintro ⟨v, _, e, ⟨he, rfl⟩, f, ⟨hf, hv⟩, rfl⟩
    exact ⟨e, he, f, hf, hv.symm, rfl⟩
  · rintro ⟨e, he, f, hf, hv, rfl⟩
    exact ⟨e.target, h.target_lt he, e, ⟨he, rfl⟩, f, ⟨hf, hv.symm⟩, rfl⟩

theorem mem_roads {r : (Int × Int) × (Int × Int)} :
    r ∈ atVertices digraph (roadsOf digraph) ↔ ∃ e ∈ digraph.graph.edges,
      r = (sourceEnd digraph e, targetEnd digraph e) := by
  simp only [atVertices, List.mem_flatMap, List.mem_range, h.roadsOf_eq, List.mem_map,
    h.mem_inEdges]
  constructor
  · rintro ⟨v, _, e, ⟨he, _⟩, rfl⟩
    exact ⟨e, he, rfl⟩
  · rintro ⟨e, he, rfl⟩
    exact ⟨e.target, h.target_lt he, e, ⟨he, rfl⟩, rfl⟩

theorem turns_nodup : (atVertices digraph (turnsOf digraph)).Nodup := by
  refine h.atVertices_nodup (fun r => r.1.1) (fun v r hr => ?_) fun v => ?_
  · obtain ⟨e, _, hr⟩ := List.mem_flatMap.mp hr
    obtain ⟨f, _, rfl⟩ := List.mem_map.mp hr
    rfl
  · rw [h.turnsOf_eq]
    refine List.nodup_flatMap.mpr ⟨fun e he => ?_, ?_⟩
    · rw [h.outEdges_eq]
      refine List.Nodup.map_on (fun f hf f' hf' heq => ?_) (h.edges_nodup.filter _)
      exact h.sourceEnd_inj (List.mem_filter.mp hf).1 (List.mem_filter.mp hf').1
        (congrArg Prod.snd heq)
    · rw [h.inEdges_eq]
      refine List.Nodup.pairwise_of_forall_ne (h.edges_nodup.filter _) fun e he f hf hef => ?_
      intro r hr hr'
      obtain ⟨_, _, rfl⟩ := List.mem_map.mp hr
      obtain ⟨_, _, heq⟩ := List.mem_map.mp hr'
      exact hef (h.targetEnd_inj (List.mem_filter.mp he).1 (List.mem_filter.mp hf).1
        (congrArg Prod.fst heq).symm)

theorem roads_nodup : (atVertices digraph (roadsOf digraph)).Nodup := by
  refine h.atVertices_nodup (fun r => r.2.1) (fun v r hr => ?_) fun v => ?_
  · obtain ⟨e, _, rfl⟩ := List.mem_map.mp hr
    rfl
  · rw [h.roadsOf_eq, h.inEdges_eq]
    refine List.Nodup.map_on (fun f hf f' hf' heq => ?_) (h.edges_nodup.filter _)
    exact h.sourceEnd_inj (List.mem_filter.mp hf).1 (List.mem_filter.mp hf').1
      (congrArg Prod.fst heq)

theorem links_nodup : (links digraph).Nodup := by
  refine List.nodup_append.mpr ⟨h.turns_nodup, h.roads_nodup, fun r hr r' hr' heq => ?_⟩
  obtain ⟨e, he, f, hf, _, rfl⟩ := h.mem_turns.mp hr
  obtain ⟨e', he', rfl⟩ := h.mem_roads.mp hr'
  exact h.sourceEnd_ne_targetEnd he' he (congrArg Prod.fst heq).symm

theorem members : ∀ r ∈ links digraph, r.1 ∈ atVertices digraph (pairsOf digraph) ∧
    r.2 ∈ atVertices digraph (pairsOf digraph) := by
  intro r hr
  obtain hr | hr := List.mem_append.mp hr
  · obtain ⟨e, he, f, hf, _, rfl⟩ := h.mem_turns.mp hr
    exact ⟨h.mem_pairs.mpr ⟨e, he, .inr rfl⟩, h.mem_pairs.mpr ⟨f, hf, .inl rfl⟩⟩
  · obtain ⟨e, he, rfl⟩ := h.mem_roads.mp hr
    exact ⟨h.mem_pairs.mpr ⟨e, he, .inl rfl⟩, h.mem_pairs.mpr ⟨e, he, .inr rfl⟩⟩

end LineInput

open LineInput

theorem Built.applyTransformation (h : LineInput digraph) (hg : Built [] [] g) :
    Built (atVertices digraph (pairsOf digraph)) (links digraph)
      (g.applyTransformation digraph) := by
  have hsplit : Built (atVertices digraph (pairsOf digraph)) (atVertices digraph (turnsOf digraph))
      ((List.range digraph.graph.numVertices).foldl (PgrLineGraphFull.splitVertex digraph) g) :=
    hg.splitVertices h.pairs_nodup
  refine hsplit.connectVertices fun v hv r hr => h.members r (List.mem_append_right _ ?_)
  exact List.mem_flatMap.mpr ⟨v, hv, hr⟩

/-! ## The costs of the edges -/

theorem storeEdgeCosts_eq (g : PgrLineGraphFull) : g.storeEdgeCosts digraph =
    { g with mEdgeCosts := (g.storeEdgeCosts digraph).mEdgeCosts } := by
  unfold storeEdgeCosts
  induction digraph.graph.edges generalizing g with
  | nil => rfl
  | cons e l ih =>
    rw [List.foldl_cons]
    exact ih _

theorem mEdgeCosts_storeEdgeCosts (h : LineInput digraph) (g : PgrLineGraphFull)
    {e : BoostEdge BasicEdge} (he : e ∈ digraph.graph.edges) :
    (g.storeEdgeCosts digraph).mEdgeCosts e.bundle.id = some e.bundle.cost := by
  have hkeep : ∀ (l : List (BoostEdge BasicEdge)) (g : PgrLineGraphFull) (id : Int),
      id ∉ l.map (·.bundle.id) →
      (l.foldl (fun g e => { g with
        mEdgeCosts := Function.update g.mEdgeCosts e.bundle.id (some e.bundle.cost) })
        g).mEdgeCosts id = g.mEdgeCosts id := by
    intro l
    induction l with
    | nil => exact fun _ _ _ => rfl
    | cons a l ih =>
      intro g id hid
      rw [List.map_cons, List.mem_cons, not_or] at hid
      rw [List.foldl_cons, ih _ _ hid.2]
      exact Function.update_of_ne hid.1 _ _
  have hids := h.ids
  unfold storeEdgeCosts
  generalize digraph.graph.edges = l at he hids ⊢
  induction l generalizing g with
  | nil => cases he
  | cons a l ih =>
    rw [List.map_cons, List.nodup_cons] at hids
    rw [List.foldl_cons]
    obtain rfl | he := List.mem_cons.mp he
    · rw [hkeep l _ _ hids.1]
      exact Function.update_self _ _ _
    · exact ih _ he hids.2

/-- The line graph of a graph. -/
theorem ofDigraph_built (h : LineInput digraph) (m : Int) :
    Built (atVertices digraph (pairsOf digraph)) (links digraph) (ofDigraph digraph m) := by
  have hempty : Built [] [] { toPgrBaseGraph := .empty true, mNumEdges := m } := by
    constructor <;> simp [PgrBaseGraph.empty]
  have hbuilt := hempty.applyTransformation h
  rw [ofDigraph, storeEdgeCosts_eq]
  exact ⟨hbuilt.vertices, hbuilt.transformation, hbuilt.index, hbuilt.verticesMap, hbuilt.edges,
    hbuilt.members⟩

/-! ## The ids that are written -/

/-- A new key of a map is added to its entries. -/
theorem setUnique_perm {κ β : Type} [LinearOrder κ] {key : κ} {row : β} {m : List (κ × β)}
    (hnew : ∀ x ∈ m, x.1 ≠ key) : (setUnique key row m).Perm ((key, row) :: m) := by
  induction m with
  | nil => exact .refl _
  | cons x m ih =>
    obtain ⟨hx, hnew⟩ := List.forall_mem_cons.mp hnew
    unfold setUnique
    split
    · exact .refl _
    · rw [if_neg hx.symm]
      exact ((ih hnew).cons x).trans (.swap _ _ _)

namespace Results

variable {s : Results} {e k n b : Int}

/-- An id that has been given stays. -/
theorem renumber_mono (h : s.vertexIdMap k = some n) :
    (s.renumber e b).vertexIdMap k = some n := by
  unfold renumber
  cases he : s.vertexIdMap e with
  | some _ => exact h
  | none =>
    have hne : k ≠ e := by
      rintro rfl
      rw [he] at h
      cases h
    cases s.vertexIdReverseMap b with
    | none => exact (Function.update_of_ne hne _ _).trans h
    | some _ => exact (Function.update_of_ne hne _ _).trans h

theorem renumber_self : ∃ n, (s.renumber e b).vertexIdMap e = some n := by
  unfold renumber
  cases he : s.vertexIdMap e with
  | some n => exact ⟨n, he⟩
  | none =>
    cases s.vertexIdReverseMap b with
    | none => exact ⟨_, Function.update_self _ _ _⟩
    | some _ => exact ⟨_, Function.update_self _ _ _⟩

theorem renumber_unique : (s.renumber e b).unique = s.unique := by
  unfold renumber
  cases s.vertexIdMap e with
  | some _ => rfl
  | none => cases s.vertexIdReverseMap b <;> rfl

/-- No id has been given twice, and no id below `vertex_count` has been given. -/
structure Distinct (s : Results) : Prop where
  inj : ∀ k k' n, s.vertexIdMap k = some n → s.vertexIdMap k' = some n → k = k'
  taken : ∀ k n, s.vertexIdMap k = some n → ∃ k', s.vertexIdReverseMap n = some k'
  fresh : ∀ n k, s.vertexIdReverseMap n = some k → s.vertexCount ≤ n
  nonpos : s.vertexCount ≤ 0

/-- A vertex gets an id that is not taken. -/
theorem Distinct.give {c : Int} (h : s.Distinct) (he : s.vertexIdMap e = none)
    (hn : s.vertexIdReverseMap n = none) (hc : c ≤ s.vertexCount) (hcn : c ≤ n) :
    Distinct { s with
      vertexCount := c
      vertexIdMap := Function.update s.vertexIdMap e (some n)
      vertexIdReverseMap := Function.update s.vertexIdReverseMap n (some e) } := by
  -- An id is the new one, given to the new vertex, or an old one of another vertex.
  have hget : ∀ {k m : Int}, Function.update s.vertexIdMap e (some n) k = some m →
      k = e ∧ m = n ∨ k ≠ e ∧ m ≠ n ∧ s.vertexIdMap k = some m := by
    intro k m hk
    by_cases hke : k = e
    · rw [hke, Function.update_self] at hk
      exact .inl ⟨hke, (Option.some.inj hk).symm⟩
    · rw [Function.update_of_ne hke] at hk
      refine .inr ⟨hke, ?_, hk⟩
      rintro rfl
      obtain ⟨k', hk'⟩ := h.taken k m hk
      rw [hn] at hk'
      cases hk'
  constructor
  · intro k k' m hk hk'
    obtain ⟨rfl, rfl⟩ | ⟨_, hne, hold⟩ := hget hk
    · obtain ⟨rfl, _⟩ | ⟨_, hne, _⟩ := hget hk'
      · rfl
      · exact absurd rfl hne
    · obtain ⟨_, rfl⟩ | ⟨_, _, hold'⟩ := hget hk'
      · exact absurd rfl hne
      · exact h.inj k k' m hold hold'
  · intro k m hk
    obtain ⟨rfl, rfl⟩ | ⟨_, hne, hold⟩ := hget hk
    · exact ⟨_, Function.update_self _ _ _⟩
    · obtain ⟨k', hk'⟩ := h.taken k m hold
      exact ⟨k', (Function.update_of_ne hne _ _).trans hk'⟩
  · intro m k hm
    by_cases hmn : m = n
    · exact hmn ▸ hcn
    · have hm : s.vertexIdReverseMap m = some k := (Function.update_of_ne hmn _ _).symm.trans hm
      exact hc.trans (h.fresh m k hm)
  · exact hc.trans h.nonpos

/-- The next negative number is not taken when no vertex of the graph has a negative id. -/
theorem Distinct.renumber (h : s.Distinct) (hb : 0 ≤ b) : (s.renumber e b).Distinct := by
  unfold Results.renumber
  cases he : s.vertexIdMap e with
  | some _ => exact h
  | none =>
    have hnonpos := h.nonpos
    cases hr : s.vertexIdReverseMap b with
    | none => exact h.give he hr (Int.le_refl _) (by omega)
    | some _ =>
      have hfree : s.vertexIdReverseMap (s.vertexCount - 1) = none := by
        by_contra hsome
        obtain ⟨k, hk⟩ := Option.ne_none_iff_exists'.mp hsome
        have hle := h.fresh _ k hk
        omega
      exact h.give he hfree (by omega) (Int.le_refl _)

end Results

/-- The number of a pair. -/
def key (l : List (Int × Int)) (p : Int × Int) : Int := l.idxOf p + 1

theorem key_inj (hp : p ∈ l) (heq : key l p = key l q) : p = q := by
  unfold key at heq
  exact (List.idxOf_inj hp).mp (by omega)

theorem Built.lineId (h : Built l qs g) (hp : p ∈ l) : g.lineId (l.idxOf p) = key l p := by
  have hget := congrArg (·[l.idxOf p]?) h.vertices
  simp only [List.getElem?_map] at hget
  rw [List.getElem?_range (List.idxOf_lt_length_of_mem hp), Option.map_some] at hget
  rw [PgrLineGraphFull.lineId, hget, Option.getD_some, key]

theorem Built.pairAt (h : Built l qs g) (hp : p ∈ l) :
    g.mTransformationMap (key l p) = some p :=
  h.transformation _ p (List.getElem?_idxOf hp)

/-- The id with which a pair is written. -/
def written (l : List (Int × Int)) (s : Results) (p : Int × Int) : Int :=
  (s.vertexIdMap (key l p)).getD 0

/-- A row without its number. -/
def content (row : LineGraphFullRt) : Int × Int × ℚ × Int :=
  (row.source, row.target, row.cost, row.edge)

/-- What the row of an edge of the line graph says. -/
def linkRow (costs : Int → Option ℚ) (W : Int × Int → Int) (q : (Int × Int) × (Int × Int)) :
    Int × Int × ℚ × Int :=
  (W q.1, W q.2, if q.1.2 = q.2.2 then (costs q.1.2).getD 0 else 0,
    if q.1.2 = q.2.2 then q.1.2 else 0)

/-- The rows of some edges of the line graph have been made. -/
structure Filled (l : List (Int × Int)) (costs : Int → Option ℚ)
    (made : List ((Int × Int) × (Int × Int))) (s : Results) : Prop where
  known : ∀ q ∈ made, (∃ n, s.vertexIdMap (key l q.1) = some n) ∧
    ∃ n, s.vertexIdMap (key l q.2) = some n
  rows : (s.unique.map fun x => (x.1, content x.2)).Perm
    (made.map fun q => (toLex (key l q.1, key l q.2), linkRow costs (written l s) q))

/-- The variables after the ends of an edge have got their ids. -/
def numbered (l : List (Int × Int)) (s : Results) (q : (Int × Int) × (Int × Int)) : Results :=
  (s.renumber (key l q.1) q.1.1).renumber (key l q.2) q.2.1

/-- What a round does, in terms of pairs. -/
theorem resultsStep_eq {s : Results} {q : (Int × Int) × (Int × Int)} {e : BoostEdge BasicEdge}
    (hb : Built l qs g) (hq : q.1 ∈ l ∧ q.2 ∈ l)
    (he : (e.source, e.target) = (l.idxOf q.1, l.idxOf q.2)) :
    ∃ row, content row = linkRow g.mEdgeCosts (written l (numbered l s q)) q ∧
      g.resultsStep s e =
        { numbered l s q with
          count := (numbered l s q).count + 1
          unique := setUnique (toLex (key l q.1, key l q.2)) row (numbered l s q).unique } := by
  obtain ⟨hsource, htarget⟩ := Prod.mk.inj he
  unfold resultsStep
  simp only
  rw [hsource, htarget, hb.lineId hq.1, hb.lineId hq.2, hb.pairAt hq.1, hb.pairAt hq.2]
  exact ⟨_, rfl, rfl⟩

theorem Filled.step {made : List ((Int × Int) × (Int × Int))} {s : Results}
    {q : (Int × Int) × (Int × Int)} {e : BoostEdge BasicEdge} (hb : Built l qs g)
    (hs : Filled l g.mEdgeCosts made s) (hq : q.1 ∈ l ∧ q.2 ∈ l)
    (hmade : ∀ r ∈ made, r.1 ∈ l ∧ r.2 ∈ l) (hnew : q ∉ made)
    (he : (e.source, e.target) = (l.idxOf q.1, l.idxOf q.2)) :
    Filled l g.mEdgeCosts (made ++ [q]) (g.resultsStep s e) := by
  obtain ⟨row, hrow, hstep⟩ := resultsStep_eq (s := s) hb hq he
  -- Ids that have been given stay.
  have hmono : ∀ {k n : Int}, s.vertexIdMap k = some n →
      (numbered l s q).vertexIdMap k = some n :=
    fun hk => Results.renumber_mono (Results.renumber_mono hk)
  have hunique : (numbered l s q).unique = s.unique :=
    Results.renumber_unique.trans Results.renumber_unique
  have hwritten : ∀ {p : Int × Int}, (∃ n, s.vertexIdMap (key l p) = some n) →
      written l (numbered l s q) p = written l s p := by
    rintro p ⟨n, hn⟩
    rw [written, written, hn, hmono hn]
  constructor
  · intro r hr
    rw [hstep]
    obtain hr | hr := List.mem_append.mp hr
    · obtain ⟨⟨n, hn⟩, m, hm⟩ := hs.known r hr
      exact ⟨⟨n, hmono hn⟩, m, hmono hm⟩
    · obtain rfl := List.mem_singleton.mp hr
      obtain ⟨n, hn⟩ := Results.renumber_self (s := s) (e := key l r.1) (b := r.1.1)
      exact ⟨⟨n, Results.renumber_mono hn⟩, Results.renumber_self⟩
  · -- the key of the new row has not been used
    have hfresh : ∀ x ∈ s.unique, x.1 ≠ toLex (key l q.1, key l q.2) := by
      intro x hx heq
      have hmem := hs.rows.subset (List.mem_map_of_mem (f := fun x => (x.1, content x.2)) hx)
      obtain ⟨r, hr, hxr⟩ := List.mem_map.mp hmem
      have hkeys := Prod.mk.inj (toLex_inj.mp ((congrArg Prod.fst hxr).trans heq))
      have hr1 := key_inj (hmade r hr).1 hkeys.1
      have hr2 := key_inj (hmade r hr).2 hkeys.2
      exact hnew (Prod.ext hr1 hr2 ▸ hr)
    have hlinks : made.map (fun r => (toLex (key l r.1, key l r.2),
          linkRow g.mEdgeCosts (written l (numbered l s q)) r)) =
        made.map fun r => (toLex (key l r.1, key l r.2),
          linkRow g.mEdgeCosts (written l s) r) := by
      refine List.map_congr_left fun r hr => ?_
      rw [linkRow, linkRow, hwritten (hs.known r hr).1, hwritten (hs.known r hr).2]
    rw [hstep]
    show ((setUnique _ row (numbered l s q).unique).map _).Perm
      ((made ++ [q]).map fun r => (toLex (key l r.1, key l r.2),
        linkRow g.mEdgeCosts (written l (numbered l s q)) r))
    rw [hunique, List.map_append, hlinks, List.map_singleton, ← hrow]
    refine ((setUnique_perm hfresh).map _).trans ?_
    rw [List.map_cons]
    exact (hs.rows.cons _).trans (List.perm_append_singleton _ _).symm

/-- The rows of all edges of the line graph are made, and no id is given twice when no vertex of
    the graph has a negative id. -/
theorem Filled.run {made rest : List ((Int × Int) × (Int × Int))} {s : Results}
    {es : List (BoostEdge BasicEdge)} (hb : Built l qs g) (hs : Filled l g.mEdgeCosts made s)
    (hmem : ∀ r ∈ made ++ rest, r.1 ∈ l ∧ r.2 ∈ l) (hnodup : (made ++ rest).Nodup)
    (hes : es.map (fun e => (e.source, e.target)) =
      rest.map fun q => (l.idxOf q.1, l.idxOf q.2)) :
    Filled l g.mEdgeCosts (made ++ rest) (es.foldl g.resultsStep s) ∧
      ((∀ p ∈ l, 0 ≤ p.1) → s.Distinct → (es.foldl g.resultsStep s).Distinct) := by
  induction es generalizing made rest s with
  | nil =>
    rw [List.map_nil, eq_comm, List.map_eq_nil_iff] at hes
    rw [hes, List.append_nil]
    exact ⟨hs, fun _ hd => hd⟩
  | cons e es ih =>
    cases rest with
    | nil => cases hes
    | cons q rest =>
      rw [List.map_cons, List.map_cons, List.cons.injEq] at hes
      have hq := hmem q (List.mem_append_right _ List.mem_cons_self)
      have hnew : q ∉ made := fun hq => (List.nodup_append.mp hnodup).2.2 q hq q
        List.mem_cons_self rfl
      have hnext := hs.step hb hq (fun r hr => hmem r (List.mem_append_left _ hr)) hnew hes.1
      rw [List.append_cons] at hmem hnodup ⊢
      obtain ⟨hfilled, hdistinct⟩ := ih hnext hmem hnodup hes.2
      refine ⟨hfilled, fun hnonneg hd => hdistinct hnonneg ?_⟩
      obtain ⟨row, _, hstep⟩ := resultsStep_eq (s := s) hb hq hes.1
      have hnumbered := (hd.renumber (e := key l q.1) (hnonneg _ hq.1)).renumber
        (e := key l q.2) (hnonneg _ hq.2)
      rw [hstep]
      exact ⟨hnumbered.inj, hnumbered.taken, hnumbered.fresh, hnumbered.nonpos⟩

/-! ## The rows and the graph -/

variable {e a b : BoostEdge BasicEdge} {c d : ℚ} {rows : List LineGraphFullRt}
  {W : Int × Int → Int}

/-- One row for each edge, with its id and cost, and one row of cost zero for each turn. -/
def expectedRows (digraph : PgrBaseGraph BasicVertex BasicEdge) (W : Int × Int → Int) :
    List (Int × Int × ℚ × Int) :=
  digraph.graph.edges.map (fun e =>
    (W (sourceEnd digraph e), W (targetEnd digraph e), e.bundle.cost, e.bundle.id)) ++
  atVertices digraph fun v => (digraph.graph.inEdges v).flatMap fun i =>
    (digraph.graph.outEdges v).map fun o => (W (targetEnd digraph i), W (sourceEnd digraph o), 0, 0)

/-- A walk in the graph from an edge to an edge, both included, of that length. -/
inductive EdgeWalk (digraph : PgrBaseGraph BasicVertex BasicEdge) :
    BoostEdge BasicEdge → BoostEdge BasicEdge → ℚ → Prop
  | single {a : BoostEdge BasicEdge} (ha : a ∈ digraph.graph.edges) :
    EdgeWalk digraph a a a.bundle.cost
  | cons {a e b : BoostEdge BasicEdge} {c : ℚ} (ha : a ∈ digraph.graph.edges)
    (hturn : a.target = e.source) (rest : EdgeWalk digraph e b c) :
    EdgeWalk digraph a b (a.bundle.cost + c)

/-- A row as an arc between the ids in it. -/
def RowArc (rows : List LineGraphFullRt) (x y : Int) (c : ℚ) : Prop :=
  ∃ row ∈ rows, row.source = x ∧ row.target = y ∧ row.cost = c

/-- The rows are a line graph of the graph, in which the pairs are written so. -/
structure Faithful (digraph : PgrBaseGraph BasicVertex BasicEdge) (rows : List LineGraphFullRt)
    (W : Int × Int → Int) : Prop where
  table : (rows.map content).Perm (expectedRows digraph W)
  distinct : Set.InjOn W
    {p | ∃ e ∈ digraph.graph.edges, p = sourceEnd digraph e ∨ p = targetEnd digraph e}
  shortest : ∀ a ∈ digraph.graph.edges, ∀ b ∈ digraph.graph.edges, ∀ d,
    IsLeast {c | EdgeWalk digraph a b c} d ↔
      IsDist (RowArc rows) (W (sourceEnd digraph a)) (W (targetEnd digraph b)) d

/-- The in edges of all vertices are the edges. -/
theorem inEdges_perm (h : LineInput digraph) :
    (atVertices digraph digraph.graph.inEdges).Perm digraph.graph.edges := by
  have hbelow : ∀ n, ((List.range n).flatMap digraph.graph.inEdges).Perm
      (digraph.graph.edges.filter (·.target < n)) := by
    intro n
    induction n with
    | zero => simp
    | succ n ih =>
      rw [List.range_succ, List.flatMap_append, List.flatMap_singleton, h.inEdges_eq]
      have hsplit := List.filter_append_perm (fun e : BoostEdge BasicEdge => e.target < n)
        (digraph.graph.edges.filter (·.target < n + 1))
      simp only [List.filter_filter] at hsplit
      refine (ih.append_right _).trans (.trans (.of_eq ?_) hsplit)
      congr 1
      · refine List.filter_congr fun e _ => ?_
        simp only [← Bool.decide_and, decide_eq_decide]
        omega
      · refine List.filter_congr fun e _ => ?_
        simp only [← decide_not, ← Bool.decide_and, decide_eq_decide]
        omega
  refine (hbelow digraph.graph.numVertices).trans (.of_eq (List.filter_eq_self.mpr ?_))
  exact fun e he => decide_eq_true (h.target_lt he)

theorem linkRows_perm (h : LineInput digraph) {costs : Int → Option ℚ}
    (hcosts : ∀ e ∈ digraph.graph.edges, costs e.bundle.id = some e.bundle.cost) :
    ((links digraph).map (linkRow costs W)).Perm (expectedRows digraph W) := by
  rw [links, List.map_append]
  refine List.perm_append_comm.trans (.append ?_ (.of_eq ?_))
  · have hroad : ∀ e ∈ digraph.graph.edges,
        linkRow costs W (sourceEnd digraph e, targetEnd digraph e) =
          (W (sourceEnd digraph e), W (targetEnd digraph e), e.bundle.cost, e.bundle.id) := by
      intro e he
      have hid : (sourceEnd digraph e).2 = (targetEnd digraph e).2 := rfl
      rw [linkRow, if_pos hid, if_pos hid]
      show (_, _, (costs e.bundle.id).getD 0, _) = _
      rw [hcosts e he]
      rfl
    have hroads : (atVertices digraph (roadsOf digraph)).map (linkRow costs W) =
        (atVertices digraph digraph.graph.inEdges).map fun e =>
          (W (sourceEnd digraph e), W (targetEnd digraph e), e.bundle.cost, e.bundle.id) := by
      rw [atVertices, atVertices, List.map_flatMap, List.map_flatMap]
      refine List.flatMap_congr fun v _ => ?_
      rw [h.roadsOf_eq, List.map_map]
      exact List.map_congr_left fun e he => hroad e (h.mem_inEdges.mp he).1
    rw [hroads]
    exact (inEdges_perm h).map _
  · rw [atVertices, atVertices, List.map_flatMap]
    refine List.flatMap_congr fun v _ => ?_
    rw [h.turnsOf_eq, List.map_flatMap]
    refine List.flatMap_congr fun i hi => ?_
    rw [List.map_map]
    refine List.map_congr_left fun o ho => ?_
    obtain ⟨hmem, rfl⟩ := h.mem_inEdges.mp hi
    obtain ⟨hout, hsource⟩ := h.mem_outEdges.mp ho
    -- A turn joins two edges with different ids, so its row costs nothing.
    have hid : (targetEnd digraph i).2 ≠ (sourceEnd digraph o).2 := by
      intro heq
      obtain rfl := h.id_inj hmem hout heq
      exact h.loops i hmem hsource
    show linkRow costs W (targetEnd digraph i, sourceEnd digraph o) = _
    rw [linkRow, if_neg hid, if_neg hid]

/-- The arcs of the rows are the edges and the turns. -/
theorem rowArc_iff (h : LineInput digraph)
    (htable : (rows.map content).Perm (expectedRows digraph W)) {x y : Int} :
    RowArc rows x y c ↔
      (∃ e ∈ digraph.graph.edges, x = W (sourceEnd digraph e) ∧ y = W (targetEnd digraph e) ∧
        c = e.bundle.cost) ∨
      ∃ e ∈ digraph.graph.edges, ∃ f ∈ digraph.graph.edges, e.target = f.source ∧
        x = W (targetEnd digraph e) ∧ y = W (sourceEnd digraph f) ∧ c = 0 := by
  have hcontent : RowArc rows x y c ↔ ∃ id, (x, y, c, id) ∈ rows.map content := by
    simp only [RowArc, List.mem_map, content, Prod.mk.injEq]
    constructor
    · rintro ⟨row, hrow, hx, hy, hc⟩
      exact ⟨row.edge, row, hrow, hx, hy, hc, rfl⟩
    · rintro ⟨_, row, hrow, hx, hy, hc, _⟩
      exact ⟨row, hrow, hx, hy, hc⟩
  rw [hcontent]
  simp only [htable.mem_iff, expectedRows, List.mem_append, List.mem_map, atVertices,
    List.mem_flatMap, List.mem_range, h.mem_inEdges, h.mem_outEdges, Prod.mk.injEq]
  constructor
  · rintro ⟨id, ⟨e, he, rfl, rfl, rfl, _⟩ | ⟨v, _, e, ⟨he, rfl⟩, f, ⟨hf, hv⟩, rfl, rfl, rfl, _⟩⟩
    · exact .inl ⟨e, he, rfl, rfl, rfl⟩
    · exact .inr ⟨e, he, f, hf, hv.symm, rfl, rfl, rfl⟩
  · rintro (⟨e, he, rfl, rfl, rfl⟩ | ⟨e, he, f, hf, hv, rfl, rfl, rfl⟩)
    · exact ⟨_, .inl ⟨e, he, rfl, rfl, rfl, rfl⟩⟩
    · exact ⟨_, .inr ⟨e.target, h.target_lt he, e, ⟨he, rfl⟩, f, ⟨hf, hv.symm⟩, rfl, rfl, rfl, rfl⟩⟩

theorem EdgeWalk.mem (h : EdgeWalk digraph a b c) :
    a ∈ digraph.graph.edges ∧ b ∈ digraph.graph.edges := by
  induction h with
  | single ha => exact ⟨ha, ha⟩
  | cons ha _ _ ih => exact ⟨ha, ih.2⟩

/-- A walk in the graph is a walk over the rows. -/
theorem EdgeWalk.walk (h : LineInput digraph)
    (htable : (rows.map content).Perm (expectedRows digraph W)) (hwalk : EdgeWalk digraph a b c) :
    Walk (RowArc rows) (W (sourceEnd digraph a)) (W (targetEnd digraph b)) c := by
  have hroad : ∀ {e : BoostEdge BasicEdge}, e ∈ digraph.graph.edges →
      RowArc rows (W (sourceEnd digraph e)) (W (targetEnd digraph e)) e.bundle.cost :=
    fun he => (rowArc_iff h htable).mpr (.inl ⟨_, he, rfl, rfl, rfl⟩)
  induction hwalk with
  | single ha => exact .single (hroad ha)
  | cons ha hturn rest ih =>
    have harc := (rowArc_iff (c := 0) h htable).mpr
      (.inr ⟨_, ha, _, rest.mem.1, hturn, rfl, rfl, rfl⟩)
    have hrest := Walk.cons harc ih
    rw [zero_add] at hrest
    exact .cons (hroad ha) hrest

/-- A walk over the rows that starts with an edge, or behind one, is a walk in the graph. -/
theorem walk_rows (h : LineInput digraph)
    (htable : (rows.map content).Perm (expectedRows digraph W))
    (hdistinct : Set.InjOn W
      {p | ∃ e ∈ digraph.graph.edges, p = sourceEnd digraph e ∨ p = targetEnd digraph e})
    (hb : b ∈ digraph.graph.edges) {x : Int}
    (hwalk : Walk (RowArc rows) x (W (targetEnd digraph b)) c) :
    (∀ a ∈ digraph.graph.edges, x = W (sourceEnd digraph a) → EdgeWalk digraph a b c) ∧
      ∀ a ∈ digraph.graph.edges, x = W (targetEnd digraph a) →
        a = b ∧ c = 0 ∨ ∃ e, a.target = e.source ∧ EdgeWalk digraph e b c := by
  have hinj : ∀ {p q : Int × Int}, (∃ e ∈ digraph.graph.edges, p = sourceEnd digraph e ∨
      p = targetEnd digraph e) → (∃ e ∈ digraph.graph.edges, q = sourceEnd digraph e ∨
      q = targetEnd digraph e) → W p = W q → p = q := fun hp hq => hdistinct hp hq
  generalize hy : W (targetEnd digraph b) = y at hwalk
  induction hwalk with
  | nil x =>
    subst hy
    constructor
    · intro a ha hx
      have heq := hinj ⟨b, hb, .inr rfl⟩ ⟨a, ha, .inl rfl⟩ hx
      exact absurd heq.symm (h.sourceEnd_ne_targetEnd ha hb)
    · intro a ha hx
      have heq := hinj ⟨b, hb, .inr rfl⟩ ⟨a, ha, .inr rfl⟩ hx
      exact .inl ⟨(h.targetEnd_inj hb ha heq).symm, rfl⟩
  | cons arc rest ih =>
    obtain ⟨hsource, htarget⟩ := ih hy
    -- An arc goes along an edge or is a turn, and the two alternate.
    obtain ⟨e, he, rfl, hv, rfl⟩ | ⟨e, he, f, hf, hturn, rfl, hv, rfl⟩ :=
      (rowArc_iff h htable).mp arc
    · constructor
      · intro a ha hx
        obtain rfl := h.sourceEnd_inj he ha (hinj ⟨e, he, .inl rfl⟩ ⟨a, ha, .inl rfl⟩ hx)
        obtain ⟨rfl, rfl⟩ | ⟨f, hturn, hwalk⟩ := htarget e he hv
        · rw [add_zero]
          exact .single he
        · exact .cons he hturn hwalk
      · intro a ha hx
        have heq := hinj ⟨e, he, .inl rfl⟩ ⟨a, ha, .inr rfl⟩ hx
        exact absurd heq (h.sourceEnd_ne_targetEnd he ha)
    · constructor
      · intro a ha hx
        have heq := hinj ⟨e, he, .inr rfl⟩ ⟨a, ha, .inl rfl⟩ hx
        exact absurd heq.symm (h.sourceEnd_ne_targetEnd ha he)
      · intro a ha hx
        obtain rfl := h.targetEnd_inj he ha (hinj ⟨e, he, .inr rfl⟩ ⟨a, ha, .inr rfl⟩ hx)
        rw [zero_add]
        exact .inr ⟨f, hturn, hsource f hf hv⟩

/-- Known ids that have been given once tell the pairs apart. -/
theorem written_injOn (h : LineInput digraph) {s : Results} {costs : Int → Option ℚ}
    (hs : Filled (atVertices digraph (pairsOf digraph)) costs (links digraph) s)
    (hd : s.Distinct) : Set.InjOn (written (atVertices digraph (pairsOf digraph)) s)
      {p | ∃ e ∈ digraph.graph.edges, p = sourceEnd digraph e ∨ p = targetEnd digraph e} := by
  have hknown : ∀ p, (∃ e ∈ digraph.graph.edges,
      p = sourceEnd digraph e ∨ p = targetEnd digraph e) →
      ∃ n, s.vertexIdMap (key (atVertices digraph (pairsOf digraph)) p) = some n := by
    rintro p ⟨e, he, hp⟩
    have hends := hs.known _ (List.mem_append_right _ (h.mem_roads.mpr ⟨e, he, rfl⟩))
    obtain rfl | rfl := hp
    · exact hends.1
    · exact hends.2
  intro p hp q hq heq
  obtain ⟨n, hn⟩ := hknown p hp
  obtain ⟨n', hn'⟩ := hknown q hq
  rw [written, written, hn, hn'] at heq
  obtain rfl : n = n' := heq
  exact key_inj (h.mem_pairs.mpr hp) (hd.inj _ _ _ hn hn')

/-- The rows of every graph have one row for each edge and one for each turn, and they are a line
    graph of it when no vertex has a negative id. -/
theorem getPostgresResultsDirected_faithful (h : LineInput digraph) (m : Int) :
    ∃ W, ((ofDigraph digraph m).getPostgresResultsDirected.map content).Perm
        (expectedRows digraph W) ∧
      ((∀ e ∈ digraph.graph.edges,
          0 ≤ digraph.vertexId e.source ∧ 0 ≤ digraph.vertexId e.target) →
        Faithful digraph (ofDigraph digraph m).getPostgresResultsDirected W) := by
  have hb := ofDigraph_built h m
  have hstart : Filled (atVertices digraph (pairsOf digraph)) (ofDigraph digraph m).mEdgeCosts
      [] {} := ⟨fun q hq => absurd hq List.not_mem_nil, .refl _⟩
  obtain ⟨hfilled, hdistinct⟩ := hstart.run hb h.members h.links_nodup hb.edges
  rw [List.nil_append] at hfilled
  have htable : ((ofDigraph digraph m).getPostgresResultsDirected.map content).Perm
      (expectedRows digraph (written (atVertices digraph (pairsOf digraph))
        ((ofDigraph digraph m).graph.edges.foldl (ofDigraph digraph m).resultsStep {}))) := by
    have hrows := hfilled.rows.map Prod.snd
    rw [List.map_map, List.map_map] at hrows
    rw [getPostgresResultsDirected, List.map_map]
    refine hrows.trans (linkRows_perm h fun e he => ?_)
    exact mEdgeCosts_storeEdgeCosts h _ he
  refine ⟨_, htable, fun hnonneg => ?_⟩
  have hids : ∀ p ∈ atVertices digraph (pairsOf digraph), 0 ≤ p.1 := by
    intro p hp
    obtain ⟨e, he, rfl | rfl⟩ := h.mem_pairs.mp hp
    · exact (hnonneg e he).1
    · exact (hnonneg e he).2
  have hinj := written_injOn h hfilled (hdistinct hids (by constructor <;> simp))
  refine ⟨htable, hinj, fun a ha b hb d => ?_⟩
  have hset : {c | EdgeWalk digraph a b c} = {c | Walk (RowArc _) _ _ c} :=
    Set.ext fun c => ⟨fun hwalk => EdgeWalk.walk h htable hwalk,
      fun hwalk => (walk_rows h htable hinj hb hwalk).1 a ha rfl⟩
  rw [IsDist, ← hset]

/-- The graph of a table is an input when its edges are. -/
theorem lineInput_insertEdgesNeg (es : List EdgeT)
    (hids : ((insertEdgesNeg es).graph.edges.map (·.bundle.id)).Nodup)
    (hloops : ∀ e ∈ (insertEdgesNeg es).graph.edges, e.source ≠ e.target) :
    LineInput (insertEdgesNeg es) :=
  have hspec := insertEdges_spec (empty_consistent true) false es
  ⟨hspec.2.2.1, hspec.1, hids, hloops⟩

/-- A street with two directions, and one behind it with one direction. -/
def street : PgrBaseGraph BasicVertex BasicEdge :=
  insertEdgesNeg [⟨1, 1, 2, 1, 1⟩, ⟨2, 2, 3, 4, -1⟩]

/-- The rows of the street are faithful. -/
theorem getPostgresResultsDirected_street :
    ∃ W, Faithful street (ofDigraph street 0).getPostgresResultsDirected W := by
  have hstreet : LineInput street :=
    lineInput_insertEdgesNeg _ (by decide +kernel) (by decide +kernel)
  obtain ⟨W, _, hfaithful⟩ := getPostgresResultsDirected_faithful hstreet 0
  exact ⟨W, hfaithful (by decide +kernel)⟩

/-- A street with two directions that starts at the vertex -1. -/
def streetBelow : PgrBaseGraph BasicVertex BasicEdge :=
  insertEdgesNeg [⟨1, -1, 2, 1, 1⟩]

/-- The pairs of the vertex -1 are both written as -1. -/
theorem getPostgresResultsDirected_streetBelow : LineInput streetBelow ∧
    ¬ ∃ W, Faithful streetBelow (ofDigraph streetBelow 0).getPostgresResultsDirected W := by
  have hinput : LineInput streetBelow :=
    lineInput_insertEdgesNeg _ (by decide +kernel) (by decide +kernel)
  refine ⟨hinput, ?_⟩
  rintro ⟨W, hW⟩
  have hloop : ((-1, -1, 0, 0) : Int × Int × ℚ × Int) ∈
      (ofDigraph streetBelow 0).getPostgresResultsDirected.map content := by
    decide +kernel
  have harc : RowArc (ofDigraph streetBelow 0).getPostgresResultsDirected (-1) (-1) 0 := by
    obtain ⟨row, hrow, heq⟩ := List.mem_map.mp hloop
    simp only [content, Prod.mk.injEq] at heq
    exact ⟨row, hrow, heq.1, heq.2.1, heq.2.2.1⟩
  obtain ⟨e, he, hs, ht, _⟩ | ⟨e, he, f, hf, _, hs, ht, _⟩ :=
    (rowArc_iff hinput hW.table).mp harc
  · have heq := hW.distinct ⟨e, he, .inl rfl⟩ ⟨e, he, .inr rfl⟩ (hs.symm.trans ht)
    exact hinput.sourceEnd_ne_targetEnd he he heq
  · have heq := hW.distinct ⟨f, hf, .inl rfl⟩ ⟨e, he, .inr rfl⟩ (ht.symm.trans hs)
    exact hinput.sourceEnd_ne_targetEnd hf he heq

end PgrLineGraphFull

end PgRouting
