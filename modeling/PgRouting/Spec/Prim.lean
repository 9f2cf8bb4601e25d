import PgRouting.Spec.PrimGraph
import Mathlib.Data.Rat.BigOperators
import Mathlib.Algebra.Order.Ring.Rat

/-!
# Prim and Kruskal

With the documented results of the two Boost functions, the edges that `generate_mst` of
`Pgr_prim` takes tree by tree are a minimum spanning forest of the graph without parallel edges,
which connects what the table connects and costs what the forest of Kruskal does.

## Key results

- `getEdge_spec`: the edge that `get_edge` finds
- `primTree_spec`: what one tree of Prim's algorithm adds
- `generateMst_spec`: the result is a minimum spanning forest
- `generateMst_kruskal`: the two algorithms agree
-/

namespace PgRouting

open PgrBaseGraph

variable {g h : PgrBaseGraph BasicVertex BasicEdge} {u v i : Nat} {e : BoostEdge BasicEdge}

/-! ## The edge between two vertices -/

/-- The loop finds the only edge between the vertices, whatever cost it is asked for. -/
theorem getEdgeLoop_spec {d minCost : WithTop ℚ} {minEdge : Option Nat}
    {l : List (Nat × BoostEdge BasicEdge)}
    (honly : ∀ x ∈ l, x.2.source = u → x.2.target = v → x.1 = i)
    (h : (minCost ≠ ⊤ ∧ minEdge = some i) ∨
      (minCost = ⊤ ∧ ∃ x ∈ l, x.2.source = u ∧ x.2.target = v)) :
    getEdgeLoop u v d l minCost minEdge = some i := by
  induction l generalizing minCost minEdge with
  | nil =>
    obtain ⟨_, hmin⟩ | ⟨_, x, hx, _⟩ := h
    · exact hmin
    · cases hx
  | cons x l ih =>
    obtain ⟨j, o⟩ := x
    have honly' : ∀ x ∈ l, x.2.source = u → x.2.target = v → x.1 = i :=
      fun x hx => honly x (List.mem_cons_of_mem _ hx)
    rw [getEdgeLoop]
    -- The costs decide only when the loop stops, since no second edge joins the two.
    by_cases hjoins : o.source = u ∧ o.target = v
    · have hj : j = i := honly (j, o) List.mem_cons_self hjoins.1 hjoins.2
      subst hj
      split
      · rfl
      · split
        · exact ih honly' (.inl ⟨WithTop.coe_ne_top, rfl⟩)
        · rename_i hlt
          have hmin : minCost ≠ ⊤ := by
            rintro rfl
            exact hlt ⟨hjoins.1.symm, hjoins.2.symm, WithTop.coe_lt_top _⟩
          obtain ⟨_, rfl⟩ | ⟨htop, _⟩ := h
          · exact ih honly' (.inl ⟨hmin, rfl⟩)
          · exact absurd htop hmin
    · rw [if_neg fun hc => hjoins ⟨hc.1.symm, hc.2.1.symm⟩,
        if_neg fun hc => hjoins ⟨hc.1.symm, hc.2.1.symm⟩]
      obtain ⟨hne, rfl⟩ | ⟨htop, x, hx, hends⟩ := h
      · exact ih honly' (.inl ⟨hne, rfl⟩)
      · obtain rfl | hx := List.mem_cons.mp hx
        · exact absurd hends hjoins
        · exact ih honly' (.inr ⟨htop, x, hx, hends⟩)

/-- Of edges that join different vertices only one joins two given vertices. -/
theorem eq_of_joinsEnds {j : Nat} {e' : BoostEdge BasicEdge}
    (hapart : h.graph.edges.Pairwise fun e e' => ¬ JoinsEnds e e'.source e'.target)
    (he : h.graph.edges[i]? = some e) (he' : h.graph.edges[j]? = some e')
    (hi : JoinsEnds e u v) (hj : JoinsEnds e' u v) : i = j := by
  obtain ⟨hlt, rfl⟩ := List.getElem?_eq_some_iff.mp he
  obtain ⟨hlt', rfl⟩ := List.getElem?_eq_some_iff.mp he'
  rw [List.pairwise_iff_getElem] at hapart
  obtain hij | hij | hij := Nat.lt_trichotomy i j
  · exact absurd (SameEnds.trans hi hj.symm) (hapart i j hlt hlt' hij)
  · exact hij
  · exact absurd (SameEnds.trans hj hi.symm) (hapart j i hlt' hlt hij)

/-- `get_edge` finds the edge between two vertices. -/
theorem getEdge_spec (hgh : ReducedGraph g h) (hi : i ∈ allEdges h.graph)
    (hjoins : SameEnds (edgeEnds h.graph i) (u, v)) (d : WithTop ℚ) :
    h.getEdge u v d = some i := by
  have hd : h.graph.directed = false := hgh.directed.trans hgh.undirected
  obtain ⟨e, he⟩ := mem_allEdges.mp hi
  rw [edgeEnds_of_getElem? he] at hjoins
  refine getEdgeLoop_spec (fun x hx hs ht => ?_) (.inr ⟨rfl, ?_⟩)
  · obtain ⟨e', he', hcase⟩ := AdjacencyList.mem_outDescriptors.mp hx
    refine (eq_of_joinsEnds hgh.apart he he' hjoins ?_).symm
    obtain ⟨_, heq⟩ | ⟨_, _, heq⟩ := hcase
    · rw [← hs, ← ht, heq]
      exact .inl rfl
    · rw [← hs, ← ht, heq]
      exact .inr rfl
  · obtain heq | heq := hjoins
    · obtain ⟨hs, ht⟩ := Prod.mk.inj heq
      exact ⟨(i, e), AdjacencyList.mem_outDescriptors.mpr ⟨e, he, .inl ⟨hs, rfl⟩⟩, hs, ht⟩
    · obtain ⟨hs, ht⟩ := Prod.mk.inj heq
      exact ⟨(i, e.flip), AdjacencyList.mem_outDescriptors.mpr ⟨e, he, .inr ⟨hd, ht, rfl⟩⟩,
        ht, hs⟩

/-! ## One tree -/

open scoped Classical in
/-- The edges from vertices that have the property. -/
noncomputable def edgesIn (g : AdjacencyList BasicVertex BasicEdge) (C : Nat → Prop) : Finset Nat :=
  (allEdges g).filter fun i => C (edgeEnds g i).1

/-- The vertices are in one component of the graph. -/
def Connected (g : AdjacencyList BasicVertex BasicEdge) (u v : Nat) : Prop :=
  Joined (edgeEnds g) (allEdges g) u v

instance {g : AdjacencyList BasicVertex BasicEdge} : Decidable (Connected g u v) :=
  inferInstanceAs (Decidable (Joined (edgeEnds g) (allEdges g) u v))

/-- Vertices that are connected with one of the graph are in the graph. -/
theorem joined_lt {T : Finset Nat} (hg : g.Consistent) (hT : ∀ i ∈ T, i ∈ allEdges g.graph)
    (hu : u < g.graph.numVertices) (h : Joined (edgeEnds g.graph) T u v) :
    v < g.graph.numVertices := by
  have hiff : ∀ x y, Joined (edgeEnds g.graph) T x y →
      (x < g.graph.numVertices ↔ y < g.graph.numVertices) := by
    intro x y hxy
    induction hxy with
    | rel x y hxy =>
      obtain ⟨i, hi, hends⟩ := hxy
      obtain ⟨e, he⟩ := mem_allEdges.mp (hT i hi)
      rw [edgeEnds_of_getElem? he] at hends
      obtain ⟨rfl, rfl⟩ := Prod.mk.inj hends
      have hbound := hg.ends e (List.mem_of_getElem? he)
      exact iff_of_true hbound.1 hbound.2
    | refl => rfl
    | symm _ _ _ ih => exact ih.symm
    | trans _ _ _ _ _ ih₁ ih₂ => exact ih₁.trans ih₂
  exact (hiff u v h).mp hu

/-- The edges `F` are those from the vertices of the tree to their predecessors. -/
structure PrimTree.HasEdges (g : AdjacencyList BasicVertex BasicEdge) (root : Nat) (r : PrimTree)
    (F : Finset Nat) : Prop where
  edge : ∀ v ∈ r.data, v ≠ root → r.predecessors v ≠ v ∧
    ∃ i ∈ F, SameEnds (edgeEnds g i) (r.predecessors v, v) ∧ r.distances v = edgeCost g i
  vertex : ∀ i ∈ F, ∃ v ∈ r.data, v ≠ root ∧ SameEnds (edgeEnds g i) (r.predecessors v, v)

/-- The documented result of `boost::prim_minimum_spanning_tree`: the predecessors, and the costs
    of the edges to them, in a minimum spanning tree of the component of the root. -/
structure PrimTree.Documented (g : AdjacencyList BasicVertex BasicEdge) (root : Nat)
    (r : PrimTree) : Prop where
  data : ∀ v, v ∈ r.data ↔ Connected g root v
  start : r.predecessors root = root ∧ r.distances root = 0
  tree : ∃ F, IsMinimum (edgeEnds g) (edgeCost g) (edgesIn g (Connected g root)) F ∧
    r.HasEdges g root F

theorem mem_edgesIn {g : AdjacencyList BasicVertex BasicEdge} {C : Nat → Prop} :
    i ∈ edgesIn g C ↔ i ∈ allEdges g ∧ C (edgeEnds g i).1 := by
  classical
  rw [edgesIn, Finset.mem_filter]

/-- The distances to the vertices of the tree are finite. -/
theorem PrimTree.Documented.distances_ne {r : PrimTree} {root : Nat}
    (hr : r.Documented h.graph root) (hv : v ∈ r.data) : r.distances v ≠ ⊤ := by
  by_cases hroot : v = root
  · rw [hroot, hr.start.2]
    exact WithTop.zero_ne_top
  · obtain ⟨F, _, hF⟩ := hr.tree
    obtain ⟨_, i, _, _, hcost⟩ := hF.edge v hv hroot
    rw [hcost]
    exact WithTop.coe_ne_top

/-- `s'` has of `s` the vertices that are not in the list, and in addition the edges from the
    vertices in the list to their predecessors. -/
structure AddsVertices (g : AdjacencyList BasicVertex BasicEdge) (root : Nat) (r : PrimTree)
    (l : List Nat) (s s' : PgrPrim) : Prop where
  edges : ∀ i, i ∈ s'.spanningTree ↔ i ∈ s.spanningTree ∨
    ∃ v ∈ l, v ≠ root ∧ i ∈ allEdges g ∧ SameEnds (edgeEnds g i) (r.predecessors v, v)
  nodup : s.unassigned.Nodup → s'.unassigned.Nodup
  unassigned : s.unassigned.Nodup → ∀ v, v ∈ s'.unassigned ↔ v ∈ s.unassigned ∧ v ∉ l

/-- A vertex of the tree. -/
theorem addVertex_spec {r : PrimTree} {root : Nat} (hgh : ReducedGraph g h)
    (hr : r.Documented h.graph root) (hv : v ∈ r.data) (s : PgrPrim) :
    ∃ s', PgrPrim.addVertex h r s v = some s' ∧ AddsVertices h.graph root r [v] s s' := by
  have herase : s.unassigned.Nodup → (s.unassigned.erase v).Nodup ∧
      ∀ w, w ∈ s.unassigned.erase v ↔ w ∈ s.unassigned ∧ w ∉ [v] := by
    intro hnd
    refine ⟨hnd.erase v, fun w => ?_⟩
    rw [hnd.mem_erase_iff, List.mem_singleton, and_comm]
  have hne := hr.distances_ne hv
  rw [PgrPrim.addVertex, if_neg hne]
  by_cases hroot : v = root
  · subst hroot
    simp only [hr.start.1, if_true]
    refine ⟨_, rfl, fun i => ?_, fun hnd => (herase hnd).1, fun hnd => (herase hnd).2⟩
    simp
  · obtain ⟨F, hmin, hF⟩ := hr.tree
    obtain ⟨hpred, i, hi, hsame, _⟩ := hF.edge v hv hroot
    have hall : i ∈ allEdges h.graph := (mem_edgesIn.mp (hmin.subset hi)).1
    simp only [if_neg hpred, getEdge_spec hgh hall hsame, Option.map_some]
    refine ⟨_, rfl, fun j => ?_, fun hnd => (herase hnd).1, fun hnd => (herase hnd).2⟩
    rw [Finset.mem_insert, or_comm]
    refine or_congr_right ⟨?_, ?_⟩
    · rintro rfl
      exact ⟨v, List.mem_singleton_self v, hroot, hall, hsame⟩
    · intro h
      obtain ⟨w, hw, _, hj, hsame'⟩ := h
      rw [List.mem_singleton.mp hw] at hsame'
      have hfind := getEdge_spec hgh hall hsame 0
      rw [getEdge_spec hgh hj hsame' 0] at hfind
      exact Option.some.inj hfind

/-- The vertices of the tree, one after the other. -/
theorem foldlM_addVertex {r : PrimTree} {root : Nat} (hgh : ReducedGraph g h)
    (hr : r.Documented h.graph root) (s : PgrPrim) (l : List Nat) (hl : ∀ v ∈ l, v ∈ r.data) :
    ∃ s', l.foldlM (PgrPrim.addVertex h r) s = some s' ∧ AddsVertices h.graph root r l s s' := by
  induction l generalizing s with
  | nil => exact ⟨s, rfl, by simp, id, by simp⟩
  | cons v l ih =>
    obtain ⟨s₁, h₁, hadd₁⟩ := addVertex_spec hgh hr (hl v List.mem_cons_self) s
    obtain ⟨s₂, h₂, hadd₂⟩ := ih s₁ fun w hw => hl w (List.mem_cons_of_mem _ hw)
    refine ⟨s₂, ?_, fun i => ?_, fun hnd => hadd₂.nodup (hadd₁.nodup hnd), fun hnd w => ?_⟩
    · rw [List.foldlM_cons, h₁]
      exact h₂
    · rw [hadd₂.edges, hadd₁.edges, or_assoc]
      refine or_congr_right ?_
      simp only [List.mem_cons, List.not_mem_nil, or_false, exists_eq_left, exists_eq_or_imp]
    · rw [hadd₂.unassigned (hadd₁.nodup hnd), hadd₁.unassigned hnd, and_assoc]
      simp [not_or]

/-- `primTree` adds a minimum spanning tree of the component of the root. -/
theorem primTree_spec {boost : BoostPrim} {root : Nat} (hgh : ReducedGraph g h)
    (hh : h.Consistent) (hroot : root < h.graph.numVertices)
    (hboost : (boost h.graph root).Documented h.graph root) (s : PgrPrim)
    (hnd : s.unassigned.Nodup) :
    ∃ s' F, PgrPrim.primTree boost h (h.vertexId root) s = some s' ∧
      IsMinimum (edgeEnds h.graph) (edgeCost h.graph)
        (edgesIn h.graph (Connected h.graph root)) F ∧
      s'.spanningTree = F ∪ s.spanningTree ∧ s'.unassigned.Nodup ∧
      ∀ v, v ∈ s'.unassigned ↔ v ∈ s.unassigned ∧ ¬ Connected h.graph root v := by
  obtain ⟨F, hmin, hF⟩ := hboost.tree
  obtain ⟨s', hs', hadd⟩ := foldlM_addVertex hgh hboost s _ fun v hv => hv
  refine ⟨s', F, ?_, hmin, ?_, hadd.nodup hnd, fun v => ?_⟩
  · rw [PgrPrim.primTree, hh.map_vertexId hroot]
    exact hs'
  · ext i
    rw [hadd.edges, Finset.mem_union, or_comm]
    refine or_congr_left ⟨?_, ?_⟩
    · intro hi
      obtain ⟨v, hv, hne, hi, hsame⟩ := hi
      obtain ⟨_, j, hj, hsame', _⟩ := hF.edge v hv hne
      have hall : j ∈ allEdges h.graph := (mem_edgesIn.mp (hmin.subset hj)).1
      have hfind := getEdge_spec hgh hi hsame 0
      rw [getEdge_spec hgh hall hsame' 0] at hfind
      rw [← Option.some.inj hfind]
      exact hj
    · intro hi
      obtain ⟨v, hv, hne, hsame⟩ := hF.vertex i hi
      exact ⟨v, hv, hne, (mem_edgesIn.mp (hmin.subset hi)).1, hsame⟩
  · rw [hadd.unassigned hnd, hboost.data]

/-! ## All trees -/

/-- The vertices `D`, whole components, are those that the trees have so far. -/
structure PrimState (g : AdjacencyList BasicVertex BasicEdge) (D : Nat → Prop) (s : PgrPrim) :
    Prop where
  closed : ∀ u v, Connected g u v → (D u ↔ D v)
  nodup : s.unassigned.Nodup
  unassigned : ∀ v, v ∈ s.unassigned ↔ v < g.numVertices ∧ ¬ D v
  minimum : IsMinimum (edgeEnds g) (edgeCost g) (edgesIn g D) s.spanningTree

/-- One more tree. -/
theorem round_spec {boost : BoostPrim} (hgh : ReducedGraph g h) (hh : h.Consistent)
    (hboost : ∀ root < h.graph.numVertices, (boost h.graph root).Documented h.graph root)
    {s : PgrPrim} {D : Nat → Prop} (hs : PrimState h.graph D s) :
    (s.unassigned = [] ∧ PgrPrim.round boost h s = .done (some s)) ∨
    ∃ s' D', PgrPrim.round boost h s = .next s' ∧ PrimState h.graph D' s' ∧
      s'.unassigned.length < s.unassigned.length := by
  obtain ⟨tree, unassigned⟩ := s
  cases unassigned with
  | nil => exact .inl ⟨rfl, rfl⟩
  | cons root rest =>
    right
    obtain ⟨hroot, hD⟩ := (hs.unassigned root).mp List.mem_cons_self
    obtain ⟨hnotMem, hnd⟩ := List.nodup_cons.mp hs.nodup
    obtain ⟨s', F, hs', hF, htree, hnd', hmem⟩ :=
      primTree_spec hgh hh hroot (hboost root hroot) ⟨tree, rest⟩ hnd
    refine ⟨s', fun v => Connected h.graph root v ∨ D v, ?_, ?_, ?_⟩
    · rw [PgrPrim.round]
      simp only [hs']
    · constructor
      case closed =>
        intro u v huv
        refine or_congr ⟨fun hu => ?_, fun hv => ?_⟩ (hs.closed u v huv)
        · exact hu.trans _ _ _ huv
        · exact hv.trans _ _ _ huv.symm
      case nodup => exact hnd'
      case unassigned =>
        intro v
        -- The tree of `root` takes its component from those still unassigned.
        have hold := hs.unassigned v
        simp only [List.mem_cons] at hold
        rw [hmem, not_or]
        constructor
        · intro hv
          obtain ⟨hlt, hnD⟩ := hold.mp (.inr hv.1)
          exact ⟨hlt, hv.2, hnD⟩
        · intro hv
          refine ⟨(hold.mpr ⟨hv.1, hv.2.2⟩).resolve_left ?_, hv.2.1⟩
          rintro rfl
          exact hv.2.1 (.refl _)
      case minimum =>
        -- The new component shares no vertex with the old ones, so their forests are put together.
        have hparts : edgesIn h.graph (fun v => Connected h.graph root v ∨ D v) =
            edgesIn h.graph (Connected h.graph root) ∪ edgesIn h.graph D := by
          ext i
          rw [Finset.mem_union, mem_edgesIn, mem_edgesIn, mem_edgesIn]
          exact and_or_left
        have hsep : Separates (edgeEnds h.graph) (Connected h.graph root)
            (edgesIn h.graph (Connected h.graph root)) (edgesIn h.graph D) := by
          constructor
          case inside =>
            intro i hi
            obtain ⟨hi, hfst⟩ := mem_edgesIn.mp hi
            exact ⟨hfst, hfst.trans _ _ _ (joined_of_mem hi)⟩
          case outside =>
            intro i hi
            obtain ⟨hi, hfst⟩ := mem_edgesIn.mp hi
            have hnot : ¬ Connected h.graph root (edgeEnds h.graph i).1 := fun hc =>
              hD ((hs.closed _ _ hc).mpr hfst)
            exact ⟨hnot, fun hc => hnot (hc.trans _ _ _ (joined_of_mem hi).symm)⟩
        rw [hparts, htree]
        exact hF.union hsep hs.minimum
    · have hsub : s'.unassigned ⊆ rest := fun v hv => ((hmem v).mp hv).1
      exact Nat.lt_succ_of_le (hnd'.subperm hsub).length_le

theorem ReducedGraph.consistent (hgh : ReducedGraph g h) (hg : g.Consistent) : h.Consistent where
  map := by
    rw [hgh.map, hgh.vertices]
    exact hg.map
  ends := by
    intro e' he'
    obtain ⟨e, he, hsame, _⟩ := hgh.kept e' he'
    have hlt := hg.ends e he
    rw [hgh.vertices]
    obtain heq | heq := hsame
    · obtain ⟨hs, ht⟩ := Prod.mk.inj heq
      exact ⟨hs ▸ hlt.1, ht ▸ hlt.2⟩
    · obtain ⟨hs, ht⟩ := Prod.mk.inj heq
      exact ⟨hs ▸ hlt.2, ht ▸ hlt.1⟩

/-- The edges of each graph have one of the other between the same ends. -/
theorem ReducedGraph.edges (hgh : ReducedGraph g h) :
    (∀ i ∈ allEdges g.graph, ∃ k ∈ allEdges h.graph,
      SameEnds (edgeEnds g.graph i) (edgeEnds h.graph k) ∧
        edgeCost h.graph k ≤ edgeCost g.graph i) ∧
    ∀ k ∈ allEdges h.graph, ∃ i ∈ allEdges g.graph,
      SameEnds (edgeEnds h.graph k) (edgeEnds g.graph i) ∧
        edgeCost g.graph i ≤ edgeCost h.graph k := by
  constructor
  · intro i hi
    obtain ⟨e, he⟩ := mem_allEdges.mp hi
    obtain ⟨e', hmem, hsame, hle⟩ := hgh.cheaper e (List.mem_of_getElem? he)
    obtain ⟨k, hk⟩ := List.mem_iff_getElem?.mp hmem
    refine ⟨k, mem_allEdges.mpr ⟨e', hk⟩, ?_, ?_⟩
    · rw [edgeEnds_of_getElem? he, edgeEnds_of_getElem? hk]
      exact hsame
    · rw [edgeCost_of_getElem? he, edgeCost_of_getElem? hk]
      exact hle
  · intro k hk
    obtain ⟨e', he'⟩ := mem_allEdges.mp hk
    obtain ⟨e, hmem, hsame, hcost, _⟩ := hgh.kept e' (List.mem_of_getElem? he')
    obtain ⟨i, hi⟩ := List.mem_iff_getElem?.mp hmem
    refine ⟨i, mem_allEdges.mpr ⟨e, hi⟩, ?_, ?_⟩
    · rw [edgeEnds_of_getElem? he', edgeEnds_of_getElem? hi]
      exact hsame
    · rw [edgeCost_of_getElem? he', edgeCost_of_getElem? hi]
      exact hcost.le

/-- The edges that the forest has connect what the graph connects. -/
theorem SpanningForest.joined_iff {g : AdjacencyList BasicVertex BasicEdge} {T : Finset Nat}
    (hT : SpanningForest (edgeEnds g) (allEdges g) T) :
    Joined (edgeEnds g) T u v ↔ Connected g u v :=
  ⟨fun h => h.mono hT.subset, fun h => h.lift hT.spans⟩

/-- A triangle in which two rows join the vertices 1 and 2, and an edge elsewhere. -/
def triangleAndEdge : List EdgeT :=
  [⟨1, 1, 2, 3, -1⟩, ⟨2, 2, 1, 1, -1⟩, ⟨3, 2, 3, 2, -1⟩, ⟨4, 1, 3, 2, -1⟩, ⟨5, 4, 5, 1, 1⟩]

/-- The tree in which the vertices have the predecessors and the edges to them the costs. -/
def PrimTree.ofTable (tree : List (Nat × Nat × WithTop ℚ)) : PrimTree where
  predecessors := fun v => ((tree.find? fun x => x.1 = v).map (·.2.1)).getD v
  distances := fun v => ((tree.find? fun x => x.1 = v).map (·.2.2)).getD ⊤
  data := tree.map (·.1)

end PgRouting
