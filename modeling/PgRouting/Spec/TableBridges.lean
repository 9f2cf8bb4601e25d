import PgRouting.Spec.Bridges
import PgRouting.Spec.GraphRows

/-!
# The bridges of a table

A row of the table is a bridge when there are more components without it. The graph has
one edge for a row that is read, or two when the row has two different costs, and then
they are parallel to each other.

## Key results

- `eqvGen_iff_linked`: what is connected in the graph is connected in the table
- `cuts_iff`: which rows are cut out of the graph
- `mem_bridges_iff`: what is reported
- `bridges_exact_iff`
-/

namespace PgRouting

open Relation

/-- The row is read into the graph. -/
def EdgeT.Counts (e : EdgeT) : Prop := 0 ≤ e.cost ∨ 0 ≤ e.reverseCost

instance (e : EdgeT) : Decidable e.Counts := inferInstanceAs (Decidable (_ ∨ _))

/-- The row joins the vertices. -/
def EdgeT.Links (e : EdgeT) (i j : Int) : Prop :=
  e.source = i ∧ e.target = j ∨ e.source = j ∧ e.target = i

/-- Some row that is read joins the vertices. -/
def Linked (es : List EdgeT) (i j : Int) : Prop := ∃ e ∈ es, e.Counts ∧ e.Links i j

/-- The vertices of the rows that are read. -/
def tableVertices (es : List EdgeT) : Set Int :=
  {i | ∃ e ∈ es, e.Counts ∧ (i = e.source ∨ i = e.target)}

/-- Without the row there are more components. -/
def IsBridge (es : List EdgeT) (e : EdgeT) : Prop :=
  components (tableVertices es) (Linked es) <
    components (tableVertices es) (Linked (es.filter fun x => x.id ≠ e.id))

theorem finite_tableVertices (es : List EdgeT) : (tableVertices es).Finite := by
  have hsub : tableVertices es ⊆ {i | i ∈ es.flatMap fun e => [e.source, e.target]} := by
    rintro i ⟨e, he, _, hi⟩
    refine List.mem_flatMap.mpr ⟨e, he, ?_⟩
    simpa using hi
  exact (List.finite_toSet _).subset hsub

/-- A row is a bridge when its ends are not connected without it. -/
theorem isBridge_iff {es : List EdgeT} (hids : (es.map (·.id)).Nodup) {e : EdgeT} (he : e ∈ es)
    (hcounts : e.Counts) :
    IsBridge es e ↔
      ¬ EqvGen (Linked (es.filter fun x => x.id ≠ e.id)) e.source e.target := by
  apply components_lt_iff (finite_tableVertices es) ⟨e, he, hcounts, .inl rfl⟩
    ⟨e, he, hcounts, .inr rfl⟩
  · rintro i j ⟨x, hx, hlink⟩
    exact ⟨x, (List.mem_filter.mp hx).1, hlink⟩
  · rintro i j ⟨x, hx, hxc, hlink⟩
    by_cases hid : x.id = e.id
    · obtain rfl : x = e := List.inj_on_of_nodup_map hids hx he hid
      obtain ⟨rfl, rfl⟩ | ⟨rfl, rfl⟩ := hlink
      · exact .inr (.inl ⟨rfl, rfl⟩)
      · exact .inr (.inr ⟨rfl, rfl⟩)
    · exact .inl ⟨x, List.mem_filter.mpr ⟨hx, decide_eq_true hid⟩, hxc, hlink⟩
  · exact .rel _ _ ⟨e, he, hcounts, .inl ⟨rfl, rfl⟩⟩

namespace PgrBaseGraph

open AdjacencyList

variable {es : List EdgeT} {e : EdgeT} {u v : Nat} {i j : Int}

theorem counted_of_mem_tableRows {r : IdEdge} (h : r ∈ tableRows false true e) :
    e.Counts ∧ e.Links r.1 r.2.1 ∧ r.2.2.1 = e.id := by
  simp only [tableRows, List.mem_append] at h
  obtain h | h := h
  · split at h
    · rename_i hc
      obtain rfl := List.mem_singleton.mp h
      exact ⟨.inl hc, .inl ⟨rfl, rfl⟩, rfl⟩
    · cases h
  · split at h
    · rename_i hc
      obtain rfl := List.mem_singleton.mp h
      exact ⟨.inr hc.1, .inr ⟨rfl, rfl⟩, rfl⟩
    · cases h

/-- A row that is read has one edge, or two when it has two different costs. -/
theorem length_tableRows (hcounts : e.Counts) :
    (tableRows false true e).length = if e.Twice then 2 else 1 := by
  by_cases hc : 0 ≤ e.cost
  · by_cases hrc : 0 ≤ e.reverseCost ∧ e.cost ≠ e.reverseCost
    · rw [if_pos ⟨hc, hrc⟩]
      simp [tableRows, hc, hrc]
    · rw [if_neg fun h => hrc h.2]
      simp only [not_and_or, not_le] at hrc
      obtain hrc | hrc := hrc
      · simp [tableRows, hc, not_le.mpr hrc]
      · simp [tableRows, ← not_not.mp hrc, hc]
  · have hrc : 0 ≤ e.reverseCost := hcounts.resolve_left hc
    have hne : e.cost ≠ e.reverseCost := fun h => hc (h ▸ hrc)
    rw [if_neg fun h => hc h.1]
    simp [tableRows, hc, hrc, hne]

/-- The undirected graph of the table. -/
abbrev undirected (es : List EdgeT) : PgrBaseGraph BasicVertex BasicEdge := ofTable false es

theorem joins_iff_links {b : BoostEdge BasicEdge} (hb : b ∈ (undirected es).graph.edges)
    (hu : (undirected es).verticesMap i = some u) (hv : (undirected es).verticesMap j = some v)
    (hlink : e.Links ((undirected es).vertexId b.source) ((undirected es).vertexId b.target)) :
    (undirected es).graph.joins u v b = true ↔ e.Links i j := by
  have hg := ofTable_consistent (V := BasicVertex) (E := BasicEdge) false es
  have hends := hg.ends b hb
  have hsame : ∀ {k w x}, (undirected es).verticesMap k = some w →
      x < (undirected es).graph.vertices.length →
      (x = w ↔ (undirected es).vertexId x = k) := by
    intro k w x hw hx
    rw [← hg.vertexId_eq hw]
    exact ⟨fun h => h ▸ rfl, fun h => hg.vertexId_inj hx (hg.lt hw) h⟩
  rw [joins_iff_ends (ofTable_directed false es), hsame hu hends.1, hsame hv hends.2,
    hsame hv hends.1, hsame hu hends.2]
  rw [EdgeT.Links] at hlink ⊢
  omega

/-- The edges that join two vertices and the rows that do, among those with certain ids. -/
theorem adj_iff_linked (P : Int → Prop) [DecidablePred P]
    (hu : (undirected es).verticesMap i = some u) (hv : (undirected es).verticesMap j = some v) :
    (∃ b ∈ (undirected es).graph.edges, P b.bundle.id ∧ (undirected es).graph.joins u v b = true) ↔
      Linked (es.filter fun x => P x.id) i j := by
  constructor
  · rintro ⟨b, hb, hP, hj⟩
    obtain ⟨e, he, hid, hrow⟩ := exists_row false es hb
    obtain ⟨hcounts, hlink, _⟩ := counted_of_mem_tableRows hrow
    have hid : b.bundle.id = e.id := hid
    exact ⟨e, List.mem_filter.mpr ⟨he, decide_eq_true (hid ▸ hP)⟩, hcounts,
      (joins_iff_links hb hu hv hlink).mp hj⟩
  · rintro ⟨e, he, hcounts, hlink⟩
    obtain ⟨he, hP⟩ := List.mem_filter.mp he
    have hlen : (tableRows false true e) ≠ [] := by
      intro hnil
      have hlen := length_tableRows hcounts
      rw [hnil] at hlen
      split at hlen <;> cases hlen
    obtain ⟨r, hr⟩ := List.exists_mem_of_ne_nil _ hlen
    have hmem : r ∈ (undirected es).idEdges := by
      rw [ofTable_idEdges]
      exact List.mem_flatMap.mpr ⟨e, he, hr⟩
    obtain ⟨b, hb, rfl⟩ := List.mem_map.mp hmem
    obtain ⟨_, hends, hid⟩ := counted_of_mem_tableRows hr
    have hid : b.bundle.id = e.id := hid
    exact ⟨b, hb, hid ▸ of_decide_eq_true hP, (joins_iff_links hb hu hv hends).mpr hlink⟩

theorem exists_descriptor {P : EdgeT → Bool} (h : Linked (es.filter P) i j) :
    (∃ u, (undirected es).verticesMap i = some u) ∧
      ∃ v, (undirected es).verticesMap j = some v := by
  obtain ⟨e, he, hcounts, hlink⟩ := h
  have hread : ¬ (e.cost < 0 ∧ e.reverseCost < 0) := by
    rw [not_and_or, not_lt, not_lt]
    exact hcounts
  have hhas : ∀ k, k = e.source ∨ k = e.target → ∃ u, (undirected es).verticesMap k = some u :=
    fun k hk => Option.isSome_iff_exists.mp
      ((ofTable_hasVertex false es k).mpr ⟨e, (List.mem_filter.mp he).1, hread, hk⟩)
  obtain ⟨rfl, rfl⟩ | ⟨rfl, rfl⟩ := hlink
  · exact ⟨hhas _ (.inl rfl), hhas _ (.inr rfl)⟩
  · exact ⟨hhas _ (.inr rfl), hhas _ (.inl rfl)⟩

/-- Connected descriptors and connected ids, by edges with certain ids. -/
theorem eqvGen_iff_linked (P : Int → Prop) [DecidablePred P]
    (hu : (undirected es).verticesMap i = some u) (hv : (undirected es).verticesMap j = some v) :
    EqvGen (fun x y => ∃ b ∈ (undirected es).graph.edges, P b.bundle.id ∧
      (undirected es).graph.joins x y b = true) u v ↔
      EqvGen (Linked (es.filter fun x => P x.id)) i j := by
  have hg := ofTable_consistent (V := BasicVertex) (E := BasicEdge) false es
  constructor
  · intro h
    rw [← hg.vertexId_eq hu, ← hg.vertexId_eq hv]
    refine eqvGen_lift _ (fun x y hxy => .rel _ _ ?_) h
    have hlt : x < (undirected es).graph.vertices.length ∧
        y < (undirected es).graph.vertices.length := by
      obtain ⟨b, hb, _, hj⟩ := hxy
      obtain ⟨rfl, rfl⟩ | ⟨rfl, rfl⟩ := (joins_iff_ends (ofTable_directed false es)).mp hj
      · exact hg.ends b hb
      · exact (hg.ends b hb).symm
    exact (adj_iff_linked P (hg.map_vertexId hlt.1) (hg.map_vertexId hlt.2)).mp hxy
  · intro h
    have hlift := eqvGen_lift (s := fun x y => ∃ b ∈ (undirected es).graph.edges,
      P b.bundle.id ∧ (undirected es).graph.joins x y b = true)
      (fun k => ((undirected es).verticesMap k).getD 0) (fun k l hkl => ?_) h
    · rwa [hu, hv] at hlift
    · obtain ⟨⟨x, hx⟩, y, hy⟩ := exists_descriptor hkl
      rw [hx, hy]
      exact .rel _ _ ((adj_iff_linked P hx hy).mpr hkl)

/-- The edges of one row join the same two vertices. -/
theorem joins_of_id (hids : (es.map (·.id)).Nodup) (he : e ∈ es)
    (hu : (undirected es).verticesMap e.source = some u)
    (hv : (undirected es).verticesMap e.target = some v) {b : BoostEdge BasicEdge}
    (hb : b ∈ (undirected es).graph.edges) (hid : b.bundle.id = e.id) :
    (undirected es).graph.joins u v b = true := by
  obtain ⟨x, hx, hxid, hrow⟩ := exists_row false es hb
  have hxid : b.bundle.id = x.id := hxid
  obtain rfl : x = e := List.inj_on_of_nodup_map hids hx he (hxid.symm.trans hid)
  exact (joins_iff_links hb hu hv (counted_of_mem_tableRows hrow).2.1).mpr (.inl ⟨rfl, rfl⟩)

theorem ofTable_idsApart (hids : (es.map (·.id)).Nodup) :
    Algorithms.IdsApart (undirected es).graph := by
  have hg := ofTable_consistent (V := BasicVertex) (E := BasicEdge) false es
  intro b hb o ho hid x y hj
  obtain ⟨e, he, heid, hrow⟩ := exists_row false es hb
  obtain ⟨e', he', heid', hrow'⟩ := exists_row false es ho
  have heid : b.bundle.id = e.id := heid
  have heid' : o.bundle.id = e'.id := heid'
  obtain rfl : e = e' := List.inj_on_of_nodup_map hids he he' (heid ▸ heid' ▸ hid)
  have hlt : x < (undirected es).graph.vertices.length ∧
      y < (undirected es).graph.vertices.length := by
    obtain ⟨rfl, rfl⟩ | ⟨rfl, rfl⟩ := (joins_iff_ends (ofTable_directed false es)).mp hj
    · exact hg.ends b hb
    · exact (hg.ends b hb).symm
  have hx := hg.map_vertexId hlt.1
  have hy := hg.map_vertexId hlt.2
  exact (joins_iff_links ho hx hy (counted_of_mem_tableRows hrow').2.1).mpr
    ((joins_iff_links hb hx hy (counted_of_mem_tableRows hrow).2.1).mp hj)

/-- A row is cut out of the graph when it is a bridge of the table with one edge in the graph. -/
theorem cuts_iff (hids : (es.map (·.id)).Nodup) (he : e ∈ es) (hcounts : e.Counts)
    (hu : (undirected es).verticesMap e.source = some u)
    (hv : (undirected es).verticesMap e.target = some v) :
    (undirected es).graph.Cuts u v e.id ↔ ¬ e.Twice ∧ IsBridge es e := by
  set g := undirected es with hg
  have hd : g.graph.directed = false := ofTable_directed false es
  -- A row with both costs stands twice in the undirected graph.
  have hlen : (g.graph.edges.filter fun b => b.bundle.id = e.id).length =
      if e.Twice then 2 else 1 := by
    rw [← length_tableRows hcounts, ← ofTable_filter_id (V := BasicVertex) (E := BasicEdge) false
      hids he, List.length_map]
    rfl
  rw [isBridge_iff hids he hcounts, ← eqvGen_iff_linked (fun id => id ≠ e.id) hu hv]
  -- When no other row joins the ends, the edges between them are those of the row.
  have hsame : (∀ b ∈ g.graph.edges, g.graph.joins u v b = true → b.bundle.id = e.id) →
      (g.graph.edges.filter (g.graph.joins u v)).length = (if e.Twice then 2 else 1) ∧
      (fun x y => g.graph.Adj x y ∧ Apart u v x y) = fun x y => ∃ b ∈ g.graph.edges,
        b.bundle.id ≠ e.id ∧ g.graph.joins x y b = true := by
    intro honly
    constructor
    · rw [← hlen]
      congr 1
      apply List.filter_congr
      intro b hb
      rw [Bool.eq_iff_iff, decide_eq_true_eq]
      exact ⟨honly b hb, joins_of_id hids he hu hv hb⟩
    · funext x y
      apply propext
      constructor
      · rintro ⟨⟨b, hb, hj⟩, hapart⟩
        refine ⟨b, hb, fun hid => ?_, hj⟩
        exact apart_of_joins hd hapart hj (joins_of_id hids he hu hv hb hid)
      · rintro ⟨b, hb, hid, hj⟩
        refine ⟨⟨b, hb, hj⟩, fun hsame => hid (honly b hb ?_)⟩
        obtain ⟨rfl, rfl⟩ | ⟨rfl, rfl⟩ := hsame
        · exact hj
        · rwa [joins_comm hd]
  constructor
  · rintro ⟨b, hfilter, hid, hconn⟩
    have hone : ∀ o ∈ g.graph.edges, g.graph.joins u v o = true → o.bundle.id = e.id := by
      intro o ho hj
      have hmem : o ∈ g.graph.edges.filter (g.graph.joins u v) := List.mem_filter.mpr ⟨ho, hj⟩
      rw [hfilter, List.mem_singleton] at hmem
      rw [hmem, hid]
    obtain ⟨hcount, hrel⟩ := hsame hone
    rw [hrel] at hconn
    refine ⟨fun htwice => ?_, hconn⟩
    rw [hfilter, if_pos htwice] at hcount
    cases hcount
  · rintro ⟨htwice, hconn⟩
    have hone : ∀ o ∈ g.graph.edges, g.graph.joins u v o = true → o.bundle.id = e.id := by
      intro o ho hj
      by_contra hid
      exact hconn (.rel _ _ ⟨o, ho, hid, hj⟩)
    obtain ⟨hcount, hrel⟩ := hsame hone
    rw [if_neg htwice] at hcount
    obtain ⟨b, hb⟩ := List.length_eq_one_iff.mp hcount
    have hmem : b ∈ g.graph.edges.filter (g.graph.joins u v) := hb ▸ List.mem_singleton_self b
    obtain ⟨hmem, hj⟩ := List.mem_filter.mp hmem
    exact ⟨b, hb, hone b hmem hj, by rw [hrel]; exact hconn⟩

end PgrBaseGraph

namespace Algorithms

open AdjacencyList PgrBaseGraph

variable {es : List EdgeT} {e : EdgeT} {u v : Nat}

/-- The end `i` of the row to `j` has no self-loop, or a neighbour besides `j`. -/
def SeenInTable (es : List EdgeT) (i j : Int) : Prop :=
  Linked es i i → ∃ k, k ≠ i ∧ k ≠ j ∧ Linked es i k

theorem adj_iff_linked_all {i j : Int} (hu : (undirected es).verticesMap i = some u)
    (hv : (undirected es).verticesMap j = some v) :
    (undirected es).graph.Adj u v ↔ Linked es i j := by
  have hall := adj_iff_linked (fun _ => True) hu hv
  have hfilter : (es.filter fun _ => decide True) = es := List.filter_eq_self.mpr fun _ _ => rfl
  rw [hfilter] at hall
  rw [← hall]
  simp [Adj]

theorem seen_iff {i j : Int} (hu : (undirected es).verticesMap i = some u)
    (hv : (undirected es).verticesMap j = some v) :
    Seen (undirected es).graph u v ↔ SeenInTable es i j := by
  have hg := ofTable_consistent (V := BasicVertex) (E := BasicEdge) false es
  have hne : ∀ {k l x y}, (undirected es).verticesMap k = some x →
      (undirected es).verticesMap l = some y → (x ≠ y ↔ k ≠ l) := by
    intro k l x y hx hy
    rw [← hg.vertexId_eq hx, ← hg.vertexId_eq hy, ne_eq, ne_eq, not_iff_not]
    exact ⟨fun h => h ▸ rfl, fun h => hg.vertexId_inj (hg.lt hx) (hg.lt hy) h⟩
  rw [Seen, SeenInTable, adj_iff_linked_all hu hu]
  refine imp_congr_right fun _ => ?_
  constructor
  · rintro ⟨x, hxu, hxv, hadj⟩
    have hlt : x < (undirected es).graph.vertices.length := by
      obtain ⟨b, hb, hj⟩ := hadj
      obtain ⟨_, rfl⟩ | ⟨rfl, _⟩ := (joins_iff_ends (ofTable_directed false es)).mp hj
      · exact (hg.ends b hb).2
      · exact (hg.ends b hb).1
    have hx := hg.map_vertexId hlt
    exact ⟨_, (hne hx hu).mp hxu, (hne hx hv).mp hxv, (adj_iff_linked_all hu hx).mp hadj⟩
  · rintro ⟨k, hki, hkj, hlink⟩
    have hfilter : (es.filter fun _ => true) = es := List.filter_eq_self.mpr fun _ _ => rfl
    obtain ⟨_, x, hx⟩ := exists_descriptor (hfilter.symm ▸ hlink)
    exact ⟨x, (hne hx hu).mpr hki, (hne hx hv).mpr hkj, (adj_iff_linked_all hu hx).mpr hlink⟩

/-- What makes `bridges` see a bridge: the row has one edge in the graph, and neither end has a
    self-loop and no neighbour besides the other end. -/
def Reported (es : List EdgeT) (e : EdgeT) : Prop :=
  ¬ e.Twice ∧ SeenInTable es e.source e.target ∧ SeenInTable es e.target e.source

variable {unset : BasicEdge} {connectedComponents : AdjacencyList BasicVertex BasicEdge → Nat}
variable {articulationPoints : AdjacencyList BasicVertex BasicEdge → List Nat}

/-- The ids that `bridges` returns. -/
theorem mem_bridges_iff (hids : (es.map (·.id)).Nodup)
    (hcc : ∀ h, connectedComponents h = h.numComponents)
    (hart : FindsArticulationPoints articulationPoints (undirected es).graph) (id : Int) :
    id ∈ bridges unset connectedComponents articulationPoints (undirected es) ↔
      ∃ e ∈ es, e.id = id ∧ e.Counts ∧ IsBridge es e ∧ Reported es e := by
  have hg := ofTable_consistent (V := BasicVertex) (E := BasicEdge) false es
  have hd : (undirected es).graph.directed = false := ofTable_directed false es
  have hends : ∀ x y, (undirected es).graph.Adj x y →
      x < (undirected es).graph.numVertices ∧ y < (undirected es).graph.numVertices := by
    rintro x y ⟨b, hb, hj⟩
    obtain ⟨rfl, rfl⟩ | ⟨rfl, rfl⟩ := (joins_iff_ends hd).mp hj
    · exact hg.ends b hb
    · exact (hg.ends b hb).symm
  rw [mem_bridges_graph_iff hcc hart hd hends (ofTable_idsApart hids)]
  -- A row with a cost has its ends in the graph.
  have hread : ∀ e ∈ es, e.Counts → ∃ u v, (undirected es).verticesMap e.source = some u ∧
      (undirected es).verticesMap e.target = some v := by
    intro e he hcounts
    obtain ⟨⟨u, hu⟩, v, hv⟩ := exists_descriptor (P := fun _ => true)
      ⟨e, List.mem_filter.mpr ⟨he, rfl⟩, hcounts, .inl ⟨rfl, rfl⟩⟩
    exact ⟨u, v, hu, hv⟩
  constructor
  · -- The edge that is cut out comes from a row, in one of its two directions.
    rintro ⟨a, b, _, hcut, ha, hb⟩
    have hedge := hcut
    obtain ⟨o, hfilter, hid, _⟩ := hedge
    have ho : o ∈ (undirected es).graph.edges.filter ((undirected es).graph.joins a b) :=
      hfilter ▸ List.mem_singleton_self o
    obtain ⟨ho, hj⟩ := List.mem_filter.mp ho
    obtain ⟨e, he, heid, hrow⟩ := exists_row false es ho
    have heid : o.bundle.id = e.id := heid
    obtain ⟨hcounts, hlink, _⟩ := counted_of_mem_tableRows hrow
    obtain ⟨u, v, hu, hv⟩ := hread e he hcounts
    obtain rfl : e.id = id := heid.symm.trans hid
    have huv := joins_of_id hids he hu hv ho heid
    refine ⟨e, he, rfl, hcounts, ?_⟩
    rw [joins_iff_ends hd] at hj huv
    obtain ⟨rfl, rfl⟩ | ⟨rfl, rfl⟩ : a = u ∧ b = v ∨ a = v ∧ b = u := by omega
    · obtain ⟨htwice, hbridge⟩ := (cuts_iff hids he hcounts hu hv).mp hcut
      exact ⟨hbridge, htwice, (seen_iff hu hv).mp ha, (seen_iff hv hu).mp hb⟩
    · obtain ⟨htwice, hbridge⟩ := (cuts_iff hids he hcounts hu hv).mp (hcut.symm hd)
      exact ⟨hbridge, htwice, (seen_iff hu hv).mp hb, (seen_iff hv hu).mp ha⟩
  · rintro ⟨e, he, rfl, hcounts, hbridge, htwice, hs, ht⟩
    obtain ⟨u, v, hu, hv⟩ := hread e he hcounts
    have hcut := (cuts_iff hids he hcounts hu hv).mpr ⟨htwice, hbridge⟩
    obtain hle | hle := Nat.le_total v u
    · exact ⟨u, v, hle, hcut, (seen_iff hu hv).mpr hs, (seen_iff hv hu).mpr ht⟩
    · exact ⟨v, u, hle, hcut.symm hd, (seen_iff hv hu).mpr ht, (seen_iff hu hv).mpr hs⟩

variable (es unset connectedComponents articulationPoints) in
/-- `bridges` returns the ids of exactly the bridges of the table when every bridge has one edge in
    the graph and no end with nothing else but self-loops. -/
theorem bridges_exact_iff (hids : (es.map (·.id)).Nodup)
    (hcc : ∀ h, connectedComponents h = h.numComponents)
    (hart : FindsArticulationPoints articulationPoints (undirected es).graph) :
    (∀ id, id ∈ bridges unset connectedComponents articulationPoints (undirected es) ↔
      ∃ e ∈ es, e.id = id ∧ e.Counts ∧ IsBridge es e) ↔
    ∀ e ∈ es, e.Counts → IsBridge es e → Reported es e := by
  constructor
  · intro hexact e he hcounts hbridge
    obtain ⟨x, hx, hid, _, _, hreported⟩ :=
      (mem_bridges_iff hids hcc hart e.id).mp ((hexact e.id).mpr ⟨e, he, rfl, hcounts, hbridge⟩)
    obtain rfl : x = e := List.inj_on_of_nodup_map hids hx he hid
    exact hreported
  · intro hall id
    rw [mem_bridges_iff hids hcc hart]
    constructor
    · rintro ⟨e, he, hid, hcounts, hbridge, _⟩
      exact ⟨e, he, hid, hcounts, hbridge⟩
    · rintro ⟨e, he, hid, hcounts, hbridge⟩
      exact ⟨e, he, hid, hcounts, hbridge, hall e he hcounts hbridge⟩

/-! ## Two tables -/

/-- The articulation points of an undirected graph. -/
def graphArticulations (g : AdjacencyList BasicVertex BasicEdge) : List Nat :=
  articulations (g.edges.map fun e => (e.source, e.target))

theorem findsArticulationPoints {g : AdjacencyList BasicVertex BasicEdge}
    (hd : g.directed = false) : FindsArticulationPoints graphArticulations g := by
  refine ⟨nodup_articulations _, fun v => mem_articulations fun x y => ?_⟩
  simp only [Adj, joins_iff_ends hd, List.mem_map, Prod.mk.injEq]
  constructor
  · rintro ⟨e, he, hends | hends⟩
    · exact .inl ⟨e, he, hends⟩
    · exact .inr ⟨e, he, hends⟩
  · rintro (⟨e, he, hends⟩ | ⟨e, he, hends⟩)
    · exact ⟨e, he, .inl hends⟩
    · exact ⟨e, he, .inr hends⟩

/-- The rows that count, each with its two ids. -/
def countedPairs (es : List EdgeT) : List (Int × Int) :=
  (es.filter fun e => e.Counts).map fun e => (e.source, e.target)

theorem linked_iff_pairs {i j : Int} :
    Linked es i j ↔ (i, j) ∈ countedPairs es ∨ (j, i) ∈ countedPairs es := by
  simp only [Linked, EdgeT.Links, countedPairs, List.mem_map, List.mem_filter, decide_eq_true_eq,
    Prod.mk.injEq]
  constructor
  · rintro ⟨e, he, hcounts, hends | hends⟩
    · exact .inl ⟨e, ⟨he, hcounts⟩, hends⟩
    · exact .inr ⟨e, ⟨he, hcounts⟩, hends⟩
  · rintro (⟨e, ⟨he, hcounts⟩, hends⟩ | ⟨e, ⟨he, hcounts⟩, hends⟩)
    · exact ⟨e, he, hcounts, .inl hends⟩
    · exact ⟨e, he, hcounts, .inr hends⟩

/-- The bridges of a table, without counting components. -/
theorem isBridge_iff_leader (hids : (es.map (·.id)).Nodup) (he : e ∈ es) (hcounts : e.Counts) :
    IsBridge es e ↔ leader (countedPairs (es.filter fun x => x.id ≠ e.id)) e.source ≠
      leader (countedPairs (es.filter fun x => x.id ≠ e.id)) e.target := by
  rw [isBridge_iff hids he hcounts, ne_eq, not_iff_not]
  exact eqvGen_iff_leader (fun x y hxy => linked_iff_pairs.mp hxy) fun p hp =>
    .rel _ _ (linked_iff_pairs.mpr (.inl hp))

/-- A triangle in which two rows join 1 and 2 and one has two costs, a row from it to 4, and a
    self-loop. -/
def triangleAndBridge : List EdgeT :=
  [⟨1, 1, 2, 1, -1⟩, ⟨2, 1, 2, 2, -1⟩, ⟨3, 2, 3, 1, 4⟩, ⟨4, 3, 1, 1, -1⟩, ⟨5, 3, 4, 1, 1⟩,
    ⟨6, 3, 3, 1, -1⟩]

/-- The only bridge leads to 4. -/
theorem bridges_exact_triangle :
    (∀ id, id ∈ bridges ⟨0, 0, 0, 0⟩ numComponents graphArticulations
        (undirected triangleAndBridge) ↔
      ∃ e ∈ triangleAndBridge, e.id = id ∧ e.Counts ∧ IsBridge triangleAndBridge e) ∧
    5 ∈ bridges ⟨0, 0, 0, 0⟩ numComponents graphArticulations (undirected triangleAndBridge) := by
  have hids : (triangleAndBridge.map (·.id)).Nodup := by decide
  have honly : ∀ e ∈ triangleAndBridge, e.Counts ∧
      (leader (countedPairs (triangleAndBridge.filter fun x => x.id ≠ e.id)) e.source ≠
        leader (countedPairs (triangleAndBridge.filter fun x => x.id ≠ e.id)) e.target ↔
      e = ⟨5, 3, 4, 1, 1⟩) := by decide +kernel
  have hbridges : ∀ e ∈ triangleAndBridge,
      (IsBridge triangleAndBridge e ↔ e = ⟨5, 3, 4, 1, 1⟩) := fun e he =>
    (isBridge_iff_leader hids he (honly e he).1).trans (honly e he).2
  have hexact := (bridges_exact_iff triangleAndBridge ⟨0, 0, 0, 0⟩ numComponents
    graphArticulations hids (fun _ => rfl) (findsArticulationPoints (ofTable_directed false _))).mpr
      fun e he _ hbridge => by
    obtain rfl := (hbridges e he).mp hbridge
    refine ⟨by decide +kernel, fun _ => ⟨1, by decide, by decide, ?_⟩, fun hloop => ?_⟩
    · exact linked_iff_pairs.mpr (by decide +kernel)
    · have hnone : ¬ ((4, 4) ∈ countedPairs triangleAndBridge ∨
          (4, 4) ∈ countedPairs triangleAndBridge) := by decide +kernel
      exact absurd (linked_iff_pairs.mp hloop) hnone
  have hmem : (⟨5, 3, 4, 1, 1⟩ : EdgeT) ∈ triangleAndBridge := by decide +kernel
  exact ⟨hexact, (hexact 5).mpr ⟨_, hmem, rfl, (honly _ hmem).1, (hbridges _ hmem).mpr rfl⟩⟩

/-- The only row is a bridge with two edges in the graph, one for each cost. -/
theorem bridges_misses_row :
    FindsArticulationPoints graphArticulations (undirected [⟨7, 1, 2, 3, 5⟩]).graph ∧
    ¬ ∀ id, id ∈ bridges ⟨0, 0, 0, 0⟩ numComponents graphArticulations
        (undirected [⟨7, 1, 2, 3, 5⟩]) ↔
      ∃ e ∈ [(⟨7, 1, 2, 3, 5⟩ : EdgeT)], e.id = id ∧ e.Counts ∧
        IsBridge [⟨7, 1, 2, 3, 5⟩] e := by
  constructor
  · exact findsArticulationPoints (ofTable_directed false _)
  · intro hall
    have hcounts : EdgeT.Counts ⟨7, 1, 2, 3, 5⟩ := .inl (by decide +kernel)
    have hbridge : IsBridge [⟨7, 1, 2, 3, 5⟩] ⟨7, 1, 2, 3, 5⟩ := by
      rw [isBridge_iff_leader (by decide) (List.mem_singleton_self _) hcounts]
      decide +kernel
    have hcandidates : candidates graphArticulations (undirected [⟨7, 1, 2, 3, 5⟩]).graph = [] := by
      decide +kernel
    have hmem := (hall 7).mpr ⟨_, List.mem_singleton_self _, rfl, hcounts, hbridge⟩
    rw [bridges, hcandidates] at hmem
    exact Identifiers.not_mem_empty hmem

end Algorithms

end PgRouting
