import PgRouting.Lib.Components
import PgRouting.Native.Components
import PgRouting.Spec.Undirected
import Mathlib.Data.List.ProdSigma

/-!
# Which bridges are found

The loops look at every pair of candidates once, and what they do to the graph on the
way changes neither its components nor the edges of the pairs that are still to come.
So the pairs can be judged in the graph that was handed in: an edge is reported when it
has no parallel, its ends are not connected without it, and both are candidates. The end
of a bridge is no candidate when self-loops are all else that is there.

## Key results

- `bridgesStep_spec`, `foldl_bridgesStep`: one pair and all pairs
- `mem_candidates_iff`: which ends of a bridge are candidates
- `mem_bridges_graph_iff`: what is reported
-/

namespace PgRouting

open Relation

namespace AdjacencyList

variable {g h : AdjacencyList BasicVertex BasicEdge} {u v x y a b : Nat}

/-- The number of components of the graph. -/
noncomputable def numComponents (g : AdjacencyList BasicVertex BasicEdge) : Nat :=
  components {v | v < g.numVertices} g.Adj

/-! ## Taking an edge out -/

theorem eraseP_eq_filter {α : Type} {p : α → Bool} {l : List α} (h : (l.filter p).length ≤ 1) :
    l.eraseP p = l.filter fun x => !p x := by
  induction l with
  | nil => rfl
  | cons x l ih =>
    by_cases hx : p x = true
    · rw [List.eraseP_cons_of_pos hx, List.filter_cons_of_neg (by simp [hx]), eq_comm,
        List.filter_eq_self]
      rw [List.filter_cons_of_pos hx, List.length_cons] at h
      have hnil : l.filter p = [] := List.length_eq_zero_iff.mp (by omega)
      intro y hy
      simpa using List.filter_eq_nil_iff.mp hnil y hy
    · rw [List.filter_cons_of_neg hx] at h
      rw [List.eraseP_cons_of_neg hx, List.filter_cons_of_pos (by simpa using hx), ih h]

/-- The only edge between two vertices is taken out. -/
theorem adj_removeFound (hd : g.directed = false)
    (hone : (g.edges.filter (g.joins u v)).length = 1) :
    (g.removeFound u v).Adj x y ↔ g.Adj x y ∧ Apart u v x y := by
  have hjoins : (g.removeFound u v).joins = g.joins := rfl
  have hedges : (g.removeFound u v).edges = g.edges.filter fun e => !g.joins u v e :=
    eraseP_eq_filter (le_of_eq hone)
  rw [Adj, hedges, hjoins]
  constructor
  · rintro ⟨e, he, hj⟩
    obtain ⟨he, hnot⟩ := List.mem_filter.mp he
    refine ⟨⟨e, he, hj⟩, fun hsame => ?_⟩
    have hjuv : g.joins u v e = true := by
      obtain ⟨rfl, rfl⟩ | ⟨rfl, rfl⟩ := hsame
      · exact hj
      · rwa [joins_comm hd]
    rw [hjuv] at hnot
    cases hnot
  · rintro ⟨⟨e, he, hj⟩, hapart⟩
    refine ⟨e, List.mem_filter.mpr ⟨he, ?_⟩, hj⟩
    rw [Bool.not_eq_true', ← Bool.not_eq_true]
    exact apart_of_joins hd hapart hj

/-- Only one edge joins the vertices, it has the id, and they are not connected without it. -/
def Cuts (g : AdjacencyList BasicVertex BasicEdge) (u v : Nat) (id : Int) : Prop :=
  ∃ e, g.edges.filter (g.joins u v) = [e] ∧ e.bundle.id = id ∧
    ¬ EqvGen (fun x y => g.Adj x y ∧ Apart u v x y) u v

theorem Cuts.symm (hd : g.directed = false) {id : Int} (hcut : Cuts g u v id) : Cuts g v u id := by
  obtain ⟨e, he, hid, hconn⟩ := hcut
  refine ⟨e, by rw [joins_comm hd]; exact he, hid, fun h => hconn ?_⟩
  exact .symm _ _ (EqvGen.mono (fun x y hxy => ⟨hxy.1, fun hsame => hxy.2 hsame.symm⟩) _ _ h)

theorem adj_of_filter {e : BoostEdge BasicEdge} (he : e ∈ g.edges.filter (g.joins u v)) :
    g.Adj u v :=
  ⟨e, List.mem_filter.mp he⟩

/-- The count of the components tells whether the ends are connected without the edge. -/
theorem numComponents_removeFound (hd : g.directed = false)
    (hends : ∀ x y, g.Adj x y → x < g.numVertices ∧ y < g.numVertices)
    (hone : (g.edges.filter (g.joins u v)).length = 1) :
    g.numComponents < (g.removeFound u v).numComponents ↔
      ¬ EqvGen (fun x y => g.Adj x y ∧ Apart u v x y) u v := by
  obtain ⟨e, he⟩ := List.length_eq_one_iff.mp hone
  have huv : g.Adj u v := adj_of_filter (he ▸ List.mem_singleton_self e)
  have hremoved : (g.removeFound u v).Adj = fun x y => g.Adj x y ∧ Apart u v x y := by
    funext x y
    exact propext (adj_removeFound hd hone)
  rw [numComponents, numComponents, hremoved]
  apply components_lt_iff (Set.finite_lt_nat _) (hends u v huv).1 (hends u v huv).2
  · exact fun x y hxy => hxy.1
  · intro x y hxy
    by_cases hsame : x = u ∧ y = v ∨ x = v ∧ y = u
    · exact .inr hsame
    · exact .inl ⟨hxy, hsame⟩
  · exact .rel _ _ huv

end AdjacencyList

namespace Algorithms

open AdjacencyList

variable {g h : AdjacencyList BasicVertex BasicEdge} {u v x y a b : Nat}
variable {unset : BasicEdge} {connectedComponents : AdjacencyList BasicVertex BasicEdge → Nat}

/-! ## The pairs -/

/-- The graph `h` has the neighbours of `g`, and for the pairs that are still to come its
    edges. -/
structure Keeps (g h : AdjacencyList BasicVertex BasicEdge) (visits : List (Nat × Nat)) : Prop where
  directed : h.directed = false
  vertices : h.numVertices = g.numVertices
  adj : ∀ x y, h.Adj x y ↔ g.Adj x y
  edges : ∀ p ∈ visits, h.edges.filter (h.joins p.1 p.2) = g.edges.filter (g.joins p.1 p.2)

theorem Keeps.numComponents {visits : List (Nat × Nat)} (hk : Keeps g h visits) :
    h.numComponents = g.numComponents := by
  have hadj : h.Adj = g.Adj := by
    funext x y
    exact propext (hk.adj x y)
  rw [AdjacencyList.numComponents, AdjacencyList.numComponents, hadj, hk.vertices]

theorem Keeps.cuts_iff {visits : List (Nat × Nat)} (hk : Keeps g h ((u, v) :: visits)) {id : Int} :
    Cuts h u v id ↔ Cuts g u v id := by
  have hadj : h.Adj = g.Adj := by
    funext x y
    exact propext (hk.adj x y)
  rw [Cuts, Cuts, hk.edges (u, v) List.mem_cons_self, hadj]

/-- The pairs are different from `u` and `v`. -/
def Others (u v : Nat) (visits : List (Nat × Nat)) : Prop := ∀ p ∈ visits, Apart u v p.1 p.2

variable (unset) in
/-- The edge that is put back joins the same vertices. -/
theorem Keeps.putBack {visits : List (Nat × Nat)} (hk : Keeps g h ((u, v) :: visits))
    (hothers : Others u v visits) (hone : (h.edges.filter (h.joins u v)).length = 1) :
    Keeps g ((h.removeFound u v).addEdge u v unset) visits := by
  have hd := hk.directed
  have hjoins : ((h.removeFound u v).addEdge u v unset).joins = h.joins := rfl
  -- The only edge between the vertices goes, and one without properties comes last.
  have hedges : ((h.removeFound u v).addEdge u v unset).edges =
      (h.edges.filter fun e => !h.joins u v e) ++ [⟨u, v, unset⟩] := by
    rw [← eraseP_eq_filter (le_of_eq hone)]
    rfl
  obtain ⟨e, he⟩ := List.length_eq_one_iff.mp hone
  have huv : h.Adj u v := adj_of_filter (he ▸ List.mem_singleton_self e)
  refine ⟨hd, hk.vertices, fun x y => ?_, fun p hp => ?_⟩
  · rw [← hk.adj x y]
    constructor
    · rintro ⟨o, ho, hj⟩
      rw [hjoins] at hj
      rw [hedges, List.mem_append, List.mem_filter, List.mem_singleton] at ho
      obtain ⟨ho, _⟩ | rfl := ho
      · exact ⟨o, ho, hj⟩
      · obtain ⟨rfl, rfl⟩ | ⟨rfl, rfl⟩ := (joins_iff_ends hd).mp hj
        · exact huv
        · exact (adj_comm hd).mpr huv
    · rintro ⟨o, ho, hj⟩
      rw [Adj, hedges, hjoins]
      by_cases hout : h.joins u v o = true
      · refine ⟨⟨u, v, unset⟩, by simp, ?_⟩
        rw [joins_iff_ends hd] at hj hout ⊢
        simp only
        omega
      · exact ⟨o, List.mem_append_left _ (List.mem_filter.mpr ⟨ho, by simpa using hout⟩), hj⟩
  · rw [← hk.edges p (List.mem_cons_of_mem _ hp), hedges, hjoins, List.filter_append,
      List.filter_filter]
    -- It does not join the pairs that are still to be visited.
    have hlast : [(⟨u, v, unset⟩ : BoostEdge BasicEdge)].filter (h.joins p.1 p.2) = [] := by
      rw [List.filter_eq_nil_iff]
      intro o ho hj
      rw [List.mem_singleton] at ho
      subst ho
      exact apart_of_joins hd (hothers p hp) hj ((joins_iff_ends hd).mpr (.inl ⟨rfl, rfl⟩))
    rw [hlast, List.append_nil]
    apply List.filter_congr
    intro o _
    by_cases hj : h.joins p.1 p.2 o = true
    · have hnot := apart_of_joins hd (hothers p hp) hj
      simp [hj, hnot]
    · simp [hj]

variable (unset) in
/-- One pair is judged, its ids are marked and all else is as before. -/
theorem bridgesStep_spec (hcc : ∀ h, connectedComponents h = h.numComponents)
    (hends : ∀ x y, g.Adj x y → x < g.numVertices ∧ y < g.numVertices) {st : Bridges}
    {visits : List (Nat × Nat)} (hk : Keeps g st.graph ((u, v) :: visits)) (huv : v ≤ u)
    (hothers : Others u v visits)
    (hnew : ∀ e ∈ g.edges, g.joins u v e = true → e.bundle.id ∉ st.processedEdges) :
    let st' := bridgesStep unset connectedComponents g.numComponents st u v
    Keeps g st'.graph visits ∧
      (∀ id, id ∈ st'.processedEdges → id ∈ st.processedEdges ∨
        ∃ e ∈ g.edges, g.joins u v e = true ∧ e.bundle.id = id) ∧
      ∀ id, id ∈ st'.bridgeEdges ↔ id ∈ st.bridgeEdges ∨ Cuts g u v id := by
  have hd := hk.directed
  have hsame := hk.edges (u, v) List.mem_cons_self
  have hkeep : Keeps g st.graph visits :=
    ⟨hd, hk.vertices, hk.adj, fun p hp => hk.edges p (List.mem_cons_of_mem _ hp)⟩
  rw [bridgesStep, if_neg (by omega)]
  obtain ⟨hnil, hedge⟩ | ⟨e, rest, hfound, hedge⟩ := edge_spec hd u v
  · rw [hedge]
    refine ⟨hkeep, fun id hid => .inl hid, fun id => ?_⟩
    -- Nothing joins the two vertices.
    have hno : ¬ Cuts g u v id := by
      rintro ⟨e, he, _⟩
      rw [← hsame, hnil] at he
      cases he
    simp [hno]
  · have he : e ∈ g.edges ∧ g.joins u v e = true := by
      rw [← List.mem_filter, ← hsame, hfound]
      exact List.mem_cons_self
    -- The first edge between them is looked at, and its id is new.
    have hfresh : st.processedEdges.has e.bundle.id = false := by
      rw [← Bool.not_eq_true, Identifiers.has_iff]
      exact hnew e he.1 he.2
    rw [hedge]
    simp only [hfresh, Bool.false_eq_true, if_false]
    by_cases hcount : ((st.graph.outEdges u).filter fun e => e.target = v).length = 1
    · rw [if_pos hcount]
      obtain ⟨hne, hone⟩ := (parallelCount_eq_one hd u v).mp hcount
      obtain rfl : rest = [] := by
        rw [hfound, List.length_cons] at hone
        exact List.length_eq_zero_iff.mp (by omega)
      -- The edge has no parallel: the components are counted without it, and then it is put back.
      have hcut := numComponents_removeFound hd
        (fun x y hxy => hk.vertices ▸ hends x y ((hk.adj x y).mp hxy)) hone
      rw [hk.numComponents] at hcut
      have hback := hk.putBack unset hothers hone
      have hmarked : ∀ id, id ∈ st.processedEdges.add e.bundle.id → id ∈ st.processedEdges ∨
          ∃ e ∈ g.edges, g.joins u v e = true ∧ e.bundle.id = id := by
        intro id hid
        obtain rfl | hid := Identifiers.mem_add.mp hid
        · exact .inr ⟨e, he.1, he.2, rfl⟩
        · exact .inl hid
      -- Its id is the only one that can be the id of a bridge between the two.
      have hcuts : ∀ id, Cuts g u v id ↔ id = e.bundle.id ∧
          ¬ EqvGen (fun x y => st.graph.Adj x y ∧ Apart u v x y) u v := by
        intro id
        rw [← hk.cuts_iff, Cuts, hfound]
        constructor
        · rintro ⟨o, ho, rfl, hconn⟩
          rw [List.singleton_inj] at ho
          exact ⟨by rw [ho], hconn⟩
        · rintro ⟨rfl, hconn⟩
          exact ⟨e, rfl, rfl, hconn⟩
      rw [hcc]
      by_cases hmore : (st.graph.removeFound u v).numComponents > g.numComponents
      · rw [if_pos hmore]
        refine ⟨hback, hmarked, fun id => ?_⟩
        show id ∈ st.bridgeEdges.add e.bundle.id ↔ _
        rw [Identifiers.mem_add, hcuts, or_comm]
        simp [hcut.mp hmore]
      · rw [if_neg hmore]
        refine ⟨hback, hmarked, fun id => ?_⟩
        show id ∈ st.bridgeEdges ↔ _
        rw [hcuts]
        simp [← hcut, hmore]
    · rw [if_neg hcount]
      refine ⟨hkeep, fun id hid => ?_, fun id => ?_⟩
      · obtain rfl | hid := Identifiers.mem_add.mp hid
        · exact .inr ⟨e, he.1, he.2, rfl⟩
        · exact .inl hid
      · -- The edges between the vertices are parallel, or self-loops.
        have hno : ¬ Cuts g u v id := by
          rintro ⟨o, ho, _, hconn⟩
          refine hcount ((parallelCount_eq_one hd u v).mpr ⟨?_, ?_⟩)
          · rintro rfl
            exact hconn (.refl _)
          · rw [hsame]
            exact congrArg List.length ho
        simp [hno]

/-- The edges with an id all join the same two vertices. -/
def IdsApart (g : AdjacencyList BasicVertex BasicEdge) : Prop :=
  ∀ e ∈ g.edges, ∀ o ∈ g.edges, e.bundle.id = o.bundle.id →
    ∀ x y, g.joins x y e = true → g.joins x y o = true

theorem foldl_bridgesStep (hcc : ∀ h, connectedComponents h = h.numComponents)
    (hd : g.directed = false)
    (hends : ∀ x y, g.Adj x y → x < g.numVertices ∧ y < g.numVertices) (hids : IdsApart g)
    (visits : List (Nat × Nat)) (hnodup : visits.Nodup) (hle : ∀ p ∈ visits, p.2 ≤ p.1) :
    ∀ st : Bridges, Keeps g st.graph visits →
    (∀ p ∈ visits, ∀ e ∈ g.edges, g.joins p.1 p.2 e = true → e.bundle.id ∉ st.processedEdges) →
    ∀ id, id ∈ (visits.foldl (fun st p =>
        bridgesStep unset connectedComponents g.numComponents st p.1 p.2) st).bridgeEdges ↔
      id ∈ st.bridgeEdges ∨ ∃ p ∈ visits, Cuts g p.1 p.2 id := by
  induction visits with
  | nil => simp
  | cons p visits ih =>
    intro st hk hnew id
    obtain ⟨u, v⟩ := p
    obtain ⟨hp, hnodup⟩ := List.nodup_cons.mp hnodup
    have huv : v ≤ u := hle (u, v) List.mem_cons_self
    have hothers : Others u v visits := by
      intro q hq hsame
      have hq' := hle q (List.mem_cons_of_mem _ hq)
      refine hp ?_
      obtain rfl : q = (u, v) := Prod.ext (by omega) (by omega)
      exact hq
    obtain ⟨hkeep, hmarked, hcuts⟩ := bridgesStep_spec unset hcc hends hk huv hothers
      (hnew (u, v) List.mem_cons_self)
    rw [List.foldl_cons, ih hnodup (fun q hq => hle q (List.mem_cons_of_mem _ hq)) _ hkeep,
      hcuts, List.exists_mem_cons_iff, or_assoc]
    intro q hq e he hj hmem
    obtain hold | ⟨o, ho, hjo, hid⟩ := hmarked _ hmem
    · exact hnew q (List.mem_cons_of_mem _ hq) e he hj hold
    · -- An edge with that id joins `u` and `v` as well.
      exact apart_of_joins hd (hothers q hq) hj (hids o ho e he hid u v hjo)

/-! ## Candidates -/

variable {articulationPoints : AdjacencyList BasicVertex BasicEdge → List Nat}

/-- What Boost computes: the articulation points, each once. -/
def FindsArticulationPoints
    (articulationPoints : AdjacencyList BasicVertex BasicEdge → List Nat)
    (g : AdjacencyList BasicVertex BasicEdge) : Prop :=
  (articulationPoints g).Nodup ∧ ∀ v, v ∈ articulationPoints g ↔ IsArticulation g.Adj v

/-- A vertex of degree one is no articulation point, so no candidate stands twice in the list. -/
theorem nodup_candidates (hd : g.directed = false)
    (hart : FindsArticulationPoints articulationPoints g) :
    (candidates articulationPoints g).Nodup := by
  rw [candidates, List.nodup_append]
  refine ⟨hart.1, List.nodup_range.filter _, ?_⟩
  rintro v hv w hw rfl
  have hone : (g.outEdges v).length = 1 := of_decide_eq_true (List.mem_filter.mp hw).2
  obtain ⟨o, ho⟩ := List.length_eq_one_iff.mp hone
  have honly : ∀ x, g.Adj v x → x = o.target := by
    intro x hx
    obtain ⟨e, he, rfl⟩ := adj_iff.mp hx
    rw [ho, List.mem_singleton] at he
    rw [he]
  refine not_isArticulation (b := o.target) (fun x y hxy => ⟨?_, ?_⟩) ((hart.2 v).mp hv)
  · rintro rfl
    exact .inr (honly y hxy)
  · rintro rfl
    exact .inr (honly x ((adj_comm hd).mp hxy))

/-- The end `a` of the edge to `b` has no self-loop, or a neighbour besides `b`. -/
def Seen (g : AdjacencyList BasicVertex BasicEdge) (a b : Nat) : Prop :=
  g.Adj a a → ∃ x, x ≠ a ∧ x ≠ b ∧ g.Adj a x

/-- Which ends of an edge that is to be reported are candidates. -/
theorem mem_candidates_iff (hd : g.directed = false)
    (hends : ∀ x y, g.Adj x y → x < g.numVertices ∧ y < g.numVertices)
    (hart : FindsArticulationPoints articulationPoints g) {id : Int} (hcut : Cuts g a b id) :
    a ∈ candidates articulationPoints g ↔ Seen g a b := by
  obtain ⟨e, hfilter, _, hconn⟩ := hcut
  have hab : g.Adj a b := adj_of_filter (hfilter ▸ List.mem_singleton_self e)
  have hne : a ≠ b := by
    rintro rfl
    exact hconn (.refl _)
  rw [candidates, List.mem_append, List.mem_filter, List.mem_range, decide_eq_true_eq, hart.2]
  constructor
  · rintro (hart | ⟨_, hone⟩) hloop
    · -- With no neighbour but `b` the end would not be an articulation point.
      by_contra hno
      refine not_isArticulation (b := b) (fun x y hxy => ⟨?_, ?_⟩) hart
      · rintro rfl
        by_contra hy
        rw [not_or] at hy
        exact hno ⟨y, hy.1, hy.2, hxy⟩
      · rintro rfl
        by_contra hx
        rw [not_or] at hx
        exact hno ⟨x, hx.1, hx.2, (adj_comm hd).mp hxy⟩
    · -- A loop at the end would be a second out edge.
      obtain ⟨o, ho⟩ := List.length_eq_one_iff.mp hone
      obtain ⟨p, hp, hpa⟩ := adj_iff.mp hloop
      obtain ⟨q, hq, hqb⟩ := adj_iff.mp hab
      rw [ho, List.mem_singleton] at hp hq
      exact absurd (hpa.symm.trans (hp.trans hq.symm ▸ hqb)) hne
  · intro hseen
    by_cases hother : ∃ x, x ≠ a ∧ x ≠ b ∧ g.Adj a x
    · -- A third neighbour is cut off from `b`, so the end is an articulation point.
      obtain ⟨x, hxa, hxb, hx⟩ := hother
      refine .inl (isArticulation_of_bridge (fun x y hxy => hxy.1) (fun x y hxy => ?_)
        (.rel _ _ hab) hconn hxa (.inl ⟨hx, ?_⟩))
      · by_cases hsame : x = a ∧ y = b ∨ x = b ∧ y = a
        · exact .inr hsame
        · exact .inl ⟨hxy, hsame⟩
      · rintro (⟨_, rfl⟩ | ⟨rfl, _⟩)
        · exact hxb rfl
        · exact hne rfl
    · -- All out edges lead to `b`.
      refine .inr ⟨(hends a b hab).1, ?_⟩
      have hall : (g.outEdges a).filter (fun e => e.target = b) = g.outEdges a := by
        rw [List.filter_eq_self]
        intro o ho
        rw [decide_eq_true_eq]
        have hadj := adj_iff.mpr ⟨o, ho, rfl⟩
        by_contra hob
        by_cases hoa : o.target = a
        · exact hother (hseen (hoa ▸ hadj))
        · exact hother ⟨o.target, hoa, hob, hadj⟩
      rw [← hall]
      exact (parallelCount_eq_one hd a b).mpr ⟨hne, by rw [hfilter]; rfl⟩

/-- What is reported, in terms of the graph that is handed in. -/
theorem mem_bridges_graph_iff {g : PgrBaseGraph BasicVertex BasicEdge}
    (hcc : ∀ h, connectedComponents h = h.numComponents)
    (hart : FindsArticulationPoints articulationPoints g.graph) (hd : g.graph.directed = false)
    (hends : ∀ x y, g.graph.Adj x y → x < g.graph.numVertices ∧ y < g.graph.numVertices)
    (hids : IdsApart g.graph) (id : Int) :
    id ∈ bridges unset connectedComponents articulationPoints g ↔
      ∃ a b, b ≤ a ∧ Cuts g.graph a b id ∧ Seen g.graph a b ∧ Seen g.graph b a := by
  set l := candidates articulationPoints g.graph with hl
  have hnodup : l.Nodup := nodup_candidates hd hart
  set visits := (l ×ˢ l).filter fun p => p.2 ≤ p.1 with hvisits
  -- The two loops are one over the pairs, and those the wrong way round change nothing.
  have hloops : bridges unset connectedComponents articulationPoints g =
      (visits.foldl (fun st p =>
        bridgesStep unset connectedComponents g.graph.numComponents st p.1 p.2)
        ⟨g.graph, .empty, .empty⟩).bridgeEdges := by
    rw [bridges, hcc, hvisits, List.foldl_filter]
    congr 1
    show _ = (l.flatMap fun a => l.map (Prod.mk a)).foldl _ _
    rw [List.foldl_flatMap]
    congr 1
    funext st u
    rw [List.foldl_map]
    congr 1
    funext st v
    by_cases huv : u < v
    · rw [bridgesStep, if_pos huv, if_neg]
      simpa using huv
    · rw [if_pos]
      simpa using huv
  rw [hloops, foldl_bridgesStep hcc hd hends hids visits ((hnodup.product hnodup).filter _)
    (fun p hp => of_decide_eq_true (List.mem_filter.mp hp).2) _
    ⟨hd, rfl, fun _ _ => Iff.rfl, fun _ _ => rfl⟩ (fun _ _ _ _ _ => Identifiers.not_mem_empty)]
  constructor
  · rintro (hid | ⟨⟨a, b⟩, hp, hcut⟩)
    · exact absurd hid Identifiers.not_mem_empty
    · obtain ⟨hp, hle⟩ := List.mem_filter.mp hp
      obtain ⟨ha, hb⟩ := List.mem_product.mp hp
      exact ⟨a, b, of_decide_eq_true hle, hcut, (mem_candidates_iff hd hends hart hcut).mp ha,
        (mem_candidates_iff hd hends hart (hcut.symm hd)).mp hb⟩
  · rintro ⟨a, b, hle, hcut, ha, hb⟩
    refine .inr ⟨(a, b), List.mem_filter.mpr ⟨List.mem_product.mpr ⟨?_, ?_⟩, ?_⟩, hcut⟩
    · exact (mem_candidates_iff hd hends hart hcut).mpr ha
    · exact (mem_candidates_iff hd hends hart (hcut.symm hd)).mpr hb
    · exact decide_eq_true hle

end Algorithms

end PgRouting
