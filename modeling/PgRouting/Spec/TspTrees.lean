import Mathlib.Algebra.Order.BigOperators.Group.List
import PgRouting.Lib.SpanningTree
import PgRouting.Spec.TspEnds

/-!
# Tours of minimum spanning trees

In the preorder walk of a minimum spanning tree the end comes right after the dummy vertex
when the tree has both edges of the dummy vertex, and it must have them unless a path
without cost joins the start and the end in the matrix: a tree with one of them would
become lighter if an edge on the way from the start to the end were replaced by the other.

## Key results

- `DummyWeights.not_lightest`: the exchange
- `endAfterDummy_of_mst`: when the tour of every minimum spanning tree is right
- `doTsp_misses_end`: a tour that is not
-/

namespace PgRouting

open UndirectedHasCostBG Relation

namespace Tsp

variable {boost : BoostTsp} {g : UndirectedHasCostBG} {ds : List IIDT} {u v d x y : Nat}
variable {startVid endVid : Int}

/-- The preorder walk of a minimum spanning tree with the root `v`, followed by `v`. -/
def IsMstTour (g : UndirectedHasCostBG) (v : Nat) (tour : List Nat) : Prop :=
  ∃ branch l F, tour = l ++ [v] ∧ TreeWalk (fun x y w => w ∈ g.weights x y) v branch l F ∧
    l.Perm (List.range g.graph.numVertices) ∧
    IsLightest (fun x y w => w ∈ g.weights x y) (List.range g.graph.numVertices) F

theorem IsMstTour.isTour {tour : List Nat} (h : IsMstTour g v tour) : IsTour g v tour := by
  obtain ⟨branch, l, F, rfl, hwalk, hperm, _⟩ := h
  have hl := hwalk.visited
  exact ⟨F.map (·.2.1), by rw [hl], hl ▸ hperm⟩

/-- The only edges of the dummy vertex that are not infinite lead to the start and the end. -/
theorem mem_weights_dummy (hends : g.EndsIn) (h0 : (0 : Int) ∉ g.graph.vertices) (u v : Nat) :
    ∀ x w, w ∈ (insertDummy g u v).weights x ((insertDummy g u v).graph.vertices.idxOf 0) →
      w = 0 ∧ (x = u ∨ x = v) ∨ w = ⊤ := by
  obtain ⟨hvertices, hedges⟩ := insertVertex_vertices g 0
  rw [if_neg h0] at hvertices
  set g₀ := g.insertVertex 0 with hg₀
  set d := g₀.graph.vertices.idxOf 0 with hd
  have hdeq : d = g.graph.numVertices := by
    rw [hd, hvertices, List.idxOf_append_of_notMem h0]
    simp [AdjacencyList.numVertices]
  -- One edge to the dummy vertex, and then the loop over all other vertices.
  have hadd : ∀ (g' : UndirectedHasCostBG) (x' : Nat) (w' : Weight),
      (w' = 0 ∧ (x' = u ∨ x' = v) ∨ w' = ⊤) →
      (∀ x w, w ∈ g'.weights x d → w = 0 ∧ (x = u ∨ x = v) ∨ w = ⊤) →
      ∀ x w, w ∈ (g'.addEdge x' d w').weights x d → w = 0 ∧ (x = u ∨ x = v) ∨ w = ⊤ := by
    intro g' x' w' hnew hold x w hw
    rw [weights_addEdge, List.mem_append] at hw
    obtain hw | hw := hw
    · exact hold x w hw
    · split at hw
      · rename_i hsame
        obtain rfl : x = x' := by omega
        rw [List.mem_singleton.mp hw]
        exact hnew
      · cases hw
  have hloop : ∀ (l : List Nat) (g' : UndirectedHasCostBG),
      (∀ x w, w ∈ g'.weights x d → w = 0 ∧ (x = u ∨ x = v) ∨ w = ⊤) →
      ∀ x w, w ∈ (l.foldl (fun g v1 => if v1 = u ∨ v1 = v then g else g.addEdge v1 d ⊤) g').weights
        x d → w = 0 ∧ (x = u ∨ x = v) ∨ w = ⊤ := by
    intro l
    induction l with
    | nil => exact fun g' hg' => hg'
    | cons v1 l ih =>
      intro g' hg'
      rw [List.foldl_cons]
      apply ih
      split
      · exact hg'
      · exact hadd g' v1 ⊤ (.inr rfl) hg'
  -- Before, the new vertex has no edge: all ends of edges are older.
  have hnone : ∀ x w, w ∈ g₀.weights x d → w = 0 ∧ (x = u ∨ x = v) ∨ w = ⊤ := by
    intro x w hw
    obtain ⟨e, he, _⟩ := List.mem_map.mp hw
    obtain ⟨he, hj⟩ := List.mem_filter.mp he
    rw [AdjacencyList.joins_iff_ends g₀.undirected] at hj
    rw [hedges] at he
    have hlt := hends e he
    omega
  have hbase := hadd _ v 0 (.inl ⟨rfl, .inr rfl⟩) (hadd g₀ u 0 (.inl ⟨rfl, .inl rfl⟩) hnone)
  have hall := hloop (List.range ((g₀.addEdge u d 0).addEdge v d 0).graph.numVertices)
    ((g₀.addEdge u d 0).addEdge v d 0) hbase
  have hdummy : (insertDummy g u v).graph.vertices.idxOf 0 = d := by
    have hvert : ∀ (l : List Nat) (g' : UndirectedHasCostBG),
        (l.foldl (fun g v1 => if v1 = u ∨ v1 = v then g else g.addEdge v1 d ⊤) g').graph.vertices =
          g'.graph.vertices := by
      intro l
      induction l with
      | nil => exact fun _ => rfl
      | cons v1 l ih =>
        intro g'
        rw [List.foldl_cons, ih]
        split <;> rfl
    rw [hd]
    exact congrArg (List.idxOf 0) (hvert _ _)
  rw [hdummy]
  exact hall

theorem ne_top_of_sum {l : List Weight} (h : l.sum ≠ ⊤) : ∀ w ∈ l, w ≠ ⊤ := by
  induction l with
  | nil => exact fun w hw => absurd hw List.not_mem_nil
  | cons a l ih =>
    rw [List.sum_cons, WithTop.add_ne_top] at h
    intro w hw
    obtain rfl | hw := List.mem_cons.mp hw
    · exact h.1
    · exact ih h.2 w hw

/-- What is known of the graph with the dummy vertex `d`, the start `u` and the end `v`. -/
structure DummyWeights (ds : List IIDT) (g : UndirectedHasCostBG) (u v d : Nat) : Prop where
  dummy : ∀ x w, w ∈ g.weights x d → w = 0 ∧ (x = u ∨ x = v) ∨ w = ⊤
  start : (0 : Weight) ∈ g.weights d u
  finish : (0 : Weight) ∈ g.weights d v
  nonneg : ∀ x y w, w ∈ g.weights x y → 0 ≤ w
  rows : ∀ x y, x ≠ d → y ≠ d → (0 : Weight) ∈ g.weights x y →
    ∃ i j, g.graph.vertices[x]? = some i ∧ g.graph.vertices[y]? = some j ∧ RowArc ds i j 0
  others : ∀ x < g.graph.numVertices, x ≠ d → x ≠ u → ∃ w ∈ g.weights u x, w ≠ ⊤

/-- A spanning tree of finite weight: the star around the start. -/
theorem DummyWeights.star (h : DummyWeights ds g u v d) :
    ∃ F : List (Nat × Nat × Weight), (∀ f ∈ F, f.2.2 ∈ g.weights f.1 f.2.1) ∧
      (∀ x ∈ List.range g.graph.numVertices, ∀ y ∈ List.range g.graph.numVertices,
        Connects F x y) ∧ (F.map (·.2.2)).sum ≠ ⊤ := by
  -- By induction on the vertices that the star has reached.
  have hstar : ∀ l : List Nat, (∀ x ∈ l, x < g.graph.numVertices) →
      ∃ F : List (Nat × Nat × Weight), (∀ f ∈ F, f.2.2 ∈ g.weights f.1 f.2.1) ∧
        (∀ x ∈ l, Connects F u x) ∧ (F.map (·.2.2)).sum ≠ ⊤ := by
    intro l
    induction l with
    | nil => exact fun _ => ⟨[], by simp, by simp, by simp⟩
    | cons x l ih =>
      intro hlt
      obtain ⟨F, hedges, hconn, hsum⟩ := ih fun y hy => hlt y (List.mem_cons_of_mem _ hy)
      have hadd : ∀ w, w ∈ g.weights u x → w ≠ ⊤ → ∃ F : List (Nat × Nat × Weight),
          (∀ f ∈ F, f.2.2 ∈ g.weights f.1 f.2.1) ∧ (∀ y ∈ x :: l, Connects F u y) ∧
          (F.map (·.2.2)).sum ≠ ⊤ := by
        intro w hw hfin
        refine ⟨(u, x, w) :: F, ?_, ?_, ?_⟩
        · intro f hf
          obtain rfl | hf := List.mem_cons.mp hf
          · exact hw
          · exact hedges f hf
        · intro y hy
          obtain rfl | hy := List.mem_cons.mp hy
          · exact connects_of_mem (f := (u, y, w)) List.mem_cons_self
          · exact (hconn y hy).mono (List.subset_cons_self _ _)
        · rw [List.map_cons, List.sum_cons, WithTop.add_ne_top]
          exact ⟨hfin, hsum⟩
      by_cases hxu : x = u
      · refine ⟨F, hedges, fun y hy => ?_, hsum⟩
        obtain rfl | hy := List.mem_cons.mp hy
        · exact hxu ▸ .refl _
        · exact hconn y hy
      · by_cases hxd : x = d
        · exact hadd 0 (hxd ▸ weights_comm ▸ h.start) (by simp)
        · obtain ⟨w, hw, hfin⟩ := h.others x (hlt x List.mem_cons_self) hxd hxu
          exact hadd w hw hfin
  obtain ⟨F, hedges, hconn, hsum⟩ := hstar (List.range g.graph.numVertices)
    fun x hx => List.mem_range.mp hx
  exact ⟨F, hedges, fun x hx y hy => (hconn x hx).symm.trans _ _ _ (hconn y hy), hsum⟩

/-- A tree that has one edge of the dummy vertex, to `a`, is not the lightest: an edge that costs
    something on the way to `b` can be replaced by the other edge of the dummy vertex. -/
theorem DummyWeights.not_lightest (h : DummyWeights ds g u v d) {a b : Nat} {i j : Int}
    (hi : g.graph.vertices[a]? = some i) (hj : g.graph.vertices[b]? = some j) (had : a ≠ d)
    (hbd : b ≠ d) (hb : (0 : Weight) ∈ g.weights d b)
    (hfree : ¬ EqvGen (fun i j => RowArc ds i j 0) i j) {F : List (Nat × Nat × Weight)}
    (hF : IsLightest (fun x y w => w ∈ g.weights x y) (List.range g.graph.numVertices) F)
    (hedge : (a, d, 0) ∈ F ∨ (d, a, 0) ∈ F)
    (honly : ∀ f ∈ F, f.1 = d ∨ f.2.1 = d → f.1 = a ∧ f.2.1 = d ∨ f.1 = d ∧ f.2.1 = a) : False := by
  -- The edges of the tree without cost, and the others.
  set Z := F.filter fun f => f.2.2 = 0 with hZ
  set P := F.filter fun f => !decide (f.2.2 = 0) with hP
  have hperm : (Z ++ P).Perm F := List.filter_append_perm _ F
  have hlt : ∀ {x k}, g.graph.vertices[x]? = some k → x ∈ List.range g.graph.numVertices :=
    fun hx => List.mem_range.mpr (List.getElem?_eq_some_iff.mp hx).1
  have hyes : Connects (Z ++ P) a b :=
    (hF.connects a (hlt hi) b (hlt hj)).mono hperm.symm.subset
  -- Without cost the two are not connected: the dummy vertex counts as `a`.
  have hno : ¬ Connects Z a b := by
    intro hconn
    apply hfree
    have hlift := eqvGen_lift (s := fun i j => RowArc ds i j 0)
      (fun x => (g.graph.vertices[if x = d then a else x]?).getD 0) (fun x y hxy => ?_) hconn
    · simpa [had, hbd, hi, hj] using hlift
    · obtain ⟨w, hw⟩ := hxy
      obtain ⟨hmem, hzero⟩ := List.mem_filter.mp hw
      obtain rfl : w = 0 := of_decide_eq_true hzero
      by_cases hd : x = d ∨ y = d
      · obtain ⟨rfl, rfl⟩ | ⟨rfl, rfl⟩ := honly _ hmem hd
        · simp only [if_neg had, if_true]
          exact .refl _
        · simp only [if_neg had, if_true]
          exact .refl _
      · rw [not_or] at hd
        obtain ⟨k, k', hk, hk', harc⟩ := h.rows x y hd.1 hd.2 (hF.edges _ hmem)
        simp only [if_neg hd.1, if_neg hd.2, hk, hk', Option.getD_some]
        exact .rel _ _ harc
  -- So one edge that costs something is needed; it gives way to the edge from the dummy vertex to
  -- `b`.
  obtain ⟨P₁, f, P₂, hsplit, hends⟩ := exists_connecting P Z hno hyes
  have hf : f ∈ F ∧ f.2.2 ≠ 0 := by
    have hmem : f ∈ P := hsplit ▸ List.mem_append_right _ List.mem_cons_self
    obtain ⟨hmem, hne⟩ := List.mem_filter.mp hmem
    exact ⟨hmem, by simpa using hne⟩
  set F' := (d, b, (0 : Weight)) :: (Z ++ P₁ ++ P₂) with hF'
  have hsub : F ⊆ f :: F' := by
    intro f' hf'
    have hmem := hperm.symm.subset hf'
    rw [hsplit] at hmem
    simp only [hF', List.mem_append, List.mem_cons] at hmem ⊢
    tauto
  have hold : Z ++ P₁ ⊆ F' := fun f' hf' =>
    List.mem_cons_of_mem _ (List.mem_append_left _ hf')
  -- The other tree connects everything, too.
  have hab : Connects F' a b := by
    have hzero : ∀ {x y}, (x, y, (0 : Weight)) ∈ F → Connects F' x y := fun hmem =>
      .rel _ _ ⟨0, hold (List.mem_append_left _
        (List.mem_filter.mpr ⟨hmem, decide_eq_true rfl⟩))⟩
    have hdb : Connects F' d b := connects_of_mem (f := (d, b, 0)) List.mem_cons_self
    obtain hedge | hedge := hedge
    · exact (hzero hedge).trans _ _ _ hdb
    · exact (hzero hedge).symm.trans _ _ _ hdb
  have hle := hF.le F' (by
      intro f' hf'
      obtain rfl | hf' := List.mem_cons.mp hf'
      · exact hb
      · refine hF.edges f' (hperm.subset ?_)
        rw [hsplit]
        simp only [List.mem_append, List.mem_cons] at hf' ⊢
        tauto)
    fun x hx y hy => connects_exchange hsub hab
      (hends.imp (fun he => ⟨he.1.mono hold, he.2.mono hold⟩)
        fun he => ⟨he.1.mono hold, he.2.mono hold⟩) (hF.connects x hx y hy)
  -- The weights of the rest are finite, so the edge that was replaced weighs nothing.
  have hsum : (F.map (·.2.2)).sum = f.2.2 + ((Z ++ P₁ ++ P₂).map (·.2.2)).sum := by
    have hrest : F.Perm (f :: (Z ++ P₁ ++ P₂)) := by
      refine hperm.symm.trans ?_
      rw [hsplit, ← List.append_assoc]
      exact List.perm_middle
    rw [(hrest.map _).sum_eq, List.map_cons, List.sum_cons]
  obtain ⟨star, hstar, hconn, hfin⟩ := h.star
  have hfinite : (F.map (·.2.2)).sum ≠ ⊤ := by
    intro htop
    have := hF.le star hstar hconn
    rw [htop, top_le_iff] at this
    exact hfin this
  rw [hsum, WithTop.add_ne_top] at hfinite
  rw [hsum, hF', List.map_cons, List.sum_cons, zero_add] at hle
  obtain ⟨w, hw⟩ := WithTop.ne_top_iff_exists.mp hfinite.1
  obtain ⟨R, hR⟩ := WithTop.ne_top_iff_exists.mp hfinite.2
  have hpos := h.nonneg _ _ _ (hF.edges f hf.1)
  rw [← hw, ← hR, ← WithTop.coe_add, WithTop.coe_le_coe] at hle
  rw [← hw] at hpos
  have hw0 : w = 0 := le_antisymm (by simpa using hle) (WithTop.coe_le_coe.mp hpos)
  exact hf.2 (by rw [← hw, hw0]; rfl)

/-- The graph in which `do_tsp` looks for the tour of a complete matrix without the id 0. -/
theorem dummyWeights_searched (hcomplete : Complete ds) (hs : startVid ≠ 0) (he : endVid ≠ 0)
    (hne : startVid ≠ endVid) (hstart : startVid ∈ matrixIds ds) (hend : endVid ∈ matrixIds ds)
    (h0 : 0 ∉ matrixIds ds) :
    let G := ofRows ds
    let S := searched G startVid endVid
    DummyWeights ds S (G.graph.vertices.idxOf startVid) (G.graph.vertices.idxOf endVid)
      (S.graph.vertices.idxOf 0) ∧
    Dummy G S (G.graph.vertices.idxOf startVid) (G.graph.vertices.idxOf endVid)
      (S.graph.vertices.idxOf 0) := by
  intro G S
  obtain ⟨hrep, hends, _⟩ := ofRows_spec ds
  have hverts := perm_matrixIds ds
  have hstart' : startVid ∈ G.graph.vertices := hverts.mem_iff.mpr hstart
  have hend' : endVid ∈ G.graph.vertices := hverts.mem_iff.mpr hend
  have h0' : (0 : Int) ∉ G.graph.vertices := fun h => h0 (hverts.mem_iff.mp h)
  have hult := List.idxOf_lt_length_iff.mpr hstart'
  have hS : S = insertDummy G (G.graph.vertices.idxOf startVid) (G.graph.vertices.idxOf endVid) :=
    if_neg (by simp [hs, he, hne])
  have hdummy : Dummy G S (G.graph.vertices.idxOf startVid) (G.graph.vertices.idxOf endVid)
      (S.graph.vertices.idxOf 0) :=
    hS ▸ insertDummy_spec hends hult (List.idxOf_lt_length_iff.mpr hend')
  -- An edge of the dummy vertex is free at the start and the end and infinite elsewhere.
  have hspecial : ∀ x w, w ∈ S.weights x (S.graph.vertices.idxOf 0) →
      w = 0 ∧ (x = G.graph.vertices.idxOf startVid ∨ x = G.graph.vertices.idxOf endVid) ∨ w = ⊤ :=
    hS ▸ mem_weights_dummy hends h0' _ _
  -- Every other edge stands for a row of the matrix.
  have hfinite : ∀ x y w, w ∈ G.weights x y → ∃ (i j : Int) (c : ℚ),
      G.graph.vertices[x]? = some i ∧ G.graph.vertices[y]? = some j ∧ w = c ∧ RowArc ds i j c := by
    intro x y w hw
    obtain ⟨hx, hy⟩ := hends.lt hw
    obtain ⟨i, hi⟩ := exists_id hx
    obtain ⟨j, hj⟩ := exists_id hy
    obtain ⟨hnil, _⟩ | ⟨c, hone, hc, _⟩ := hrep x y i j hi hj
    · rw [hnil] at hw
      cases hw
    · rw [hone] at hw
      exact ⟨i, j, c, hi, hj, List.mem_singleton.mp hw, hc⟩
  have hkeep : ∀ {x : Nat} {i : Int}, G.graph.vertices[x]? = some i →
      S.graph.vertices[x]? = some i := by
    intro x i hi
    rw [hdummy.vertices, List.getElem?_append_left (List.getElem?_eq_some_iff.mp hi).1]
    exact hi
  refine ⟨⟨hspecial, weights_comm ▸ hdummy.start, weights_comm ▸ hdummy.finish, ?_, ?_, ?_⟩,
    hdummy⟩
  · intro x y w hw
    -- No weight is negative.
    have hzero : ∀ x, w ∈ S.weights x (S.graph.vertices.idxOf 0) → 0 ≤ w := by
      intro x hw
      obtain ⟨rfl, _⟩ | rfl := hspecial x w hw
      · exact le_refl 0
      · exact le_top
    by_cases hy : y = S.graph.vertices.idxOf 0
    · exact hzero x (hy ▸ hw)
    · by_cases hx : x = S.graph.vertices.idxOf 0
      · exact hzero y (weights_comm ▸ hx ▸ hw)
      · rw [hdummy.weights x y hx hy] at hw
        obtain ⟨_, _, c, _, _, rfl, _, row, _, hcost, _, rfl⟩ := hfinite x y w hw
        exact WithTop.coe_le_coe.mpr hcost
  · intro x y hx hy hw
    rw [hdummy.weights x y hx hy] at hw
    obtain ⟨i, j, c, hi, hj, hc, harc⟩ := hfinite x y 0 hw
    obtain rfl : (0 : ℚ) = c := WithTop.coe_injective hc
    exact ⟨i, j, hkeep hi, hkeep hj, harc⟩
  · intro x hx hxd hxu
    -- A star from the start is a tree without an infinite edge: the matrix has all pairs.
    have hlt : x < G.graph.numVertices := by
      by_contra hge
      rw [AdjacencyList.numVertices, hdummy.vertices, if_neg h0', List.length_append,
        List.length_singleton] at hx
      have hget : S.graph.vertices[x]? = some 0 := by
        rw [hdummy.vertices, if_neg h0', List.getElem?_append_right (not_lt.mp hge)]
        have : x - G.graph.vertices.length = 0 := by
          rw [AdjacencyList.numVertices] at hge
          omega
        rw [this]
        rfl
      exact hxd (eq_idxOf hget)
    obtain ⟨i, hi⟩ := exists_id hlt
    have hui := getElem?_idxOf hstart'
    have hne' : startVid ≠ i := by
      rintro rfl
      exact hxu (eq_idxOf hi)
    obtain ⟨c, hc⟩ := hcomplete startVid hstart i
      (hverts.mem_iff.mp (List.mem_of_getElem? hi)) hne'
    obtain ⟨_, hno⟩ | ⟨w, hw, _⟩ := hrep _ _ _ _ hui hi
    · exact absurd hc (hno c)
    · exact ⟨w, hdummy.mem _ _ _ (hw ▸ List.mem_singleton_self _), WithTop.coe_ne_top⟩

/-- In every minimum spanning tree the end follows the dummy vertex when 0 is no id of the matrix
    and no path without cost joins the start and the end. -/
theorem endAfterDummy_of_mst (hcomplete : Complete ds) (hs : startVid ≠ 0) (he : endVid ≠ 0)
    (hne : startVid ≠ endVid) (hstart : startVid ∈ matrixIds ds) (hend : endVid ∈ matrixIds ds)
    (h0 : 0 ∉ matrixIds ds) (hfree : ¬ EqvGen (fun i j => RowArc ds i j 0) startVid endVid)
    {tour : List Nat}
    (htour : IsMstTour (searched (ofRows ds) startVid endVid)
      ((ofRows ds).graph.vertices.idxOf startVid) tour) :
    EndAfterDummy (tourIds (searched (ofRows ds) startVid endVid) tour) startVid endVid := by
  obtain ⟨hweights, hdummy⟩ := dummyWeights_searched hcomplete hs he hne hstart hend h0
  have hverts := perm_matrixIds ds
  set G := ofRows ds with hG
  set S := searched G startVid endVid with hS
  set u := G.graph.vertices.idxOf startVid with hu
  set v := G.graph.vertices.idxOf endVid with hv
  set d := S.graph.vertices.idxOf 0 with hd
  have hid : ∀ {x : Nat} {i : Int}, G.graph.vertices[x]? = some i →
      S.graph.vertices[x]? = some i := by
    intro x i hi
    rw [hdummy.vertices, List.getElem?_append_left (List.getElem?_eq_some_iff.mp hi).1]
    exact hi
  have hidu : S.graph.vertices[u]? = some startVid :=
    hid (getElem?_idxOf (hverts.mem_iff.mpr hstart))
  have hidv : S.graph.vertices[v]? = some endVid :=
    hid (getElem?_idxOf (hverts.mem_iff.mpr hend))
  have hud : u ≠ d := by
    intro heq
    rw [heq, hdummy.dummy] at hidu
    exact hs (Option.some.inj hidu).symm
  have hvd : v ≠ d := by
    intro heq
    rw [heq, hdummy.dummy] at hidv
    exact he (Option.some.inj hidv).symm
  obtain ⟨branch, l, F, rfl, hwalk, hperm, hF⟩ := htour
  have hvisited := hwalk.visited
  -- No edge of the tree is infinite.
  have hfin : ∀ f ∈ F, f.2.2 ≠ ⊤ := by
    obtain ⟨star, hstar, hconn, hstarfin⟩ := hweights.star
    have hsum : (F.map (·.2.2)).sum ≠ ⊤ := by
      intro htop
      have hle := hF.le star hstar hconn
      rw [htop, top_le_iff] at hle
      exact hstarfin hle
    exact fun f hf => ne_top_of_sum hsum _ (List.mem_map_of_mem hf)
  -- The edges of the dummy vertex in the tree cost nothing and lead to the start or to the end.
  have hinto : ∀ f ∈ F, f.2.1 = d → f.2.2 = 0 ∧ (f.1 = u ∨ f.1 = v) := by
    intro f hf hfd
    have hw := hF.edges f hf
    rw [hfd] at hw
    exact (hweights.dummy _ _ hw).resolve_right (hfin f hf)
  have hout : ∀ f ∈ F, f.1 = d → f.2.2 = 0 ∧ f.2.1 = v := by
    intro f hf hfd
    have hw := hF.edges f hf
    rw [hfd, weights_comm] at hw
    obtain ⟨hzero, hends⟩ := (hweights.dummy _ _ hw).resolve_right (hfin f hf)
    exact ⟨hzero, hends.resolve_left (hwalk.ne_root f hf)⟩
  -- Each vertex has one parent.
  have hparent : ∀ f ∈ F, ∀ f' ∈ F, f.2.1 = f'.2.1 → f = f' := by
    have hnodup := hwalk.nodup
    rw [hvisited, List.nodup_cons] at hnodup
    exact fun f hf f' hf' heq => List.inj_on_of_nodup_map hnodup.2 hf hf' heq
  obtain ⟨p, hp, hpd⟩ : ∃ p ∈ F, p.2.1 = d := by
    have hmem : d ∈ l := hperm.symm.subset
      (List.mem_range.mpr (List.getElem?_eq_some_iff.mp hdummy.dummy).1)
    rw [hvisited] at hmem
    exact List.mem_map.mp ((List.mem_cons.mp hmem).resolve_left hud.symm)
  -- Otherwise the dummy vertex is a leaf, and the tree is not the lightest.
  have hchild : ∃ w, (d, v, w) ∈ F := by
    by_contra hno
    have hnone : ∀ f ∈ F, f.1 ≠ d := by
      intro f hf hfd
      obtain ⟨_, hfv⟩ := hout f hf hfd
      exact hno ⟨f.2.2, by rw [← hfd, ← hfv]; exact hf⟩
    obtain ⟨hp0, hpu | hpv⟩ := hinto p hp hpd
    · refine hweights.not_lightest hidu hidv hud hvd hweights.finish hfree hF
        (.inl (by rw [← hpu, ← hpd, ← hp0]; exact hp)) fun f hf hfd => .inl ?_
      have hfd := hfd.resolve_left (hnone f hf)
      exact ⟨hparent f hf p hp (hfd.trans hpd.symm) ▸ hpu, hfd⟩
    · refine hweights.not_lightest hidv hidu hvd hud hweights.start (fun h => hfree h.symm) hF
        (.inl (by rw [← hpv, ← hpd, ← hp0]; exact hp)) fun f hf hfd => .inl ?_
      have hfd := hfd.resolve_left (hnone f hf)
      exact ⟨hparent f hf p hp (hfd.trans hpd.symm) ▸ hpv, hfd⟩
  obtain ⟨w, hw⟩ := hchild
  -- The tour visits a child of the dummy vertex right after it.
  obtain ⟨l₁, c, l₂, w', hl, hc⟩ := hwalk.first_child hw
  obtain ⟨_, rfl : c = v⟩ := hout _ hc rfl
  obtain ⟨a, rfl⟩ : ∃ a, l₁ = u :: a := by
    rw [hvisited] at hl
    cases l₁ with
    | nil => exact absurd (List.cons.inj hl).1 hud
    | cons x a => exact ⟨a, by rw [(List.cons.inj hl).1]⟩
  refine ⟨tourIds S a, endVid :: tourIds S l₂, ?_, rfl⟩
  rw [hl]
  simp only [tourIds, List.cons_append, List.append_assoc, List.filterMap_cons,
    List.filterMap_append, hidu, hidv, hdummy.dummy, List.filterMap_nil]

/-! ## Three corners -/

/-- The rows of a matrix in which it costs nothing to go from 1 to 3. -/
def cornerRows : List IIDT := [⟨1, 2, 1⟩, ⟨2, 3, 1⟩, ⟨1, 3, 0⟩]

/-- Boost with the given tour. Its searches are for vertices without an edge between them, and in
    a complete graph these are a vertex and itself. -/
def cornerBoost (tour : List Nat) : BoostTsp where
  metricTspApproxTour := fun _ => tour
  metricTspApproxTourFromVertex := fun _ _ => tour
  dijkstraShortestPaths := fun _ u v => ⟨id, fun x => if x = u then 0 else ⊤, some [v]⟩

/-- The rows and the graph that is searched, which has the dummy vertex as its fourth. -/
theorem corner_graph :
    (∀ i ∈ (matrixIds cornerRows).ids, ∀ j ∈ (matrixIds cornerRows).ids, i ≠ j →
      ∃ d ∈ cornerRows, 0 ≤ d.cost ∧
        (d.fromVid = i ∧ d.toVid = j ∨ d.fromVid = j ∧ d.toVid = i)) ∧
    (ofRows cornerRows).graph.vertices.idxOf 1 = 0 ∧
    (searched (ofRows cornerRows) 1 3).graph.vertices = [1, 2, 3, 0] ∧
    (∀ e ∈ (searched (ofRows cornerRows) 1 3).graph.edges,
      0 ≤ e.bundle ∧ (e.source = 1 ∨ e.target = 1 → 1 ≤ e.bundle)) ∧
    (∀ u < 4, ∀ v < 4, (searched (ofRows cornerRows) 1 3).weights u v = [] → u = v) ∧
    ∀ f ∈ [((0 : Nat), (3 : Nat), (0 : Weight)), (0, 1, 1), (0, 2, 0)],
      f.2.2 ∈ (searched (ofRows cornerRows) 1 3).weights f.1 f.2.1 := by
  decide +kernel

theorem corner_complete : Complete cornerRows := by
  intro i hi j hj hij
  obtain ⟨d, hd, hcost, hjoins⟩ := corner_graph.1 i hi j hj hij
  exact ⟨d.cost, hij, d, hd, hcost, hjoins, rfl⟩

theorem corner_idxOf : (ofRows cornerRows).graph.vertices.idxOf 1 = 0 := corner_graph.2.1

theorem corner_numVertices : (searched (ofRows cornerRows) 1 3).graph.numVertices = 4 := by
  rw [AdjacencyList.numVertices, corner_graph.2.2.1]
  rfl

theorem corner_edges {e : BoostEdge Weight}
    (he : e ∈ (searched (ofRows cornerRows) 1 3).graph.edges) :
    0 ≤ e.bundle ∧ (e.source = 1 ∨ e.target = 1 → 1 ≤ e.bundle) :=
  corner_graph.2.2.2.1 e he

/-- The edges of the three corners and the dummy vertex. -/
theorem exists_edge_of_weight {w : Weight}
    (hw : w ∈ (searched (ofRows cornerRows) 1 3).weights x y) :
    ∃ e ∈ (searched (ofRows cornerRows) 1 3).graph.edges, e.bundle = w ∧
      (e.source = x ∧ e.target = y ∨ e.source = y ∧ e.target = x) := by
  obtain ⟨e, he, rfl⟩ := List.mem_map.mp hw
  obtain ⟨he, hj⟩ := List.mem_filter.mp he
  rw [AdjacencyList.joins_iff_ends (searched _ _ _).undirected] at hj
  exact ⟨e, he, rfl, by omega⟩

theorem corner_nonneg {w : Weight}
    (hw : w ∈ (searched (ofRows cornerRows) 1 3).weights x y) : 0 ≤ w := by
  obtain ⟨e, he, rfl, _⟩ := exists_edge_of_weight hw
  exact (corner_edges he).1

theorem corner_finds (tour : List Nat) :
    FindsGoals (cornerBoost tour) (searched (ofRows cornerRows) 1 3) := by
  intro u hu v hv hnil _
  rw [corner_numVertices] at hu hv
  obtain rfl := corner_graph.2.2.2.2.1 u hu v hv hnil
  refine ⟨rfl, ⟨[u], .source (if_pos rfl)⟩, fun d hd => ?_⟩
  have hle : (0 : ℚ) ≤ d := hd.nonneg fun x y w hw => WithTop.coe_le_coe.mp (corner_nonneg hw)
  show (if u = u then (0 : Weight) else ⊤) ≤ d
  rw [if_pos rfl]
  exact WithTop.coe_le_coe.mpr hle

/-- The tree in which the start has the dummy vertex, 2 and 3 as its children. -/
theorem corner_mstTour :
    IsMstTour (searched (ofRows cornerRows) 1 3) 0 [0, 3, 1, 2, 0] := by
  set S := searched (ofRows cornerRows) 1 3 with hS
  have hedge : ∀ f ∈ [((0 : Nat), (3 : Nat), (0 : Weight)), (0, 1, 1), (0, 2, 0)],
      f.2.2 ∈ S.weights f.1 f.2.1 := corner_graph.2.2.2.2.2
  have hwalk : TreeWalk (fun x y w => w ∈ S.weights x y) 0 [2, 0] [0, 3, 1, 2]
      [(0, 3, 0), (0, 1, 1), (0, 2, 0)] :=
    (((((TreeWalk.root.child (by decide) (hedge (0, 3, 0) (by simp))).back).child (by decide)
      (hedge (0, 1, 1) (by simp))).back).child (by decide) (hedge (0, 2, 0) (by simp)))
  refine ⟨_, _, _, rfl, hwalk, by rw [corner_numVertices]; decide, hwalk.edges, ?_, ?_⟩
  · -- All vertices are children of the start.
    have hstart : ∀ x ∈ List.range S.graph.numVertices,
        Connects [((0 : Nat), (3 : Nat), (0 : Weight)), (0, 1, 1), (0, 2, 0)] 0 x := by
      intro x hx
      rw [corner_numVertices, List.mem_range] at hx
      obtain rfl | rfl | rfl | rfl : x = 0 ∨ x = 3 ∨ x = 1 ∨ x = 2 := by omega
      · exact .refl 0
      · exact connects_of_mem (f := (0, 3, 0)) (by simp)
      · exact connects_of_mem (f := (0, 1, 1)) (by simp)
      · exact connects_of_mem (f := (0, 2, 0)) (by simp)
    exact fun x hx y hy => (hstart x hx).symm.trans _ _ _ (hstart y hy)
  · intro F' hF' hconn
    have hnonneg : ∀ w ∈ F'.map (·.2.2), (0 : Weight) ≤ w := by
      intro w hw
      obtain ⟨f, hf, rfl⟩ := List.mem_map.mp hw
      exact corner_nonneg (hF' f hf)
    -- Some edge leads to the vertex 1, and all its edges cost at least 1.
    obtain ⟨f, hf, hone⟩ : ∃ f ∈ F', f.1 = 1 ∨ f.2.1 = 1 := by
      by_contra hno
      have hrange : ∀ x < 4, x ∈ List.range S.graph.numVertices := by
        rw [corner_numVertices]
        exact fun x hx => List.mem_range.mpr hx
      have hsame : EqvGen Eq (decide (0 = 1)) (decide (1 = 1)) := by
        refine eqvGen_lift (fun x : Nat => decide (x = 1)) (fun x y hxy => ?_)
          (hconn 0 (hrange 0 (by decide)) 1 (hrange 1 (by decide)))
        obtain ⟨w, hw⟩ := hxy
        have hx : x ≠ 1 := fun hx => hno ⟨_, hw, .inl hx⟩
        have hy : y ≠ 1 := fun hy => hno ⟨_, hw, .inr hy⟩
        simp only [hx, hy]
        exact .refl _
      exact absurd (eq_equivalence.eqvGen_iff.mp hsame) (by decide)
    have hle : (1 : Weight) ≤ f.2.2 := by
      obtain ⟨e, he, hw, hends⟩ := exists_edge_of_weight (hF' f hf)
      rw [← hw]
      exact (corner_edges he).2 (by omega)
    calc ([((0 : Nat), (3 : Nat), (0 : Weight)), (0, 1, 1), (0, 2, 0)].map (·.2.2)).sum
        = 1 := by simp
      _ ≤ f.2.2 := hle
      _ ≤ (F'.map (·.2.2)).sum := List.single_le_sum hnonneg _ (List.mem_map_of_mem hf)

theorem doTsp_honours_iff_corner :
    ∃ rows, doTsp (cornerBoost [0, 1, 3, 2, 0]) (ofRows cornerRows) 1 3 = .ok rows ∧
      (Honours cornerRows 1 3 rows ∧
          NotDearer (cornerBoost [0, 1, 3, 2, 0]) (ofRows cornerRows) 1 3 rows ↔
        0 ∉ matrixIds cornerRows ∧ EndAfterDummy
          (tourIds (searched (ofRows cornerRows) 1 3) [0, 1, 3, 2, 0]) 1 3) := by
  refine doTsp_honours_iff (cornerBoost [0, 1, 3, 2, 0]) cornerRows 1 3 corner_complete (by decide)
    (by decide) (by decide) (by decide +kernel) (by decide +kernel) ?_ (corner_finds _)
  rw [corner_idxOf]
  exact ⟨[1, 3, 2], rfl, by rw [corner_numVertices]; decide⟩

/-- The tour of a minimum spanning tree that is turned the wrong way round: it ends 3, 2, 1. -/
theorem doTsp_misses_end :
    (∀ d ∈ cornerRows, 0 ≤ d.cost) ∧ Complete cornerRows ∧
    FindsGoals (cornerBoost [0, 3, 1, 2, 0]) (searched (ofRows cornerRows) 1 3) ∧
    IsMstTour (searched (ofRows cornerRows) 1 3) ((ofRows cornerRows).graph.vertices.idxOf 1)
      ((cornerBoost [0, 3, 1, 2, 0]).metricTspApproxTourFromVertex
        (searched (ofRows cornerRows) 1 3).graph ((ofRows cornerRows).graph.vertices.idxOf 1)) ∧
    ¬ ∃ rows, doTsp (cornerBoost [0, 3, 1, 2, 0]) (ofRows cornerRows) 1 3 = .ok rows ∧
      Honours cornerRows 1 3 rows := by
  refine ⟨by decide +kernel, corner_complete, corner_finds _, corner_idxOf ▸ corner_mstTour, ?_⟩
  rintro ⟨rows, hrun, ⟨mid, hends⟩, _⟩
  have hrows : doTsp (cornerBoost [0, 3, 1, 2, 0]) (ofRows cornerRows) 1 3 =
      .ok [(1, 0), (3, 0), (2, 1), (1, 1)] := by
    decide +kernel
  obtain rfl := Except.ok.inj (hrun.symm.trans hrows)
  have hreverse := congrArg List.reverse hends
  simp at hreverse

end Tsp

end PgRouting
