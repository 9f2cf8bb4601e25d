import PgRouting.Native.Tsp
import PgRouting.Spec.Dijkstra
import PgRouting.Spec.Undirected

/-!
# The graph of a cost matrix

The graph has one edge for every two ids that some row with a non-negative cost joins, and
its weight is the least cost of such a row. So no walk along the rows is shorter than a
walk in the graph.

## Key results

- `insertRow_spec`: a row changes the weight of its own pair only
- `ofRows_spec`: the edges of the graph
- `Represents.exists_walk`: a walk along the rows is not shorter than one in the graph
-/

namespace PgRouting

/-- The row joins the two ids. -/
def IIDT.Joins (d : IIDT) (i j : Int) : Prop :=
  d.fromVid = i ∧ d.toVid = j ∨ d.fromVid = j ∧ d.toVid = i

/-- Some row gives a cost between two different ids. -/
def RowArc (ds : List IIDT) (i j : Int) (c : ℚ) : Prop :=
  i ≠ j ∧ ∃ d ∈ ds, 0 ≤ d.cost ∧ d.Joins i j ∧ d.cost = c

namespace UndirectedHasCostBG

variable {g : UndirectedHasCostBG} {ds done : List IIDT} {d : IIDT} {u v x y : Nat} {i j : Int}

/-! ## Weights -/

/-- The weights of the edges that join the vertices. -/
def weights (g : UndirectedHasCostBG) (x y : Nat) : List Weight :=
  (g.graph.edges.filter (g.graph.joins x y)).map (·.bundle)

theorem weights_comm : g.weights x y = g.weights y x := by
  rw [weights, weights, AdjacencyList.joins_comm g.undirected]

theorem weights_addEdge {w : Weight} :
    (g.addEdge u v w).weights x y =
      g.weights x y ++ if x = u ∧ y = v ∨ x = v ∧ y = u then [w] else [] := by
  have hjoins : (g.addEdge u v w).graph.joins = g.graph.joins := rfl
  have hiff : g.graph.joins x y ⟨u, v, w⟩ = true ↔ x = u ∧ y = v ∨ x = v ∧ y = u := by
    rw [AdjacencyList.joins_iff_ends g.undirected]
    simp only
    omega
  show ((g.graph.edges ++ [(⟨u, v, w⟩ : BoostEdge Weight)]).filter _).map _ = _
  rw [hjoins, List.filter_append, List.map_append, weights]
  congr 1
  by_cases hsame : x = u ∧ y = v ∨ x = v ∧ y = u
  · rw [if_pos hsame, List.filter_cons_of_pos (hiff.mpr hsame)]
    rfl
  · rw [if_neg hsame, List.filter_cons_of_neg fun h => hsame (hiff.mp h)]
    rfl

theorem weights_putWeight_of_apart (h : AdjacencyList.Apart u v x y) {w : Weight} :
    (g.putWeight u v w).weights x y = g.weights x y := by
  have hjoins : (g.putWeight u v w).graph.joins = g.graph.joins := rfl
  show ((replaceWeight (g.graph.joins u v) w g.graph.edges).filter _).map _ = _
  rw [hjoins, weights]
  have hbundle : ∀ e : BoostEdge Weight, g.graph.joins x y { e with bundle := w } =
      g.graph.joins x y e := fun _ => rfl
  induction g.graph.edges with
  | nil => rfl
  | cons e edges ih =>
    rw [replaceWeight]
    split
    · -- The edge whose weight changes does not join `x` and `y`.
      rename_i he
      have hno : ¬ g.graph.joins x y e = true := fun hj =>
        AdjacencyList.apart_of_joins g.undirected h hj he
      rw [List.filter_cons_of_neg hno, List.filter_cons_of_neg (by rw [hbundle]; exact hno)]
    · rw [List.filter_cons, List.filter_cons]
      split
      · rw [List.map_cons, List.map_cons, ih]
      · exact ih

theorem weights_putWeight {w w₀ : Weight} {rest : List Weight} (h : g.weights u v = w₀ :: rest) :
    (g.putWeight u v w).weights u v = w :: rest := by
  have hjoins : (g.putWeight u v w).graph.joins = g.graph.joins := rfl
  show ((replaceWeight (g.graph.joins u v) w g.graph.edges).filter _).map _ = _
  rw [weights] at h
  rw [hjoins]
  have hbundle : ∀ e : BoostEdge Weight, g.graph.joins u v { e with bundle := w } =
      g.graph.joins u v e := fun _ => rfl
  generalize g.graph.edges = edges at h ⊢
  induction edges with
  | nil => cases h
  | cons e edges ih =>
    rw [replaceWeight]
    by_cases he : g.graph.joins u v e = true
    · rw [List.filter_cons_of_pos he, List.map_cons, List.cons.injEq] at h
      rw [if_pos he, List.filter_cons_of_pos (by rw [hbundle]; exact he), List.map_cons, h.2]
    · rw [List.filter_cons_of_neg he] at h
      rw [if_neg he, List.filter_cons_of_neg he, ih h]

/-- The edge that `boost::edge` finds has the first weight. -/
theorem edge_eq (g : UndirectedHasCostBG) (u v : Nat) :
    (g.graph.edge u v).map (·.bundle) = (g.weights u v).head? := by
  rw [weights]
  obtain ⟨hnil, hedge⟩ | ⟨e, rest, hfilter, hedge⟩ := AdjacencyList.edge_spec g.undirected u v
  · rw [hnil, hedge]
    rfl
  · rw [hfilter, hedge]
    rfl

/-! ## Rows -/

/-- The weight between two vertices is the least cost of the rows, if there is one. -/
def Represents (done : List IIDT) (g : UndirectedHasCostBG) : Prop :=
  ∀ x y i j, g.graph.vertices[x]? = some i → g.graph.vertices[y]? = some j →
    (g.weights x y = [] ∧ ∀ c, ¬ RowArc done i j c) ∨
    ∃ c : ℚ, g.weights x y = [(c : Weight)] ∧ IsLeast {c | RowArc done i j c} c

theorem rowArc_snoc {c : ℚ} :
    RowArc (done ++ [d]) i j c ↔
      RowArc done i j c ∨ i ≠ j ∧ 0 ≤ d.cost ∧ d.Joins i j ∧ d.cost = c := by
  simp only [RowArc, List.mem_append, List.mem_singleton]
  constructor
  · rintro ⟨hne, x, hx | rfl, h⟩
    · exact .inl ⟨hne, x, hx, h⟩
    · exact .inr ⟨hne, h⟩
  · rintro (⟨hne, x, hx, h⟩ | ⟨hne, h⟩)
    · exact ⟨hne, x, .inl hx, h⟩
    · exact ⟨hne, d, .inr rfl, h⟩

/-- A row that is skipped gives no cost. -/
theorem Represents.skip (hg : Represents done g) (h : d.fromVid = d.toVid ∨ d.cost < 0) :
    Represents (done ++ [d]) g := by
  have hsame : ∀ i j c, RowArc (done ++ [d]) i j c ↔ RowArc done i j c := by
    intro i j c
    rw [rowArc_snoc, or_iff_left]
    rintro ⟨hne, hpos, hj, _⟩
    obtain hloop | hneg := h
    · rw [IIDT.Joins] at hj
      omega
    · exact absurd hpos (not_le.mpr hneg)
  intro x y i j hx hy
  simp only [hsame]
  exact hg x y i j hx hy

/-- The position of an id. -/
theorem getElem?_idxOf {l : List Int} (h : i ∈ l) : l[l.idxOf i]? = some i := by
  rw [List.getElem?_eq_getElem (List.idxOf_lt_length_iff.mpr h), List.getElem_idxOf]

/-- An id has one position. -/
theorem eq_idxOf (hx : g.graph.vertices[x]? = some i) : x = g.graph.vertices.idxOf i := by
  obtain ⟨hlt, rfl⟩ := List.getElem?_eq_some_iff.mp hx
  rw [g.nodup.idxOf_getElem]

/-- One row of the matrix. -/
theorem insertRow_spec (hg : Represents done g) (hfrom : d.fromVid ∈ g.graph.vertices)
    (hto : d.toVid ∈ g.graph.vertices) :
    Represents (done ++ [d]) (g.insertRow d) ∧
      (g.insertRow d).graph.vertices = g.graph.vertices := by
  rw [insertRow]
  split
  · rename_i hloop
    exact ⟨hg.skip (.inl hloop), rfl⟩
  rename_i hloop
  split
  · rename_i hneg
    exact ⟨hg.skip (.inr hneg), rfl⟩
  rename_i hneg
  -- A loop and a negative cost leave the graph as it is; from here on the row counts.
  have hpos : 0 ≤ d.cost := not_lt.mp hneg
  set v1 := g.graph.vertices.idxOf d.fromVid with hv1
  set v2 := g.graph.vertices.idxOf d.toVid with hv2
  -- Which pairs the row is about.
  have hpair : ∀ {x y i j}, g.graph.vertices[x]? = some i → g.graph.vertices[y]? = some j →
      (d.Joins i j ↔ x = v1 ∧ y = v2 ∨ x = v2 ∧ y = v1) := by
    intro x y i j hx hy
    have hat : ∀ {x i}, g.graph.vertices[x]? = some i → ∀ k, k ∈ g.graph.vertices →
        (k = i ↔ x = g.graph.vertices.idxOf k) := by
      intro x i hx k hk
      constructor
      · rintro rfl
        exact eq_idxOf hx
      · rintro rfl
        exact Option.some.inj ((getElem?_idxOf hk).symm.trans hx)
    rw [IIDT.Joins, hat hx _ hfrom, hat hy _ hto, hat hy _ hfrom, hat hx _ hto]
    tauto
  have hne : v1 ≠ v2 := by
    intro heq
    have h1 := getElem?_idxOf hfrom
    rw [← hv1, heq, hv2, getElem?_idxOf hto] at h1
    exact hloop (Option.some.inj h1).symm
  -- It is enough to look at the pair of the row.
  have hkeep : ∀ g' : UndirectedHasCostBG, g'.graph.vertices = g.graph.vertices →
      (∀ x y, AdjacencyList.Apart v1 v2 x y → g'.weights x y = g.weights x y) →
      (∀ i j, d.Joins i j → i ≠ j → ∃ c : ℚ, g'.weights v1 v2 = [(c : Weight)] ∧
        IsLeast {c | RowArc (done ++ [d]) i j c} c) →
      Represents (done ++ [d]) g' := by
    intro g' hvertices hapart hsame x y i j hx hy
    rw [hvertices] at hx hy
    by_cases hxy : x = v1 ∧ y = v2 ∨ x = v2 ∧ y = v1
    · have hj := (hpair hx hy).mpr hxy
      have hij : i ≠ j := by
        rintro rfl
        rw [IIDT.Joins] at hj
        omega
      obtain ⟨c, hw, hleast⟩ := hsame i j hj hij
      refine .inr ⟨c, ?_, hleast⟩
      obtain ⟨rfl, rfl⟩ | ⟨rfl, rfl⟩ := hxy
      · exact hw
      · rw [weights_comm]
        exact hw
    · have hrows : ∀ c, RowArc (done ++ [d]) i j c ↔ RowArc done i j c := by
        intro c
        rw [rowArc_snoc, or_iff_left]
        rintro ⟨_, _, hj, _⟩
        exact hxy ((hpair hx hy).mp hj)
      simp only [hrows, hapart x y hxy]
      exact hg x y i j hx hy
  -- The pair of the row before the row is read, seen from either of its ends.
  have hold : ∀ i j, d.Joins i j → i ≠ j →
      (g.weights v1 v2 = [] ∧ ∀ c, ¬ RowArc done i j c) ∨
      ∃ c : ℚ, g.weights v1 v2 = [(c : Weight)] ∧ IsLeast {c | RowArc done i j c} c := by
    intro i j hj hij
    rw [IIDT.Joins] at hj
    obtain ⟨rfl, rfl⟩ | ⟨rfl, rfl⟩ := hj
    · exact hg _ _ _ _ (getElem?_idxOf hfrom) (getElem?_idxOf hto)
    · rw [weights_comm]
      exact hg _ _ _ _ (getElem?_idxOf hto) (getElem?_idxOf hfrom)
  -- Between the two the row adds its own cost and nothing else.
  have hnew : ∀ i j c, d.Joins i j → i ≠ j →
      (RowArc (done ++ [d]) i j c ↔ RowArc done i j c ∨ d.cost = c) := by
    intro i j c hj hij
    rw [rowArc_snoc]
    simp [hij, hpos, hj]
  have hedge := edge_eq g v1 v2
  cases hfound : g.graph.edge v1 v2 with
  | none =>
    -- No edge yet: the row is the only one between its ends.
    have hnil : g.weights v1 v2 = [] := by
      rw [hfound] at hedge
      exact List.head?_eq_none_iff.mp hedge.symm
    simp only [hfound]
    refine ⟨hkeep _ rfl (fun x y hxy => ?_) fun i j hj hij => ?_, rfl⟩
    · rw [weights_addEdge, if_neg hxy, List.append_nil]
    · refine ⟨d.cost, ?_, ?_, ?_⟩
      · rw [weights_addEdge, if_pos (.inl ⟨rfl, rfl⟩), hnil, List.nil_append]
      · exact (hnew i j _ hj hij).mpr (.inr rfl)
      · intro c hc
        obtain ⟨_, hno⟩ | ⟨w, hw, _⟩ := hold i j hj hij
        · exact ((hnew i j c hj hij).mp hc).elim (fun h => absurd h (hno c)) le_of_eq
        · rw [hnil] at hw
          cases hw
  | some e =>
    have hhead : (g.weights v1 v2).head? = some e.bundle := by
      rw [hfound] at hedge
      exact hedge.symm
    -- There is exactly one edge, with the least cost of the rows so far.
    have hone : ∀ i j, d.Joins i j → i ≠ j → ∃ w : ℚ, e.bundle = (w : Weight) ∧
        g.weights v1 v2 = [(w : Weight)] ∧ IsLeast {c | RowArc done i j c} w := by
      intro i j hj hij
      obtain ⟨hnil, _⟩ | ⟨w, hw, hleast⟩ := hold i j hj hij
      · rw [hnil] at hhead
        cases hhead
      · rw [hw] at hhead
        exact ⟨w, (Option.some.inj hhead).symm, hw, hleast⟩
    simp only [hfound]
    split
    · -- The row costs more than the edge.
      rename_i hlt
      refine ⟨hkeep g rfl (fun _ _ _ => rfl) fun i j hj hij => ?_, rfl⟩
      obtain ⟨w, hbundle, hw, hmem, hle⟩ := hone i j hj hij
      rw [hbundle] at hlt
      refine ⟨w, hw, (hnew i j w hj hij).mpr (.inl hmem), fun c hc => ?_⟩
      obtain hc | rfl := (hnew i j c hj hij).mp hc
      · exact hle hc
      · exact (WithTop.coe_lt_coe.mp hlt).le
    · rename_i hge
      split
      · -- The row is cheaper, and its cost is written over that of the edge.
        rename_i hlt
        refine ⟨hkeep _ rfl (fun x y hxy => weights_putWeight_of_apart hxy) fun i j hj hij => ?_,
          rfl⟩
        obtain ⟨w, hbundle, hw, hmem, hle⟩ := hone i j hj hij
        rw [hbundle] at hlt
        refine ⟨d.cost, weights_putWeight hw, (hnew i j _ hj hij).mpr (.inr rfl), fun c hc => ?_⟩
        obtain hc | rfl := (hnew i j c hj hij).mp hc
        · exact (WithTop.coe_lt_coe.mp hlt).le.trans (hle hc)
        · exact le_refl _
      · -- Both cost the same.
        rename_i hge'
        refine ⟨hkeep g rfl (fun _ _ _ => rfl) fun i j hj hij => ?_, rfl⟩
        obtain ⟨w, hbundle, hw, hmem, hle⟩ := hone i j hj hij
        rw [hbundle] at hge hge'
        refine ⟨w, hw, (hnew i j w hj hij).mpr (.inl hmem), fun c hc => ?_⟩
        obtain hc | rfl := (hnew i j c hj hij).mp hc
        · exact hle hc
        · exact WithTop.coe_le_coe.mp (not_lt.mp hge')

/-- Edges join vertices of the graph. -/
def EndsIn (g : UndirectedHasCostBG) : Prop :=
  ∀ e ∈ g.graph.edges, e.source < g.graph.numVertices ∧ e.target < g.graph.numVertices

theorem EndsIn.addEdge (hg : g.EndsIn) (hu : u < g.graph.numVertices)
    (hv : v < g.graph.numVertices) (w : Weight) : (g.addEdge u v w).EndsIn := by
  intro e he
  obtain he | he := List.mem_append.mp he
  · exact hg e he
  · obtain rfl := List.mem_singleton.mp he
    exact ⟨hu, hv⟩

theorem mem_replaceWeight {joins : BoostEdge Weight → Bool} {w : Weight} {e : BoostEdge Weight}
    {edges : List (BoostEdge Weight)} (he : e ∈ replaceWeight joins w edges) :
    ∃ e' ∈ edges, e.source = e'.source ∧ e.target = e'.target := by
  induction edges with
  | nil => cases he
  | cons e₀ edges ih =>
    rw [replaceWeight] at he
    split at he
    · obtain rfl | he := List.mem_cons.mp he
      · exact ⟨e₀, List.mem_cons_self, rfl, rfl⟩
      · exact ⟨e, List.mem_cons_of_mem _ he, rfl, rfl⟩
    · obtain rfl | he := List.mem_cons.mp he
      · exact ⟨e, List.mem_cons_self, rfl, rfl⟩
      · obtain ⟨e', he', hends⟩ := ih he
        exact ⟨e', List.mem_cons_of_mem _ he', hends⟩

theorem EndsIn.insertRow (hg : g.EndsIn) (hfrom : d.fromVid ∈ g.graph.vertices)
    (hto : d.toVid ∈ g.graph.vertices) : (g.insertRow d).EndsIn := by
  have hput : ∀ u v w, (g.putWeight u v w).EndsIn := by
    intro u v w e he
    obtain ⟨e', he', hs, ht⟩ := mem_replaceWeight he
    rw [hs, ht]
    exact hg e' he'
  rw [UndirectedHasCostBG.insertRow]
  split
  · exact hg
  split
  · exact hg
  simp only
  split
  · split
    · exact hg
    · split
      · exact hput _ _ _
      · exact hg
  · exact hg.addEdge (List.idxOf_lt_length_iff.mpr hfrom) (List.idxOf_lt_length_iff.mpr hto) _

/-- All rows of the matrix. -/
theorem foldl_insertRow (rows : List IIDT) : ∀ (done : List IIDT) (g : UndirectedHasCostBG),
    (∀ d ∈ rows, d.fromVid ∈ g.graph.vertices ∧ d.toVid ∈ g.graph.vertices) →
    Represents done g → g.EndsIn →
    Represents (done ++ rows) (rows.foldl insertRow g) ∧ (rows.foldl insertRow g).EndsIn ∧
      (rows.foldl insertRow g).graph.vertices = g.graph.vertices := by
  induction rows with
  | nil => exact fun done g _ hg hends => ⟨(List.append_nil done).symm ▸ hg, hends, rfl⟩
  | cons d rows ih =>
    intro done g hids hg hends
    obtain ⟨hfrom, hto⟩ := hids d List.mem_cons_self
    obtain ⟨hone, hvertices⟩ := insertRow_spec hg hfrom hto
    obtain ⟨hall, hends', hvertices'⟩ := ih (done ++ [d]) (g.insertRow d)
      (fun x hx => hvertices.symm ▸ hids x (List.mem_cons_of_mem _ hx)) hone
      (hends.insertRow hfrom hto)
    rw [List.append_assoc] at hall
    exact ⟨hall, hends', hvertices'.trans hvertices⟩

theorem foldl_insertVertex (ids : List Int) : ∀ g : UndirectedHasCostBG,
    (g.graph.vertices ++ ids).Nodup →
    (ids.foldl insertVertex g).graph.vertices = g.graph.vertices ++ ids ∧
      (ids.foldl insertVertex g).graph.edges = g.graph.edges := by
  induction ids with
  | nil => exact fun g _ => ⟨(List.append_nil _).symm, rfl⟩
  | cons id ids ih =>
    intro g hnodup
    have hnew : id ∉ g.graph.vertices := by
      intro hmem
      exact (List.nodup_append.mp hnodup).2.2 id hmem id List.mem_cons_self rfl
    have hone : (g.insertVertex id).graph.vertices = g.graph.vertices ++ [id] ∧
        (g.insertVertex id).graph.edges = g.graph.edges := by
      rw [insertVertex, dif_neg hnew]
      exact ⟨rfl, rfl⟩
    obtain ⟨hvertices, hedges⟩ := ih (g.insertVertex id) (by
      rw [hone.1, List.append_assoc]
      exact hnodup)
    rw [hone.1, List.append_assoc] at hvertices
    exact ⟨hvertices, hedges.trans hone.2⟩

theorem mem_matrixIds : i ∈ matrixIds ds ↔ ∃ d ∈ ds, i = d.fromVid ∨ i = d.toVid := by
  have hfold : ∀ (l : List IIDT) (s : Identifiers Int),
      i ∈ l.foldl (fun ids d => (ids.add d.fromVid).add d.toVid) s ↔
        i ∈ s ∨ ∃ d ∈ l, i = d.fromVid ∨ i = d.toVid := by
    intro l
    induction l with
    | nil => simp
    | cons d l ih =>
      intro s
      rw [List.foldl_cons, ih, Identifiers.mem_add, Identifiers.mem_add, List.exists_mem_cons_iff,
        ← or_assoc, or_comm (a := i = d.toVid), or_comm (b := i ∈ s), or_assoc]
  rw [matrixIds, hfold]
  simp

theorem rowArc_swapRow {c : ℚ} : RowArc (ds.map swapRow) i j c ↔ RowArc ds i j c := by
  have hswap : ∀ d : IIDT, (swapRow d).cost = d.cost ∧
      ((swapRow d).Joins i j ↔ d.Joins i j) := by
    intro d
    rw [swapRow]
    split
    · simp only [IIDT.Joins, true_and]
      tauto
    · exact ⟨rfl, Iff.rfl⟩
  simp [RowArc, List.mem_map, hswap]

/-- The graph of the matrix. -/
theorem ofRows_spec (ds : List IIDT) :
    Represents ds (ofRows ds) ∧ (ofRows ds).EndsIn ∧
      ∀ i, i ∈ (ofRows ds).graph.vertices ↔ ∃ d ∈ ds, i = d.fromVid ∨ i = d.toVid := by
  set ids := matrixIds ds with hids
  obtain ⟨hvertices, hedges⟩ := foldl_insertVertex ids.ids empty ids.nodup
  set g := ids.ids.foldl insertVertex empty with hg
  have hmem : ∀ i, i ∈ g.graph.vertices ↔ ∃ d ∈ ds, i = d.fromVid ∨ i = d.toVid := by
    intro i
    rw [hvertices]
    exact mem_matrixIds
  have hnone : Represents [] g := by
    intro x y i j _ _
    refine .inl ⟨?_, fun c hc => ?_⟩
    · rw [weights, hedges]
      rfl
    · obtain ⟨_, d, hd, _⟩ := hc
      cases hd
  have hends : g.EndsIn := by
    intro e he
    rw [hedges] at he
    cases he
  -- The constructor turns a row around when its ends ascend; its two vertices are the same.
  have hrows : ∀ d ∈ ds.map swapRow, d.fromVid ∈ g.graph.vertices ∧
      d.toVid ∈ g.graph.vertices := by
    intro d hd
    obtain ⟨d, hmap, rfl⟩ := List.mem_map.mp hd
    have hfrom := (hmem d.fromVid).mpr ⟨d, hmap, .inl rfl⟩
    have hto := (hmem d.toVid).mpr ⟨d, hmap, .inr rfl⟩
    rw [swapRow]
    split
    · exact ⟨hto, hfrom⟩
    · exact ⟨hfrom, hto⟩
  obtain ⟨hrep, hends', hvert⟩ := foldl_insertRow (ds.map swapRow) [] g hrows hnone hends
  refine ⟨?_, hends', fun i => ?_⟩
  · intro x y i j hx hy
    have hxy := hrep x y i j hx hy
    simp only [List.nil_append, rowArc_swapRow] at hxy
    exact hxy
  · rw [← hmem i, ← hvert]
    rfl

/-! ## Distances -/

/-- An edge of finite weight joins the vertices. -/
def WArc (g : UndirectedHasCostBG) (x y : Nat) (w : ℚ) : Prop := (w : Weight) ∈ g.weights x y

theorem EndsIn.lt (hg : g.EndsIn) {w : Weight} (h : w ∈ g.weights x y) :
    x < g.graph.numVertices ∧ y < g.graph.numVertices := by
  obtain ⟨e, he, _⟩ := List.mem_map.mp h
  obtain ⟨he, hj⟩ := List.mem_filter.mp he
  have hends := hg e he
  obtain ⟨rfl, rfl⟩ | ⟨rfl, rfl⟩ := (AdjacencyList.joins_iff_ends g.undirected).mp hj
  · exact hends
  · exact hends.symm

theorem exists_id (h : x < g.graph.numVertices) : ∃ i, g.graph.vertices[x]? = some i :=
  ⟨_, List.getElem?_eq_getElem h⟩

/-- A walk along the rows is not shorter than one in the graph. -/
theorem Represents.exists_walk (hg : Represents ds g)
    (hids : ∀ i, i ∈ g.graph.vertices ↔ ∃ d ∈ ds, i = d.fromVid ∨ i = d.toVid) {c : ℚ}
    (h : Walk (RowArc ds) i j c) (hx : g.graph.vertices[x]? = some i)
    (hy : g.graph.vertices[y]? = some j) : ∃ c' ≤ c, Walk g.WArc x y c' := by
  induction h generalizing x with
  | nil i =>
    obtain rfl : x = y := (eq_idxOf hx).trans (eq_idxOf hy).symm
    exact ⟨0, le_refl 0, .nil x⟩
  | @cons i k _ w _ harc _ ih =>
    have hk : k ∈ g.graph.vertices := by
      obtain ⟨_, d, hd, _, hj, _⟩ := harc
      rw [hids]
      obtain ⟨_, h⟩ | ⟨h, _⟩ := hj
      · exact ⟨d, hd, .inr h.symm⟩
      · exact ⟨d, hd, .inl h.symm⟩
    have hz := getElem?_idxOf hk
    obtain ⟨c', hle, hw⟩ := ih hz hy
    obtain ⟨_, hno⟩ | ⟨w', hw', _, hleast⟩ := hg _ _ _ _ hx hz
    · exact absurd harc (hno w)
    · refine ⟨w' + c', add_le_add (hleast harc) hle, .cons ?_ hw⟩
      rw [WArc, hw']
      exact List.mem_singleton_self _

end UndirectedHasCostBG

end PgRouting
