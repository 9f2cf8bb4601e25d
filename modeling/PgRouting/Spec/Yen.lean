import PgRouting.Spec.YenSearch
import PgRouting.Spec.SearchVisits
import PgRouting.Spec.CheapestEdges
import Mathlib.Data.Set.Card
import Mathlib.Data.ENat.Lattice

/-!
# The `K` shortest paths

For each pair `algorithms::Yen` returns the cheapest routes with pairwise different nodes, at most
`K` of them, as long as no cycle loses all cheapest edges between two vertices. The graph that one
pair leaves to the next has a cheapest edge between any two vertices then, so the answers do not
depend on the pairs before.

## Key results

- `Cheapest.step_le`: the rows of a cheapest route are cheapest edges
- `KShortest.of_found`: what is found for a pair
- `yen_spec`, `foldlM_pairs`: the answer for one pair, and for all of them
-/

namespace PgRouting

open PgrBaseGraph Path

variable {g h : PgrBaseGraph BasicVertex BasicEdge} {s t : Int} {k : Nat}

/-- The rows of a route that is the cheapest with its nodes are cheapest edges. -/
theorem Path.Cheapest.step_le {S : Int → Int → Int → ℚ → Prop} {p : Path} {i : Nat} {x y : PathT}
    (hmin : Cheapest S s t p) (hp : Path.IsRoute S s t p) (hx : p.path[i]? = some x)
    (hy : p.path[i + 1]? = some y) {id : Int} {c : ℚ} (hstep : S x.node id y.node c) :
    x.cost ≤ c := by
  obtain ⟨hi, rfl⟩ := List.getElem?_eq_some_iff.mp hx
  obtain ⟨hi', rfl⟩ := List.getElem?_eq_some_iff.mp hy
  obtain ⟨rows, agg, hne, hshape⟩ := hp.shape
  -- The route that takes the other edge there.
  let other : PathT := { p.path[i] with edge := id, cost := c }
  have hlt : i < rows.length := by
    rw [hshape, List.length_append, List.length_singleton] at hi'
    omega
  have hnodes : (p.path.set i other).map (·.node) = p.path.map (·.node) := by
    rw [List.map_set]
    have hi : i < (p.path.map (·.node)).length := by rwa [List.length_map]
    have hget : other.node = (p.path.map (·.node))[i] := by rw [List.getElem_map]
    rw [hget, List.set_getElem_self]
  have hroute : Path.IsRoute S s t { p with path := p.path.set i other } := by
    refine ⟨hp.startId, hp.endId, ⟨rows.set i other, agg, ?_, ?_⟩, ?_, ?_, hnodes ▸ hp.nodup⟩
    · rw [← List.length_pos_iff, List.length_set]
      omega
    · rw [← List.set_append_left i other hlt, ← hshape]
    · rw [← List.head?_map, hnodes, List.head?_map]
      exact hp.head
    · rw [List.isChain_iff_getElem]
      intro j hj
      rw [List.length_set] at hj
      have hold := List.isChain_iff_getElem.mp hp.joined j hj
      have hnode : (p.path.set i other)[j + 1].node = p.path[j + 1].node := by
        rw [List.getElem_set]
        split
        · rename_i heq
          subst heq
          rfl
        · rfl
      rw [hnode, List.getElem_set]
      split
      · rename_i heq
        subst heq
        exact hstep
      · exact hold
  have hle := hmin _ hroute hnodes
  have hsum : rowsCost { p with path := p.path.set i other } =
      p.rowsCost + (-p.path[i].cost + c) := by
    rw [rowsCost, rowsCost, List.map_set, List.sum_set', dif_pos (by rwa [List.length_map]),
      List.getElem_map]
  rw [hsum, le_add_iff_nonneg_right, neg_add_eq_sub, sub_nonneg] at hle
  exact hle

/-! ## One pair -/

/-- The paths are `k` cheapest routes with pairwise different nodes, or one for all nodes that
    routes have when there are not as many. -/
structure KShortest (g : PgrBaseGraph BasicVertex BasicEdge) (s t : Int) (k : Nat)
    (L : List Path) : Prop where
  route : ∀ p ∈ L, Path.IsRoute g.Step s t p
  edges : ∀ p ∈ L, ∀ (i : Nat) (x y : PathT), p.path[i]? = some x → p.path[i + 1]? = some y →
    ∀ id c, g.Step x.node id y.node c → x.cost ≤ c
  totCost : ∀ p ∈ L, p.totCost = p.rowsCost
  distinct : L.Pairwise fun p q => p.nodes ≠ q.nodes
  number : (L.length : ℕ∞) = min (k : ℕ∞) {π | ∃ q, Path.IsRoute g.Step s t q ∧ q.nodes = π}.encard
  sorted : L.Pairwise fun p q => p.rowsCost ≤ q.rowsCost
  least : ∀ q, Path.IsRoute g.Step s t q →
    (∃ p ∈ L, p.nodes = q.nodes) ∨ ∀ p ∈ L, p.rowsCost ≤ q.rowsCost

/-- Without a route there are no paths. -/
theorem KShortest.nil (hnone : ∀ q, ¬ Path.IsRoute g.Step s t q) : KShortest g s t k [] where
  route _ hp := nomatch hp
  edges _ hp := nomatch hp
  totCost _ hp := nomatch hp
  distinct := .nil
  number := by
    have hempty : {π | ∃ q, Path.IsRoute g.Step s t q ∧ q.nodes = π} = (∅ : Set (List Int)) := by
      refine Set.eq_empty_iff_forall_notMem.mpr fun π hπ => ?_
      obtain ⟨q, hq, _⟩ := hπ
      exact hnone q hq
    rw [hempty, Set.encard_empty, min_zero]
    rfl
  sorted := .nil
  least q hq := absurd hq (hnone q)

variable {boost : BoostDijkstra BasicVertex BasicEdge} {st : Ksp Unit}
variable {G : PgrBaseGraph BasicVertex BasicEdge → Prop} {Q : Int → Int → Prop}

/-- The paths that a search has found. -/
theorem KShortest.of_found (hfound : Ksp.Found g s t G Q (fun _ _ => True) (fun _ => True) k st) :
    KShortest g s t k st.resultSet := by
  -- Listed paths with the same nodes have the same key, and the keys grow.
  have hdistinct : st.resultSet.Pairwise fun p q => p.nodes ≠ q.nodes := by
    refine hfound.sorted.imp_of_mem fun {p q} hp hq hlt hnodes => ?_
    rw [(hfound.result p hp).key_eq (hfound.result q hq) hnodes] at hlt
    exact lt_irrefl _ hlt
  constructor
  case route => exact fun p hp => (hfound.result p hp).route
  case edges =>
    intro p hp i x y hx hy id c hstep
    have hlisted := hfound.result p hp
    exact hlisted.cheapest.step_le hlisted.route hx hy hstep
  case totCost => exact fun p hp => (hfound.result p hp).totCost
  case distinct => exact hdistinct
  case number =>
    have hnodup : (st.resultSet.map Path.nodes).Nodup := List.pairwise_map.mpr hdistinct
    have hcard : ((st.resultSet.map Path.nodes).toFinset : Set (List Int)).encard =
        st.resultSet.length := by
      rw [Set.encard_coe_eq_coe_finsetCard, List.toFinset_card_of_nodup hnodup, List.length_map]
    have hsub : ((st.resultSet.map Path.nodes).toFinset : Set (List Int)) ⊆
        {π | ∃ q, Path.IsRoute g.Step s t q ∧ q.nodes = π} := by
      intro π hπ
      obtain ⟨p, hp, rfl⟩ := List.mem_map.mp (List.mem_toFinset.mp hπ)
      exact ⟨p, (hfound.result p hp).route, rfl⟩
    refine le_antisymm (le_min (by exact_mod_cast hfound.size) ?_) ?_
    · rw [← hcard]
      exact Set.encard_le_encard hsub
    · -- Fewer than `k` paths are all that there are.
      by_cases hlen : st.resultSet.length = k
      · rw [hlen]
        exact min_le_left _ _
      · refine (min_le_right _ _).trans ?_
        rw [← hcard]
        refine Set.encard_le_encard fun π hπ => ?_
        obtain ⟨q, hq, rfl⟩ := hπ
        obtain ⟨p, hp, hnodes⟩ | ⟨hk, _⟩ := hfound.nodes q hq
        · exact List.mem_toFinset.mpr (List.mem_map.mpr ⟨p, hp, hnodes⟩)
        · exact absurd hk hlen
  case sorted =>
    refine hfound.sorted.imp_of_mem fun {p q} hp hq hlt => ?_
    rw [← (hfound.result p hp).totCost, ← (hfound.result q hq).totCost]
    exact totCost_le_of_key_lt hlt
  case least => exact fun q hq => (hfound.nodes q hq).imp_right fun h => h.2

namespace Ksp

theorem accounts_noop : Accounts KspVisitor.noop (fun _ _ => True) (fun _ => True) :=
  ⟨fun _ _ _ => trivial, fun _ _ _ => trivial, fun _ _ _ _ => trivial, fun _ _ _ _ _ => trivial,
    fun _ _ _ => trivial, fun _ _ _ => trivial⟩

/-- The paths that have been found are in order already. -/
theorem getResults_of_found (hapart : CostsApart g s t)
    (hfound : Found g s t G Q (fun _ _ => True) (fun _ => True) k st) :
    (st.getResults false).take k = st.resultSet := by
  have hsorted : st.resultSet.Pairwise fun p q => (!q.compPathsLess p) = true := by
    refine hfound.sorted.imp_of_mem fun {p q} hp hq hlt => ?_
    rw [Bool.not_eq_true', Bool.eq_false_iff]
    intro hless
    have hgt := ((hfound.result q hq).compares hapart (hfound.result p hp)).mp hless
    exact lt_asymm hlt hgt
  have hne : st.resultSet.isEmpty = false := List.isEmpty_eq_false_iff.mpr hfound.nonempty
  rw [getResults, hne, if_neg Bool.false_ne_true, if_neg (by simp),
    List.mergeSort_of_pairwise hsorted, List.take_of_length_le hfound.size]

variable {C : PgrBaseGraph BasicVertex BasicEdge → List Disconnect → Prop}

/-- The run for the pair is clean, where there is one. -/
def CleanPair (C : PgrBaseGraph BasicVertex BasicEdge → List Disconnect → Prop)
    (boost : BoostDijkstra BasicVertex BasicEdge) (k : Nat)
    (h : PgrBaseGraph BasicVertex BasicEdge) (s t : Int) : Prop :=
  s ≠ t → h.hasVertex s = true → h.hasVertex t = true → CleanRun C boost .noop h s t k ()

/-- The answer for a pair, and what is left to the next one. -/
theorem yen_spec (hrec : Recovers boost g G C Q) (hapart : CostsApart g s t) (hh : G h)
    (hk : 1 ≤ k) (hclean : CleanPair C boost k h s t) :
    ∃ N L h', (∀ n ≥ N, yen boost n h s t k false = some (L, h')) ∧ G h' ∧
      KShortest g s t k L := by
  have hmap := (hrec.stands _ hh).map
  by_cases hst : s = t
  · exact ⟨0, [], h, fun n _ => if_pos (.inl hst), hh, .nil fun q hq => hq.ne hst⟩
  have hcase : ¬ (s = t ∨ k = 0) := not_or.mpr ⟨hst, by omega⟩
  by_cases hknown : h.hasVertex s = true ∧ h.hasVertex t = true
  · obtain ⟨hs, ht⟩ := hknown
    obtain ⟨a, ha⟩ := Option.isSome_iff_exists.mp hs
    obtain ⟨b, hb⟩ := Option.isSome_iff_exists.mp ht
    obtain ⟨N, thrown, st, hrun, hcase'⟩ := executeYen_spec hh hrec hapart accounts_noop
      (hmap ▸ ha) (hmap ▸ hb) trivial hk (hclean hst hs ht)
    have hcode : ∀ n ≥ N, yen boost n h s t k false =
        some ((st.getResults false).take k, st.graph) := by
      intro n hn
      rw [yen, if_neg hcase, if_neg (by simp [hs, ht]), hrun n hn]
      rfl
    obtain ⟨p, hthrown, hgraph, _, rfl | ⟨_, hnil, hnone⟩⟩ | ⟨_, hfound⟩ := hcase'
    · cases hthrown
    · refine ⟨N, _, _, hcode, hgraph ▸ hh, ?_⟩
      rw [getResults, hnil, if_pos List.isEmpty_nil, List.take_nil]
      exact .nil hnone
    · refine ⟨N, _, _, hcode, hfound.graph, ?_⟩
      rw [getResults_of_found hapart hfound]
      exact .of_found hfound
  · refine ⟨0, [], h, fun n _ => ?_, hh, .nil fun q hq => hknown ?_⟩
    · rw [yen, if_neg hcase, if_pos]
      simpa [or_iff_not_imp_left] using hknown
    · rw [hasVertex, hasVertex, hmap]
      exact known_of_route hq

/-- The answer for a pair does not depend on the bound. -/
theorem yen_mono {m n : Nat} {heapPaths : Bool}
    {r : List Path × PgrBaseGraph BasicVertex BasicEdge}
    (hrun : yen boost n h s t k heapPaths = some r) (hle : n ≤ m) :
    yen boost m h s t k heapPaths = some r := by
  rw [yen] at hrun ⊢
  split at hrun
  · rename_i hsame
    rw [if_pos hsame]
    exact hrun
  · rename_i hne
    rw [if_neg hne]
    split at hrun
    · rename_i hunknown
      rw [if_pos hunknown]
      exact hrun
    · rename_i hknown
      rw [if_neg hknown]
      cases hsearch : executeYen boost .noop t n h s k () with
      | none =>
        rw [hsearch] at hrun
        cases hrun
      | some found =>
        rw [hsearch] at hrun
        rw [executeYen_mono hsearch hle]
        exact hrun

end Ksp

/-! ## All pairs -/

namespace Algorithms

variable {G : PgrBaseGraph BasicVertex BasicEdge → Prop} {Q : Int → Int → Prop}
variable {C : PgrBaseGraph BasicVertex BasicEdge → List Disconnect → Prop}
variable {boost : BoostDijkstra BasicVertex BasicEdge}

/-- The pairs of a map of combinations, in their order. -/
def pairsOf (combinations : List (Int × List Int)) : List (Int × Int) :=
  combinations.flatMap fun c => c.2.map (c.1, ·)

/-- The runs for the pairs are clean, each on the graph that the one before has left. -/
def CleanPairs (C : PgrBaseGraph BasicVertex BasicEdge → List Disconnect → Prop)
    (boost : BoostDijkstra BasicVertex BasicEdge) (k : Nat) :
    List (Int × Int) → PgrBaseGraph BasicVertex BasicEdge → Prop
  | [], _ => True
  | pair :: rest, h =>
    Ksp.CleanPair C boost k h pair.1 pair.2 ∧
    ∀ n L h', Ksp.yen boost n h pair.1 pair.2 k false = some (L, h') →
      CleanPairs C boost k rest h'

/-- What the loops do for one pair. -/
theorem yenTo_eq (n : Nat) (s t : Int) (paths : List Path) :
    yenTo boost n k false s (paths, h) t =
      (Ksp.yen boost n h s t k false).map fun r => (paths ++ r.1, r.2) := by
  by_cases ht : h.hasVertex t = true
  · rw [yenTo, if_neg (by simp [ht])]
    cases Ksp.yen boost n h s t k false <;> rfl
  · have hno : Ksp.yen boost n h s t k false = some ([], h) := by
      rw [Ksp.yen]
      split
      · rfl
      · exact if_pos (.inr (by simpa using ht))
    rw [yenTo, if_pos (by simpa using ht), hno, Option.map_some, List.append_nil]

/-- From a vertex that is not in the graph nothing is returned. -/
theorem foldlM_yenTo_unknown {n : Nat} (hs : h.hasVertex s = false) (paths : List Path)
    (destinations : List Int) :
    destinations.foldlM (yenTo boost n k false s) (paths, h) = some (paths, h) := by
  induction destinations with
  | nil => rfl
  | cons t rest ih =>
    have hno : Ksp.yen boost n h s t k false = some ([], h) := by
      rw [Ksp.yen]
      split
      · rfl
      · exact if_pos (.inl (by simp [hs]))
    rw [List.foldlM_cons, yenTo_eq, hno, Option.map_some, List.append_nil]
    exact ih

/-- The two loops are one over the pairs. -/
theorem yen_eq (n : Nat) (combinations : List (Int × List Int)) :
    yen boost n g combinations k false =
      (pairsOf combinations).foldlM (fun s pair => yenTo boost n k false pair.1 s pair.2)
        ([], g) := by
  rw [yen]
  generalize ([] : List Path) = paths
  induction combinations generalizing paths g with
  | nil => rfl
  | cons c rest ih =>
    have hbody : (if (!g.hasVertex c.1) = true then some (paths, g)
        else c.2.foldlM (yenTo boost n k false c.1) (paths, g)) =
        c.2.foldlM (yenTo boost n k false c.1) (paths, g) := by
      split
      · rename_i hs
        exact (foldlM_yenTo_unknown (by simpa using hs) paths c.2).symm
      · rfl
    rw [List.foldlM_cons, hbody, pairsOf, List.flatMap_cons, List.foldlM_append, List.foldlM_map]
    congr 1
    funext s
    exact ih s.1

/-- The answers for the pairs, one after the other. -/
theorem foldlM_pairs (hrec : Ksp.Recovers boost g G C Q) (hapart : ∀ s t, Ksp.CostsApart g s t)
    (hk : 1 ≤ k) (pairs : List (Int × Int)) (paths : List Path) (hh : G h)
    (hclean : CleanPairs C boost k pairs h) :
    ∃ N results h', (∀ n ≥ N, pairs.foldlM (fun s pair => yenTo boost n k false pair.1 s pair.2)
        (paths, h) = some (paths ++ results.flatten, h')) ∧
      List.Forall₂ (fun pair L => KShortest g pair.1 pair.2 k L) pairs results := by
  induction pairs generalizing h paths with
  | nil => exact ⟨0, [], h, fun n _ => by simp [List.foldlM_nil], .nil⟩
  | cons pair rest ih =>
    obtain ⟨hpair, hrest⟩ := hclean
    obtain ⟨N, L, h₁, hrun, hh₁, hL⟩ := Ksp.yen_spec hrec (hapart _ _) hh hk hpair
    obtain ⟨N', results, h', hrun', hall⟩ :=
      ih (paths ++ L) hh₁ (hrest N L h₁ (hrun N (le_refl N)))
    refine ⟨max N N', L :: results, h', fun n hn => ?_, .cons hL hall⟩
    rw [List.foldlM_cons, yenTo_eq, hrun n ((le_max_left _ _).trans hn), Option.map_some,
      List.flatten_cons, ← List.append_assoc]
    exact hrun' n ((le_max_right _ _).trans hn)

/-- The answers for the pairs do not depend on the bound. -/
theorem foldlM_pairs_mono {m n : Nat} (pairs : List (Int × Int))
    {s r : List Path × PgrBaseGraph BasicVertex BasicEdge}
    (hrun : pairs.foldlM (fun s pair => yenTo boost n k false pair.1 s pair.2) s = some r)
    (hle : n ≤ m) :
    pairs.foldlM (fun s pair => yenTo boost m k false pair.1 s pair.2) s = some r := by
  induction pairs generalizing s with
  | nil => exact hrun
  | cons pair rest ih =>
    obtain ⟨paths, h⟩ := s
    rw [List.foldlM_cons, yenTo_eq] at hrun ⊢
    cases hpair : Ksp.yen boost n h pair.1 pair.2 k false with
    | none =>
      rw [hpair] at hrun
      cases hrun
    | some answer =>
      rw [hpair] at hrun
      rw [Ksp.yen_mono hpair hle]
      exact ih hrun

/-! ## Tables with integer costs -/

/-- Dijkstra works on all graphs with the vertices of `g` and copies of its edges. -/
def WorksOnCopies (boost : BoostDijkstra BasicVertex BasicEdge)
    (g : PgrBaseGraph BasicVertex BasicEdge) : Prop :=
  ∀ h : AdjacencyList BasicVertex BasicEdge, h.directed = g.graph.directed →
    h.vertices = g.graph.vertices →
    (∀ e ∈ h.edges, item g.graph.directed e ∈ g.edgeMultiset) →
    ∀ a < h.numVertices, ∀ b < h.numVertices, (boost h a [b]).Documented h a [b]

/-- The graph has the same cheapest routes after calls that each save a cheapest edge. -/
theorem recovers_cheapest (hboost : WorksOnCopies boost g) :
    Ksp.Recovers boost g (fun h => CheapCopy g h ∧ h.Ready) AllSaveCheapest fun _ _ => True where
  stands _ hh := hh.1.standsFor
  ready _ hh := hh.2
  search h ops s t a b hh hs ht := by
    have hdisc := disconnects_disconnectAll hh.2.wellFormed ops
    have hcons := hdisc.consistent hh.2.consistent
    have hmap := hdisc.map.trans hh.1.map
    exact hboost _ (hdisc.directed.trans hh.1.directed) (hdisc.vertices.trans hh.1.vertices)
      (fun e he => hh.1.item_mem hh.2 ops he) a (hcons.lt (hmap ▸ hs)) b (hcons.lt (hmap ▸ ht))
  restore _ _ hh hops := hh.1.restoreAll hh.2 hops
  edge _ _ _ _ _ _ _ _ := trivial

/-- The steps of a graph that is read from a table with integer costs. -/
theorem step_integral {directed : Bool} {edges : List EdgeT}
    (hint : ∀ e ∈ edges, (∃ z : ℤ, e.cost = z) ∧ ∃ z : ℤ, e.reverseCost = z) {i id j : Int} {c : ℚ}
    (hstep : (ofTable directed edges : PgrBaseGraph BasicVertex BasicEdge).Step i id j c) :
    ∃ z : ℤ, c = z := by
  obtain ⟨u, v, _, _, hmem⟩ := hstep
  obtain ⟨e, he, hitem⟩ := mem_edgeMultiset.mp hmem
  have hcost : e.bundle.cost = c := (Prod.mk.inj (Prod.mk.inj hitem).2).2
  have hrow : (_, _, _, TEdge.cost e.bundle) ∈
      (ofTable directed edges : PgrBaseGraph BasicVertex BasicEdge).idEdges :=
    List.mem_map_of_mem he
  rw [ofTable_idEdges] at hrow
  obtain ⟨row, hrow', hin⟩ := List.mem_flatMap.mp hrow
  obtain ⟨hforth, hback⟩ := hint row hrow'
  have hcases : TEdge.cost e.bundle = row.cost ∨ TEdge.cost e.bundle = row.reverseCost := by
    simp only [tableRows, List.mem_append] at hin
    obtain hin | hin := hin <;> split at hin <;>
      simp only [List.mem_singleton, List.not_mem_nil, Prod.mk.injEq] at hin
    · exact .inl hin.2.2.2
    · exact .inr hin.2.2.2
  rw [← hcost]
  obtain h | h := hcases
  · obtain ⟨z, hz⟩ := hforth
    exact ⟨z, h.trans hz⟩
  · obtain ⟨z, hz⟩ := hback
    exact ⟨z, h.trans hz⟩

/-- The function returns, for each pair in turn, the `k` shortest paths. -/
def ReturnsShortest (boost : BoostDijkstra BasicVertex BasicEdge)
    (g : PgrBaseGraph BasicVertex BasicEdge) (combinations : List (Int × List Int)) (k : Nat) :
    Prop :=
  ∃ N results h, (∀ n ≥ N, yen boost n g combinations k false = some (results.flatten, h)) ∧
    List.Forall₂ (fun pair L => KShortest g pair.1 pair.2 k L) (pairsOf combinations) results

/-- **The `K` shortest paths.** For any table with integer costs the `K` shortest paths are
    returned for every pair, whatever pairs come before, when every `disconnect_edge` of the
    cycles saves a cheapest of the edges between its vertices. -/
theorem yen_returnsShortest (boost : BoostDijkstra BasicVertex BasicEdge) (directed : Bool)
    (edges : List EdgeT)
    (hint : ∀ e ∈ edges, (∃ z : ℤ, e.cost = z) ∧ ∃ z : ℤ, e.reverseCost = z)
    (hboost : WorksOnCopies boost (.ofTable directed edges))
    (combinations : List (Int × List Int)) (k : Nat) (hk : 1 ≤ k)
    (hclean : CleanPairs AllSaveCheapest boost k (pairsOf combinations)
      (.ofTable directed edges)) :
    ReturnsShortest boost (.ofTable directed edges) combinations k := by
  obtain ⟨N, results, h, hrun, hall⟩ := foldlM_pairs (recovers_cheapest hboost)
    (fun s t => Ksp.costsApart_of_integral fun i id j c => step_integral hint) hk
    (pairsOf combinations) [] ⟨.refl _, ofTable_ready directed edges⟩ hclean
  refine ⟨N, results, h, fun n hn => ?_, hall⟩
  rw [yen_eq, hrun n hn]
  rfl

/-! ## Two parallel edges -/

/-- A search that goes by the labels works on the copies of the graph of every table. -/
theorem searchPaths_worksOnCopies (directed : Bool) (es : List EdgeT) :
    WorksOnCopies searchPaths (.ofTable directed es) := by
  intro h _ _ hitems a _ b _
  exact searchPaths_documented (fun e he => ofTable_item_nonneg (hitems e he)) a [b]

/-- Two parallel edges, the cheaper one first. -/
def cheaperFirst : List EdgeT := [⟨1, 1, 2, 1, -1⟩, ⟨2, 1, 2, 2, -1⟩]

/-- Two parallel edges, the cheaper one last. -/
def cheaperLast : List EdgeT := [⟨1, 1, 2, 2, -1⟩, ⟨2, 1, 2, 1, -1⟩]

theorem twoCostRows_integral {edges : List EdgeT} (hedges : edges = cheaperFirst ∨
    edges = cheaperLast) :
    ∀ e ∈ edges, (∃ z : ℤ, e.cost = z) ∧ ∃ z : ℤ, e.reverseCost = z := by
  intro e he
  have hcosts : (e.cost = 1 ∨ e.cost = 2) ∧ e.reverseCost = -1 := by
    revert e
    obtain rfl | rfl := hedges <;> decide +kernel
  refine ⟨?_, -1, by rw [hcosts.2]; rfl⟩
  obtain h | h := hcosts.1
  · exact ⟨1, by rw [h]; rfl⟩
  · exact ⟨2, by rw [h]; rfl⟩

/-- The edge that costs more is lost for the first pair, and nothing else happens. -/
theorem yen_returnsShortest_cheaperFirst :
    ReturnsShortest searchPaths (.ofTable false cheaperFirst) [(1, [2]), (2, [1])] 2 := by
  refine yen_returnsShortest searchPaths false cheaperFirst (twoCostRows_integral (.inl rfl))
    (searchPaths_worksOnCopies false _) _ 2 (by decide) ?_
  have hfirst : ∀ r ∈ Ksp.firstSolution searchPaths .noop 2
      (.ofTable false cheaperFirst) 1 (), r.1 = false →
      HoldsFor (Ksp.round searchPaths .noop 2 2) (fun st => st.resultSet.length < 2 →
        Ksp.CleanCycle AllSaveCheapest searchPaths .noop 2
          (List.range st.currResultPath.path.length) st) 1 r.2 := by
    decide +kernel
  have hsecond : ∃ r ∈ Ksp.yen searchPaths 1 (.ofTable false cheaperFirst) 1 2 2 false,
      ∀ r' ∈ Ksp.firstSolution searchPaths .noop 1 r.2 2 (), r'.1 = false →
        HoldsFor (Ksp.round searchPaths .noop 1 2) (fun st => st.resultSet.length < 2 →
          Ksp.CleanCycle AllSaveCheapest searchPaths .noop 1
            (List.range st.currResultPath.path.length) st) 1 r'.2 := by
    decide +kernel
  refine ⟨fun _ _ _ => .of_holdsFor hfirst,
    fun n L h hrun => ⟨fun _ _ _ => ?_, fun _ _ _ _ => trivial⟩⟩
  obtain ⟨r, hr, hclean⟩ := hsecond
  have hsame := (Ksp.yen_mono hr (le_max_left 1 n)).symm.trans
    (Ksp.yen_mono hrun (le_max_right 1 n))
  obtain rfl := Option.some.inj hsame
  exact .of_holdsFor hclean

/-- The search from 1 to 2 loses the cheaper of two parallel edges, and the one from 2 to 1 returns
    the other edge. -/
theorem yen_not_returnsShortest :
    ¬ ∀ (boost : BoostDijkstra BasicVertex BasicEdge) (directed : Bool) (edges : List EdgeT),
        (∀ e ∈ edges, (∃ z : ℤ, e.cost = z) ∧ ∃ z : ℤ, e.reverseCost = z) →
        WorksOnCopies boost (.ofTable directed edges) →
        ∀ combinations k, 1 ≤ k →
          ReturnsShortest boost (.ofTable directed edges) combinations k := by
  intro hall
  obtain ⟨N, results, h, hrun, hresults⟩ := hall searchPaths false cheaperLast
    (twoCostRows_integral (.inr rfl)) (searchPaths_worksOnCopies false _) [(1, [2]), (2, [1])] 2
    (by decide)
  -- The run, in which the path from 2 to 1 uses the edge of cost 2.
  have hcheck : ∃ r ∈ yen searchPaths 1 (.ofTable false cheaperLast) [(1, [2]), (2, [1])] 2
      false, ∃ p ∈ r.1, p.startId = 2 ∧ ∃ x ∈ p.path[0]?, x.node = 2 ∧ x.cost = 2 ∧
        ∃ y ∈ p.path[1]?, y.node = 1 := by
    decide +kernel
  obtain ⟨r, hr, p, hp, hstart, x, hx, hxnode, hxcost, y, hy, hynode⟩ := hcheck
  have hrun' := hrun (max N 1) (le_max_left N 1)
  rw [yen_eq] at hrun'
  rw [Option.mem_def, yen_eq] at hr
  have hsame := (foldlM_pairs_mono _ hr (le_max_right N 1)).symm.trans hrun'
  obtain rfl := Option.some.inj hsame
  obtain _ | ⟨hfirst, _ | ⟨hsecond, _ | _⟩⟩ := hresults
  rw [List.mem_flatten] at hp
  obtain ⟨L, hL, hp⟩ := hp
  obtain rfl | hL := List.mem_cons.mp hL
  · have hone := (hfirst.route p hp).startId
    rw [hstart] at hone
    exact absurd hone (by decide)
  · obtain rfl := List.mem_singleton.mp hL
    -- The other edge between them costs 1 that way.
    have hstep : (ofTable false cheaperLast : PgrBaseGraph BasicVertex BasicEdge).Step
        x.node 2 y.node 1 := by
      rw [hxnode, hynode]
      exact ⟨1, 0, by decide +kernel, by decide +kernel, by decide +kernel⟩
    have hle := hsecond.edges p hp 0 x y hx hy 2 1 hstep
    rw [hxcost] at hle
    exact absurd hle (by decide +kernel)

end Algorithms

end PgRouting
