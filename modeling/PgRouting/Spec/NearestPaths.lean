import PgRouting.Spec.NearestPairs
import PgRouting.Spec.SearchVisits

/-!
# The nearest paths

The paths that `post_process` leaves are to join the `n` nearest of the pairs that are asked
for, or for every source its `n` nearest targets. They do unless a source among its own
targets has cost one of them its place, or `pgr_dijkstraNearCost` has cut off the paths after
sorting them by a total cost that was never set.

## Key results

- `postProcess_spec`: what `post_process` makes of the paths
- `dijkstraNear_nearest_iff`: when the paths that are left join the nearest pairs
-/

namespace PgRouting

namespace DijkstraNear

variable {V E : Type} [TVertex V] [TEdge E]
variable {boost : BoostDijkstraVisits V E} {g : PgrBaseGraph V E} {n : Nat}
variable {combinations : List (Int × List Int)}

/-! ## What `post_process` leaves -/

/-- The ends of a path in the direction of the search. -/
def searchedPair (normal : Bool) (p : Path) : Int × Int :=
  if normal then (p.startId, p.endId) else (p.endId, p.startId)

/-- What `post_process` does to one path. -/
def finishPath (onlyCost normal : Bool) (p : Path) : Path :=
  let p := if !normal then p.reverse else p
  if !onlyCost then p.recalculateAggCost else p

theorem searchedPair_finishPath (onlyCost normal : Bool) (p : Path) :
    searchedPair normal (finishPath onlyCost normal p) = (p.startId, p.endId) := by
  have hrev : ∀ p : Path, p.reverse.startId = p.endId ∧ p.reverse.endId = p.startId := by
    intro p
    simp only [Path.reverse]
    split <;> exact ⟨rfl, rfl⟩
  cases normal <;> cases onlyCost <;>
    simp [searchedPair, finishPath, Path.recalculateAggCost, hrev]

omit [TEdge E] in
/-- A path that has been read back keeps the sum of its costs, and its total cost is that sum
    or, when it has not been recalculated, what was read from memory too much. -/
theorem finishPath_cost {unset : Nat → Nat → ℚ} {onlyCost : Bool} {a b : Nat} {d : ℚ} {p : Path}
    (h : ReadBack g unset onlyCost a b d p) (normal : Bool) :
    ((finishPath onlyCost normal p).path.map (·.cost)).sum = d ∧
    (finishPath onlyCost normal p).totCost = if onlyCost then unset a b + d else d := by
  have hshape : p.path.length ≤ 1 ∨ ∃ rows last, p.path = rows ++ [last] ∧ last.cost = 0 := by
    cases honly : onlyCost with
    | true => exact .inl (le_of_eq (h.single honly))
    | false =>
      obtain ⟨rows, aggCost, heq⟩ := h.last honly
      exact .inr ⟨rows, _, heq, rfl⟩
  have hturned : (((if !normal then p.reverse else p).path.map (·.cost)).sum = d) ∧
      (if !normal then p.reverse else p).totCost = unset a b + d := by
    cases normal with
    | true => exact ⟨h.cost, h.totCost⟩
    | false =>
      refine ⟨(Path.reverse_sum p hshape).trans h.cost, ?_⟩
      have htot : p.reverse.totCost = p.totCost := by
        simp only [Path.reverse]
        split <;> rfl
      exact htot.trans h.totCost
  rw [finishPath]
  generalize (if !normal then p.reverse else p) = q at hturned
  cases onlyCost with
  | true => exact hturned
  | false =>
    refine ⟨?_, ?_⟩
    · show ((Path.recalculateLoop 0 q.path).1.map (·.cost)).sum = d
      rw [Path.recalculateLoop_costs]
      exact hturned.1
    · show (Path.recalculateLoop 0 q.path).2 = d
      rw [Path.recalculateLoop_total, zero_add]
      exact hturned.1

omit [TVertex V] [TEdge E] in
/-- The sorts of `post_process` are of the finished paths. -/
theorem postProcess_eq (paths : List Path) (onlyCost normal global : Bool) (n : Nat) :
    postProcess paths onlyCost normal n global =
      let byIds := (((paths.filter (·.path.length ≠ 0)).map (finishPath onlyCost normal)).mergeSort
        fun e₁ e₂ => decide (e₁.endId ≤ e₂.endId)).mergeSort
          fun e₁ e₂ => decide (e₁.startId ≤ e₂.startId)
      let sorted := byIds.mergeSort fun e₁ e₂ => decide (e₁.totCost ≤ e₂.totCost)
      if n ≠ sizeMax then if global ∧ n < sorted.length then sorted.take n else sorted
      else byIds := by
  have hkept : (paths.filter (·.path.length ≠ 0)).map (finishPath onlyCost normal) =
      if !onlyCost then ((if !normal then
        (paths.filter (·.path.length ≠ 0)).map Path.reverse
        else paths.filter (·.path.length ≠ 0)).map Path.recalculateAggCost)
      else (if !normal then (paths.filter (·.path.length ≠ 0)).map Path.reverse
        else paths.filter (·.path.length ≠ 0)) := by
    cases normal with
    | true =>
      cases onlyCost with
      | true => exact List.map_id _
      | false => rfl
    | false =>
      cases onlyCost with
      | true => rfl
      | false =>
        show _ = ((paths.filter (·.path.length ≠ 0)).map Path.reverse).map Path.recalculateAggCost
        rw [List.map_map]
        rfl
  simp only [postProcess, ← hkept]

omit [TVertex V] [TEdge E] in
/-- `post_process` finishes the paths that have rows and sorts them; with the global flag it keeps
    the first `n`. -/
theorem postProcess_spec (paths : List Path) (onlyCost normal global : Bool) (hmax : n < sizeMax) :
    ∃ sorted : List Path,
      sorted.Perm ((paths.filter (·.path.length ≠ 0)).map (finishPath onlyCost normal)) ∧
      sorted.Pairwise (fun p q => p.totCost ≤ q.totCost) ∧
      postProcess paths onlyCost normal n global = if global then sorted.take n else sorted := by
  let kept := (paths.filter (·.path.length ≠ 0)).map (finishPath onlyCost normal)
  let byIds := (kept.mergeSort fun e₁ e₂ => e₁.endId ≤ e₂.endId).mergeSort
    fun e₁ e₂ => e₁.startId ≤ e₂.startId
  let sorted := byIds.mergeSort fun e₁ e₂ => e₁.totCost ≤ e₂.totCost
  have hperm : sorted.Perm kept :=
    (List.mergeSort_perm _ _).trans ((List.mergeSort_perm _ _).trans (List.mergeSort_perm _ _))
  have hsort : sorted.Pairwise fun p q => p.totCost ≤ q.totCost :=
    pairwise_mergeSort_key Path.totCost byIds
  refine ⟨sorted, hperm, hsort, ?_⟩
  have hrun : postProcess paths onlyCost normal n global =
      if global ∧ n < sorted.length then sorted.take n else sorted := by
    rw [postProcess_eq]
    exact if_pos (Nat.ne_of_lt hmax)
  rw [hrun]
  cases global with
  | false => simp
  | true =>
    by_cases hlong : n < sorted.length
    · simp [hlong]
    · rw [if_neg (by simp [hlong]), if_pos rfl, List.take_of_length_le (Nat.le_of_not_lt hlong)]

/-! ## The nearest paths -/

/-- The paths are shortest paths of the nearest pairs: of the `n` nearest of all when `global`
    is set, and else of the `n` nearest of each source. -/
structure NearestPaths (g : PgrBaseGraph V E) (combinations : List (Int × List Int)) (n : Nat)
    (normal global : Bool) (paths : List Path) : Prop where
  shortest : ∀ p ∈ paths, IsDist g.IdArc (searchedPair normal p).1 (searchedPair normal p).2
    (p.path.map (·.cost)).sum
  overall : global = true →
    Nearest n (Asked g combinations) (pairCost g) (paths.map (searchedPair normal))
  perSource : global = false → ∀ s, Nearest n (fun x => Asked g combinations x ∧ x.1 = s)
    (pairCost g) ((paths.map (searchedPair normal)).filter (·.1 = s))

/-- What is left of the paths of all searches, before the first `n` are kept. -/
structure Finished (boost : BoostDijkstraVisits V E) (g : PgrBaseGraph V E)
    (combinations : List (Int × List Int)) (n : Nat) (unset : Nat → Nat → ℚ)
    (onlyCost normal : Bool) (sorted : List Path) : Prop where
  pairs : (sorted.map (searchedPair normal)).Perm (foundPairs boost g n combinations)
  ordered : sorted.Pairwise fun p q => p.totCost ≤ q.totCost
  shortest : ∀ p ∈ sorted, IsDist g.IdArc (searchedPair normal p).1 (searchedPair normal p).2
    (p.path.map (·.cost)).sum
  totCost : ∀ p ∈ sorted, ∃ a b, g.verticesMap (searchedPair normal p).1 = some a ∧
    g.verticesMap (searchedPair normal p).2 = some b ∧
    p.totCost = if onlyCost then unset a b + pairCost g (searchedPair normal p)
      else pairCost g (searchedPair normal p)

section Documented

variable (hg : g.Consistent) (hn : 1 ≤ n)
variable (hboost : ∀ a < g.graph.numVertices, (boost g.graph a).Documented g.graph a)
include hg hn hboost

theorem finished_spec (hmax : n < sizeMax) (combinations : List (Int × List Int))
    (unset : Nat → Nat → ℚ) (onlyCost normal global : Bool) :
    ∃ paths sorted, dijkstra boost g unset combinations onlyCost n = some paths ∧
      Finished boost g combinations n unset onlyCost normal sorted ∧
      postProcess paths onlyCost normal n global = if global then sorted.take n else sorted := by
  obtain ⟨paths, hrun, hpairs, hread⟩ := dijkstra_spec hg hboost hn unset onlyCost combinations
  obtain ⟨sorted, hperm, hsort, hpost⟩ := postProcess_spec paths onlyCost normal global hmax
  have hfrom : ∀ p ∈ sorted, ∃ q, searchedPair normal p = (q.startId, q.endId) ∧
      p = finishPath onlyCost normal q ∧ ShortestRead g unset onlyCost q := by
    intro p hp
    obtain ⟨q, hq, rfl⟩ := List.mem_map.mp (hperm.mem_iff.mp hp)
    obtain ⟨hq, hne⟩ := List.mem_filter.mp hq
    exact ⟨q, searchedPair_finishPath onlyCost normal q, rfl, hread q hq (of_decide_eq_true hne)⟩
  refine ⟨paths, sorted, hrun, ⟨?_, hsort, fun p hp => ?_, fun p hp => ?_⟩, hpost⟩
  · have hsame : ((paths.filter (·.path.length ≠ 0)).map (finishPath onlyCost normal)).map
        (searchedPair normal) =
        (paths.filter (·.path.length ≠ 0)).map fun p => (p.startId, p.endId) := by
      rw [List.map_map]
      apply List.map_congr_left
      intro p _
      exact searchedPair_finishPath onlyCost normal p
    apply (hperm.map (searchedPair normal)).trans
    rw [hsame]
    exact hpairs
  · obtain ⟨q, hpair, rfl, a, b, d, _, _, hq, hdist⟩ := hfrom p hp
    rw [hpair, (finishPath_cost hq normal).1]
    exact hdist
  · obtain ⟨q, hpair, rfl, a, b, d, ha, hb, hq, hdist⟩ := hfrom p hp
    rw [hpair, (finishPath_cost hq normal).2]
    refine ⟨a, b, ha, hb, ?_⟩
    rw [pairCost, hdist.distance_eq]

/-- Without the global flag nothing is lost when no source that is among its own targets has `n`
    targets in reach. -/
theorem perSource_iff (hmap : IsMap combinations) {pairs : List (Int × Int)}
    (hpairs : pairs.Perm (foundPairs boost g n combinations)) :
    (∀ s, Nearest n (fun x => Asked g combinations x ∧ x.1 = s) (pairCost g)
      (pairs.filter (·.1 = s))) ↔
      ∀ c ∈ combinations, c.1 ∈ c.2 → (reached g c).length < n := by
  constructor
  · intro h c hc hself
    have hnear := nearTargets_nearest hg hboost hn c
    have hfound := foundPairs_source hg hn hboost hmap hc
    have hcap : cap n c < n := by
      rw [cap, if_pos hself]
      omega
    -- Fewer than `n` pairs are the nearest ones only when they are all.
    have hall := (hfound.iff_all hcap).mp ((h c.1).perm (hpairs.filter _))
    have hsub : reached g c ⊆ nearTargets boost g n c := by
      intro t ht
      have hmem := hall (c.1, t) ⟨⟨c, hc, rfl, mem_reached.mp ht⟩, rfl⟩
      obtain ⟨c', hc', hs, ht'⟩ := mem_foundPairs.mp (List.mem_filter.mp hmem).1
      obtain rfl := hmap.eq_of_fst hc hc' hs
      exact ht'
    have hlen := ((hmap.reached_nodup g hc).subperm hsub).length_le
    have hle := hnear.length
    omega
  · intro h s
    apply Nearest.perm _ (hpairs.symm.filter _)
    by_cases hs : ∃ c ∈ combinations, c.1 = s
    · obtain ⟨c, hc, rfl⟩ := hs
      have hfound := foundPairs_source hg hn hboost hmap hc
      by_cases hself : c.1 ∈ c.2
      · have hcap : cap n c < n := by
          rw [cap, if_pos hself]
          omega
        apply (hfound.iff_all hcap).mpr
        intro x hx
        by_contra hnot
        -- A lost pair would be the `n`-th in reach.
        obtain ⟨⟨c', hc', hs', ht⟩, hx'⟩ := hx
        obtain rfl := hmap.eq_of_fst hc hc' (hx'.symm.trans hs')
        have hnear := nearTargets_nearest hg hboost hn c
        have hnt : x.2 ∉ nearTargets boost g n c := by
          intro hmem
          apply hnot
          exact List.mem_filter.mpr ⟨mem_foundPairs.mpr ⟨c, hc, hs', hmem⟩, by simpa using hx'⟩
        have hsub : x.2 :: nearTargets boost g n c ⊆ reached g c := by
          intro u hu
          obtain rfl | hu := List.mem_cons.mp hu
          · exact mem_reached.mpr ht
          · exact mem_reached.mpr (hnear.sound u hu)
        have hlen := ((List.nodup_cons.mpr ⟨hnt, hnear.nodup⟩).subperm hsub).length_le
        rw [List.length_cons, hnear.length_eq ht hnt, cap, if_pos hself] at hlen
        have hlt := h c hc hself
        omega
      · -- A source that is no target of its own loses no place.
        rw [cap, if_neg hself] at hfound
        exact hfound
    · -- Nothing is asked for other vertices.
      have hnone : ∀ x, ¬ (Asked g combinations x ∧ x.1 = s) := by
        intro x hx
        obtain ⟨⟨c, hc, hxs, _⟩, hx⟩ := hx
        exact hs ⟨c, hc, hxs.symm.trans hx⟩
      have hnil : (foundPairs boost g n combinations).filter (·.1 = s) = [] := by
        rw [List.filter_eq_nil_iff]
        intro x hx hxs
        exact hnone x ⟨asked_of_mem_foundPairs hg hn hboost hx, of_decide_eq_true hxs⟩
      rw [hnil]
      exact ⟨List.nodup_nil, by simp, by simp, fun _ x hx => absurd hx (hnone x),
        fun x hx => absurd hx (hnone x)⟩

/-- When the total costs are the distances the first paths are the nearest if and only if every
    loss is outdone. -/
theorem overall_iff (hmap : IsMap combinations) {unset : Nat → Nat → ℚ} {onlyCost normal : Bool}
    {sorted : List Path}
    (hfin : Finished boost g combinations n unset onlyCost normal sorted)
    (hcost : ∀ p ∈ sorted, p.totCost = pairCost g (searchedPair normal p)) :
    Nearest n (Asked g combinations) (pairCost g) ((sorted.map (searchedPair normal)).take n) ↔
      Outdone g combinations n := by
  have hnodup := hfin.pairs.nodup_iff.mpr (foundPairs_nodup hg hn hboost hmap)
  have hsound : ∀ x ∈ sorted.map (searchedPair normal), Asked g combinations x := fun x hx =>
    asked_of_mem_foundPairs hg hn hboost (hfin.pairs.mem_iff.mp hx)
  have hsort : (sorted.map (searchedPair normal)).Pairwise
      fun x y => pairCost g x ≤ pairCost g y := by
    rw [List.pairwise_map]
    apply hfin.ordered.imp_of_mem
    intro p q hp hq hle
    rwa [← hcost p hp, ← hcost q hq]
  rw [nearest_take_iff hnodup hsound hsort, ← count_iff hg hn hboost hmap]
  simp only [hfin.pairs.mem_iff, (hfin.pairs.filter _).length_eq]

/-- What was read from memory can put the pairs in any order. -/
theorem exists_unset (hmap : IsMap combinations) {l : List (Int × Int)}
    (hl : l.Perm (foundPairs boost g n combinations)) : ∃ unset : Nat → Nat → ℚ,
      ∀ normal sorted, Finished boost g combinations n unset true normal sorted →
        sorted.map (searchedPair normal) = l := by
  have hnodup := hl.nodup_iff.mpr (foundPairs_nodup hg hn hboost hmap)
  refine ⟨fun a b => (l.idxOf (g.vertexId a, g.vertexId b) : ℚ) -
    pairCost g (g.vertexId a, g.vertexId b), fun normal sorted hfin => ?_⟩
  -- The total cost of a path is the place of its pair in the list.
  have htot : ∀ p ∈ sorted, p.totCost = (l.idxOf (searchedPair normal p) : ℚ) := by
    intro p hp
    obtain ⟨a, b, ha, hb, htot⟩ := hfin.totCost p hp
    rw [htot, if_pos rfl, hg.vertexId_eq ha, hg.vertexId_eq hb]
    exact sub_add_cancel _ _
  have hpairs : (sorted.map (searchedPair normal)).Pairwise
      fun x y => l.idxOf x ≤ l.idxOf y := by
    rw [List.pairwise_map]
    apply hfin.ordered.imp_of_mem
    intro p q hp hq hle
    rw [htot p hp, htot q hq] at hle
    exact_mod_cast hle
  have hplaces : l.Pairwise fun x y => l.idxOf x ≤ l.idxOf y := by
    rw [List.pairwise_iff_getElem]
    intro i j hi hj hij
    rw [hnodup.idxOf_getElem i hi, hnodup.idxOf_getElem j hj]
    exact hij.le
  apply List.Perm.eq_of_pairwise _ hpairs hplaces (hfin.pairs.trans hl.symm)
  intro x y hx hy hxy hyx
  have hidx := le_antisymm hxy hyx
  exact (List.idxOf_inj ((hfin.pairs.trans hl.symm).mem_iff.mp hx)).mp hidx

end Documented

/-- No target is lost, and none is exchanged for one that is farther. -/
def NothingLost (g : PgrBaseGraph V E) (combinations : List (Int × List Int)) (n : Nat)
    (onlyCost global : Bool) : Prop :=
  (global = false → ∀ c ∈ combinations, c.1 ∈ c.2 → (reached g c).length < n) ∧
  (global = true → Outdone g combinations n ∧ (onlyCost = true → AnyOrder g combinations n))

/-- **The nearest paths.** On a graph read from an edges table the paths that `post_process`
    leaves are shortest paths of the `n` nearest pairs, whatever the unset total costs were, if
    and only if nothing is lost. -/
theorem dijkstraNear_nearest_iff (boost : BoostDijkstraVisits BasicVertex BasicEdge)
    (directed : Bool) (es : List EdgeT) (combinations : List (Int × List Int)) (n : Nat)
    (onlyCost normal global : Bool)
    (g : PgrBaseGraph BasicVertex BasicEdge) (hg : g = .ofTable directed es)
    (hboost : ∀ a < g.graph.numVertices, (boost g.graph a).Documented g.graph a)
    (hmap : IsMap combinations) (hn : 1 ≤ n) (hmax : n < sizeMax) :
    (∀ unset, ∃ paths, dijkstra boost g unset combinations onlyCost n = some paths ∧
      NearestPaths g combinations n normal global
        (postProcess paths onlyCost normal n global)) ↔
      NothingLost g combinations n onlyCost global := by
  have hg : g.Consistent := hg ▸ PgrBaseGraph.ofTable_consistent directed es
  constructor
  · intro h
    -- The runs, with what they leave.
    have hrun : ∀ unset, ∃ sorted, Finished boost g combinations n unset onlyCost normal sorted ∧
        NearestPaths g combinations n normal global
          (if global then sorted.take n else sorted) := by
      intro unset
      obtain ⟨paths, sorted, hdij, hfin, hpost⟩ :=
        finished_spec hg hn hboost hmax combinations unset onlyCost normal global
      obtain ⟨paths', hdij', hnear⟩ := h unset
      obtain rfl : paths = paths' := Option.some.inj (hdij.symm.trans hdij')
      exact ⟨sorted, hfin, hpost ▸ hnear⟩
    obtain ⟨sorted, hfin, hnear⟩ := hrun fun _ _ => 0
    refine ⟨fun hglobal => ?_, fun hglobal => ⟨?_, fun honly => ?_⟩⟩
    · have hper := hnear.perSource hglobal
      rw [hglobal, if_neg (by simp)] at hper
      exact (perSource_iff hg hn hboost hmap hfin.pairs).mp hper
    · have hover := hnear.overall hglobal
      rw [hglobal, if_pos rfl, List.map_take] at hover
      apply (overall_iff hg hn hboost hmap hfin fun p hp => ?_).mp hover
      obtain ⟨a, b, _, _, htot⟩ := hfin.totCost p hp
      rw [htot, zero_add, ite_self]
    · -- Rows with total costs only: every order of the pairs comes from some unset totals.
      have hany : ∀ l : List (Int × Int), l.Perm (foundPairs boost g n combinations) →
          Nearest n (Asked g combinations) (pairCost g) (l.take n) := by
        intro l hl
        obtain ⟨unset, hunset⟩ := exists_unset hg hn hboost hmap hl
        obtain ⟨sorted, hfin, hnear⟩ := hrun unset
        have hover := hnear.overall hglobal
        rw [hglobal, if_pos rfl, List.map_take] at hover
        rw [honly] at hfin
        rwa [hunset normal sorted hfin] at hover
      have hiff := nearest_take_any_iff (pairCost g) (P := Asked g combinations) hn
        (foundPairs_nodup hg hn hboost hmap) fun x hx => asked_of_mem_foundPairs hg hn hboost hx
      exact (anyOrder_iff hg hn hboost hmap).mp (hiff.mp hany).2
  · -- Nothing is lost, so the part that is kept is cheapest.
    intro h unset
    obtain ⟨paths, sorted, hdij, hfin, hpost⟩ :=
      finished_spec hg hn hboost hmax combinations unset onlyCost normal global
    refine ⟨paths, hdij, ?_⟩
    rw [hpost]
    constructor
    case shortest =>
      intro p hp
      apply hfin.shortest
      split at hp
      · exact List.mem_of_mem_take hp
      · exact hp
    case overall =>
      intro hglobal
      obtain ⟨hout, hany⟩ := h.2 hglobal
      rw [hglobal, if_pos rfl, List.map_take]
      cases honly : onlyCost with
      | false =>
        apply (overall_iff hg hn hboost hmap hfin fun p hp => ?_).mpr hout
        obtain ⟨a, b, _, _, htot⟩ := hfin.totCost p hp
        rwa [honly] at htot
      | true =>
        have hiff := nearest_take_any_iff (pairCost g) (P := Asked g combinations) hn
          (foundPairs_nodup hg hn hboost hmap) fun x hx => asked_of_mem_foundPairs hg hn hboost hx
        apply hiff.mpr ⟨(count_iff hg hn hboost hmap).mpr hout, ?_⟩ _ hfin.pairs
        exact (anyOrder_iff hg hn hboost hmap).mpr (hany honly)
    case perSource =>
      intro hglobal
      rw [hglobal, if_neg (by simp)]
      exact (perSource_iff hg hn hboost hmap hfin.pairs).mpr (h.1 hglobal)

/-! ## Three of four pairs -/

/-- A table in which two rows lead from 1 to 2 and two ways to 3. -/
def twoWays : PgrBaseGraph BasicVertex BasicEdge :=
  .ofTable true
    [⟨1, 1, 2, 1, 1⟩, ⟨2, 2, 3, 4, -1⟩, ⟨3, 1, 3, 2, -1⟩, ⟨4, 2, 4, 1, 3⟩, ⟨5, 1, 2, 2, -1⟩]

/-- Of the four pairs the three nearest are left. The source 1, which is among its own targets,
    has fewer than that. -/
theorem dijkstraNear_nearest_iff_twoWays : ∃ paths,
    dijkstra searchVisits twoWays (fun _ _ => 5) [(1, [1, 3]), (2, [3, 4]), (4, [2])] false 3 =
      some paths ∧
    NearestPaths twoWays [(1, [1, 3]), (2, [3, 4]), (4, [2])] 3 true true
      (postProcess paths false true 3 true) := by
  apply (dijkstraNear_nearest_iff searchVisits true _ [(1, [1, 3]), (2, [3, 4]), (4, [2])] 3 false
    true true twoWays rfl
    (fun a _ => searchVisits_documented (PgrBaseGraph.ofTable_cost_nonneg true _) a)
    ⟨by decide, by decide⟩ (by decide) (by decide)).mpr
  refine ⟨by simp, fun _ => ⟨fun c hc hself hmany => ?_, by simp⟩⟩
  have hsources : ∀ c ∈ [((1 : Int), [(1 : Int), 3]), (2, [3, 4]), (4, [2])],
      c.1 ∈ c.2 → c.2.length < 3 := by decide
  have hlen : (reached twoWays c).length ≤ c.2.length := List.length_filter_le _ _
  have hfew := hsources c hc hself
  omega

/-- The graph of a table with one row, which leads from 1 to 2. -/
def oneArc : PgrBaseGraph BasicVertex BasicEdge := .ofTable true [⟨7, 1, 2, 1, -1⟩]

theorem oneArc_arc {u v : Nat} {w : ℚ} : oneArc.graph.Arc u v w ↔ u = 0 ∧ v = 1 ∧ w = 1 := by
  have hedges : oneArc.graph.edges = [⟨0, 1, ⟨0, 0, 7, 1⟩⟩] := by decide +kernel
  have hdirected : oneArc.graph.directed = true := by decide +kernel
  rw [AdjacencyList.arc_iff, hedges, hdirected]
  simp only [List.mem_singleton, exists_eq_left, Bool.true_eq_false, false_and, or_false]
  constructor
  · intro h
    exact ⟨h.2.1.symm, h.2.2.symm, h.1.symm⟩
  · intro h
    exact ⟨h.2.2.symm, h.1.symm, h.2.1.symm⟩

theorem oneArc_walk {u v : Nat} {c : ℚ} (h : Walk oneArc.graph.Arc u v c) :
    (v = u ∧ c = 0) ∨ (u = 0 ∧ v = 1 ∧ c = 1) := by
  induction h with
  | nil u => exact .inl ⟨rfl, rfl⟩
  | cons arc _ ih =>
    obtain ⟨rfl, rfl, rfl⟩ := oneArc_arc.mp arc
    obtain ⟨rfl, rfl⟩ | ⟨h, _⟩ := ih
    · exact .inr ⟨rfl, rfl, add_zero 1⟩
    · cases h

/-- The source is among its own targets. The search stops when it has examined the source, and
    the only other target gets no path. -/
theorem dijkstraNear_not_nearest :
    (∀ a, (searchVisits oneArc.graph a).Documented oneArc.graph a) ∧
    IsDist oneArc.IdArc 1 2 1 ∧
    ∃ paths, dijkstra searchVisits oneArc (fun _ _ => 0) [(1, [1, 2])] false 1 = some paths ∧
      postProcess paths false true 1 true = [] ∧
      ¬ NearestPaths oneArc [(1, [1, 2])] 1 true true [] := by
  have hg : oneArc.Consistent := PgrBaseGraph.ofTable_consistent true _
  have hboost : ∀ a, (searchVisits oneArc.graph a).Documented oneArc.graph a :=
    searchVisits_documented (PgrBaseGraph.ofTable_cost_nonneg true _)
  have hone : oneArc.verticesMap 1 = some 0 := by decide +kernel
  have htwo : oneArc.verticesMap 2 = some 1 := by decide +kernel
  have hdist : IsDist oneArc.IdArc 1 2 1 := by
    apply (hg.isDist_idArc hone htwo).mpr
    refine ⟨.single (oneArc_arc.mpr ⟨rfl, rfl, rfl⟩), fun c hc => ?_⟩
    obtain ⟨h, _⟩ | ⟨_, _, rfl⟩ := oneArc_walk hc
    · cases h
    · exact le_refl _
  -- The search finds nothing.
  have hfound : foundPairs searchVisits oneArc 1 [(1, [1, 2])] = [] := by decide +kernel
  obtain ⟨paths, sorted, hpaths, hfin, hpost⟩ := finished_spec hg (le_refl 1)
    (fun a _ => hboost a) (by decide) [(1, [1, 2])] (fun _ _ => 0) false true true
  have hnil : sorted = [] := by
    have hpairs := hfin.pairs
    rw [hfound] at hpairs
    simpa using hpairs.eq_nil
  rw [hnil, if_pos rfl, List.take_nil] at hpost
  refine ⟨hboost, hdist, paths, hpaths, hpost, fun hnear => ?_⟩
  have hasked : Asked oneArc [(1, [1, 2])] (1, 2) :=
    ⟨_, List.mem_singleton.mpr rfl, rfl, by simp, by simp, hdist.reachable⟩
  have hmem := (hnear.overall rfl).all (by simp) (1, 2) hasked
  simp at hmem

end DijkstraNear

end PgRouting
