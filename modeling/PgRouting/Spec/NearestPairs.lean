import PgRouting.Spec.DijkstraNear
import Mathlib.Data.Finset.Max

/-!
# The pairs that the searches find

Every search finds the nearest targets of its source. A source that is among its own
targets takes the place of one of them, so the nearest `n` pairs are among those that the
searches find only when such a loss is outdone by the pairs of other sources.

## Key results

- `nearTargets_nearest`: what one search finds
- `count_iff`: when the pairs found include the nearest ones
- `anyOrder_iff`: when the order of the pairs found makes no difference
-/

namespace PgRouting

namespace DijkstraNear

variable {V E : Type} [TVertex V] [TEdge E]
variable {boost : BoostDijkstraVisits V E} {g : PgrBaseGraph V E} {n : Nat}

/-- `t` is a target of a source that can be reached from it. -/
def Target (g : PgrBaseGraph V E) (c : Int × List Int) (t : Int) : Prop :=
  t ∈ c.2 ∧ t ≠ c.1 ∧ Reachable g.IdArc c.1 t

/-- How many targets a search can find: the source takes the place of one when it is among its
    own targets. -/
def cap (n : Nat) (c : Int × List Int) : Nat := if c.1 ∈ c.2 then n - 1 else n

/-- One search finds the nearest targets. -/
theorem nearTargets_nearest (hg : g.Consistent)
    (hboost : ∀ a < g.graph.numVertices, (boost g.graph a).Documented g.graph a) (hn : 1 ≤ n)
    (c : Int × List Int) :
    Nearest (cap n c) (Target g c) (distance g.IdArc c.1) (nearTargets boost g n c) := by
  cases ha : g.verticesMap c.1 with
  | none =>
    -- A source that is not in the graph reaches nothing.
    have hnone : ∀ t, ¬ Target g c t := by
      intro t ht
      obtain ⟨w, hw⟩ := ht.2.2
      obtain ⟨⟨u, hu⟩, _⟩ := hg.walk_ends hw (Ne.symm ht.2.1)
      rw [ha] at hu
      cases hu
    have hnil : nearTargets boost g n c = [] := by simp [nearTargets, ha]
    rw [hnil]
    exact ⟨List.nodup_nil, by simp, by simp, fun _ t ht => absurd ht (hnone t),
      fun t ht => absurd ht (hnone t)⟩
  | some a =>
    -- Boost examines the source first and no vertex twice.
    have hdoc := hboost a (hg.lt ha)
    obtain ⟨rest, hexam⟩ : ∃ rest, (boost g.graph a).examined = a :: rest := by
      have hfirst := hdoc.first
      cases hcases : (boost g.graph a).examined with
      | nil =>
        rw [hcases] at hfirst
        cases hfirst
      | cons b rest =>
        rw [hcases] at hfirst
        exact ⟨rest, by rw [Option.some.inj hfirst]⟩
    have hnodup := hdoc.nodup
    rw [hexam] at hnodup
    have harest : a ∉ rest := (List.nodup_cons.mp hnodup).1
    let destinations := c.2.filterMap g.verticesMap
    have hself : a ∈ destinations ↔ c.1 ∈ c.2 := by
      rw [List.mem_filterMap]
      constructor
      · intro h
        obtain ⟨t, ht, hmap⟩ := h
        have heq : t = c.1 := (hg.vertexId_eq hmap).symm.trans (hg.vertexId_eq ha)
        exact heq ▸ ht
      · intro h
        exact ⟨c.1, h, ha⟩
    -- Behind the source the goals are found in the order in which they are examined.
    have hgoals : (foundGoals boost g.graph a destinations n).filter (· ≠ a) =
        (rest.filter (· ∈ destinations)).take (cap n c) := by
      have hkeep : ∀ k, ((rest.filter (· ∈ destinations)).take k).filter (· ≠ a) =
          (rest.filter (· ∈ destinations)).take k := by
        intro k
        rw [List.filter_eq_self]
        intro v hv
        have hmem : v ∈ rest := (List.mem_filter.mp (List.mem_of_mem_take hv)).1
        have hne : v ≠ a := fun h => harest (h ▸ hmem)
        simpa using hne
      obtain ⟨k, rfl⟩ : ∃ k, n = k + 1 := ⟨n - 1, by omega⟩
      by_cases hmem : a ∈ destinations
      · rw [foundGoals, hexam, List.filter_cons_of_pos (by simpa using hmem), List.take_succ_cons,
          List.filter_cons_of_neg (by simp), hkeep, cap, if_pos (hself.mp hmem), Nat.add_sub_cancel]
      · rw [foundGoals, hexam, List.filter_cons_of_neg (by simpa using hmem), hkeep, cap,
          if_neg fun h => hmem (hself.mpr h)]
    have hnear : nearTargets boost g n c =
        ((rest.filter (· ∈ destinations)).map g.vertexId).take (cap n c) := by
      simp only [nearTargets, ha]
      rw [hgoals, List.map_take]
    have hmap : ∀ v ∈ rest.filter (· ∈ destinations), ∃ t ∈ c.2, g.verticesMap t = some v := by
      intro v hv
      exact List.mem_filterMap.mp (of_decide_eq_true (List.mem_filter.mp hv).2)
    -- The three facts that `nearest_take` asks for: no repetition, the right elements, the right
    -- order.
    rw [hnear]
    apply nearest_take
    · -- Different vertices have different ids.
      apply List.Nodup.map_on _ ((List.nodup_cons.mp hnodup).2.filter _)
      intro u hu v hv heq
      obtain ⟨_, _, hu⟩ := hmap u hu
      obtain ⟨_, _, hv⟩ := hmap v hv
      exact hg.vertexId_inj (hg.lt hu) (hg.lt hv) heq
    · intro t
      rw [List.mem_map]
      constructor
      · intro h
        obtain ⟨v, hv, rfl⟩ := h
        obtain ⟨t, ht, hvt⟩ := hmap v hv
        have hrest := (List.mem_filter.mp hv).1
        rw [hg.vertexId_eq hvt]
        refine ⟨ht, fun heq => ?_, ?_⟩
        · have hav : a = v := Option.some.inj (ha.symm.trans (heq ▸ hvt))
          exact harest (hav ▸ hrest)
        · have hreach : v ∈ (boost g.graph a).examined := hexam ▸ List.mem_cons_of_mem a hrest
          obtain ⟨w, hw⟩ := (hdoc.reached v).mp hreach
          exact ⟨w, (hg.walk_idArc ha hvt).mpr hw⟩
      · intro h
        obtain ⟨ht, hne, w, hw⟩ := h
        obtain ⟨_, v, hv⟩ := hg.walk_ends hw (Ne.symm hne)
        have hexamined := (hdoc.reached v).mpr ⟨w, (hg.walk_idArc ha hv).mp hw⟩
        rw [hexam] at hexamined
        have hva : v ≠ a := by
          intro heq
          exact hne ((hg.vertexId_eq hv).symm.trans (heq ▸ hg.vertexId_eq ha))
        have hrest : v ∈ rest := (List.mem_cons.mp hexamined).resolve_left hva
        have hdest : v ∈ destinations := List.mem_filterMap.mpr ⟨t, ht, hv⟩
        exact ⟨v, List.mem_filter.mpr ⟨hrest, by simpa using hdest⟩, hg.vertexId_eq hv⟩
    · have hord := hdoc.ordered
      rw [hexam, List.pairwise_cons] at hord
      rw [List.pairwise_map]
      apply (hord.2.filter _).imp_of_mem
      intro u v hu hv hle
      have hin : ∀ x ∈ rest.filter (· ∈ destinations), x ∈ (boost g.graph a).examined := by
        intro x hx
        rw [hexam]
        exact List.mem_cons_of_mem a (List.mem_filter.mp hx).1
      -- The order of the calls is the order of the distances, also when they are read between ids.
      obtain ⟨d, hd⟩ := exists_isDist hdoc (hin u hu)
      obtain ⟨e, he⟩ := exists_isDist hdoc (hin v hv)
      obtain ⟨s, _, hs⟩ := hmap u hu
      obtain ⟨t, _, ht⟩ := hmap v hv
      rw [hg.vertexId_eq hs, hg.vertexId_eq ht, ((hg.isDist_idArc ha hs).mpr hd).distance_eq,
        ((hg.isDist_idArc ha ht).mpr he).distance_eq]
      exact hle d e hd he

/-! ## The pairs of all searches -/

/-- A pair that is asked for and whose target can be reached from its source. -/
def Asked (g : PgrBaseGraph V E) (combinations : List (Int × List Int)) (x : Int × Int) : Prop :=
  ∃ c ∈ combinations, x.1 = c.1 ∧ Target g c x.2

/-- The distance from the source of a pair to its target. -/
noncomputable def pairCost (g : PgrBaseGraph V E) (x : Int × Int) : ℚ :=
  distance g.IdArc x.1 x.2

/-- The pairs that the searches find. -/
def foundPairs (boost : BoostDijkstraVisits V E) (g : PgrBaseGraph V E) (n : Nat)
    (combinations : List (Int × List Int)) : List (Int × Int) :=
  combinations.flatMap fun c => (nearTargets boost g n c).map fun t => (c.1, t)

/-- `std::map` and `std::set` hold no key twice. -/
structure IsMap (combinations : List (Int × List Int)) : Prop where
  keys : (combinations.map Prod.fst).Nodup
  sets : ∀ c ∈ combinations, c.2.Nodup

variable {combinations : List (Int × List Int)}

theorem IsMap.eq_of_fst (h : IsMap combinations) {c c' : Int × List Int} (hc : c ∈ combinations)
    (hc' : c' ∈ combinations) (heq : c.1 = c'.1) : c = c' :=
  List.inj_on_of_nodup_map h.keys hc hc' heq

omit [TEdge E] in
theorem mem_foundPairs {x : Int × Int} : x ∈ foundPairs boost g n combinations ↔
    ∃ c ∈ combinations, x.1 = c.1 ∧ x.2 ∈ nearTargets boost g n c := by
  simp only [foundPairs, List.mem_flatMap, List.mem_map]
  constructor
  · intro h
    obtain ⟨c, hc, t, ht, rfl⟩ := h
    exact ⟨c, hc, rfl, ht⟩
  · intro h
    obtain ⟨c, hc, hs, ht⟩ := h
    exact ⟨c, hc, x.2, ht, by rw [← hs]⟩

section Documented

variable (hg : g.Consistent) (hn : 1 ≤ n)
variable (hboost : ∀ a < g.graph.numVertices, (boost g.graph a).Documented g.graph a)
include hg hn hboost

theorem asked_of_mem_foundPairs {x : Int × Int} (hx : x ∈ foundPairs boost g n combinations) :
    Asked g combinations x := by
  obtain ⟨c, hc, hs, ht⟩ := mem_foundPairs.mp hx
  exact ⟨c, hc, hs, (nearTargets_nearest hg hboost hn c).sound _ ht⟩

theorem foundPairs_nodup (hmap : IsMap combinations) :
    (foundPairs boost g n combinations).Nodup := by
  apply List.nodup_flatMap.mpr
  constructor
  · intro c _
    apply List.Nodup.map _ (nearTargets_nearest hg hboost hn c).nodup
    intro t t' heq
    exact (Prod.mk.inj heq).2
  · have hkeys := hmap.keys
    rw [List.Nodup, List.pairwise_map] at hkeys
    apply hkeys.imp
    intro c c' hne x hx hx'
    obtain ⟨_, _, rfl⟩ := List.mem_map.mp hx
    obtain ⟨_, _, heq⟩ := List.mem_map.mp hx'
    exact hne (Prod.mk.inj heq).1.symm

/-- The pairs found for one source are its nearest ones. -/
theorem foundPairs_source (hmap : IsMap combinations) {c : Int × List Int}
    (hc : c ∈ combinations) :
    Nearest (cap n c) (fun x => Asked g combinations x ∧ x.1 = c.1) (pairCost g)
      ((foundPairs boost g n combinations).filter (·.1 = c.1)) := by
  have hnear := nearTargets_nearest hg hboost hn c
  have hasked : ∀ x : Int × Int, (Asked g combinations x ∧ x.1 = c.1) ↔
      x.1 = c.1 ∧ Target g c x.2 := by
    intro x
    constructor
    · intro h
      obtain ⟨⟨c', hc', hs, ht⟩, hx⟩ := h
      obtain rfl := hmap.eq_of_fst hc' hc (hs.symm.trans hx)
      exact ⟨hx, ht⟩
    · intro h
      exact ⟨⟨c, hc, h⟩, h.1⟩
  -- In a map there is one entry for the source, so its pairs come from there.
  have hfilter : ((foundPairs boost g n combinations).filter (·.1 = c.1)).Perm
      ((nearTargets boost g n c).map fun t => (c.1, t)) := by
    apply (List.perm_ext_iff_of_nodup ((foundPairs_nodup hg hn hboost hmap).filter _)
      (hnear.nodup.map fun t t' h => (Prod.mk.inj h).2)).mpr
    intro x
    rw [List.mem_filter, mem_foundPairs, List.mem_map, decide_eq_true_eq]
    constructor
    · intro h
      obtain ⟨⟨c', hc', hs, ht⟩, hx⟩ := h
      obtain rfl := hmap.eq_of_fst hc' hc (hs.symm.trans hx)
      exact ⟨x.2, ht, by rw [← hx]⟩
    · intro h
      obtain ⟨t, ht, rfl⟩ := h
      exact ⟨⟨c, hc, rfl, ht⟩, rfl⟩
  apply Nearest.perm _ hfilter.symm
  constructor
  case nodup => exact hnear.nodup.map fun t t' h => (Prod.mk.inj h).2
  case sound =>
    intro x hx
    obtain ⟨t, ht, rfl⟩ := List.mem_map.mp hx
    exact (hasked _).mpr ⟨rfl, hnear.sound t ht⟩
  case length =>
    rw [List.length_map]
    exact hnear.length
  case all =>
    intro hlt x hx
    rw [List.length_map] at hlt
    obtain ⟨hs, ht⟩ := (hasked x).mp hx
    exact List.mem_map.mpr ⟨x.2, hnear.all hlt x.2 ht, by rw [← hs]⟩
  case cheapest =>
    intro x hx hnot y hy
    obtain ⟨t, ht, rfl⟩ := List.mem_map.mp hy
    obtain ⟨hs, hx⟩ := (hasked x).mp hx
    show distance g.IdArc c.1 t ≤ distance g.IdArc x.1 x.2
    rw [hs]
    apply hnear.cheapest x.2 hx _ t ht
    intro hmem
    exact hnot (List.mem_map.mpr ⟨x.2, hmem, by rw [← hs]⟩)

/-! ## Whether the nearest pairs are among them -/

open Classical in
/-- The targets of a source that can be reached from it. -/
noncomputable def reached (g : PgrBaseGraph V E) (c : Int × List Int) : List Int :=
  c.2.filter fun t => Target g c t

omit hg hn hboost in
theorem mem_reached {c : Int × List Int} {t : Int} : t ∈ reached g c ↔ Target g c t := by
  simp only [reached, List.mem_filter, decide_eq_true_eq]
  constructor
  · intro h
    exact h.2
  · intro h
    exact ⟨h.1, h⟩

omit hg hn hboost in
theorem IsMap.reached_nodup (hmap : IsMap combinations) (g : PgrBaseGraph V E)
    {c : Int × List Int} (hc : c ∈ combinations) : (reached g c).Nodup :=
  (hmap.sets c hc).filter _

/-- A source among its own targets with `n` or more targets in reach loses one. The loss does
    not show when another source has a target that is no farther than the lost one. -/
def Outdone (g : PgrBaseGraph V E) (combinations : List (Int × List Int)) (n : Nat) : Prop :=
  ∀ c ∈ combinations, c.1 ∈ c.2 → n ≤ (reached g c).length →
    ∃ c' ∈ combinations, c'.1 ≠ c.1 ∧ 1 ≤ cap n c' ∧ ∃ t' ∈ reached g c',
      ((reached g c).filter fun t => distance g.IdArc c.1 t < distance g.IdArc c'.1 t').length < n

/-- A target that is found is no farther than one in reach. -/
theorem exists_found_le {c : Int × List Int} (hc : c ∈ combinations) (hcap : 1 ≤ cap n c) {t : Int}
    (ht : Target g c t) : ∃ y ∈ foundPairs boost g n combinations, y.1 = c.1 ∧
      pairCost g y ≤ distance g.IdArc c.1 t := by
  have hnear := nearTargets_nearest hg hboost hn c
  by_cases hmem : t ∈ nearTargets boost g n c
  · exact ⟨(c.1, t), mem_foundPairs.mpr ⟨c, hc, rfl, hmem⟩, rfl, le_refl _⟩
  · have hlen := hnear.length_eq ht hmem
    obtain ⟨u, hu⟩ := List.exists_mem_of_length_pos (l := nearTargets boost g n c) (by omega)
    exact ⟨(c.1, u), mem_foundPairs.mpr ⟨c, hc, rfl, hu⟩, rfl, hnear.cheapest t ht hmem u hu⟩

/-- What the searches find is enough for the `n` nearest pairs if and only if every loss is
    outdone. -/
theorem count_iff (hmap : IsMap combinations) :
    (∀ x, Asked g combinations x → x ∉ foundPairs boost g n combinations →
      n ≤ ((foundPairs boost g n combinations).filter
        fun y => pairCost g y ≤ pairCost g x).length) ↔ Outdone g combinations n := by
  constructor
  · intro hcount c hc hself hmany
    have hnear := nearTargets_nearest hg hboost hn c
    have hfew : (nearTargets boost g n c).length ≤ n - 1 := by
      have hle := hnear.length
      rwa [cap, if_pos hself] at hle
    -- A target in reach has not been found; let `t` be the nearest such.
    obtain ⟨t, ht, hmin⟩ : ∃ t ∈ (reached g c).toFinset \ (nearTargets boost g n c).toFinset,
        ∀ u ∈ (reached g c).toFinset \ (nearTargets boost g n c).toFinset,
          distance g.IdArc c.1 t ≤ distance g.IdArc c.1 u := by
      apply Finset.exists_min_image
      by_contra hempty
      rw [Finset.not_nonempty_iff_eq_empty, Finset.sdiff_eq_empty_iff_subset] at hempty
      have hsub : reached g c ⊆ nearTargets boost g n c := fun u hu =>
        List.mem_toFinset.mp (hempty (List.mem_toFinset.mpr hu))
      have hnodup := hmap.reached_nodup g hc
      -- Without the source among its targets the search alone has found `n` of them.
      have hle := (hnodup.subperm hsub).length_le
      omega
    simp only [Finset.mem_sdiff, List.mem_toFinset, mem_reached] at ht hmin
    have hlost : (c.1, t) ∉ foundPairs boost g n combinations := by
      intro hmem
      obtain ⟨c', hc', hs, ht'⟩ := mem_foundPairs.mp hmem
      obtain rfl := hmap.eq_of_fst hc hc' hs
      exact ht.2 ht'
    have hn' := hcount (c.1, t) ⟨c, hc, rfl, ht.1⟩ hlost
    -- The pairs that are not farther cannot all start in the source.
    obtain ⟨y, hy, hle, hne⟩ : ∃ y ∈ foundPairs boost g n combinations,
        pairCost g y ≤ pairCost g (c.1, t) ∧ y.1 ≠ c.1 := by
      by_contra hall
      have hsub : ((foundPairs boost g n combinations).filter
          fun y => pairCost g y ≤ pairCost g (c.1, t)) ⊆
          (foundPairs boost g n combinations).filter (·.1 = c.1) := by
        intro y hy
        obtain ⟨hy, hle⟩ := List.mem_filter.mp hy
        refine List.mem_filter.mpr ⟨hy, ?_⟩
        by_contra hne
        exact hall ⟨y, hy, by simpa using hle, by simpa using hne⟩
      have hlen := (((foundPairs_nodup hg hn hboost hmap).filter _).subperm hsub).length_le
      have hcap := (foundPairs_source hg hn hboost hmap hc).length
      rw [cap, if_pos hself] at hcap
      omega
    -- The pair from another source outdoes the loss of `t`.
    obtain ⟨c', hc', hs, ht'⟩ := mem_foundPairs.mp hy
    have hnear' := nearTargets_nearest hg hboost hn c'
    refine ⟨c', hc', hs ▸ hne, ?_, y.2, mem_reached.mpr (hnear'.sound _ ht'), ?_⟩
    · have hpos := List.length_pos_of_mem ht'
      have hlen := hnear'.length
      omega
    · have hsub : ((reached g c).filter fun u =>
          distance g.IdArc c.1 u < distance g.IdArc c'.1 y.2) ⊆ nearTargets boost g n c := by
        intro u hu
        obtain ⟨hu, hlt⟩ := List.mem_filter.mp hu
        by_contra hnot
        have hge : distance g.IdArc c.1 t ≤ distance g.IdArc c.1 u :=
          hmin u ⟨mem_reached.mp hu, hnot⟩
        have hcost : distance g.IdArc c'.1 y.2 ≤ distance g.IdArc c.1 t := by
          have h := hle
          rwa [pairCost, hs] at h
        exact absurd (of_decide_eq_true hlt) (not_lt.mpr (hcost.trans hge))
      have hnodup := hmap.reached_nodup g hc
      have hlen := ((hnodup.filter _).subperm hsub).length_le
      omega
  · intro hout x hx hnot
    obtain ⟨c, hc, hs, ht⟩ := hx
    have hnear := nearTargets_nearest hg hboost hn c
    have hnt : x.2 ∉ nearTargets boost g n c := fun hmem =>
      hnot (mem_foundPairs.mpr ⟨c, hc, hs, hmem⟩)
    have hfull := hnear.length_eq ht hnt
    have hcost : pairCost g x = distance g.IdArc c.1 x.2 := by rw [pairCost, hs]
    have hmine : ∀ u ∈ nearTargets boost g n c, (c.1, u) ∈
        (foundPairs boost g n combinations).filter fun y => pairCost g y ≤ pairCost g x := by
      intro u hu
      refine List.mem_filter.mpr ⟨mem_foundPairs.mpr ⟨c, hc, rfl, hu⟩, ?_⟩
      rw [hcost]
      exact decide_eq_true (hnear.cheapest x.2 ht hnt u hu)
    have hnodup : ((nearTargets boost g n c).map fun u => (c.1, u)).Nodup :=
      hnear.nodup.map fun u u' h => (Prod.mk.inj h).2
    by_cases hself : c.1 ∈ c.2
    · rw [cap, if_pos hself] at hfull
      -- The source has `n` targets in reach: the ones found and `x`.
      have hbig : (x.2 :: nearTargets boost g n c).Nodup := List.nodup_cons.mpr ⟨hnt, hnear.nodup⟩
      have hmany : n ≤ (reached g c).length := by
        have hsub : x.2 :: nearTargets boost g n c ⊆ reached g c := by
          intro u hu
          obtain rfl | hu := List.mem_cons.mp hu
          · exact mem_reached.mpr ht
          · exact mem_reached.mpr (hnear.sound u hu)
        have hle := (hbig.subperm hsub).length_le
        rw [List.length_cons] at hle
        omega
      obtain ⟨c', hc', hne, hcap, t', ht', hlt⟩ := hout c hc hself hmany
      have hnot_far : distance g.IdArc c'.1 t' ≤ distance g.IdArc c.1 x.2 := by
        by_contra hfar
        have hsub : x.2 :: nearTargets boost g n c ⊆ (reached g c).filter fun u =>
            distance g.IdArc c.1 u < distance g.IdArc c'.1 t' := by
          intro u hu
          obtain rfl | hu := List.mem_cons.mp hu
          · exact List.mem_filter.mpr ⟨mem_reached.mpr ht, decide_eq_true (not_le.mp hfar)⟩
          · have hle := hnear.cheapest x.2 ht hnt u hu
            exact List.mem_filter.mpr ⟨mem_reached.mpr (hnear.sound u hu),
              decide_eq_true (hle.trans_lt (not_le.mp hfar))⟩
        have hle := (hbig.subperm hsub).length_le
        rw [List.length_cons] at hle
        omega
      obtain ⟨y, hy, hys, hyle⟩ := exists_found_le hg hn hboost hc' hcap (mem_reached.mp ht')
      have hsub : y :: (nearTargets boost g n c).map (fun u => (c.1, u)) ⊆
          (foundPairs boost g n combinations).filter fun y => pairCost g y ≤ pairCost g x := by
        intro z hz
        obtain rfl | hz := List.mem_cons.mp hz
        · refine List.mem_filter.mpr ⟨hy, decide_eq_true ?_⟩
          rw [hcost]
          exact hyle.trans hnot_far
        · obtain ⟨u, hu, rfl⟩ := List.mem_map.mp hz
          exact hmine u hu
      have hynot : y ∉ (nearTargets boost g n c).map fun u => (c.1, u) := by
        intro hmem
        obtain ⟨u, _, rfl⟩ := List.mem_map.mp hmem
        exact hne hys.symm
      have hle := ((List.nodup_cons.mpr ⟨hynot, hnodup⟩).subperm hsub).length_le
      rw [List.length_cons, List.length_map] at hle
      omega
    · rw [cap, if_neg hself] at hfull
      have hsub : (nearTargets boost g n c).map (fun u => (c.1, u)) ⊆
          (foundPairs boost g n combinations).filter fun y => pairCost g y ≤ pairCost g x := by
        intro z hz
        obtain ⟨u, hu, rfl⟩ := List.mem_map.mp hz
        exact hmine u hu
      have hle := (hnodup.subperm hsub).length_le
      rw [List.length_map] at hle
      omega

/-- A pair that a search can find: fewer targets of its source are nearer than it finds. -/
def Findable (g : PgrBaseGraph V E) (combinations : List (Int × List Int)) (n : Nat)
    (x : Int × Int) : Prop :=
  ∃ c ∈ combinations, x.1 = c.1 ∧ x.2 ∈ reached g c ∧
    ((reached g c).filter fun t => distance g.IdArc c.1 t < pairCost g x).length < cap n c

/-- In whatever order the pairs come the first `n` are the nearest ones: no more than `n` of them
    are found, or all have the same distance. -/
def AnyOrder (g : PgrBaseGraph V E) (combinations : List (Int × List Int)) (n : Nat) : Prop :=
  (combinations.map fun c => min (cap n c) (reached g c).length).sum ≤ n ∨
    ∀ x y, Findable g combinations n x → Findable g combinations n y → pairCost g x = pairCost g y

theorem foundPairs_length (hmap : IsMap combinations) :
    (foundPairs boost g n combinations).length =
      (combinations.map fun c => min (cap n c) (reached g c).length).sum := by
  rw [foundPairs, List.length_flatMap]
  apply congrArg List.sum
  apply List.map_congr_left
  intro c hc
  rw [List.length_map]
  exact (nearTargets_nearest hg hboost hn c).length_eq_min (hmap.reached_nodup g hc)
    fun t => mem_reached

theorem findable_of_found (hmap : IsMap combinations) {x : Int × Int}
    (hx : x ∈ foundPairs boost g n combinations) : Findable g combinations n x := by
  obtain ⟨c, hc, hs, ht⟩ := mem_foundPairs.mp hx
  have hnear := nearTargets_nearest hg hboost hn c
  have htarget := hnear.sound _ ht
  refine ⟨c, hc, hs, mem_reached.mpr htarget, ?_⟩
  -- The nearer targets have been found as well, and `x` is not one of them.
  have hsub : x.2 :: ((reached g c).filter fun t => distance g.IdArc c.1 t < pairCost g x) ⊆
      nearTargets boost g n c := by
    intro t hmem
    obtain rfl | hmem := List.mem_cons.mp hmem
    · exact ht
    · obtain ⟨hreach, hlt⟩ := List.mem_filter.mp hmem
      by_contra hnot
      have hle := hnear.cheapest t (mem_reached.mp hreach) hnot x.2 ht
      rw [pairCost, hs] at hlt
      exact absurd (of_decide_eq_true hlt) (not_lt.mpr hle)
  have hnodup : (x.2 :: ((reached g c).filter
      fun t => distance g.IdArc c.1 t < pairCost g x)).Nodup := by
    refine List.nodup_cons.mpr ⟨fun hmem => ?_, (hmap.reached_nodup g hc).filter _⟩
    have hlt := of_decide_eq_true (List.mem_filter.mp hmem).2
    rw [pairCost, hs] at hlt
    exact lt_irrefl _ hlt
  have hlen := (hnodup.subperm hsub).length_le
  have hcap := hnear.length
  rw [List.length_cons] at hlen
  omega

theorem found_of_findable {x : Int × Int} (hx : Findable g combinations n x) :
    ∃ y ∈ foundPairs boost g n combinations, pairCost g y = pairCost g x := by
  obtain ⟨c, hc, hs, ht, hlt⟩ := hx
  have hnear := nearTargets_nearest hg hboost hn c
  by_cases hmem : x.2 ∈ nearTargets boost g n c
  · exact ⟨x, mem_foundPairs.mpr ⟨c, hc, hs, hmem⟩, rfl⟩
  · have hfull := hnear.length_eq (mem_reached.mp ht) hmem
    -- Not all that has been found is nearer than `x`.
    obtain ⟨u, hu, hge⟩ : ∃ u ∈ nearTargets boost g n c,
        pairCost g x ≤ distance g.IdArc c.1 u := by
      by_contra hall
      have hsub : nearTargets boost g n c ⊆
          (reached g c).filter fun t => distance g.IdArc c.1 t < pairCost g x := by
        intro u hu
        refine List.mem_filter.mpr ⟨mem_reached.mpr (hnear.sound u hu), decide_eq_true ?_⟩
        exact not_le.mp fun hle => hall ⟨u, hu, hle⟩
      have hlen := (hnear.nodup.subperm hsub).length_le
      omega
    refine ⟨(c.1, u), mem_foundPairs.mpr ⟨c, hc, rfl, hu⟩, le_antisymm ?_ hge⟩
    have hle := hnear.cheapest x.2 (mem_reached.mp ht) hmem u hu
    rw [pairCost, pairCost, hs]
    exact hle

theorem anyOrder_iff (hmap : IsMap combinations) :
    ((foundPairs boost g n combinations).length ≤ n ∨
      ∀ x ∈ foundPairs boost g n combinations, ∀ y ∈ foundPairs boost g n combinations,
        pairCost g x = pairCost g y) ↔ AnyOrder g combinations n := by
  rw [foundPairs_length hg hn hboost hmap, AnyOrder]
  apply or_congr Iff.rfl
  constructor
  · intro h x y hx hy
    obtain ⟨x', hx', hxe⟩ := found_of_findable hg hn hboost hx
    obtain ⟨y', hy', hye⟩ := found_of_findable hg hn hboost hy
    rw [← hxe, ← hye]
    exact h x' hx' y' hy'
  · intro h x hx y hy
    exact h x y (findable_of_found hg hn hboost hmap hx) (findable_of_found hg hn hboost hmap hy)

end Documented

end DijkstraNear

end PgRouting
