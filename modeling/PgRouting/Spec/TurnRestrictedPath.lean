import PgRouting.Spec.YenSearch
import PgRouting.Native.TurnRestrictedPath

/-!
# What turn restricted paths keep

The visitor collects paths without a rule only, and has collected one as soon as it has been told
about one. So when the search finds the `K` cheapest routes, and one of them has no rule, a path
without a rule is returned.

The graph is the same afterwards when no cycle loses or doubles an edge, and the visitor stops no
cycle: what it throws in a cycle leaves the graph as it was for that spur.

## Key results

- `hasRestriction_iff`: a rule is found when its edges follow one another in the path
- `accounts_myvisitor`: the paths that have been collected
- `turnRestrictedPath_respects`: rules are respected, and the graph is the same
-/

namespace PgRouting

open PgrBaseGraph Path

variable {g : PgrBaseGraph BasicVertex BasicEdge} {s t : Int} {k : Nat}

/-! ## Rules -/

theorem Path.findRestriction_isSome (rule : Rule) (rows : List PathT) (i : Nat) :
    (findRestriction rule rows i).isSome = true ↔
      rows ≠ [] ∧ rule.all <:+: rows.map (·.edge) := by
  induction rows generalizing i with
  | nil => simp [findRestriction]
  | cons row rest ih =>
    rw [findRestriction, List.map_cons, List.infix_cons_iff, ← List.isPrefixOf_iff_prefix]
    by_cases hpre : rule.all.isPrefixOf (row.edge :: rest.map (·.edge)) = true
    · simp [hpre]
    · rw [if_neg hpre, ih (i + 1)]
      constructor
      · intro h
        exact ⟨List.cons_ne_nil _ _, .inr h.2⟩
      · intro h
        have hin := h.2.resolve_left hpre
        refine ⟨fun hnil => hpre ?_, hin⟩
        rw [hnil, List.map_nil, List.infix_nil] at hin
        rw [hin]
        rfl

/-- `has_restriction` finds the rules whose edges follow one another in the path. -/
theorem Path.hasRestriction_iff {p : Path} (hp : p.path ≠ []) (rule : Rule) :
    p.hasRestriction rule = true ↔ rule.all <:+: p.path.map (·.edge) := by
  rw [hasRestriction, findRestriction_isSome]
  exact and_iff_right hp

namespace PgrTurnRestrictedPath

variable {self : PgrTurnRestrictedPath} {p q : Path} {v : List Path}

/-- The edges of no rule follow one another in the path. -/
def RuleFree (self : PgrTurnRestrictedPath) (p : Path) : Prop :=
  ∀ rule ∈ self.restrictions, ¬ rule.all <:+: p.path.map (·.edge)

theorem hasRestriction_eq_false (hp : p.path ≠ []) :
    self.hasRestriction p = false ↔ self.RuleFree p := by
  rw [hasRestriction, List.any_eq_false]
  exact forall₂_congr fun rule _ => not_congr (hasRestriction_iff hp rule)

/-- Rules do not depend on the aggregate costs. -/
theorem RuleFree.bare (h : q.path.map bare = p.path.map bare) :
    self.RuleFree q ↔ self.RuleFree p := by
  have hedges := congrArg (List.map (·.edge)) h
  rw [List.map_map, List.map_map] at hedges
  have hedges : q.path.map (·.edge) = p.path.map (·.edge) := hedges
  rw [RuleFree, RuleFree, hedges]

/-- What the visitor has collected after it has been told about a path. -/
theorem mem_insertSolution (h : q ∈ (self.insertSolution p v).2) :
    q ∈ v ∨ q = p ∧ self.RuleFree p := by
  rw [insertSolution] at h
  split at h
  · exact .inl h
  · rename_i hne
    split at h
    · exact .inl h
    · rename_i hrule
      obtain hq | hq := mem_of_mem_orderedInsert h
      · have hp : p.path ≠ [] := by simpa using hne
        exact .inr ⟨hq, (hasRestriction_eq_false hp).mp (by simpa using hrule)⟩
      · exact .inl hq

/-- No path that has been collected is dropped. -/
theorem insertSolution_ne_nil (h : v ≠ []) : (self.insertSolution p v).2 ≠ [] := by
  rw [insertSolution]
  split
  · exact h
  · split
    · exact h
    · exact orderedInsert_ne_nil

/-- A path without a rule is collected, unless one that compares the same is there. -/
theorem insertSolution_ruleFree (hp : p.path ≠ []) (h : self.RuleFree p) :
    (self.insertSolution p v).2 ≠ [] := by
  rw [insertSolution, if_neg (by simpa using hp), (hasRestriction_eq_false hp).mpr h]
  exact orderedInsert_ne_nil

/-- What the visitor stops at has been collected. -/
theorem thrown_ne_nil (h : (self.insertSolution p v).1 = true) :
    (self.insertSolution p v).2 ≠ [] := by
  rw [insertSolution] at h ⊢
  split at h
  · cases h
  · rename_i hp
    rw [if_neg hp]
    split at h
    · cases h
    · rename_i hrule
      rw [if_neg hrule]
      exact orderedInsert_ne_nil

/-- The visitor has collected some path when it has been told about one without a rule, and only
    such paths. -/
theorem accounts_myvisitor : Ksp.Accounts self.myvisitor (fun p v => self.RuleFree p → v ≠ [])
    (fun v => ∀ p ∈ v, self.RuleFree p) where
  first _ _ hp h := insertSolution_ruleFree hp h
  heap _ _ hp h := insertSolution_ruleFree hp h
  keep _ _ _ hv h := insertSolution_ne_nil (hv h)
  bare _ _ _ hbare hv h := hv ((RuleFree.bare hbare).mp h)
  firstInv _ _ hv q hq := (mem_insertSolution hq).elim (hv q) fun h => h.1 ▸ h.2
  heapInv _ _ hv q hq := (mem_insertSolution hq).elim (hv q) fun h => h.1 ▸ h.2

/-! ## The search -/

/-- The paths are `k` cheapest routes, or all of them when there are not as many. -/
structure KCheapest (g : PgrBaseGraph BasicVertex BasicEdge) (s t : Int) (k : Nat)
    (L : List Path) : Prop where
  route : ∀ p ∈ L, Path.IsRoute g.Step s t p
  distinct : L.Pairwise fun p q => p.path.map Path.bare ≠ q.path.map Path.bare
  size : L.length ≤ k
  rows : ∀ q, Path.IsRoute g.Step s t q →
    (∃ p ∈ L, p.path.map Path.bare = q.path.map Path.bare) ∨
      L.length = k ∧ ∀ p ∈ L, p.rowsCost ≤ q.rowsCost

/-- The function returns. The graph has the same edges then, no path with a rule is returned when
    `strict` is set, and when one of the `k` cheapest routes has no rule some path without a rule
    is. -/
def Respects (self : PgrTurnRestrictedPath) (boost : BoostDijkstra BasicVertex BasicEdge)
    (g : PgrBaseGraph BasicVertex BasicEdge) (s t : Int) (k : Nat) : Prop :=
  ∃ N ps h, (∀ n ≥ N, self.turnRestrictedPath boost n g s t k = some (ps, h)) ∧
    h.edgeMultiset = g.edgeMultiset ∧
    (self.strict = true → ∀ q ∈ ps, self.RuleFree q.path) ∧
    ((∀ L, KCheapest g s t k L → ∃ p ∈ L, self.RuleFree p) → ∃ q ∈ ps, self.RuleFree q.path)

/-- Without a route there are no cheapest ones. -/
theorem kCheapest_nil (h : ∀ q, ¬ Path.IsRoute g.Step s t q) : KCheapest g s t k [] where
  route _ hp := nomatch hp
  distinct := .nil
  size := Nat.zero_le k
  rows q hq := absurd hq (h q)

theorem kCheapest_zero : KCheapest g s t 0 [] where
  route _ hp := nomatch hp
  distinct := .nil
  size := Nat.zero_le 0
  rows _ _ := .inr ⟨rfl, fun _ hp => nomatch hp⟩

variable {boost : BoostDijkstra BasicVertex BasicEdge}

/-- Where there is no search, there is no route. -/
theorem respects_empty (hnone : ∀ q, ¬ Path.IsRoute g.Step s t q)
    (hrun : ∀ n, self.turnRestrictedPath boost n g s t k = some ([], g)) :
    self.Respects boost g s t k := by
  refine ⟨0, [], g, fun n _ => hrun n, rfl, fun _ q hq => (nomatch hq), fun h => ?_⟩
  obtain ⟨p, hp, _⟩ := h [] (kCheapest_nil hnone)
  cases hp

/-- What is returned after the search. -/
theorem respects_of_run {N : Nat} {thrown : Bool} {st : Ksp (List Path)} (hst : s ≠ t)
    (hs : g.hasVertex s = true) (ht : g.hasVertex t = true)
    (hrun : ∀ n ≥ N, Ksp.executeYen boost self.myvisitor t n g s k [] = some (thrown, st))
    (hgraph : st.graph.edgeMultiset = g.edgeMultiset) (hinv : ∀ p ∈ st.vis, self.RuleFree p)
    (hfree : (∀ L, KCheapest g s t k L → ∃ p ∈ L, self.RuleFree p) → st.vis ≠ []) :
    self.Respects boost g s t k := by
  have hcode : ∀ n ≥ N, self.turnRestrictedPath boost n g s t k =
      if thrown = true ∨ (!st.vis.isEmpty) = true then
        some (st.vis.map fun p => { path := p }, st.graph)
      else some (self.getResults (st.getResults true), st.graph) := by
    intro n hn
    rw [turnRestrictedPath, if_neg hst, if_neg (by simp [hs, ht]), hrun n hn]
    simp only [Option.bind_eq_bind, Option.bind_some]
    split <;> rfl
  have hmem : ∀ p ∈ st.vis, ∃ q ∈ st.vis.map fun p => ({ path := p } : MarkedPath),
      self.RuleFree q.path := fun p hp =>
    ⟨_, List.mem_map_of_mem hp, hinv p hp⟩
  by_cases hvis : thrown = true ∨ (!st.vis.isEmpty) = true
  · refine ⟨N, _, _, fun n hn => (hcode n hn).trans (if_pos hvis), hgraph, fun _ q hq => ?_,
      fun h => ?_⟩
    · obtain ⟨p, hp, rfl⟩ := List.mem_map.mp hq
      exact hinv p hp
    · obtain ⟨p, hp⟩ := List.exists_mem_of_ne_nil _ (hfree h)
      exact hmem p hp
  · refine ⟨N, _, _, fun n hn => (hcode n hn).trans (if_neg hvis), hgraph, fun hstrict q hq => ?_,
      fun h => ?_⟩
    · rw [getResults, if_pos hstrict, ite_self] at hq
      cases hq
    · have hnil : st.vis = [] := by simpa using (not_or.mp hvis).2
      exact absurd hnil (hfree h)

/-! ## Cycles that save exactly what they remove -/

/-- There is at most one edge from `x` to `y`. -/
def Only (g : PgrBaseGraph BasicVertex BasicEdge) (x y : Int) : Prop :=
  ∀ id c id' c', g.Step x id y c → g.Step x id' y c' → id = id' ∧ c = c'

/-- The graph is the same after calls that save exactly what they remove. -/
theorem recovers_same {boost : BoostDijkstra BasicVertex BasicEdge}
    (hboost : Algorithms.Works boost g) :
    Ksp.Recovers boost g (fun h => Same g h ∧ h.Ready) AllSaveExactly (Only g) where
  stands _ hh := hh.1.standsFor
  ready _ hh := hh.2
  search h ops s t a b hh hs ht := by
    have hdisc := disconnects_disconnectAll hh.2.wellFormed ops
    exact hboost.documented hs ht (hdisc.consistent hh.2.consistent)
      (hh.1.part_disconnectAll hh.2.wellFormed ops) (hdisc.map.trans hh.1.map)
  restore h ops hh hops := by
    obtain ⟨hready, hsame⟩ := hh.2.restoreAll hops
    exact ⟨⟨hsame.directed.trans hh.1.directed, hsame.vertices.trans hh.1.vertices,
      hsame.map.trans hh.1.map, hsame.edges.trans hh.1.edges⟩, hready⟩
  edge h x y ys ops hh hops hy id c id' c' hstep hstep' := by
    rw [← hh.1.step] at hstep hstep'
    exact hops.eq_of_step hh.2.consistent hh.2.wellFormed hy hstep hstep'

/-- A route with the nodes of one that goes along the only edges has the same rows. -/
theorem bare_eq_of_dealt (hdealt : Ksp.Dealt (Only g) p) (hp : Path.IsRoute g.Step s t p)
    (hq : Path.IsRoute g.Step s t q) (h : p.nodes = q.nodes) :
    p.path.map Path.bare = q.path.map Path.bare := by
  have hlen : p.path.length = q.path.length := by
    have hlen := congrArg List.length h
    rwa [Path.nodes, Path.nodes, List.length_map, List.length_map] at hlen
  -- Row by row, the last one apart.
  have hnode : ∀ (k : Nat) (x y : PathT), p.path[k]? = some x → q.path[k]? = some y →
      x.node = y.node := by
    intro k x y hx hy
    have hget := congrArg (·[k]?) h
    simp only [Path.nodes, List.getElem?_map, hx, hy, Option.map_some] at hget
    exact Option.some.inj hget
  refine List.ext_getElem (by rw [List.length_map, List.length_map, hlen]) fun k hk hk' => ?_
  rw [List.length_map] at hk hk'
  rw [List.getElem_map, List.getElem_map]
  have hx : p.path[k]? = some p.path[k] := List.getElem?_eq_getElem hk
  have hy : q.path[k]? = some q.path[k] := List.getElem?_eq_getElem hk'
  have hxy := hnode k _ _ hx hy
  by_cases hlast : k + 1 < p.path.length
  · have hx' : p.path[k + 1]? = some p.path[k + 1] := List.getElem?_eq_getElem hlast
    have hy' : q.path[k + 1]? = some q.path[k + 1] := List.getElem?_eq_getElem (hlen ▸ hlast)
    have hstep := hq.step_getElem hy hy'
    rw [← hxy, ← hnode (k + 1) _ _ hx' hy'] at hstep
    obtain ⟨hid, hcost⟩ := hdealt k _ _ hx hx' _ _ _ _ hstep (hp.step_getElem hx hx')
    rw [Path.bare, Path.bare, hxy, hid, hcost]
  · obtain ⟨rows, agg, _, hp'⟩ := hp.shape
    obtain ⟨rows', agg', _, hq'⟩ := hq.shape
    have hk₁ : k = rows.length := by
      rw [hp', List.length_append, List.length_singleton] at hk hlast
      omega
    have hk₂ : k = rows'.length := by
      rw [hp', hq', List.length_append, List.length_append, List.length_singleton,
        List.length_singleton] at hlen
      omega
    have hlast₁ : p.path[k]? = some ⟨t, -1, 0, agg⟩ := by
      rw [hp', hk₁]
      simp
    have hlast₂ : q.path[k]? = some ⟨t, -1, 0, agg'⟩ := by
      rw [hq', hk₂]
      simp
    rw [Option.some.inj (hx.symm.trans hlast₁), Option.some.inj (hy.symm.trans hlast₂)]
    rfl

/-- The paths of a search that is finished are cheapest routes. -/
theorem Found.kCheapest {G : PgrBaseGraph BasicVertex BasicEdge → Prop}
    {J : Path → List Path → Prop} {I : List Path → Prop} {st : Ksp (List Path)}
    (hfound : Ksp.Found g s t G (Only g) J I k st) :
    KCheapest g s t k st.resultSet where
  route p hp := (hfound.result p hp).route
  distinct := by
    refine hfound.sorted.imp_of_mem fun {p q} hp hq hlt hbare => ?_
    have hnodes : p.nodes = q.nodes := by
      have hnodes := congrArg (List.map (·.node)) hbare
      rw [List.map_map, List.map_map] at hnodes
      exact hnodes
    rw [(hfound.result p hp).key_eq (hfound.result q hq) hnodes] at hlt
    exact lt_irrefl _ hlt
  size := hfound.size
  rows q hq := by
    obtain ⟨p, hp, hnodes⟩ | hcheap := hfound.nodes q hq
    · obtain hdealt | ⟨hlen, hle⟩ := hfound.dealt p hp
      · exact .inl ⟨p, hp, bare_eq_of_dealt hdealt (hfound.result p hp).route hq hnodes⟩
      · -- The last path has not been dealt with, but it is the cheapest with its nodes.
        exact .inr ⟨hlen, fun r hr =>
          (hle r hr).trans ((hfound.result p hp).cheapest q hq hnodes.symm)⟩
    · exact .inr hcheap

/-- No cycle is run when no path is asked for. -/
theorem executeYen_zero {n : Nat} {thrown : Bool} {st : Ksp (List Path)}
    (h : Ksp.firstSolution boost self.myvisitor t g s [] = some (thrown, st)) :
    Ksp.executeYen boost self.myvisitor t (n + 1) g s 0 [] = some (thrown, st) := by
  rw [Ksp.executeYen, h]
  simp only [Option.bind_eq_bind, Option.bind_some]
  by_cases hstop : thrown = true ∨ st.resultSet.isEmpty = true
  · exact if_pos hstop
  · have hdone : Ksp.round boost self.myvisitor t 0 st = .done (some (false, st)) :=
      if_neg (Nat.not_lt_zero _)
    have hgo : thrown = false := by simpa using (not_or.mp hstop).1
    rw [if_neg hstop, runLoop_done hdone, hgo]
    rfl

/-- **Turn restricted paths.** The rules are respected and the graph is the same afterwards, for
    all rules and flags, when no cycle loses or doubles an edge, the visitor stops no cycle and
    the costs of routes can be told apart. -/
theorem turnRestrictedPath_respects (self : PgrTurnRestrictedPath)
    (boost : BoostDijkstra BasicVertex BasicEdge) (g : PgrBaseGraph BasicVertex BasicEdge)
    (hg : g.Ready) (hboost : Algorithms.Works boost g) (s t : Int) (k : Nat)
    (hapart : Ksp.CostsApart g s t)
    (hclean : Ksp.CleanRun AllSaveExactly boost self.myvisitor g s t k []) :
    self.Respects boost g s t k := by
  have hrec := recovers_same hboost
  have hsame : Same g g ∧ g.Ready := ⟨⟨rfl, rfl, rfl, rfl⟩, hg⟩
  by_cases hst : s = t
  · exact respects_empty (fun q hq => hq.ne hst) fun n => if_pos hst
  by_cases hknown : g.hasVertex s = true ∧ g.hasVertex t = true
  · obtain ⟨hs, ht⟩ := hknown
    obtain ⟨a, ha⟩ := Option.isSome_iff_exists.mp hs
    obtain ⟨b, hb⟩ := Option.isSome_iff_exists.mp ht
    have hinv : ∀ p ∈ ([] : List Path), self.RuleFree p := fun p hp => nomatch hp
    -- For `k = 0` only the first path is looked for, and it is not kept.
    obtain rfl | hk := Nat.eq_zero_or_pos k
    · obtain ⟨p, st, hfirst, hgraph, hvis, _⟩ :=
        Ksp.firstSolution_spec hsame hrec accounts_myvisitor ha hb hinv
      have hrun : ∀ n ≥ 1, Ksp.executeYen boost self.myvisitor t n g s 0 [] =
          some ((self.myvisitor.onInsertFirstSolution p []).1, st) := by
        intro n hn
        obtain ⟨n, rfl⟩ := Nat.exists_eq_add_of_le' hn
        exact executeYen_zero hfirst
      refine respects_of_run hst hs ht hrun (congrArg edgeMultiset hgraph)
        (hvis ▸ accounts_myvisitor.firstInv p _ hinv) fun h => ?_
      obtain ⟨p, hp, _⟩ := h [] kCheapest_zero
      cases hp
    · obtain ⟨N, thrown, st, hrun, hfirst | ⟨rfl, hfound⟩⟩ :=
        Ksp.executeYen_spec hsame hrec hapart accounts_myvisitor ha hb hinv hk hclean
      · -- The visitor has stopped the search at the first path, or there is no route.
        obtain ⟨p, hthrown, hgraph, hvis, hp⟩ := hfirst
        refine respects_of_run hst hs ht hrun (congrArg edgeMultiset hgraph)
          (hvis ▸ accounts_myvisitor.firstInv p _ hinv) fun h => ?_
        obtain rfl | ⟨_, _, hnone⟩ := hp
        · rw [hvis]
          exact thrown_ne_nil hthrown
        · obtain ⟨q, hq, _⟩ := h [] (kCheapest_nil hnone)
          cases hq
      · refine respects_of_run hst hs ht hrun hfound.graph.1.edges hfound.inv fun h => ?_
        obtain ⟨p, hp, hfree⟩ := h _ (Found.kCheapest hfound)
        exact hfound.account p hp hfree
  · refine respects_empty (fun q hq => hknown (Ksp.known_of_route hq)) fun n => ?_
    rw [turnRestrictedPath, if_neg hst, if_pos]
    simpa [or_iff_not_imp_left] using hknown

/-! ## A way and a detour -/

/-- The way from 1 to 2, and the detour by 3. -/
def detourTable : PgrBaseGraph BasicVertex BasicEdge :=
  .ofTable true [⟨1, 1, 2, 1, -1⟩, ⟨2, 1, 3, 1, -1⟩, ⟨3, 3, 2, 1, -1⟩]

/-- The way is forbidden, and the detour is found in the first cycle. -/
theorem turnRestrictedPath_respects_detour :
    Respects ⟨[⟨1, 0, [], [1]⟩], false, false, true⟩ searchPaths detourTable 1 2 2 := by
  refine turnRestrictedPath_respects _ searchPaths detourTable (ofTable_ready true _)
    (Algorithms.searchPaths_works true _) 1 2 2 (Ksp.costsApart_of_integral ?_)
    (.of_holdsFor (n := 2) ?_)
  · rintro i id j c ⟨u, v, _, _, hmem⟩
    obtain ⟨e, he, heq⟩ := mem_edgeMultiset.mp hmem
    have hall : ∀ e ∈ detourTable.graph.edges, e.bundle.cost = 1 := by decide +kernel
    simp only [item, Prod.mk.injEq] at heq
    exact ⟨1, by rw [← heq.2.2, hall e he]; rfl⟩
  · decide +kernel

/-- What the visitor throws in the first cycle ends the search. -/
theorem executeYen_thrown {n : Nat} {st st' : Ksp (List Path)}
    (hfirst : Ksp.firstSolution boost self.myvisitor t g s [] = some (false, st))
    (hne : st.resultSet.isEmpty = false) (hlt : st.resultSet.length < k)
    (hcycle : Ksp.doNextCycle boost self.myvisitor t st = some (true, st')) :
    Ksp.executeYen boost self.myvisitor t (n + 1) g s k [] = some (true, st') := by
  have hdone : Ksp.round boost self.myvisitor t k st = .done (some (true, st')) := by
    rw [Ksp.round, if_pos hlt, hcycle]
  rw [Ksp.executeYen, hfirst]
  simp only [Option.bind_eq_bind, Option.bind_some]
  rw [if_neg (by simp [hne]), runLoop_done hdone]
  rfl

/-- The way is forbidden. The visitor stops the search at the detour, where the way is
    disconnected, and it is never restored. -/
theorem turnRestrictedPath_not_respects :
    ¬ ∀ (self : PgrTurnRestrictedPath) (boost : BoostDijkstra BasicVertex BasicEdge)
        (g : PgrBaseGraph BasicVertex BasicEdge), g.Ready → Algorithms.Works boost g →
        ∀ s t k, self.Respects boost g s t k := by
  intro h
  let rule : Rule := ⟨1, 0, [], [1]⟩
  let self : PgrTurnRestrictedPath := ⟨[rule], false, true, true⟩
  obtain ⟨N, ps, h, hrun, hedges, _⟩ :=
    h self searchPaths detourTable (ofTable_ready true _)
      (Algorithms.searchPaths_works true _) 1 2 2
  have hcheck : ∃ r ∈ Ksp.firstSolution searchPaths self.myvisitor 2 detourTable 1 [],
      r.1 = false ∧ r.2.resultSet.isEmpty = false ∧ r.2.resultSet.length < 2 ∧
      ∃ c ∈ Ksp.doNextCycle searchPaths self.myvisitor 2 r.2,
        c.1 = true ∧ c.2.graph.edgeMultiset ≠ detourTable.edgeMultiset := by
    decide +kernel
  obtain ⟨⟨_, st⟩, hfirst, rfl, hne, hlt, ⟨_, st'⟩, hcycle, rfl, hlost⟩ := hcheck
  have hrun := hrun (N + 1) N.le_succ
  rw [turnRestrictedPath, if_neg (by decide), if_neg (by decide +kernel),
    executeYen_thrown hfirst hne hlt hcycle] at hrun
  obtain ⟨_, rfl⟩ := Prod.mk.inj (Option.some.inj hrun)
  exact hlost hedges

end PgrTurnRestrictedPath

end PgRouting
