import PgRouting.Spec.BdDijkstra
import PgRouting.Spec.DijkstraNear

/-!
# A search with the documented visits

One side of a search from both ends, run alone until its queue is empty, examines vertices the way
`boost::dijkstra_shortest_paths` is documented to. So there is a function with the documented
behaviour for every graph whose costs are not negative, and it can be run.

## Key results

- `searchVisits_run`: the calls of the search, one after the other
- `searchVisits_documented`: the search does what is documented
- `searchPaths_documented`: and so does the one that stops at goals
-/

namespace PgRouting

variable {V E : Type} [TEdge E] {g : AdjacencyList V E} {a x v : Nat} {s last : HalfSearch ℚ}

/-- The calls of `examine_vertex`, each with the search as it is then, and the search at the end,
    after at most so many rounds. -/
def searchCallsFrom (g : AdjacencyList V E) :
    Nat → HalfSearch ℚ → List (Nat × HalfSearch ℚ) × HalfSearch ℚ
  | 0, s => ([], s)
  | n + 1, s =>
    match s.queue.top? with
    | none => ([], s)
    | some node =>
      if (ofLex node).1 = ⊤ then ([], s)
      else if s.finished (ofLex node).2 then searchCallsFrom g n s.popped
      else
        let r := searchCallsFrom g n
          (s.popped.explore (fun _ => 0) (g.outEdges (ofLex node).2) (ofLex node).1 (ofLex node).2)
        (((ofLex node).2, s) :: r.1, r.2)

/-- The search from one vertex. -/
def searchVisits (g : AdjacencyList V E) (a : Nat) : BoostVisits :=
  let rounds := HalfSearch.work (Explorer.knownVertices g a a) (fun u => (g.outEdges u).length)
    (.initializeAt a : HalfSearch ℚ)
  let r := searchCallsFrom g rounds (.initializeAt a)
  { examined := r.1.map (·.1)
    predecessors := fun k => (((r.1[k - 1]?).map (·.2)).getD r.2).predecessor
    distances := fun k => (((r.1[k - 1]?).map (·.2)).getD r.2).cost }

/-- The search has explored exactly these vertices. -/
structure HasExplored (g : AdjacencyList V E) (a : Nat) (before : List Nat)
    (s : HalfSearch ℚ) : Prop where
  inv : s.Inv g.Arc (fun _ => 0) a
  finished : ∀ v, s.finished v = true ↔ v ∈ before
  unlabelled : ∀ v, s.cost v = ⊤ → s.predecessor v = v

/-- The calls that follow when some vertices have been explored. -/
inductive SearchRun (g : AdjacencyList V E) (a : Nat) :
    List Nat → List (Nat × HalfSearch ℚ) → HalfSearch ℚ → Prop
  | done {before : List Nat} {s : HalfSearch ℚ} (hs : HasExplored g a before s)
      (hall : ∀ v, Reachable g.Arc a v → v ∈ before) : SearchRun g a before [] s
  | call {before : List Nat} {x : Nat} {s last : HalfSearch ℚ} {calls : List (Nat × HalfSearch ℚ)}
      (hs : HasExplored g a before s) (hnew : x ∉ before) (hlabel : s.cost x ≠ ⊤)
      (hleast : ∀ v ∉ before, ∀ c, Walk g.Arc a v c → s.cost x ≤ c)
      (rest : SearchRun g a (before ++ [x]) calls last) :
      SearchRun g a before ((x, s) :: calls) last

/-! ## One round -/

/-- What a walk leads to has been explored, or some entry is no dearer. -/
theorem HasExplored.lower {before : List Nat} {c : ℚ} (hs : HasExplored g a before s)
    (hA : ∀ u v w, g.Arc u v w → 0 ≤ w) (hwalk : Walk g.Arc a v c) :
    v ∈ before ∨ ∃ y, y ∉ before ∧ s.entries (fun _ => 0) a (s.label (fun _ => 0) y) y ∧
      s.label (fun _ => 0) y ≤ c := by
  have hcons : ∀ u v w, g.Arc u v w → (0 : ℚ) ≤ w + 0 := fun u v w harc => by
    rw [add_zero]
    exact hA u v w harc
  have hlabelled : Labelled (Reduced g.Arc fun _ => (0 : ℚ))
      (fun v c => v = a ∧ c = ((0 : ℚ) : WithTop ℚ)) v ((c + 0 : ℚ) : WithTop ℚ) :=
    labelled_reduced.mpr ⟨c, hwalk, rfl⟩
  obtain ⟨hfin, _⟩ | ⟨y, hy, hq, hle⟩ := hs.inv.search.lower
    (fun u v w hw => reduced_nonneg hcons hw) hlabelled WithTop.coe_ne_top
  · exact .inl ((hs.finished v).mp hfin)
  · rw [add_zero] at hle
    exact .inr ⟨y, fun hmem => hy ((hs.finished y).mpr hmem), hq, hle⟩

/-- The vertex of the least entry is the nearest of those that have not been explored. -/
theorem HasExplored.least {before : List Nat} {k : WithTop ℚ} (hs : HasExplored g a before s)
    (hA : ∀ u v w, g.Arc u v w → 0 ≤ w) (htop : s.queue.top? = some (toLex (k, x)))
    (hx : s.finished x = false) : ∀ v ∉ before, ∀ c, Walk g.Arc a v c → s.cost x ≤ c := by
  intro v hv c hwalk
  obtain hmem | ⟨y, hy, hq, hle⟩ := hs.lower hA hwalk
  · exact absurd hmem hv
  · obtain ⟨k₀, hmem, hmin, _⟩ := hs.inv.top_spec htop
    have hkey := hs.inv.search.key_eq hmem hmin (by simp [hx])
    have hcost : s.label (fun _ => 0) x = s.cost x := by simp [HalfSearch.label]
    calc s.cost x = k₀ := by rw [← hcost, hkey]
      _ ≤ s.label (fun _ => 0) y := hmin _ _ hq
      _ ≤ c := hle

/-- Without a finite entry everything that can be reached has been explored. -/
theorem HasExplored.exhausted {before : List Nat} (hs : HasExplored g a before s)
    (hA : ∀ u v w, g.Arc u v w → 0 ≤ w)
    (htop : ∀ node, s.queue.top? = some node → (ofLex node).1 = ⊤) :
    ∀ v, Reachable g.Arc a v → v ∈ before := by
  rintro v ⟨c, hwalk⟩
  obtain hmem | ⟨y, _, hq, hle⟩ := hs.lower hA hwalk
  · exact hmem
  · cases hnode : s.queue.top? with
    | none =>
      have hnil := PriorityQueue.top?_eq_none.mp hnode
      simp [HalfSearch.entries, hnil] at hq
    | some node =>
      have hkey := htop node hnode
      obtain ⟨_, _, hmin, ⟨_, hzero, _⟩ | ⟨_, hk₀, _⟩, _⟩ := hs.inv.top_spec (k := (ofLex node).1)
        (x := (ofLex node).2) hnode
      · rw [hkey] at hzero
        cases hzero
      · have hle' := (hmin _ _ hq).trans hle
        rw [← hk₀, hkey] at hle'
        exact absurd (top_le_iff.mp hle') WithTop.coe_ne_top

/-- Taking an entry. -/
theorem HasExplored.take {before : List Nat} {k : WithTop ℚ} (hs : HasExplored g a before s)
    (hA : ∀ u v w, g.Arc u v w → 0 ≤ w) (htop : s.queue.top? = some (toLex (k, x)))
    (hk : k ≠ ⊤) :
    (x ∈ before → HasExplored g a before s.popped) ∧
    (x ∉ before → HasExplored g a (before ++ [x])
      (s.popped.explore (fun _ => 0) (g.outEdges x) k x)) := by
  -- With the estimate 0 the exploration is that of the bidirectional search.
  have hexplores : HalfSearch.Explores E
      (fun node s => s.explore (fun _ => 0) (g.outEdges (ofLex node).2) (ofLex node).1
        (ofLex node).2) g.Arc (fun _ => 0) a := by
    intro s k x inv htop hx
    obtain rfl := PgrBdDijkstra.key_eq_cost inv htop hx
    exact ⟨_, rfl, fun v c => AdjacencyList.outEdges_arcIn.trans AdjacencyList.arcIn_rat⟩
  have hcons : ∀ u v w, g.Arc u v w → (0 : ℚ) ≤ w + 0 := fun u v w harc => by
    rw [add_zero]
    exact hA u v w harc
  obtain ⟨hinv, hfin, _⟩ := HalfSearch.take_spec hs.inv hexplores hA hcons htop hk
  constructor
  · -- The vertex has been explored before: only its entry goes.
    intro hx
    have hx' : s.finished x = true := (hs.finished x).mpr hx
    rw [if_neg (by simp [HalfSearch.popped, hx'])] at hinv
    exact ⟨hinv, hs.finished, hs.unlabelled⟩
  · intro hx
    have hx' : s.finished x = false := by
      rw [Bool.eq_false_iff]
      exact fun h => hx ((hs.finished x).mp h)
    have hif : (!s.popped.finished x) = true := by simp [HalfSearch.popped, hx']
    rw [if_pos hif] at hinv
    simp only [hif, if_true] at hfin
    refine ⟨hinv, fun v => ?_, fun v hv => ?_⟩
    · refine (hfin v).trans ?_
      rw [hs.finished, List.mem_append, List.mem_singleton]
    · obtain ⟨hc, hp⟩ | ⟨hlt, _⟩ := HalfSearch.relaxEdges_change (s := s.popped) (h := fun _ => 0)
        (b := k) (x := x) (g.outEdges x) v
      · exact hp.trans (hs.unlabelled v (hc.symm.trans hv))
      · exact absurd hv (ne_top_of_lt hlt)

/-- The vertices that have a label can be reached at its cost. -/
theorem HasExplored.walk {before : List Nat} (hs : HasExplored g a before s)
    (hv : s.cost v ≠ ⊤) : ∃ l d, TreePath g.Arc s.predecessor s.cost a l v ∧
      (∀ u ∈ l, u = v ∨ u ∈ before) ∧ s.cost v = ((d : ℚ) : WithTop ℚ) ∧ Walk g.Arc a v d := by
  obtain ⟨l, htree, hfin⟩ := hs.inv.treePath hv
  have harcs := htree.mono fun _ _ _ hleast => hleast.1
  obtain ⟨d, hd, hwalk⟩ := harcs.walk
  exact ⟨l, d, harcs, fun u hu => (hfin u hu).imp_right (hs.finished u).mp, hd, hwalk⟩

/-! ## The whole search -/

/-- The rounds of the search, as long as they last. -/
theorem searchCallsFrom_run (hA : ∀ u v w, g.Arc u v w → 0 ≤ w) (n : Nat) {before : List Nat}
    (hs : HasExplored g a before s)
    (hqueue : ∀ k v, toLex (k, v) ∈ s.queue → v ∈ Explorer.knownVertices g a a)
    (hwork : s.work (Explorer.knownVertices g a a) (fun u => (g.outEdges u).length) ≤ n) :
    SearchRun g a before (searchCallsFrom g n s).1 (searchCallsFrom g n s).2 := by
  induction n generalizing s before with
  | zero =>
    have hnil : s.queue = [] := by
      rw [HalfSearch.work] at hwork
      exact List.length_eq_zero_iff.mp (by omega)
    refine .done hs (hs.exhausted hA fun node hnode => ?_)
    rw [PriorityQueue.top?_eq_none.mpr hnil] at hnode
    cases hnode
  | succ n ih =>
    rw [searchCallsFrom]
    cases htop : s.queue.top? with
    | none =>
      refine .done hs (hs.exhausted hA fun node hnode => ?_)
      rw [htop] at hnode
      cases hnode
    | some node =>
      obtain ⟨k, x⟩ := node
      have hknown : ∀ u, ∀ e ∈ g.outEdges u,
          PgrBaseGraph.adjacent u e ∈ Explorer.knownVertices g a a := by
        intro u e he
        obtain ⟨_, harc, _⟩ := AdjacencyList.outEdges_arcIn (K := ℚ).mp ⟨e, he, rfl, rfl⟩
        exact (Explorer.mem_knownVertices harc).2
      have hover : HalfSearch.ExploresOver (K := ℚ) (fun node s => s.explore (fun _ => 0)
          (g.outEdges (ofLex node).2) (ofLex node).1 (ofLex node).2) (fun _ => 0) g.outEdges :=
        fun _ k _ => ⟨k, rfl⟩
      obtain ⟨hqueue', hlt⟩ := HalfSearch.take_work hover hqueue hknown htop
      simp only
      split_ifs with hk hx
      · refine .done hs (hs.exhausted hA fun node hnode => ?_)
        rw [htop] at hnode
        obtain rfl := Option.some.inj hnode
        exact hk
      · -- The vertex has been examined before: no call.
        have hx' : s.finished x = true := hx
        rw [if_neg (by simp [HalfSearch.popped, hx'])] at hqueue' hlt
        exact ih ((hs.take hA htop hk).1 ((hs.finished x).mp hx)) hqueue'
          (Nat.le_of_lt_succ (hlt.trans_le hwork))
      · -- The visitor is called, and the edges of the vertex are relaxed.
        have hx' : s.finished x = false := Bool.eq_false_iff.mpr hx
        have hnew : x ∉ before := fun hmem => hx ((hs.finished x).mpr hmem)
        rw [if_pos (by simp [HalfSearch.popped, hx'])] at hqueue' hlt
        refine .call hs hnew ?_ (hs.least hA htop hx') ?_
        · obtain rfl := PgrBdDijkstra.key_eq_cost hs.inv htop hx'
          exact hk
        · exact ih ((hs.take hA htop hk).2 hnew) hqueue' (Nat.le_of_lt_succ (hlt.trans_le hwork))

/-- The search as it is at a call, or at the end when there are fewer. -/
def searchAt (calls : List (Nat × HalfSearch ℚ)) (last : HalfSearch ℚ) (j : Nat) : HalfSearch ℚ :=
  ((calls[j]?).map (·.2)).getD last

namespace SearchRun

variable {before : List Nat} {calls : List (Nat × HalfSearch ℚ)}

/-- What has been explored at a call. -/
theorem hasExplored (h : SearchRun g a before calls last) (j : Nat) :
    HasExplored g a (before ++ (calls.map (·.1)).take j) (searchAt calls last j) := by
  induction h generalizing j with
  | done hs _ => simpa [searchAt] using hs
  | @call before x s last calls hs hnew _ _ rest ih =>
    cases j with
    | zero => simpa [searchAt] using hs
    | succ j =>
      have hrest := ih j
      rw [List.append_assoc] at hrest
      simpa [searchAt] using hrest

/-- No vertex is examined twice. -/
theorem nodup (h : SearchRun g a before calls last) (hbefore : before.Nodup) :
    (before ++ calls.map (·.1)).Nodup := by
  induction h with
  | done => simpa using hbefore
  | @call before x s last calls hs hnew _ _ rest ih =>
    have hsnoc : (before ++ [x]).Nodup := by
      rw [List.nodup_append]
      refine ⟨hbefore, List.nodup_singleton x, fun u hu v hv => ?_⟩
      rw [List.mem_singleton.mp hv]
      exact fun heq => hnew (heq ▸ hu)
    have hrest := ih hsnoc
    rw [List.append_assoc] at hrest
    exact hrest

/-- The vertex of a call is the nearest of those that have not been examined before. -/
theorem next (h : SearchRun g a before calls last) {j : Nat}
    (hx : (calls.map (·.1))[j]? = some x) :
    (searchAt calls last j).cost x ≠ ⊤ ∧
      ∀ v ∉ before ++ (calls.map (·.1)).take j, ∀ c, Walk g.Arc a v c →
        (searchAt calls last j).cost x ≤ c := by
  induction h generalizing j with
  | done => simp at hx
  | @call before y s last calls hs _ hlabel hleast rest ih =>
    cases j with
    | zero =>
      obtain rfl : y = x := by simpa using hx
      exact ⟨hlabel, by simpa [searchAt] using hleast⟩
    | succ j =>
      have hrest := ih (by simpa using hx)
      rw [List.append_assoc] at hrest
      simpa [searchAt] using hrest

/-- Everything that can be reached is examined. -/
theorem reached (h : SearchRun g a before calls last) (hv : Reachable g.Arc a v) :
    v ∈ before ++ calls.map (·.1) := by
  induction h with
  | done _ hall => simpa using hall v hv
  | call _ _ _ _ _ ih => simpa using ih

/-- The first vertex is the one from which the search starts. -/
theorem head?_eq (h : SearchRun g a [] calls last) : (calls.map (·.1)).head? = some a := by
  cases h with
  | done _ hall => exact absurd (hall a ⟨0, .nil a⟩) List.not_mem_nil
  | @call _ x s _ _ hs _ hlabel _ _ =>
    have hx : x = a := by
      by_contra hne
      obtain ⟨hpred, _⟩ := hs.inv.pred_spec hlabel hne
      exact absurd ((hs.finished _).mp hpred) List.not_mem_nil
    rw [List.map_cons, List.head?_cons, hx]

/-- The vertices are examined in the order of their distances. -/
theorem ordered (h : SearchRun g a before calls last) (hnodup : (before ++ calls.map (·.1)).Nodup) :
    (calls.map (·.1)).Pairwise fun u v =>
      ∀ c d, IsDist g.Arc a u c → IsDist g.Arc a v d → c ≤ d := by
  induction h with
  | done => exact .nil
  | @call before x s last calls hs _ hlabel hleast rest ih =>
    have hsplit : (before ++ [x]) ++ calls.map (·.1) = before ++ x :: calls.map (·.1) := by
      rw [List.append_assoc, List.singleton_append]
    rw [List.map_cons, List.pairwise_cons]
    refine ⟨fun v hv c d hc hd => ?_, ih (hsplit ▸ hnodup)⟩
    have hnew : v ∉ before := fun hmem =>
      (List.nodup_append.mp hnodup).2.2 v hmem v (List.mem_cons_of_mem _ hv) rfl
    obtain ⟨_, c', _, _, hcost, hwalk⟩ := hs.walk hlabel
    have hle := hleast v hnew d hd.walk
    rw [hcost] at hle
    exact (hc.le hwalk).trans (by exact_mod_cast hle)

/-- A vertex has not been examined before its call. -/
theorem not_mem_take {j : Nat} (hnodup : (before ++ calls.map (·.1)).Nodup)
    (hx : (calls.map (·.1))[j]? = some x) : x ∉ before ++ (calls.map (·.1)).take j := by
  obtain ⟨hj, rfl⟩ := List.getElem?_eq_some_iff.mp hx
  rw [← List.take_append_drop j (calls.map (·.1)), List.drop_eq_getElem_cons hj,
    ← List.append_assoc, List.nodup_append] at hnodup
  exact fun hmem => hnodup.2.2 _ hmem _ List.mem_cons_self rfl

end SearchRun

/-- The calls of the search from one vertex. -/
theorem searchVisits_run (hg : ∀ e ∈ g.edges, 0 ≤ TEdge.cost e.bundle) (a : Nat) :
    ∃ calls last, SearchRun g a [] calls last ∧
      searchVisits g a =
        { examined := calls.map (·.1)
          predecessors := fun k => (searchAt calls last (k - 1)).predecessor
          distances := fun k => (searchAt calls last (k - 1)).cost } := by
  have hA : ∀ u v w, g.Arc u v w → 0 ≤ w := fun _ _ _ => PgrBdDijkstra.arc_nonneg hg
  have hstart : HasExplored g a [] (.initializeAt a) := by
    refine ⟨HalfSearch.initializeAt_inv _ _ _, fun v => ?_, fun _ _ => rfl⟩
    simp [HalfSearch.initializeAt]
  refine ⟨_, _, searchCallsFrom_run hA _ hstart ?_ (le_refl _), rfl⟩
  exact Explorer.initializeAt_known.1

/-- The search does what is documented. -/
theorem searchVisits_documented (hg : ∀ e ∈ g.edges, 0 ≤ TEdge.cost e.bundle) (a : Nat) :
    (searchVisits g a).Documented g a := by
  obtain ⟨calls, last, hrun, heq⟩ := searchVisits_run hg a
  rw [heq]
  -- When the visitor is called for the `k`-th vertex, the ones before have been explored.
  have hstate : ∀ k, HasExplored g a ((calls.map (·.1)).take (k - 1))
      (searchAt calls last (k - 1)) := fun k => by simpa using hrun.hasExplored (k - 1)
  have hsub : ∀ k, (calls.map (·.1)).take (k - 1) ⊆ (calls.map (·.1)).take k :=
    fun k => (List.take_prefix_take_left (by omega)).subset
  -- What has been examined has been explored, except for the vertex of the last call.
  have hcases : ∀ k, ∀ v ∈ (calls.map (·.1)).take k, v ∈ (calls.map (·.1)).take (k - 1) ∨
      (calls.map (·.1))[k - 1]? = some v := by
    intro k v hv
    obtain ⟨i, hi, hget⟩ := List.mem_take_iff_getElem.mp hv
    by_cases hlast : i = k - 1
    · exact .inr (hlast ▸ List.getElem?_eq_some_iff.mpr ⟨by omega, hget⟩)
    · exact .inl (List.mem_take_iff_getElem.mpr ⟨i, by omega, hget⟩)
  -- A vertex has a label when it is examined.
  have hlabel : ∀ k, ∀ v ∈ (calls.map (·.1)).take k, (searchAt calls last (k - 1)).cost v ≠ ⊤ := by
    intro k v hv
    obtain hv | hv := hcases k v hv
    · exact (hstate k).inv.reached v (((hstate k).finished v).mpr hv)
    · exact (hrun.next hv).1
  constructor
  case nodup => simpa using hrun.nodup List.nodup_nil
  case reached =>
    intro v
    constructor
    · intro hv
      have hall : v ∈ (calls.map (·.1)).take (calls.length + 1) := by
        rwa [List.take_of_length_le (by simp)]
      obtain ⟨_, d, _, _, _, hwalk⟩ := (hstate _).walk (hlabel _ v hall)
      exact ⟨d, hwalk⟩
    · intro hv
      simpa using hrun.reached hv
  case first => exact hrun.head?_eq
  case ordered => exact hrun.ordered (hrun.nodup List.nodup_nil)
  case source => exact fun k => (hstate k).inv.self
  case unreached =>
    intro k v hv
    refine (hstate k).unlabelled v ?_
    by_contra hfin
    obtain ⟨_, d, _, _, _, hwalk⟩ := (hstate k).walk hfin
    exact hv ⟨d, hwalk⟩
  case tree =>
    intro k v hv
    obtain ⟨l, _, htree, hmem, _⟩ := (hstate k).walk (hlabel k v hv)
    refine ⟨l, fun u hu => ?_, htree⟩
    obtain rfl | hu := hmem u hu
    · exact hv
    · exact hsub k hu
  case distance =>
    intro k v hv d hd
    obtain hmem | hlast := hcases k v hv
    · have hcons : ∀ u v w, g.Arc u v w → (0 : ℚ) ≤ w + 0 := fun u v w harc => by
        rw [add_zero]
        exact PgrBdDijkstra.arc_nonneg hg harc
      obtain ⟨c, hc, hdist⟩ := (hstate k).inv.isDist hcons (((hstate k).finished v).mpr hmem)
      simp only [hc]
      exact_mod_cast hdist.le hd
    · exact (hrun.next hlast).2 v
        (SearchRun.not_mem_take (hrun.nodup List.nodup_nil) hlast) d hd

/-! ## Stopping at goals -/

/-- The search from one vertex, stopped when all goals have been examined. -/
def searchPaths : BoostDijkstra V E := fun g a goals =>
  let r := searchVisits g a
  match (List.range (r.examined.length + 1)).find? fun k => goals.all (· ∈ r.examined.take k) with
  | some k => ⟨r.predecessors k, r.distances k, some goals⟩
  | none => ⟨r.predecessors r.examined.length, r.distances r.examined.length, none⟩

/-- The search that stops does what is documented as well. -/
theorem searchPaths_documented (hg : ∀ e ∈ g.edges, 0 ≤ TEdge.cost e.bundle) (a : Nat)
    (goals : List Nat) : (searchPaths g a goals).Documented g a goals := by
  have hdoc := searchVisits_documented hg a
  obtain ⟨k, found, hrun, hstop, hmem⟩ : ∃ k found, searchPaths g a goals =
      ⟨(searchVisits g a).predecessors k, (searchVisits g a).distances k, found⟩ ∧
      (∀ l, found = some l → l = goals) ∧
      ∀ v ∈ goals, Reachable g.Arc a v → v ∈ (searchVisits g a).examined.take k := by
    rw [searchPaths]
    split
    · rename_i k hk
      refine ⟨k, _, rfl, fun l hl => (Option.some.inj hl).symm, fun v hv _ => ?_⟩
      have hall := List.find?_some hk
      simpa using List.all_eq_true.mp hall v hv
    · refine ⟨_, _, rfl, fun l hl => (by cases hl), fun v _ hreach => ?_⟩
      rw [List.take_length]
      exact (hdoc.reached v).mpr hreach
  rw [hrun]
  constructor
  case stopped =>
    intro l hl v hv
    rw [hstop l hl]
    exact hv
  case source => exact hdoc.source k
  case unreached => exact hdoc.unreached k
  case tree =>
    intro v hv hreach
    obtain ⟨l, _, htree⟩ := hdoc.tree k v (hmem v hv hreach)
    exact ⟨l, htree⟩
  case distance => exact fun v hv d hd => hdoc.distance k v (hmem v hv ⟨d, hd⟩) d hd

end PgRouting
