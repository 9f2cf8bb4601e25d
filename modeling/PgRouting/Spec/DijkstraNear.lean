import PgRouting.Native.DijkstraNear
import PgRouting.Spec.Dijkstra
import PgRouting.Lib.Loop
import PgRouting.Lib.Nearest

/-!
# The goals that one search finds

Boost examines the vertices that can be reached in the order of their distances, the source
first. `dijkstra_many_goal_visitor` stops it at the `n`-th goal, and the paths that are read
back from the maps join the source to the goals found up to then, except to the source
itself.

## Key results

- `DijkstraManyGoalVisitor.visit_spec`: the goals found are the first `n` that are examined
- `dijkstraFrom_spec`: the paths of one search
- `dijkstra_spec`: the paths of all searches
-/

namespace PgRouting

/-! ## The visitor -/

namespace DijkstraManyGoalVisitor

/-- Up to the call that throws, the visitor has found the first goals that are examined. -/
theorem visit_spec {l : List Nat} (hl : l.Nodup) :
    ∀ vis : DijkstraManyGoalVisitor, 1 ≤ vis.nGoals →
      (l.take (visit l vis).1).filter (· ∈ vis.goals) =
        (l.filter (· ∈ vis.goals)).take vis.nGoals ∧
      (visit l vis).2.1 = vis.foundGoals ++ (l.filter (· ∈ vis.goals)).take vis.nGoals ∧
      ((visit l vis).2.2 = false → (visit l vis).1 = l.length) := by
  induction l with
  | nil =>
    intro vis _
    simp [visit]
  | cons u rest ih =>
    intro vis hn
    have hu : u ∉ rest := (List.nodup_cons.mp hl).1
    have hrest : rest.Nodup := (List.nodup_cons.mp hl).2
    by_cases hgoal : u ∈ vis.goals
    · -- Later on `u` is not met again, so the goals without `u` are found in the same way.
      have hsame : rest.filter (· ∈ vis.goals.filter (· ≠ u)) = rest.filter (· ∈ vis.goals) := by
        apply List.filter_congr
        intro v hv
        have hne : v ≠ u := fun h => hu (h ▸ hv)
        simp [List.mem_filter, hne]
      -- The visitor throws after the goal when none is left to find or the number is used up.
      obtain ⟨n, hsucc⟩ : ∃ n, vis.nGoals = n + 1 := ⟨vis.nGoals - 1, by omega⟩
      have hfilter : (u :: rest).filter (· ∈ vis.goals) = u :: rest.filter (· ∈ vis.goals) :=
        List.filter_cons_of_pos (by simpa using hgoal)
      rw [hfilter, hsucc, List.take_succ_cons]
      by_cases hempty : (vis.goals.filter (· ≠ u)).length = 0
      · -- It was the last goal.
        have hnone : rest.filter (· ∈ vis.goals) = [] := by
          rw [← hsame, List.length_eq_zero_iff.mp hempty]
          simp
        have hex : vis.examineVertex u = (true,
            { vis with
              goals := vis.goals.filter (· ≠ u)
              foundGoals := vis.foundGoals ++ [u] }) := by
          rw [examineVertex, if_neg (by simpa using hgoal), if_pos hempty]
        simp only [visit, hex, hnone]
        simp [hgoal]
      · have hex : vis.examineVertex u = (decide (vis.nGoals - 1 = 0),
            { goals := vis.goals.filter (· ≠ u), nGoals := vis.nGoals - 1,
              foundGoals := vis.foundGoals ++ [u] }) := by
          rw [examineVertex, if_neg (by simpa using hgoal), if_neg hempty]
        rw [hsucc, Nat.add_sub_cancel] at hex
        cases n with
        | zero =>
          simp only [visit, hex]
          simp [hgoal]
        | succ n =>
          obtain ⟨htake, hfound, hend⟩ := ih hrest
            { goals := vis.goals.filter (· ≠ u), nGoals := n + 1,
              foundGoals := vis.foundGoals ++ [u] } (by simp)
          simp only [visit, hex, Nat.add_eq_zero_iff, one_ne_zero, and_false, decide_false]
          simp only [hsame] at htake hfound
          refine ⟨?_, ?_, fun hthrow => ?_⟩
          · rw [List.take_succ_cons, List.filter_cons_of_pos (by simpa using hgoal), ← htake]
            apply congrArg
            apply List.filter_congr
            intro v hv
            have hne : v ≠ u := fun h => hu (h ▸ List.mem_of_mem_take hv)
            simp [List.mem_filter, hne]
          · rw [hfound, List.append_assoc]
            rfl
          · rw [hend hthrow, List.length_cons]
    · -- A vertex that is no goal changes nothing.
      have hex : vis.examineVertex u = (false, vis) := by
        rw [examineVertex, if_pos hgoal]
      obtain ⟨htake, hfound, hend⟩ := ih hrest vis hn
      have hfilter : (u :: rest).filter (· ∈ vis.goals) = rest.filter (· ∈ vis.goals) :=
        List.filter_cons_of_neg (by simpa using hgoal)
      simp only [visit, hex]
      rw [hfilter, List.take_succ_cons, List.filter_cons_of_neg (by simpa using hgoal)]
      exact ⟨htake, hfound, fun hthrow => by rw [hend hthrow, List.length_cons]⟩

end DijkstraManyGoalVisitor

variable {V E : Type} [TVertex V] [TEdge E]

/-- What `boost::dijkstra_shortest_paths` does from the vertex `s`: it examines the vertices that
    can be reached once each in the order of their distances, and the predecessors of a vertex
    that has been examined lead back to `s` over such vertices, along a shortest path. -/
structure BoostVisits.Documented (g : AdjacencyList V E) (s : Nat) (r : BoostVisits) : Prop where
  nodup : r.examined.Nodup
  reached : ∀ v, v ∈ r.examined ↔ Reachable g.Arc s v
  first : r.examined.head? = some s
  ordered : r.examined.Pairwise fun u v =>
    ∀ c d, IsDist g.Arc s u c → IsDist g.Arc s v d → c ≤ d
  source : ∀ k, r.predecessors k s = s
  unreached : ∀ k v, ¬ Reachable g.Arc s v → r.predecessors k v = v
  tree : ∀ k, ∀ v ∈ r.examined.take k, ∃ l, l ⊆ r.examined.take k ∧
    TreePath g.Arc (r.predecessors k) (r.distances k) s l v
  distance : ∀ k, ∀ v ∈ r.examined.take k, ∀ d, Walk g.Arc s v d → r.distances k v ≤ d

omit [TVertex V] in
/-- What has been examined has its distance for a label. -/
theorem BoostVisits.Documented.label {g : AdjacencyList V E} {s v k : Nat} {r : BoostVisits}
    (h : r.Documented g s) (hv : v ∈ r.examined.take k) :
    ∃ d : ℚ, r.distances k v = d ∧ IsDist g.Arc s v d := by
  obtain ⟨l, _, htree⟩ := h.tree k v hv
  obtain ⟨d, hd, hwalk⟩ := htree.walk
  refine ⟨d, hd, hwalk, fun c hc => ?_⟩
  have hle := h.distance k v hv c hc
  rw [hd] at hle
  exact WithTop.coe_le_coe.mp hle

/-! ## Reading one path back -/

section Path

variable {g : PgrBaseGraph V E} {predecessors predecessors' : Nat → Nat}
variable {distances : Nat → WithTop ℚ} {s v : Nat} {l : List Nat}

omit [TVertex V] [TEdge E] in
/-- A path in the tree depends only on the predecessors of its vertices. -/
theorem TreePath.congr {A : Nat → Nat → ℚ → Prop} (h : TreePath A predecessors distances s l v)
    (hsame : ∀ u ∈ l, predecessors' u = predecessors u) :
    TreePath A predecessors' distances s l v := by
  induction h with
  | source h => exact .source h
  | @step l u v w _ hv hp harc hd ih =>
    have hlast : predecessors' v = predecessors v := hsame v (by simp)
    exact .step (ih fun u hu => hsame u (List.mem_append_left _ hu)) hv (hlast.trans hp) harc hd

/-- The costs of the rows along a path in the tree add up to its weight. -/
theorem TreePath.sum_rows (h : TreePath g.graph.Arc predecessors distances s l v) :
    ((Path.treeRows g distances l).map (·.cost)).sum = (distances v).untopD 0 := by
  induction h with
  | source h => simp [Path.treeRows, h]
  | @step l u v w htree _ _ _ hd ih =>
    obtain ⟨l', rfl⟩ := htree.eq_snoc
    rw [Path.treeRows_snoc, List.map_append, List.sum_append, ih]
    simp

/-- A path with the weight `d` as it is read back: its rows, whose costs add up to `d`, and its
    total cost, to which `unset` has been added. -/
structure ReadBack (g : PgrBaseGraph V E) (unset : Nat → Nat → ℚ) (onlyCost : Bool) (s v : Nat)
    (d : ℚ) (p : Path) : Prop where
  startId : p.startId = g.vertexId s
  endId : p.endId = g.vertexId v
  cost : (p.path.map (·.cost)).sum = d
  single : onlyCost = true → p.path.length = 1
  last : onlyCost = false → ∃ rows aggCost, p.path = rows ++ [⟨g.vertexId v, -1, 0, aggCost⟩]
  totCost : p.totCost = unset s v + d

omit [TEdge E] in
/-- There are rows on a path that has been read back. -/
theorem ReadBack.length_ne {unset : Nat → Nat → ℚ} {onlyCost : Bool} {d : ℚ} {p : Path}
    (h : ReadBack g unset onlyCost s v d p) : p.path.length ≠ 0 := by
  cases honly : onlyCost with
  | true =>
    have hone := h.single honly
    omega
  | false =>
    obtain ⟨rows, _, heq⟩ := h.last honly
    simp [heq]

/-- The path to a vertex that is its own predecessor is empty. -/
theorem newPath_self (unset : Nat → Nat → ℚ) (onlyCost : Bool) (hself : predecessors v = v) :
    ∃ p, DijkstraNear.newPath g unset s v predecessors distances onlyCost = some p ∧
      p.path = [] := by
  have hread : Path.ofPredecessors g s v predecessors distances onlyCost true =
      some (.new (g.vertexId s) (g.vertexId v)) := by
    cases onlyCost <;> simp [Path.ofPredecessors, Path.completePath, hself]
  rw [DijkstraNear.newPath, hread]
  exact ⟨_, rfl, rfl⟩

/-- The path to another vertex of the tree has the weight of the path in the tree. -/
theorem newPath_tree (unset : Nat → Nat → ℚ) (onlyCost : Bool)
    (h : TreePath g.graph.Arc predecessors distances s l v) (hvs : v ≠ s)
    (hlen : l.length ≤ g.graph.numVertices + 1) {d : ℚ} (hd : distances v = d) :
    ∃ p, DijkstraNear.newPath g unset s v predecessors distances onlyCost = some p ∧
      ReadBack g unset onlyCost s v d p := by
  -- Another vertex is not its own predecessor.
  have hfar : v ≠ predecessors v := by
    cases h with
    | source => exact absurd rfl hvs
    | step htree hv hp _ _ =>
      intro heq
      apply hv
      rw [heq, hp]
      exact htree.mem
  cases onlyCost with
  | true =>
    have hread : Path.ofPredecessors g s v predecessors distances true true =
        some ⟨[⟨g.vertexId v, -1, d, d⟩], g.vertexId s, g.vertexId v, d⟩ := by
      simp [Path.ofPredecessors, hfar, hd, Path.pushFront, Path.new]
    rw [DijkstraNear.newPath, hread]
    refine ⟨_, rfl, rfl, rfl, ?_, fun _ => rfl, fun hfalse => ?_, rfl⟩
    · simp
    · cases hfalse
  | false =>
    obtain ⟨d', hd', hloop⟩ := h.completePathLoop hlen
      ((Path.new (g.vertexId s) (g.vertexId v)).pushFront
        ⟨g.vertexId v, -1, 0, (distances v).untopD 0⟩)
    obtain rfl : d' = d := WithTop.coe_injective (hd'.symm.trans hd)
    have hread : Path.ofPredecessors g s v predecessors distances false true =
        some ⟨Path.treeRows g distances l ++ [⟨g.vertexId v, -1, 0, d'⟩], g.vertexId s,
          g.vertexId v, d'⟩ := by
      rw [Path.ofPredecessors, Bool.not_false, if_pos rfl, Path.completePath, if_neg hfar, hloop]
      simp [hd, Path.pushFront, Path.new]
    rw [DijkstraNear.newPath, hread]
    refine ⟨_, rfl, rfl, rfl, ?_, fun htrue => ?_, fun _ => ⟨_, _, rfl⟩, rfl⟩
    · rw [List.map_append, List.sum_append, h.sum_rows, hd]
      simp
    · cases htrue

end Path

/-! ## One search -/

namespace DijkstraNear

variable {boost : BoostDijkstraVisits V E} {g : PgrBaseGraph V E} {a v n : Nat}

/-- The goals that the search from `a` finds, in the order in which it does. -/
def foundGoals (boost : BoostDijkstraVisits V E) (g : AdjacencyList V E) (a : Nat)
    (destinations : List Nat) (n : Nat) : List Nat :=
  ((boost g a).examined.filter (· ∈ destinations)).take n

/-- After the search a destination is its own predecessor or has been found, and the paths to
    those that have been found are shortest paths. -/
theorem dijkstra1ToMany_spec (hg : g.Consistent) (ha : a < g.graph.vertices.length)
    (hboost : (boost g.graph a).Documented g.graph a) {destinations : List Nat} (hn : 1 ≤ n)
    (hv : v ∈ destinations) :
    (v ∈ foundGoals boost g.graph a destinations n →
      ∃ l d, TreePath g.graph.Arc (dijkstra1ToMany boost g.graph a destinations n).1
          (dijkstra1ToMany boost g.graph a destinations n).2 a l v ∧
        l.length ≤ g.graph.numVertices + 1 ∧
        (dijkstra1ToMany boost g.graph a destinations n).2 v = (d : ℚ) ∧
        IsDist g.graph.Arc a v d) ∧
    (v ∉ foundGoals boost g.graph a destinations n →
      (dijkstra1ToMany boost g.graph a destinations n).1 v = v) ∧
    (dijkstra1ToMany boost g.graph a destinations n).1 a = a := by
  obtain ⟨htake, hfound, hend⟩ := DijkstraManyGoalVisitor.visit_spec hboost.nodup
    { goals := destinations, nGoals := n, foundGoals := [] } hn
  rw [List.nil_append] at hfound
  rw [foundGoals, dijkstra1ToMany]
  generalize DijkstraManyGoalVisitor.visit (boost g.graph a).examined
    { goals := destinations, nGoals := n, foundGoals := [] } = r at htake hfound hend ⊢
  obtain ⟨calls, found, thrown⟩ := r
  simp only at htake hfound hend ⊢
  -- A destination has been examined exactly when it has been found.
  have hmem : ∀ w ∈ destinations, (w ∈ (boost g.graph a).examined.take calls ↔ w ∈ found) := by
    intro w hw
    rw [hfound, ← htake, List.mem_filter]
    simp [hw]
  rw [← hfound]
  refine ⟨fun hin => ?_, fun hout => ?_, ?_⟩
  · have hexam := (hmem v hv).mpr hin
    obtain ⟨l, hsub, htree⟩ := hboost.tree calls v hexam
    obtain ⟨d, hd, hwalk⟩ := htree.walk
    have hleast : IsDist g.graph.Arc a v d := ⟨hwalk, fun c hc => by
      have hle := hboost.distance calls v hexam c hc
      rw [hd] at hle
      exact WithTop.coe_le_coe.mp hle⟩
    have hlen : l.length ≤ g.graph.numVertices + 1 := by
      have hrange : l ⊆ List.range g.graph.vertices.length := fun u hu =>
        List.mem_range.mpr (htree.lt hg.ends ha u hu)
      have hcard := (htree.nodup.subperm hrange).length_le
      rw [List.length_range] at hcard
      exact hcard.trans (Nat.le_succ _)
    refine ⟨l, d, htree.congr fun u hu => ?_, hlen, hd, hleast⟩
    -- Only destinations that were not found are reset, and none of them is on the way.
    have hkeep : ¬ (u ∈ destinations ∧ u ∉ found) := fun h =>
      h.2 ((hmem u h.1).mp (hsub hu))
    cases thrown <;> simp [hkeep]
  · cases thrown with
    | true => simp [hv, hout]
    | false =>
      -- The search was not stopped, so it has examined whatever can be reached.
      have hall : (boost g.graph a).examined.take calls = (boost g.graph a).examined := by
        rw [hend rfl, List.take_length]
      have hunreach : ¬ Reachable g.graph.Arc a v := by
        intro hreach
        apply hout
        rw [← hmem v hv, hall]
        exact (hboost.reached v).mpr hreach
      exact hboost.unreached calls v hunreach
  · have hsrc := hboost.source calls
    cases thrown with
    | true =>
      simp only [if_true, hsrc]
      split <;> rfl
    | false => exact hsrc

omit [TVertex V] in
/-- A vertex that is examined has a distance. -/
theorem exists_isDist (hboost : (boost g.graph a).Documented g.graph a)
    (hv : v ∈ (boost g.graph a).examined) : ∃ d, IsDist g.graph.Arc a v d := by
  have hmem : v ∈ (boost g.graph a).examined.take (boost g.graph a).examined.length := by
    rwa [List.take_length]
  obtain ⟨l, _, htree⟩ := hboost.tree _ v hmem
  obtain ⟨d, hd, hwalk⟩ := htree.walk
  refine ⟨d, hwalk, fun c hc => ?_⟩
  have hle := hboost.distance _ v hmem c hc
  rw [hd] at hle
  exact WithTop.coe_le_coe.mp hle

/-- The targets of one source that its search leaves with a path. -/
def nearTargets (boost : BoostDijkstraVisits V E) (g : PgrBaseGraph V E) (n : Nat)
    (c : Int × List Int) : List Int :=
  match g.verticesMap c.1 with
  | none => []
  | some a =>
    ((foundGoals boost g.graph a (c.2.filterMap g.verticesMap) n).filter (· ≠ a)).map g.vertexId

/-- A path that is a shortest path between its ends. -/
structure ShortestRead (g : PgrBaseGraph V E) (unset : Nat → Nat → ℚ) (onlyCost : Bool)
    (p : Path) : Prop where
  read : ∃ a b d, g.verticesMap p.startId = some a ∧ g.verticesMap p.endId = some b ∧
    ReadBack g unset onlyCost a b d p ∧ IsDist g.IdArc p.startId p.endId d

omit [TVertex V] [TEdge E] in
theorem mem_destinations {c : List Int} :
    v ∈ (c.filterMap g.verticesMap).dedup.mergeSort ↔ v ∈ c.filterMap g.verticesMap := by
  rw [List.mem_mergeSort, List.mem_dedup]

omit [TVertex V] [TEdge E] in
/-- The goals found do not depend on how the destinations are listed. -/
theorem foundGoals_congr {l l' : List Nat} (h : ∀ v, v ∈ l ↔ v ∈ l') :
    foundGoals boost g.graph a l n = foundGoals boost g.graph a l' n := by
  have hpred : (fun v => decide (v ∈ l)) = fun v => decide (v ∈ l') := by
    funext v
    exact decide_eq_decide.mpr (h v)
  rw [foundGoals, foundGoals, hpred]

/-- The path to one destination has rows exactly when the destination has been found and is not
    the source. -/
theorem newPath_spec (hg : g.Consistent) (hboost : (boost g.graph a).Documented g.graph a)
    (hn : 1 ≤ n) (unset : Nat → Nat → ℚ) (onlyCost : Bool) {s t : Int}
    (ha : g.verticesMap s = some a) (hb : g.verticesMap t = some v) {destinations : List Nat}
    (hv : v ∈ destinations) :
    ∃ p, newPath g unset a v (dijkstra1ToMany boost g.graph a destinations n).1
        (dijkstra1ToMany boost g.graph a destinations n).2 onlyCost = some p ∧
      (p.path.length ≠ 0 ↔ v ∈ foundGoals boost g.graph a destinations n ∧ v ≠ a) ∧
      (p.path.length ≠ 0 → p.startId = s ∧ p.endId = t ∧ ShortestRead g unset onlyCost p) := by
  obtain ⟨hin, hout, hself⟩ := dijkstra1ToMany_spec hg (hg.lt ha) hboost hn hv
  by_cases hfound : v ∈ foundGoals boost g.graph a destinations n ∧ v ≠ a
  · obtain ⟨l, d, htree, hlen, hd, hdist⟩ := hin hfound.1
    obtain ⟨p, hp, hread⟩ := newPath_tree unset onlyCost htree hfound.2 hlen hd
    have hs : p.startId = s := hread.startId.trans (hg.vertexId_eq ha)
    have ht : p.endId = t := hread.endId.trans (hg.vertexId_eq hb)
    have hdist' : IsDist g.IdArc s t d := (hg.isDist_idArc ha hb).mpr hdist
    refine ⟨p, hp, iff_of_true hread.length_ne hfound,
      fun _ => ⟨hs, ht, a, v, d, ?_, ?_, hread, ?_⟩⟩
    · rw [hs]
      exact ha
    · rw [ht]
      exact hb
    · rw [hs, ht]
      exact hdist'
  · -- The source, and a goal that has not been found, is its own predecessor.
    have hpred : (dijkstra1ToMany boost g.graph a destinations n).1 v = v := by
      by_cases hvf : v ∈ foundGoals boost g.graph a destinations n
      · have hva : v = a := by
          by_contra hne
          exact hfound ⟨hvf, hne⟩
        rw [hva]
        exact hself
      · exact hout hvf
    obtain ⟨p, hp, hempty⟩ := newPath_self (s := a) (g := g) unset onlyCost hpred
    have hzero : ¬ p.path.length ≠ 0 := by simp [hempty]
    exact ⟨p, hp, iff_of_false hzero hfound, fun h => absurd h hzero⟩

/-- The paths that `detail::dijkstra` returns for one source. -/
theorem dijkstraFrom_spec (hg : g.Consistent)
    (hboost : ∀ a < g.graph.numVertices, (boost g.graph a).Documented g.graph a) (hn : 1 ≤ n)
    (unset : Nat → Nat → ℚ) (onlyCost : Bool) (c : Int × List Int) :
    ∃ ps, dijkstraFrom boost g unset c.1 c.2 onlyCost n = some ps ∧
      ((ps.filter (·.path.length ≠ 0)).map fun p => (p.startId, p.endId)).Perm
        ((nearTargets boost g n c).map fun t => (c.1, t)) ∧
      ∀ p ∈ ps, p.path.length ≠ 0 → ShortestRead g unset onlyCost p := by
  cases ha : g.verticesMap c.1 with
  | none =>
    refine ⟨[], by simp [dijkstraFrom, ha], by simp [nearTargets, ha], ?_⟩
    intro p hp
    cases hp
  | some a =>
    generalize hdest : (c.2.filterMap g.verticesMap).dedup.mergeSort = destinations
    -- The destinations are vertices with the ids that have been asked for.
    have hid : ∀ b ∈ destinations, g.verticesMap (g.vertexId b) = some b := by
      intro b hb
      rw [← hdest, mem_destinations] at hb
      obtain ⟨t, _, hmap⟩ := List.mem_filterMap.mp hb
      exact hg.map_vertexId (hg.lt hmap)
    -- The path of each destination.
    have hpath : ∀ b, ∃ p, b ∈ destinations →
        newPath g unset a b (dijkstra1ToMany boost g.graph a destinations n).1
          (dijkstra1ToMany boost g.graph a destinations n).2 onlyCost = some p ∧
        (p.path.length ≠ 0 ↔ b ∈ foundGoals boost g.graph a destinations n ∧ b ≠ a) ∧
        (p.path.length ≠ 0 → p.startId = c.1 ∧ p.endId = g.vertexId b ∧
          ShortestRead g unset onlyCost p) := by
      intro b
      by_cases hb : b ∈ destinations
      · obtain ⟨p, hp⟩ := newPath_spec hg (hboost a (hg.lt ha)) hn unset onlyCost ha (hid b hb) hb
        exact ⟨p, fun _ => hp⟩
      · exact ⟨{}, fun h => absurd h hb⟩
    choose path hspec using hpath
    refine ⟨destinations.map path, ?_, ?_, ?_⟩
    · simp only [dijkstraFrom, ha, hdest]
      exact mapM_eq_map fun b hb => (hspec b hb).1
    · -- Both sides list each pair once.
      have hfound : foundGoals boost g.graph a (c.2.filterMap g.verticesMap) n =
          foundGoals boost g.graph a destinations n :=
        foundGoals_congr fun v => by rw [← hdest, mem_destinations]
      have hmem : ∀ b ∈ foundGoals boost g.graph a destinations n, b ∈ destinations := by
        intro b hb
        simpa using (List.mem_filter.mp (List.mem_of_mem_take hb)).2
      have hleft : ((destinations.map path).filter (·.path.length ≠ 0)).map
          (fun p => (p.startId, p.endId)) =
          ((destinations.filter fun b => b ∈ foundGoals boost g.graph a destinations n ∧ b ≠ a).map
            fun b => (c.1, g.vertexId b)) := by
        rw [List.filter_map, List.map_map]
        have hfilter : destinations.filter ((fun p : Path => decide (p.path.length ≠ 0)) ∘ path) =
            destinations.filter fun b =>
              b ∈ foundGoals boost g.graph a destinations n ∧ b ≠ a := by
          apply List.filter_congr
          intro b hb
          exact decide_eq_decide.mpr (hspec b hb).2.1
        rw [hfilter]
        apply List.map_congr_left
        intro b hb
        obtain ⟨hb, hcond⟩ := List.mem_filter.mp hb
        obtain ⟨hs, ht, _⟩ := (hspec b hb).2.2 ((hspec b hb).2.1.mpr (by simpa using hcond))
        show ((path b).startId, (path b).endId) = _
        rw [hs, ht]
      have hnear : (nearTargets boost g n c).map (fun t => (c.1, t)) =
          ((foundGoals boost g.graph a destinations n).filter (· ≠ a)).map
            fun b => (c.1, g.vertexId b) := by
        simp only [nearTargets, ha, hfound, List.map_map]
        rfl
      rw [hleft, hnear]
      apply List.Perm.map
      -- Neither list has a repetition, so it is enough that they have the same elements.
      have hnodup : destinations.Nodup := by
        rw [← hdest, (List.mergeSort_perm _ _).nodup_iff]
        exact List.nodup_dedup _
      have hnodup' : (foundGoals boost g.graph a destinations n).Nodup :=
        ((hboost a (hg.lt ha)).nodup.filter _).sublist (List.take_sublist _ _)
      apply (List.perm_ext_iff_of_nodup (hnodup.filter _) (hnodup'.filter _)).mpr
      intro b
      simp only [List.mem_filter, decide_eq_true_eq]
      constructor
      · intro h
        exact h.2
      · intro h
        exact ⟨hmem b h.1, h⟩
    · intro p hp hne
      obtain ⟨b, hb, rfl⟩ := List.mem_map.mp hp
      exact ((hspec b hb).2.2 hne).2.2

/-- The paths of all searches: their pairs, and that they are shortest paths. -/
theorem dijkstra_spec (hg : g.Consistent)
    (hboost : ∀ a < g.graph.numVertices, (boost g.graph a).Documented g.graph a) (hn : 1 ≤ n)
    (unset : Nat → Nat → ℚ) (onlyCost : Bool) (combinations : List (Int × List Int)) :
    ∃ ps, dijkstra boost g unset combinations onlyCost n = some ps ∧
      ((ps.filter (·.path.length ≠ 0)).map fun p => (p.startId, p.endId)).Perm
        (combinations.flatMap fun c => (nearTargets boost g n c).map fun t => (c.1, t)) ∧
      ∀ p ∈ ps, p.path.length ≠ 0 → ShortestRead g unset onlyCost p := by
  -- Generalized over the paths of the combinations before.
  suffices h : ∀ paths : List Path, ∃ ps, combinations.foldlM (fun paths c => do
      let rPaths ← dijkstraFrom boost g unset c.1 c.2 onlyCost n
      pure (rPaths ++ paths)) paths = some ps ∧
      ((ps.filter (·.path.length ≠ 0)).map fun p => (p.startId, p.endId)).Perm
        ((paths.filter (·.path.length ≠ 0)).map (fun p => (p.startId, p.endId)) ++
          combinations.flatMap fun c => (nearTargets boost g n c).map fun t => (c.1, t)) ∧
      ∀ p ∈ ps, p.path.length ≠ 0 → p ∈ paths ∨ ShortestRead g unset onlyCost p by
    obtain ⟨ps, hrun, hpairs, hread⟩ := h []
    refine ⟨ps, hrun, hpairs, fun p hp hne => ?_⟩
    obtain hnil | hread := hread p hp hne
    · cases hnil
    · exact hread
  induction combinations with
  | nil => exact fun paths => ⟨paths, rfl, by simp, fun p hp _ => .inl hp⟩
  | cons c combinations ih =>
    intro paths
    obtain ⟨ps₁, hrun₁, hpairs₁, hread₁⟩ := dijkstraFrom_spec hg hboost hn unset onlyCost c
    obtain ⟨ps, hrun, hpairs, hread⟩ := ih (ps₁ ++ paths)
    refine ⟨ps, ?_, hpairs.trans ?_, fun p hp hne => ?_⟩
    · rw [List.foldlM_cons, hrun₁]
      exact hrun
    · rw [List.filter_append, List.map_append, List.flatMap_cons, ← List.append_assoc]
      apply List.Perm.append_right
      exact (hpairs₁.append_right _).trans List.perm_append_comm
    · obtain hmem | hshort := hread p hp hne
      · obtain hmem | hmem := List.mem_append.mp hmem
        · exact .inr (hread₁ p hmem hne)
        · exact .inl hmem
      · exact .inr hshort

end DijkstraNear

end PgRouting
