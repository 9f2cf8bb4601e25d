import PgRouting.Spec.EliminateDetails
import PgRouting.Spec.NearestPaths
import PgRouting.Spec.PointTables
import PgRouting.Spec.RequestPairs

/-!
# The answers of the shortest path driver

From its arguments to the paths that it answers: the pairs are put into a map, the points divide
the edges, the searches go over the graph of the new table, and the paths are turned round, sorted
and stripped of their details. What comes out is told in terms of the roads and their points.

## Key results

- `postProcess_all`: `post_process` without a limit on the goals
- `graph_equidistant`: the graph that is searched has the distances of the network
- `Found.answers_eq`: when two requests have the same answers
- `doShortestPath_spec`: the answers are the shortest paths of the network
-/

namespace PgRouting

namespace DijkstraNear

variable {V E : Type} [TVertex V] [TEdge E]
variable {boost : BoostDijkstraVisits V E} {g : PgrBaseGraph V E} {n : Nat}
variable {c : Int × List Int}

/-! ## Looking for all goals -/

/-- Without a limit `post_process` finishes the paths that have rows and sorts them by their
    ends. -/
theorem postProcess_all (paths : List Path) (onlyCost normal global : Bool) :
    (postProcess paths onlyCost normal sizeMax global).Perm
        ((paths.filter (·.path.length ≠ 0)).map (finishPath onlyCost normal)) ∧
      (postProcess paths onlyCost normal sizeMax global).Pairwise fun p q =>
        p.startId < q.startId ∨ p.startId = q.startId ∧ p.endId ≤ q.endId := by
  let kept := (paths.filter (·.path.length ≠ 0)).map (finishPath onlyCost normal)
  have hrun : postProcess paths onlyCost normal sizeMax global =
      (kept.mergeSort fun e₁ e₂ => decide (e₁.endId ≤ e₂.endId)).mergeSort
        fun e₁ e₂ => decide (e₁.startId ≤ e₂.startId) := by
    rw [postProcess_eq]
    exact if_neg (not_not.mpr rfl)
  rw [hrun]
  exact ⟨(List.mergeSort_perm _ _).trans (List.mergeSort_perm _ _),
    pairwise_mergeSort_lex Path.startId Path.endId kept⟩

/-- A search with room for all its targets finds them all. -/
theorem mem_nearTargets (hg : g.Consistent)
    (hboost : ∀ a < g.graph.numVertices, (boost g.graph a).Documented g.graph a) (hn : 1 ≤ n)
    (hroom : c.2.length < n) {t : Int} :
    t ∈ nearTargets boost g n c ↔ Target g c t := by
  have hnearest := nearTargets_nearest hg hboost hn c
  refine ⟨hnearest.sound t, hnearest.all ?_ t⟩
  have hsub : nearTargets boost g n c ⊆ c.2.filter (· ≠ c.1) := by
    intro t ht
    obtain ⟨hmem, hne, _⟩ := hnearest.sound t ht
    exact List.mem_filter.mpr ⟨hmem, decide_eq_true hne⟩
  have hle := (hnearest.nodup.subperm hsub).length_le
  rw [cap]
  split
  · rename_i hself
    have hlt : (c.2.filter (· ≠ c.1)).length < c.2.length :=
      List.length_filter_lt_length_iff_exists.mpr ⟨c.1, hself, by simp⟩
    omega
  · have hfilter := List.length_filter_le (· ≠ c.1) c.2
    omega

end DijkstraNear

namespace ShortestPathDriver

open PgPointsGraph DijkstraNear

variable {d : Side} {r : Request} {s t : Int}

/-! ## The network of a request -/

namespace Request

variable (r : Request)

/-- The points of a request. -/
def stops : List PointOnEdge := r.points.getD []

/-- The ways between the vertices and points of a request, in the direction of travel. -/
def Way (d : Side) : Int → Int → ℚ → Prop :=
  Oriented r.directed (RoadArc r.edges (effectiveSide d r.directed) r.stops)

/-- The pairs that are asked for, in the direction of travel. -/
def Asks (s t : Int) : Prop := if r.normal then r.Searches s t else r.Searches t s

/-- The rows of the graph that is searched. -/
def searchedRows (d : Side) : List EdgeT :=
  r.read.1 ++ (new r.stops r.read.2 r.normal d r.directed).newEdges

/-- The graph that is searched. -/
def graph (d : Side) : PgrBaseGraph BasicVertex BasicEdge := .ofTable r.directed (r.searchedRows d)

/-- A request that can be answered: there are pairs and edges, and the roads can be divided at
    their points. -/
structure Valid (d : Side) : Prop where
  side : (estimateDrivingSide r.drivingSide r.which).map (·.getD .both) = .ok d
  which : r.which = 0 ∨ r.which = 101 ∨ r.which = 1
  asks : r.combinationsSql.isSome → r.rows ≠ [] ∨ r.searchStarts ≠ []
  edges : r.edges ≠ []
  network : Network r.edges r.stops
  dividable : Dividable r.normal (effectiveSide d r.directed) r.edges r.stops
  apart : r.normal = false → Apart r.stops

end Request

/-- The two tables that are read are the edges without points and those with points. -/
theorem read_spec (r : Request) :
    (∀ e, e ∈ r.edges.map (fetchEdge r.normal) ↔ e ∈ r.read.1 ∨ e ∈ r.read.2) ∧
      (∀ e ∈ r.read.1, ∀ p ∈ r.stops, p.edgeId ≠ e.id) ∧
      ∀ e ∈ r.read.2, ∃ p ∈ r.stops, p.edgeId = e.id := by
  rw [Request.read, Request.stops]
  cases r.points with
  | none =>
    exact ⟨fun e => (or_iff_left List.not_mem_nil).symm,
      fun _ _ _ hp => absurd hp List.not_mem_nil, fun _ he => absurd he List.not_mem_nil⟩
  | some points =>
    simp only [Option.getD_some, edgesNoPointsQuery, edgesOfPointsQuery]
    refine ⟨fun e => ?_, fun e he p hp hid => ?_, fun e he => ?_⟩
    · simp only [List.mem_map, List.mem_filter, List.mem_dedup, Bool.not_eq_true']
      rw [← exists_or]
      refine exists_congr fun e' => ?_
      cases points.any fun point => decide (e'.id = point.edgeId) <;> simp
    · obtain ⟨e, hmem, rfl⟩ := List.mem_map.mp he
      obtain ⟨_, hnone⟩ := List.mem_filter.mp hmem
      rw [fetchEdge_id] at hid
      have hany : points.any (fun point => decide (e.id = point.edgeId)) = true :=
        List.any_eq_true.mpr ⟨p, hp, decide_eq_true hid.symm⟩
      rw [hany] at hnone
      exact Bool.false_ne_true hnone
    · obtain ⟨e, hmem, rfl⟩ := List.mem_map.mp he
      obtain ⟨_, hsome⟩ := List.mem_filter.mp (List.mem_dedup.mp hmem)
      obtain ⟨p, hp, hid⟩ := List.any_eq_true.mp hsome
      exact ⟨p, hp, (of_decide_eq_true hid).symm.trans (fetchEdge_id r.normal).symm⟩

/-- The graph that is searched has the distances of the network, in the direction of the
    search. -/
theorem graph_equidistant (h : r.Valid d) :
    (new r.stops r.read.2 r.normal d r.directed).error = "" ∧ r.searchedRows d ≠ [] ∧
      Equidistant (r.graph d).IdArc
        (Oriented r.directed (Along r.normal
          (RoadArc r.edges (effectiveSide d r.directed) r.stops))) := by
  obtain ⟨hes, hothers, hdivided⟩ := read_spec r
  obtain ⟨herror, hne, hequi⟩ := searched_spec r.normal r.directed h.network h.dividable h.apart
    hes hothers hdivided
  refine ⟨herror, fun hnil => ?_, ?_⟩
  · obtain ⟨hleft, hright⟩ := List.append_eq_nil_iff.mp hnil
    obtain ⟨e, he⟩ := List.exists_mem_of_ne_nil _ h.edges
    obtain he | he := (hes _).mp (List.mem_map_of_mem he)
    · rw [hleft] at he
      exact nomatch he
    · exact hne (List.ne_nil_of_mem he) hright
  · exact (Equidistant.of_iff fun u v w => PgrBaseGraph.idArc_ofTable_iff).trans
      (hequi.oriented r.directed)

theorem isDist_graph (h : r.Valid d) {a b : Int} {c : ℚ} : IsDist (r.graph d).IdArc a b c ↔
    if r.normal then IsDist (r.Way d) a b c else IsDist (r.Way d) b a c :=
  ((graph_equidistant h).2.2.isDist_iff c).trans isDist_along

theorem reachable_graph (h : r.Valid d) {a b : Int} : Reachable (r.graph d).IdArc a b ↔
    if r.normal then Reachable (r.Way d) a b else Reachable (r.Way d) b a :=
  (graph_equidistant h).2.2.reachable_iff.trans reachable_along

/-! ## The searches -/

variable (boost : BoostDijkstraVisits BasicVertex BasicEdge)

/-- A request that can be answered reaches the searches. -/
theorem doShortestPath_eq (unset : Nat → Nat → ℚ) (h : r.Valid d) :
    doShortestPath boost unset r = (findPaths boost unset r (r.searchedRows d)).map .paths := by
  obtain ⟨herror, hrows, _⟩ := graph_equidistant h
  have hpairs : ¬ (r.combinations.isEmpty ∧ r.combinationsSql.isSome) := by
    rintro ⟨hempty, hsome⟩
    obtain ⟨hnil, hstarts⟩ := r.getCombinations_spec.2.1.mp (List.isEmpty_iff.mp hempty)
    exact (h.asks hsome).elim (· hnil) (· hstarts)
  have hread : ¬ (r.points.isSome ∧ r.read.1.isEmpty ∧ r.read.2.isEmpty) := by
    rintro ⟨_, hleft, hright⟩
    obtain ⟨e, he⟩ := List.exists_mem_of_ne_nil _ h.edges
    have hmem := ((read_spec r).1 _).mp (List.mem_map_of_mem he)
    rw [List.isEmpty_iff.mp hleft, List.isEmpty_iff.mp hright] at hmem
    exact hmem.elim (nomatch ·) (nomatch ·)
  obtain ⟨side, hside, rfl⟩ : ∃ side, estimateDrivingSide r.drivingSide r.which = .ok side ∧
      side.getD .both = d := by
    have hside := h.side
    cases hestimate : estimateDrivingSide r.drivingSide r.which with
    | error e => rw [hestimate] at hside; cases hside
    | ok side => rw [hestimate] at hside; exact ⟨side, rfl, Except.ok.inj hside⟩
  have herror : (new (r.points.getD []) r.read.2 r.normal (side.getD .both)
      r.directed).error = "" := herror
  rw [doShortestPath, if_neg hpairs]
  simp only [if_neg hread, hside, herror]
  rw [if_neg (by decide)]
  have hrows : ¬ (r.read.1 ++ (new (r.points.getD []) r.read.2 r.normal (side.getD .both)
      r.directed).newEdges).isEmpty = true := fun hempty => hrows (List.isEmpty_iff.mp hempty)
  rw [if_neg hrows]
  rfl

/-- What is done to the paths after they have been sorted. -/
def Request.present (r : Request) (p : Path) : Path :=
  if r.details then p else eliminateDetails p

theorem searchedPair_present (normal : Bool) (p : Path) :
    searchedPair normal (r.present p) = searchedPair normal p := by
  rw [Request.present]
  split
  · rfl
  · rw [searchedPair, searchedPair, (eliminateDetails_ends p).1, (eliminateDetails_ends p).2]

theorem present_sum (p : Path) :
    ((r.present p).path.map (·.cost)).sum = (p.path.map (·.cost)).sum := by
  rw [Request.present]
  split
  · rfl
  · exact eliminateDetails_sum p

/-- The ends of a path as they are searched and as they are asked for. -/
theorem searchedPair_eq_iff {normal : Bool} {p : Path} {a b : Int} :
    searchedPair normal p = (a, b) ↔
      if normal then p.startId = a ∧ p.endId = b else p.endId = a ∧ p.startId = b := by
  rw [searchedPair]
  split <;> exact Prod.mk.injEq _ _ _ _ ▸ Iff.rfl

variable {boost} {unset : Nat → Nat → ℚ}

/-- The paths that are answered from a graph: one for each pair that is asked for, in the order of
    the ends, and a shortest one. -/
structure Found (g : PgrBaseGraph BasicVertex BasicEdge) (r : Request) (paths : List Path) :
    Prop where
  sorted : paths.Pairwise fun p q =>
    p.startId < q.startId ∨ p.startId = q.startId ∧ p.endId ≤ q.endId
  nodup : (paths.map (searchedPair r.normal)).Nodup
  pairs : ∀ x, x ∈ paths.map (searchedPair r.normal) ↔ Asked g r.combinations x
  shortest : ∀ p ∈ paths, IsDist g.IdArc (searchedPair r.normal p).1 (searchedPair r.normal p).2
    (p.path.map (·.cost)).sum

variable (unset) in
/-- The searches of a request without a limit on the goals. -/
theorem findPaths_spec (h : r.Valid d) (hall : r.nGoals ≤ 0)
    (hroom : ∀ c ∈ r.combinations, c.2.length < sizeMax)
    (hboost : ∀ a < (r.graph d).graph.numVertices,
      (boost (r.graph d).graph a).Documented (r.graph d).graph a) :
    ∃ paths, findPaths boost unset r (r.searchedRows d) = some paths ∧
      Found (r.graph d) r paths := by
  let g := r.graph d
  have hg : g.Consistent := PgrBaseGraph.ofTable_consistent r.directed _
  have hmap := r.getCombinations_spec.1.isMap
  have hn : 1 ≤ sizeMax := by decide
  obtain ⟨found, hrun, hpairs, hread⟩ := dijkstra_spec hg hboost hn unset r.onlyCost r.combinations
  -- Without a limit `post_process` only turns and sorts the paths.
  let sorted := postProcess found r.onlyCost r.normal sizeMax r.isGlobal
  obtain ⟨hperm, hsorted⟩ := postProcess_all found r.onlyCost r.normal r.isGlobal
  have hfind : findPaths boost unset r (r.searchedRows d) = some (sorted.map r.present) := by
    have hwhich : r.which = 0 ∨ r.which = 101 ∨ r.which = 1 := h.which
    have hgoals : goalsOf r.nGoals = sizeMax := if_pos hall
    have hrun : dijkstra boost ((PgrBaseGraph.empty r.directed).insertEdges (r.searchedRows d) true)
        unset r.combinations r.onlyCost sizeMax = some found := hrun
    rw [findPaths, if_pos hwhich, hgoals, hrun]
    show some (if r.details then sorted else sorted.map eliminateDetails) = _
    congr 1
    rw [show r.present = fun p => if r.details then p else eliminateDetails p from rfl]
    cases r.details with
    | true => exact (List.map_id sorted).symm
    | false => rfl
  -- Leaving out the details keeps the ends of the paths.
  have hsame : (sorted.map r.present).map (searchedPair r.normal) =
      sorted.map (searchedPair r.normal) := by
    rw [List.map_map]
    exact List.map_congr_left fun p _ => searchedPair_present r.normal p
  have hfound : (sorted.map (searchedPair r.normal)).Perm
      (foundPairs boost g sizeMax r.combinations) := by
    refine (hperm.map (searchedPair r.normal)).trans ?_
    rw [List.map_map]
    refine List.Perm.trans (List.Perm.of_eq ?_) hpairs
    exact List.map_congr_left fun p _ => searchedPair_finishPath r.onlyCost r.normal p
  refine ⟨_, hfind, ?_, ?_, fun x => ?_, fun p hp => ?_⟩
  · refine List.pairwise_map.mpr (hsorted.imp fun {p q} hle => ?_)
    have hends : ∀ p : Path, (r.present p).startId = p.startId ∧ (r.present p).endId = p.endId := by
      intro p
      rw [Request.present]
      split
      · exact ⟨rfl, rfl⟩
      · exact eliminateDetails_ends p
    rw [(hends p).1, (hends q).1, (hends p).2, (hends q).2]
    exact hle
  · rw [hsame, hfound.nodup_iff]
    exact foundPairs_nodup hg hn hboost hmap
  · rw [hsame, hfound.mem_iff, mem_foundPairs]
    refine exists_congr fun c => and_congr_right fun hc => and_congr_right fun _ => ?_
    exact mem_nearTargets hg hboost hn (hroom c hc)
  · obtain ⟨p, hin, rfl⟩ := List.mem_map.mp hp
    obtain ⟨q, hq, rfl⟩ := List.mem_map.mp (hperm.mem_iff.mp hin)
    obtain ⟨hq, hne⟩ := List.mem_filter.mp hq
    obtain ⟨a, b, c, _, _, hback, hdist⟩ := hread q hq (of_decide_eq_true hne)
    rw [searchedPair_present, present_sum, searchedPair_finishPath, (finishPath_cost hback _).1]
    exact hdist

/-- The pairs that are asked for and can be reached. -/
theorem asked_iff {g : PgrBaseGraph BasicVertex BasicEdge} {a b : Int} :
    Asked g r.combinations (a, b) ↔ r.Searches a b ∧ b ≠ a ∧ Reachable g.IdArc a b := by
  rw [← r.getCombinations_spec.2.2]
  constructor
  · intro ⟨c, hc, heq, ht, hne, hreach⟩
    have heq : a = c.1 := heq
    subst heq
    exact ⟨⟨c, hc, rfl, ht⟩, hne, hreach⟩
  · intro ⟨⟨c, hc, heq, ht⟩, hne, hreach⟩
    subst heq
    exact ⟨c, hc, rfl, ht, hne, hreach⟩

/-- What an answered path says: its ends and what it costs. -/
def answer (p : Path) : Int × Int × ℚ := (p.startId, p.endId, (p.path.map (·.cost)).sum)

/-- The pair of an answer in the direction of the search. -/
def searched (normal : Bool) (x : Int × Int × ℚ) : Int × Int :=
  if normal then (x.1, x.2.1) else (x.2.1, x.1)

theorem searched_inj {normal : Bool} {x y : Int × Int × ℚ}
    (h : searched normal x = searched normal y) : x.1 = y.1 ∧ x.2.1 = y.2.1 := by
  cases normal with
  | true => exact Prod.mk.inj h
  | false => exact (Prod.mk.inj h).symm

section Answers

variable {r' : Request} {d' : Side} {paths paths' : List Path}

/-- The answers are the pairs that are searched for, with their distances in the graph. -/
theorem Found.mem_searched {g : PgrBaseGraph BasicVertex BasicEdge} (h : Found g r paths)
    (x : Int × Int × ℚ) : x ∈ paths.map answer ↔
      Asked g r.combinations (searched r.normal x) ∧
        IsDist g.IdArc (searched r.normal x).1 (searched r.normal x).2 x.2.2 := by
  constructor
  · intro hx
    obtain ⟨p, hp, rfl⟩ := List.mem_map.mp hx
    exact ⟨(h.pairs _).mp (List.mem_map_of_mem hp), h.shortest p hp⟩
  · intro hx
    obtain ⟨p, hp, hpair⟩ := List.mem_map.mp ((h.pairs _).mpr hx.1)
    have hdist := h.shortest p hp
    rw [hpair] at hdist
    have hends := searched_inj (x := answer p) hpair
    exact List.mem_map.mpr ⟨p, hp, Prod.ext hends.1 (Prod.ext hends.2 (hdist.unique hx.2))⟩

/-- The answers are the pairs that are asked for, with their distances in the network. -/
theorem Found.mem_answers (h : r.Valid d) (hfound : Found (r.graph d) r paths)
    (x : Int × Int × ℚ) : x ∈ paths.map answer ↔
      r.Asks x.1 x.2.1 ∧ x.1 ≠ x.2.1 ∧ IsDist (r.Way d) x.1 x.2.1 x.2.2 := by
  have hreach : ∀ a b, IsDist (r.graph d).IdArc a b x.2.2 →
      (Asked (r.graph d) r.combinations (a, b) ↔ r.Searches a b ∧ b ≠ a) := by
    intro a b hdist
    rw [asked_iff, and_iff_left hdist.reachable]
  rw [hfound.mem_searched, Request.Asks, searched]
  cases hnormal : r.normal with
  | true =>
    have hdist := isDist_graph h (a := x.1) (b := x.2.1) (c := x.2.2)
    rw [hnormal, if_pos rfl] at hdist
    simp only [if_true]
    rw [← hdist, and_congr_left (hreach _ _), and_assoc, ne_comm]
  | false =>
    have hdist := isDist_graph h (a := x.2.1) (b := x.1) (c := x.2.2)
    rw [hnormal, if_neg Bool.false_ne_true] at hdist
    simp only [Bool.false_eq_true, if_false]
    rw [← hdist, and_congr_left (hreach _ _), and_assoc]

/-- The answers are in the order of their ends, and no two of them have the same ends. -/
theorem Found.answers_pairwise {g : PgrBaseGraph BasicVertex BasicEdge} (h : Found g r paths) :
    (paths.map answer).Pairwise fun x y => x.1 < y.1 ∨ x.1 = y.1 ∧ x.2.1 < y.2.1 := by
  rw [List.pairwise_map]
  have hne : paths.Pairwise fun p q => ¬ (p.startId = q.startId ∧ p.endId = q.endId) := by
    refine (List.pairwise_map.mp h.nodup).imp fun {p q} hne heq => hne ?_
    rw [searchedPair, searchedPair, heq.1, heq.2]
  refine (h.sorted.and hne).imp fun {p q} hpq => ?_
  obtain ⟨hlt | ⟨heq, hle⟩, hne⟩ := hpq
  · exact .inl hlt
  · exact .inr ⟨heq, lt_of_le_of_ne hle fun hend => hne ⟨heq, hend⟩⟩

/-- Two requests for the same pairs have the same answers when the networks have the same
    distances between these. -/
theorem Found.answers_eq (h : r.Valid d) (h' : r'.Valid d') (hfound : Found (r.graph d) r paths)
    (hfound' : Found (r'.graph d') r' paths') (hasks : ∀ s t, r.Asks s t ↔ r'.Asks s t)
    (hdist : ∀ s t, r.Asks s t → ∀ c, IsDist (r.Way d) s t c ↔ IsDist (r'.Way d') s t c) :
    paths.map answer = paths'.map answer := by
  have hlt : ∀ {x y : Int × Int × ℚ}, (x.1 < y.1 ∨ x.1 = y.1 ∧ x.2.1 < y.2.1) → x ≠ y := by
    intro x y hxy heq
    subst heq
    omega
  have hperm : (paths.map answer).Perm (paths'.map answer) := by
    refine (List.perm_ext_iff_of_nodup (hfound.answers_pairwise.imp hlt)
      (hfound'.answers_pairwise.imp hlt)).mpr fun x => ?_
    rw [hfound.mem_answers h, hfound'.mem_answers h', ← hasks]
    exact and_congr_right fun hx => and_congr_right fun _ => hdist _ _ hx _
  refine hperm.eq_of_pairwise (fun x y _ _ hxy hyx => ?_) hfound.answers_pairwise
    hfound'.answers_pairwise
  omega

end Answers

/-! ## The answers -/

/-- **The answers.** Without a limit on the goals the driver answers one path for each pair that is
    asked for and can be travelled, in the order of the ends, and each is a shortest way in the
    network of the roads and their points. -/
theorem doShortestPath_spec (boost : BoostDijkstraVisits BasicVertex BasicEdge)
    (unset : Nat → Nat → ℚ) (r : Request) (d : Side) (h : r.Valid d) (hall : r.nGoals ≤ 0)
    (hroom : ∀ c ∈ r.combinations, c.2.length < sizeMax)
    (hboost : ∀ a < (r.graph d).graph.numVertices,
      (boost (r.graph d).graph a).Documented (r.graph d).graph a) :
    ∃ paths, doShortestPath boost unset r = some (.paths paths) ∧
      (paths.Pairwise fun p q =>
        p.startId < q.startId ∨ p.startId = q.startId ∧ p.endId < q.endId) ∧
      (∀ s t, (∃ p ∈ paths, p.startId = s ∧ p.endId = t) ↔
        r.Asks s t ∧ s ≠ t ∧ Reachable (r.Way d) s t) ∧
      ∀ p ∈ paths, IsDist (r.Way d) p.startId p.endId (p.path.map (·.cost)).sum := by
  obtain ⟨paths, hfind, hfound⟩ := findPaths_spec unset h hall hroom hboost
  have hmem : ∀ a b, (∃ p ∈ paths, searchedPair r.normal p = (a, b)) ↔
      r.Searches a b ∧ b ≠ a ∧ Reachable (r.graph d).IdArc a b := by
    intro a b
    rw [← List.mem_map, hfound.pairs, asked_iff]
  refine ⟨paths, ?_, List.pairwise_map.mp hfound.answers_pairwise, fun s t => ?_, fun p hp => ?_⟩
  · rw [doShortestPath_eq boost unset h, hfind]
    rfl
  · rw [Request.Asks]
    -- With `normal = false` the search has run from the ends to the starts.
    cases hnormal : r.normal with
    | true =>
      have hmem := hmem s t
      simp only [hnormal, searchedPair_eq_iff, reachable_graph h, if_true] at hmem
      rw [hmem, if_pos rfl, ne_comm]
    | false =>
      have hmem := hmem t s
      simp only [hnormal, searchedPair_eq_iff, reachable_graph h, Bool.false_eq_true,
        if_false] at hmem
      rw [if_neg Bool.false_ne_true, ← hmem]
      exact exists_congr fun p => and_congr_right fun _ => and_comm
  · have hdist := (isDist_graph h).mp (hfound.shortest p hp)
    rw [searchedPair] at hdist
    cases hnormal : r.normal with
    | true =>
      simp only [hnormal, if_true] at hdist
      exact hdist
    | false =>
      simp only [hnormal, Bool.false_eq_true, if_false] at hdist
      exact hdist

/-- Two ways from 1 to 2, a second road beside the first, and points on three of the roads. -/
def fork : Request where
  edges := [⟨1, 1, 2, 8, -1⟩, ⟨2, 1, 3, 3, 3⟩, ⟨3, 3, 2, 4, -1⟩, ⟨4, 2, 4, 1, 2⟩, ⟨5, 1, 2, 9, -1⟩]
  points := some [⟨1, 1, .both, 1 / 2, 0⟩, ⟨2, 4, .both, 1 / 4, 0⟩, ⟨3, 2, .right, 1 / 3, 0⟩]
  combinationsSql := none
  starts := some [1, 2]
  ends := some [3, 4]
  directed := true
  onlyCost := false
  normal := true
  nGoals := 0
  isGlobal := false
  drivingSide := 'b'
  details := true
  which := 1

theorem fork_valid : fork.Valid .both where
  side := by decide
  which := .inr (.inr rfl)
  asks := by decide
  edges := by decide
  network := ⟨by decide, by decide, by decide +kernel, by decide⟩
  dividable := by decide +kernel
  apart := fun h => absurd h (by decide)

/-- Other starts and ends can be asked for as well. -/
theorem Request.Valid.asking {r : Request} {d : Side} (h : r.Valid d)
    (hsql : r.combinationsSql = none) (starts ends : Option (List Int)) :
    ({ r with starts := starts, ends := ends } : Request).Valid d where
  side := h.side
  which := h.which
  asks := by
    intro hsome
    rw [hsql] at hsome
    cases hsome
  edges := h.edges
  network := h.network
  dividable := h.dividable
  apart := h.apart

/-- The graph of a request has no negative costs. -/
theorem graph_documented (r : Request) (d : Side) (a : Nat) :
    (searchVisits (r.graph d).graph a).Documented (r.graph d).graph a :=
  searchVisits_documented (PgrBaseGraph.ofTable_cost_nonneg _ _) a

/-- From the vertex 1 and the second point to the first point and the vertex 4. -/
theorem doShortestPath_spec_fork :
    let r : Request := { fork with starts := some [1, -2], ends := some [-1, 4] }
    ∃ paths, doShortestPath searchVisits (fun _ _ => 0) r = some (.paths paths) ∧
      (paths.Pairwise fun p q =>
        p.startId < q.startId ∨ p.startId = q.startId ∧ p.endId < q.endId) ∧
      (∀ s t, (∃ p ∈ paths, p.startId = s ∧ p.endId = t) ↔
        r.Asks s t ∧ s ≠ t ∧ Reachable (r.Way .both) s t) ∧
      ∀ p ∈ paths, IsDist (r.Way .both) p.startId p.endId (p.path.map (·.cost)).sum :=
  doShortestPath_spec searchVisits (fun _ _ => 0) _ .both (fork_valid.asking rfl _ _)
    (by decide) (by decide +kernel) fun a _ => graph_documented _ .both a

end ShortestPathDriver

end PgRouting
