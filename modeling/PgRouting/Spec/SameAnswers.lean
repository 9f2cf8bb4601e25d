import PgRouting.Spec.ShortestPath

/-!
# Requests with the same answers

Points that nobody asks for change no answer, and neither does the direction of the search:
`reverse_sides`, the fetched edges, the exchanged arrays and the paths that are turned back go
together.

## Key results

- `doShortestPath_plain`: with points and without them
- `doShortestPath_turned`: from the starts and from the ends
-/

namespace PgRouting

namespace ShortestPathDriver

open PgPointsGraph DijkstraNear

variable {d : Side} {r : Request} {s t : Int}

/-! ## With and without points -/

/-- The request for the same pairs on the same edges, without points. -/
def Request.plain (r : Request) : Request := { r with points := none, which := 0 }

theorem Request.Valid.plain (h : r.Valid d) : r.plain.Valid .both where
  side := rfl
  which := .inl rfl
  asks := h.asks
  edges := h.edges
  network := ⟨h.network.ids, .nil, fun _ hp => absurd hp List.not_mem_nil,
    fun _ hp => absurd hp List.not_mem_nil⟩
  dividable := fun _ _ _ hp => absurd hp List.not_mem_nil
  apart := fun _ _ hp => absurd hp List.not_mem_nil

/-- Points change no distance between vertices. -/
theorem isDist_way_plain (h : r.Valid d) (hs : ∀ p ∈ r.stops, -p.pid ≠ s)
    (ht : ∀ p ∈ r.stops, -p.pid ≠ t) (c : ℚ) :
    IsDist (r.Way d) s t c ↔ IsDist (r.plain.Way .both) s t c :=
  (isDist_roadArc h.network hs ht).trans
    (isDist_roadArc h.plain.network (fun _ hp => nomatch hp) fun _ hp => nomatch hp).symm

/-- **With and without points.** Between vertices the driver answers the same pairs at the same
    costs, in the same order, whether points have divided the edges or not. -/
theorem doShortestPath_plain (boost : BoostDijkstraVisits BasicVertex BasicEdge)
    (unset : Nat → Nat → ℚ) (r : Request) (d : Side) (h : r.Valid d) (hall : r.nGoals ≤ 0)
    (hroom : ∀ c ∈ r.combinations, c.2.length < sizeMax)
    (hboost : ∀ a < (r.graph d).graph.numVertices,
      (boost (r.graph d).graph a).Documented (r.graph d).graph a)
    (hplain : ∀ a < (r.plain.graph .both).graph.numVertices,
      (boost (r.plain.graph .both).graph a).Documented (r.plain.graph .both).graph a)
    (hvertices : ∀ s t, r.Asks s t → ∀ p ∈ r.stops, -p.pid ≠ s ∧ -p.pid ≠ t) :
    ∃ paths paths', doShortestPath boost unset r = some (.paths paths) ∧
      doShortestPath boost unset r.plain = some (.paths paths') ∧
      paths.map answer = paths'.map answer := by
  obtain ⟨paths, hfind, hfound⟩ := findPaths_spec unset h hall hroom hboost
  obtain ⟨paths', hfind', hfound'⟩ := findPaths_spec unset h.plain hall hroom hplain
  refine ⟨paths, paths', ?_, ?_, hfound.answers_eq h h.plain hfound' (fun s t => Iff.rfl) ?_⟩
  · rw [doShortestPath_eq boost unset h, hfind]
    rfl
  · rw [doShortestPath_eq boost unset h.plain, hfind']
    rfl
  · intro s t hasks c
    exact isDist_way_plain h (fun p hp => (hvertices s t hasks p hp).1)
      (fun p hp => (hvertices s t hasks p hp).2) c

/-- The roads with their points and without them. -/
theorem doShortestPath_plain_fork : ∃ paths paths',
    doShortestPath searchVisits (fun _ _ => 0) fork = some (.paths paths) ∧
      doShortestPath searchVisits (fun _ _ => 0) fork.plain = some (.paths paths') ∧
      paths.map answer = paths'.map answer := by
  refine doShortestPath_plain searchVisits (fun _ _ => 0) fork .both fork_valid (by decide)
    (by decide +kernel) (fun a _ => graph_documented _ _ a) (fun a _ => graph_documented _ _ a)
    fun s t hasks p hp => ?_
  have hasks : fork.Searches s t := hasks
  have hpid : ∀ p ∈ fork.stops, 0 < p.pid := by decide
  have hids : (∀ s ∈ fork.searchStarts, 0 < s) ∧ ∀ t ∈ fork.searchEnds, 0 < t := by decide
  have hpos : 0 < s ∧ 0 < t := by
    rw [Request.Searches] at hasks
    split at hasks
    · rename_i hs
      exact ⟨hids.1 s hs, hids.2 t hasks⟩
    · exact absurd hasks List.not_mem_nil
  have hp := hpid p hp
  omega

/-! ## Against the direction of travel -/

/-- The request with the search turned round. -/
def Request.turned (r : Request) : Request := { r with normal := false }

/-- The arrays are exchanged with the direction. -/
theorem asks_turned (hnormal : r.normal = true) (hsql : r.combinationsSql = none)
    (hstarts : r.starts.getD [] ≠ []) (hends : r.ends.getD [] ≠ []) (s t : Int) :
    r.Asks s t ↔ r.turned.Asks s t := by
  have hsome : r.ends.isSome = true := by
    cases hcases : r.ends with
    | none => rw [hcases] at hends; exact absurd rfl hends
    | some _ => rfl
  have hrows : r.rows = [] := by rw [Request.rows, hsql]; rfl
  have hgoals : r.searchEnds = getIntSet r.ends := by
    simp only [Request.searchEnds, hsome, hnormal, if_true]
    exact if_neg fun h => hends (getIntSet_eq_nil.mp h.2)
  have hgoals' : r.turned.searchEnds = getIntSet r.starts := by
    simp only [Request.searchEnds, Request.turned, hsome, Bool.false_eq_true, if_true, if_false]
    exact if_neg fun h => hstarts (getIntSet_eq_nil.mp h.2)
  have hsources : r.searchStarts = getIntSet r.starts := by
    rw [Request.searchStarts, hnormal, if_pos rfl]
  have hsources' : r.turned.searchStarts = getIntSet r.ends := rfl
  have hleft : r.Asks s t ↔ s ∈ getIntSet r.starts ∧ t ∈ getIntSet r.ends := by
    rw [Request.Asks, hnormal, if_pos rfl, Request.Searches, hsources, hgoals, hrows]
    split <;> simp_all
  have hright : r.turned.Asks s t ↔ t ∈ getIntSet r.ends ∧ s ∈ getIntSet r.starts := by
    show r.turned.Searches t s ↔ _
    rw [Request.Searches, hsources', hgoals', show r.turned.rows = [] from hrows]
    split <;> simp_all
  rw [hleft, hright, and_comm]

/-- **Either direction.** A search from the ends with the edges, the points and the sides turned
    round gives the answers of the search from the starts. -/
theorem doShortestPath_turned (boost : BoostDijkstraVisits BasicVertex BasicEdge)
    (unset : Nat → Nat → ℚ) (r : Request) (d : Side) (hnormal : r.normal = true)
    (h : r.Valid d) (h' : r.turned.Valid d) (hall : r.nGoals ≤ 0)
    (hsql : r.combinationsSql = none) (hstarts : r.starts.getD [] ≠ [])
    (hends : r.ends.getD [] ≠ []) (hroom : ∀ c ∈ r.combinations, c.2.length < sizeMax)
    (hroom' : ∀ c ∈ r.turned.combinations, c.2.length < sizeMax)
    (hboost : ∀ a < (r.graph d).graph.numVertices,
      (boost (r.graph d).graph a).Documented (r.graph d).graph a)
    (hboost' : ∀ a < (r.turned.graph d).graph.numVertices,
      (boost (r.turned.graph d).graph a).Documented (r.turned.graph d).graph a) :
    ∃ paths paths', doShortestPath boost unset r = some (.paths paths) ∧
      doShortestPath boost unset r.turned = some (.paths paths') ∧
      paths.map answer = paths'.map answer := by
  obtain ⟨paths, hfind, hfound⟩ := findPaths_spec unset h hall hroom hboost
  obtain ⟨paths', hfind', hfound'⟩ := findPaths_spec unset h' hall hroom' hboost'
  refine ⟨paths, paths', ?_, ?_, hfound.answers_eq h h' hfound'
    (asks_turned hnormal hsql hstarts hends) fun _ _ _ _ => Iff.rfl⟩
  · rw [doShortestPath_eq boost unset h, hfind]
    rfl
  · rw [doShortestPath_eq boost unset h', hfind']
    rfl

theorem fork_turned_valid : fork.turned.Valid .both where
  side := by decide
  which := .inr (.inr rfl)
  asks := by decide
  edges := by decide
  network := ⟨by decide, by decide, by decide +kernel, by decide⟩
  dividable := by decide +kernel
  apart := by
    have hall : ∀ p ∈ fork.turned.stops, ∀ q ∈ fork.turned.stops, p.edgeId = q.edgeId →
        p.fraction = q.fraction → p = q := by decide +kernel
    exact fun _ => hall

/-- The roads searched from the ends. -/
theorem doShortestPath_turned_fork : ∃ paths paths',
    doShortestPath searchVisits (fun _ _ => 0) fork = some (.paths paths) ∧
      doShortestPath searchVisits (fun _ _ => 0) fork.turned = some (.paths paths') ∧
      paths.map answer = paths'.map answer :=
  doShortestPath_turned searchVisits (fun _ _ => 0) fork .both rfl fork_valid
    fork_turned_valid (by decide) rfl (by decide) (by decide) (by decide +kernel)
    (by decide +kernel) (fun a _ => graph_documented _ _ a) fun a _ => graph_documented _ _ a

end ShortestPathDriver

end PgRouting
