import PgRouting.Spec.TspRows

/-!
# The start and the end of the tour

The tour that is handed to `crossover_optimize` is reversed, so that the vertex Boost has
after the dummy vertex comes last before the return to the start, and `crossover_optimize`
leaves it there.

## Key results

- `tourIds_eq`: the ids of Boost's tour
- `doTsp_honours_iff`: the tours that are right
-/

namespace PgRouting

open UndirectedHasCostBG

namespace Tsp

variable {boost : BoostTsp} {g : UndirectedHasCostBG} {ds : List IIDT} {u v d x y : Nat}
variable {startVid endVid : Int}

/-! ## Right tours -/

/-- The rows give a cost between every two ids. -/
def Complete (ds : List IIDT) : Prop :=
  ∀ i ∈ matrixIds ds, ∀ j ∈ matrixIds ds, i ≠ j → ∃ c, RowArc ds i j c

/-- The tour begins and ends with the start, has the end last before the return, and visits every
    id of the matrix once, and nothing else. -/
structure Honours (ds : List IIDT) (startVid endVid : Int) (rows : List (Int × Weight)) : Prop where
  ends : ∃ mid, rows.map (·.1) = startVid :: mid ++ [endVid, startVid]
  visits : (rows.map (·.1)).dropLast.Perm (matrixIds ds).ids

/-- The tour that is handed to `crossover_optimize`. -/
def handedTour (boost : BoostTsp) (g : UndirectedHasCostBG) (startVid endVid : Int) :
    Except TspError (List (Int × Weight)) := do
  let result ← tspFrom boost (searched g startVid endVid) startVid
  startVidEndVidAreFixed result endVid

/-- The rows cost at most what the tour handed to `crossover_optimize` does. -/
def NotDearer (boost : BoostTsp) (g : UndirectedHasCostBG) (startVid endVid : Int)
    (rows : List (Int × Weight)) : Prop :=
  ∃ handed cost before, handedTour boost g startVid endVid = .ok handed ∧
    evalRows boost (searched g startVid endVid) none 0 handed = .ok (cost, before) ∧
    (rows.map (·.2)).sum ≤ cost

/-- The ids of a tour of vertices. -/
def tourIds (g : UndirectedHasCostBG) (tour : List Nat) : List Int :=
  tour.filterMap fun v => g.graph.vertices[v]?

/-- The dummy vertex is followed by the end, or it comes last before the return and the end comes
    first after the start. -/
def EndAfterDummy (ids : List Int) (startVid endVid : Int) : Prop :=
  ∃ a b, ids = startVid :: (a ++ 0 :: b) ++ [startVid] ∧ (b ++ a).head? = some endVid

/-- A complete matrix is connected. -/
theorem Complete.reachable (h : Complete ds) :
    ∀ i ∈ matrixIds ds, ∀ j ∈ matrixIds ds, Reachable (RowArc ds) i j := by
  intro i hi j hj
  by_cases hij : i = j
  · exact hij ▸ ⟨0, .nil i⟩
  · obtain ⟨c, hc⟩ := h i hi j hj hij
    exact ⟨_, .single hc⟩

/-- The vertices of the graph are the ids of the matrix. -/
theorem perm_matrixIds (ds : List IIDT) : (ofRows ds).graph.vertices.Perm (matrixIds ds).ids := by
  obtain ⟨_, _, hids⟩ := ofRows_spec ds
  apply (List.perm_ext_iff_of_nodup (ofRows ds).nodup (Identifiers.nodup (s := matrixIds ds))).mpr
  intro i
  exact (hids i).trans mem_matrixIds.symm

/-- The ids of Boost's tour are those of the rows with their first costs. -/
theorem tourIds_eq (hall : AllCosts boost g) {tour : List Nat} (htour : IsTour g v tour)
    {result : List (Int × Weight)} (hrun : evalTour boost g none tour = .ok result) :
    tourIds g tour = result.map (·.1) := by
  obtain ⟨rows, hrows, hids⟩ := evalTour_spec hall _ none (fun _ h => by cases h) htour.lt
  obtain rfl := Except.ok.inj (hrun.symm.trans hrows)
  exact hids.symm

/-- For a complete matrix and a start and an end that are different `do_tsp` returns a tour that is
    right exactly when 0 is no id of the matrix and Boost's tour has the end after the dummy
    vertex. -/
theorem doTsp_honours_iff (boost : BoostTsp) (ds : List IIDT) (startVid endVid : Int)
    (hcomplete : Complete ds) (hs : startVid ≠ 0) (he : endVid ≠ 0) (hne : startVid ≠ endVid)
    (hstart : startVid ∈ matrixIds ds) (hend : endVid ∈ matrixIds ds)
    (htour : IsTour (searched (ofRows ds) startVid endVid)
      ((ofRows ds).graph.vertices.idxOf startVid)
      (boost.metricTspApproxTourFromVertex (searched (ofRows ds) startVid endVid).graph
        ((ofRows ds).graph.vertices.idxOf startVid)))
    (hfinds : FindsGoals boost (searched (ofRows ds) startVid endVid)) :
    ∃ rows, doTsp boost (ofRows ds) startVid endVid = .ok rows ∧
      (Honours ds startVid endVid rows ∧ NotDearer boost (ofRows ds) startVid endVid rows ↔
        0 ∉ matrixIds ds ∧ EndAfterDummy
          (tourIds (searched (ofRows ds) startVid endVid)
            (boost.metricTspApproxTourFromVertex (searched (ofRows ds) startVid endVid).graph
              ((ofRows ds).graph.vertices.idxOf startVid))) startVid endVid) := by
  -- The graph of the matrix, and the graph with the dummy vertex that is searched.
  obtain ⟨hrep, hends, hids⟩ := ofRows_spec ds
  have hverts := perm_matrixIds ds
  have hstart' : startVid ∈ (ofRows ds).graph.vertices := hverts.mem_iff.mpr hstart
  have hend' : endVid ∈ (ofRows ds).graph.vertices := hverts.mem_iff.mpr hend
  have hplain : ¬ (startVid = 0 ∨ endVid = 0 ∨ startVid = endVid) := by
    simp [hs, he, hne]
  have hS : insertDummy (ofRows ds) ((ofRows ds).graph.vertices.idxOf startVid)
      ((ofRows ds).graph.vertices.idxOf endVid) = searched (ofRows ds) startVid endVid :=
    (if_neg hplain).symm
  set S := searched (ofRows ds) startVid endVid with hSdef
  set u := (ofRows ds).graph.vertices.idxOf startVid with hu
  have hult : u < (ofRows ds).graph.numVertices := List.idxOf_lt_length_iff.mpr hstart'
  have hdummy : Dummy (ofRows ds) S u ((ofRows ds).graph.vertices.idxOf endVid)
      (S.graph.vertices.idxOf 0) := by
    have h := insertDummy_spec hends hult (List.idxOf_lt_length_iff.mpr hend')
    rw [hS] at h
    exact h
  have hall : AllCosts boost S := allCosts_of_finds hdummy.ends hfinds
    (reachable_dummy hult hdummy (reachable_ofRows hcomplete.reachable))
  -- The tour goes from the start over `a` to the dummy vertex and over `b` back to the start.
  obtain ⟨a, b, result, handed, before, rows, hresult, hresultIds, hperm, hfixed, hhanded, hbefore,
    hrun, _, hframe, hle⟩ := tspBetween_spec hstart' hend' hs hne hS hdummy hall rfl htour
  refine ⟨rows, (doTsp_between hstart' hend' hs he hne).trans hrun, ?_⟩
  have hids' := tourIds_eq hall htour hresult
  rw [hresultIds] at hids'
  have hnodup : (startVid :: (a ++ 0 :: b)).Nodup := hperm.nodup_iff.mpr S.nodup
  obtain ⟨ha, hb⟩ : (0 : Int) ∉ a ∧ (0 : Int) ∉ b := by
    rw [List.nodup_cons, List.nodup_append, List.nodup_cons] at hnodup
    exact ⟨fun h => hnodup.2.2.2 0 h 0 List.mem_cons_self rfl, hnodup.2.2.1.1⟩
  -- The end is one of the ids, and so there is one that comes last before the return.
  obtain ⟨last, rest, hlast⟩ : ∃ last rest, b ++ a = last :: rest := by
    have hmem : endVid ∈ startVid :: (a ++ 0 :: b) := by
      refine hperm.symm.subset ?_
      rw [hdummy.vertices]
      exact List.mem_append_left _ hend'
    apply List.exists_cons_of_ne_nil
    intro hnil
    obtain ⟨rfl, rfl⟩ := List.append_eq_nil_iff.mp hnil
    simp only [List.nil_append, List.mem_cons, List.not_mem_nil, or_false] at hmem
    exact hmem.elim (fun h => hne h.symm) he
  -- The reversals keep both ends of the tour and the row before the return.
  have hframe' : SameFrame 2 (startVid :: rest.reverse ++ [last, startVid])
      (rows.map (·.1)) := by
    have hsame : startVid :: (b ++ a).reverse ++ [startVid] =
        startVid :: rest.reverse ++ [last, startVid] := by
      rw [hlast, List.reverse_cons]
      simp
    exact hsame ▸ hframe
  have htwo : [last, startVid].length = 2 := rfl
  obtain ⟨mid, hrows, hmid⟩ := SameFrame.exists_mid htwo hframe'
  have hinner : (rows.map (·.1)).dropLast = startVid :: mid ++ [last] := by
    rw [hrows]
    have hsplit : startVid :: mid ++ [last, startVid] =
        (startVid :: mid ++ [last]) ++ [startVid] := by
      simp
    rw [hsplit, List.dropLast_concat]
  -- What lies between the ends has been permuted only.
  have hvisited : (startVid :: mid ++ [last]).Perm (startVid :: (a ++ b)) := by
    rw [List.cons_append]
    apply List.Perm.cons
    calc (mid ++ [last]).Perm (last :: mid) := List.perm_append_singleton last mid
      _ |>.Perm (last :: rest) := (hmid.trans (List.reverse_perm rest)).cons last
      _ |>.Perm (a ++ b) := hlast ▸ List.perm_append_comm
  -- The reversals that are kept make the tour cheaper, so it is never dearer than the tour handed
  -- over.
  have hnotDearer : NotDearer boost (ofRows ds) startVid endVid rows := by
    have hhas : startVid ∈ S.graph.vertices := by
      rw [hdummy.vertices]
      exact List.mem_append_left _ hstart'
    have hpos : S.graph.vertices.idxOf startVid = u := by
      rw [hdummy.vertices, List.idxOf_append_of_mem hstart']
    refine ⟨handed, _, before, ?_, hbefore, hle⟩
    show (tspFrom boost S startVid).bind _ = _
    rw [tspFrom_eq hhas, hpos, hresult]
    exact hfixed
  constructor
  · -- The last vertex before the return is the end that has been asked for.
    rintro ⟨⟨⟨mid', hmid'⟩, hvisits⟩, _⟩
    rw [hinner] at hvisits
    rw [hrows] at hmid'
    have htail := List.append_inj_right' hmid' rfl
    obtain rfl : last = endVid := (List.cons.inj htail).1
    refine ⟨fun h0 => ?_, a, b, hids', ?_⟩
    · have hmem := hvisited.subset (hvisits.symm.subset h0)
      rw [List.mem_cons, List.mem_append] at hmem
      exact hmem.elim (fun h => hs h.symm) fun h => h.elim ha hb
    · rw [hlast, List.head?_cons]
  · rintro ⟨h0, a', b', heq, hhead⟩
    -- The dummy vertex is in the tour once.
    rw [hids'] at heq
    have hcons := (List.cons.inj (List.append_cancel_right heq)).2
    obtain ⟨rfl, _, rfl⟩ := (List.append_cons_inj_of_notMem ha hb).mp hcons
    rw [hlast, List.head?_cons, Option.some.injEq] at hhead
    subst hhead
    refine ⟨⟨⟨mid, hrows⟩, ?_⟩, hnotDearer⟩
    rw [hinner]
    have hnot : (0 : Int) ∉ (ofRows ds).graph.vertices := fun h => h0 (hverts.mem_iff.mp h)
    have hall' : (0 :: startVid :: (a ++ b)).Perm (0 :: (ofRows ds).graph.vertices) := by
      have hmiddle : (startVid :: (a ++ 0 :: b)).Perm (0 :: startVid :: (a ++ b)) :=
        (List.perm_middle.cons startVid).trans (List.Perm.swap 0 startVid (a ++ b))
      rw [hdummy.vertices, if_neg hnot] at hperm
      exact hmiddle.symm.trans (hperm.trans (List.perm_append_singleton 0 _))
    exact hvisited.trans (hall'.cons_inv.trans hverts)

end Tsp

end PgRouting
