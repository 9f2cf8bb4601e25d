import PgRouting.Spec.PointVertices
import PgRouting.Native.ShortestPath

/-!
# The tables of a network with points

The edges without points and the edges that `Pg_points_graph` makes of the others are together
the table that is searched. In either direction of the search its graph has the distances of the
network with the points.

## Key results

- `idArc_ofTable_iff`: the arcs of the graph of a table
- `searched_spec`: the distances in the table that is searched
- `roadArc_turned`: the network of a search against the direction of travel
-/

namespace PgRouting

/-! ## The graph of a table -/

section Table

variable {directed : Bool} {es : List EdgeT} {e : EdgeT} {i j id : Int} {w : ℚ}

theorem passes_of_mem_tableRows (h : (i, j, id, w) ∈ PgrBaseGraph.tableRows directed true e) :
    e.Passes true i j w := by
  simp only [PgrBaseGraph.tableRows, List.mem_append] at h
  obtain h | h := h
  · split at h
    · obtain ⟨rfl, rfl, _, rfl⟩ : _ ∧ _ ∧ _ ∧ _ := by simpa using h
      exact ⟨‹_›, .inl ⟨rfl, rfl, rfl⟩⟩
    · cases h
  · split at h
    · rename_i hr
      obtain ⟨rfl, rfl, _, rfl⟩ : _ ∧ _ ∧ _ ∧ _ := by simpa using h
      exact ⟨hr.1, .inr (.inl ⟨rfl, rfl, rfl⟩)⟩
    · cases h

variable (directed) in
/-- A row without an edge for its way back in an undirected graph has one that serves as both. -/
theorem mem_tableRows_of_passes (h : e.Passes true i j w) : ∃ id,
    (i, j, id, w) ∈ PgrBaseGraph.tableRows directed true e ∨
      directed = false ∧ (j, i, id, w) ∈ PgrBaseGraph.tableRows directed true e := by
  obtain ⟨hw, ⟨rfl, rfl, rfl⟩ | ⟨rfl, rfl, rfl⟩ | ⟨hdir, _⟩⟩ := h
  · exact ⟨e.id, .inl (by simp [PgrBaseGraph.tableRows, hw])⟩
  · by_cases hrow : directed = true ∨ e.cost ≠ e.reverseCost
    · exact ⟨e.id, .inl (by simp [PgrBaseGraph.tableRows, hw, hrow])⟩
    · obtain ⟨hdir, hcost⟩ := not_or.mp hrow
      have hcost := not_not.mp hcost
      exact ⟨e.id, .inr ⟨Bool.eq_false_iff.mpr hdir,
        by simp [PgrBaseGraph.tableRows, hcost, hw]⟩⟩
  · exact absurd hdir (by decide)

/-- The arcs of the graph of a table. -/
theorem PgrBaseGraph.idArc_ofTable_iff {V E : Type} [TVertex V] [TEdge E] :
    (PgrBaseGraph.ofTable directed es : PgrBaseGraph V E).IdArc i j w ↔
      Oriented directed (TableArc es) i j w := by
  simp only [PgrBaseGraph.IdArc, PgrBaseGraph.ofTable_idEdges, PgrBaseGraph.ofTable_directed,
    List.mem_flatMap]
  constructor
  · intro h
    obtain ⟨id, ⟨e, he, hrow⟩ | ⟨hdir, e, he, hrow⟩⟩ := h
    · exact .inl ⟨e, he, passes_of_mem_tableRows hrow⟩
    · exact .inr ⟨hdir, e, he, passes_of_mem_tableRows hrow⟩
  · intro h
    obtain ⟨e, he, hpass⟩ | ⟨hdir, e, he, hpass⟩ := h
    · obtain ⟨id, hrow | ⟨hdir, hrow⟩⟩ := mem_tableRows_of_passes directed hpass
      · exact ⟨id, .inl ⟨e, he, hrow⟩⟩
      · exact ⟨id, .inr ⟨hdir, e, he, hrow⟩⟩
    · obtain ⟨id, hrow | ⟨_, hrow⟩⟩ := mem_tableRows_of_passes directed hpass
      · exact ⟨id, .inr ⟨hdir, e, he, hrow⟩⟩
      · exact ⟨id, .inl ⟨e, he, hrow⟩⟩

end Table

section Sides

variable {d d' : Side}

@[simp] theorem Side.reverse_reverse : d.reverse.reverse = d := by
  cases d <;> rfl

theorem Side.reverse_eq_both_iff : d.reverse = .both ↔ d = .both := by
  cases d <;> decide

theorem Side.reverse_inj : d.reverse = d'.reverse ↔ d = d' := by
  cases d <;> cases d' <;> decide

end Sides

namespace PgPointsGraph

variable {d : Side} {points : List PointOnEdge} {es others divided : List EdgeT} {e : EdgeT}
variable {u v : Int} {w : ℚ}

/-! ## The table that is searched -/

/-- An edge without points stays as it is. -/
theorem splitArc_nil : SplitArc e d [] u v w ↔ TableArc [e] u v w := by
  rw [← tableArc_splitRows]
  show TableArc ([⟨e.id, e.source, e.target, e.cost - 0, -1⟩] ++
    [⟨e.id, e.source, e.target, -1, e.reverseCost - 0⟩]) u v w ↔ _
  rw [tableArc_append, tableArc_forward, tableArc_backward, tableArc_singleton, sub_zero, sub_zero]
  constructor
  · intro h
    obtain ⟨hc, rfl, rfl, rfl⟩ | ⟨hr, rfl, rfl, rfl⟩ := h
    · exact ⟨hc, .inl ⟨rfl, rfl, rfl⟩⟩
    · exact ⟨hr, .inr ⟨rfl, rfl, rfl⟩⟩
  · intro h
    obtain ⟨hw, ⟨rfl, rfl, rfl⟩ | ⟨rfl, rfl, rfl⟩⟩ := h
    · exact .inl ⟨hw, rfl, rfl, rfl⟩
    · exact .inr ⟨hw, rfl, rfl, rfl⟩

/-- The edges that are made of those with points, and the arcs of the whole table. -/
theorem new_spec (directed : Bool) (hpids : (points.map (·.pid)).Nodup)
    (hfrac : ∀ p ∈ points, 0 ≤ p.fraction ∧ p.fraction ≤ 1)
    (hes : ∀ e, e ∈ es ↔ e ∈ others ∨ e ∈ divided)
    (hothers : ∀ e ∈ others, ∀ p ∈ points, p.edgeId ≠ e.id)
    (hdivided : ∀ e ∈ divided, ∃ p ∈ points, p.edgeId = e.id) :
    (new points divided true d directed).error = "" ∧
      (divided ≠ [] → (new points divided true d directed).newEdges ≠ []) ∧
      ∃ on, Divides es points on ∧ ∀ u v w,
        TableArc (others ++ (new points divided true d directed).newEdges) u v w ↔
          NetArc es (effectiveSide d directed) on u v w := by
  let g : PgPointsGraph :=
    { points := points, edgesOfPoints := divided, newEdges := [],
      drivingSide := effectiveSide d directed, directed := directed, error := "" }
  -- The constructor checks the points and then makes the edges.
  have hnew : new points divided true d directed = g.checkPoints.createNewEdges := by
    cases directed <;> rfl
  let on : EdgeT → List PointOnEdge := pointsOnEdge g.checkPoints.points
  have hdivides : Divides es points on := ⟨fun e _ => (pointsOnEdge_spec (g := g) e hpids).1,
    fun e _ => (pointsOnEdge_spec (g := g) e hpids).2⟩
  -- The set of an edge holds exactly its points.
  have hmem : ∀ e q, q ∈ on e ↔ q ∈ points ∧ q.edgeId = e.id := by
    intro e q
    rw [(pointsOnEdge_spec (g := g) e hpids).1.mem_iff, List.mem_filter, decide_eq_true_eq, eq_comm]
  have hon : ∀ e ∈ others, on e = [] := by
    intro e he
    rw [List.eq_nil_iff_forall_not_mem]
    intro q hq
    obtain ⟨hq, hid⟩ := (hmem e q).mp hq
    exact hothers e he q hq hid
  obtain ⟨hrows, herror⟩ := @createNewEdgesLoop_spec g.checkPoints divided []
    (fun e he hnil => by
      obtain ⟨p, hp, hid⟩ := hdivided e he
      have hmem := (hmem e p).mpr ⟨hp, hid⟩
      rw [show on e = [] from hnil] at hmem
      exact nomatch hmem)
    fun e _ q hq => hfrac q ((hmem e q).mp hq).1
  have hchecked : g.checkPoints.error = "" := by rw [checkPoints_eq hpids]
  have hnewEdges : (new points divided true d directed).newEdges =
      divided.flatMap fun e => splitRows e (effectiveSide d directed) (on e) := by
    rw [hnew]
    exact hrows
  refine ⟨?_, fun hne hnil => ?_, on, hdivides, fun u v w => ?_⟩
  · rw [hnew]
    exact herror.trans hchecked
  · -- Each edge leaves at least its last segments.
    obtain ⟨e, rest, rfl⟩ := List.exists_cons_of_ne_nil hne
    rw [hnewEdges, List.flatMap_cons, List.append_eq_nil_iff] at hnil
    exact absurd hnil.1 (by simp [splitRows, lastSegments])
  · -- The rows without points stay as they are, and the others are replaced by their segments.
    rw [tableArc_append, hnewEdges]
    constructor
    · intro h
      obtain ⟨e, he, hpass⟩ | ⟨row, hrow, hpass⟩ := h
      · refine ⟨e, (hes e).mpr (.inl he), ?_⟩
        rw [hon e he, splitArc_nil]
        exact ⟨e, List.mem_singleton_self e, hpass⟩
      · obtain ⟨e, he, hrow⟩ := List.mem_flatMap.mp hrow
        exact ⟨e, (hes e).mpr (.inr he), tableArc_splitRows.mp ⟨row, hrow, hpass⟩⟩
    · intro h
      obtain ⟨e, he, harc⟩ := h
      obtain he | he := (hes e).mp he
      · rw [hon e he, splitArc_nil] at harc
        obtain ⟨row, hrow, hpass⟩ := harc
        rw [List.mem_singleton.mp hrow] at hpass
        exact .inl ⟨e, he, hpass⟩
      · obtain ⟨row, hrow, hpass⟩ := tableArc_splitRows.mpr harc
        exact .inr ⟨row, List.mem_flatMap.mpr ⟨e, he, hrow⟩, hpass⟩

/-! ## Searching against the direction of travel -/

/-- What `reverse_sides` makes of a point. -/
def turnPoint (normal : Bool) (p : PointOnEdge) : PointOnEdge :=
  if normal then p else { p with side := p.side.reverse, fraction := 1 - p.fraction }

/-- What `reverse_sides` makes of the driving side. -/
def turnSide (normal : Bool) (d : Side) : Side := if normal then d else d.reverse

open ShortestPathDriver in
/-- The graph of a search against the direction of travel is that of the turned points. -/
theorem new_turned (normal directed : Bool) : new points es normal d directed =
    new (points.map (turnPoint normal)) es true (turnSide normal d) directed := by
  cases normal with
  | true =>
    rw [show points.map (turnPoint true) = points from List.map_id points]
    rfl
  | false => rfl

theorem effectiveSide_turnSide (normal directed : Bool) :
    effectiveSide (turnSide normal d) directed = turnSide normal (effectiveSide d directed) := by
  cases normal <;> cases directed <;> rfl

section Turned

open ShortestPathDriver

variable {p q : PointOnEdge} {a b : Place}

@[simp] theorem fetchEdge_true : fetchEdge true e = e := rfl

@[simp] theorem turnPoint_true : turnPoint true p = p := rfl

@[simp] theorem turnSide_true : turnSide true d = d := rfl

@[simp] theorem turnPoint_pid (normal : Bool) : (turnPoint normal p).pid = p.pid := by
  cases normal <;> rfl

@[simp] theorem turnPoint_edgeId (normal : Bool) : (turnPoint normal p).edgeId = p.edgeId := by
  cases normal <;> rfl

@[simp] theorem fetchEdge_id (normal : Bool) : (fetchEdge normal e).id = e.id := by
  cases normal <;> rfl

theorem fetchEdge_fetchEdge (normal : Bool) : fetchEdge normal (fetchEdge normal e) = e := by
  cases normal <;> rfl

theorem turnPoint_turnPoint (normal : Bool) : turnPoint normal (turnPoint normal p) = p := by
  cases normal with
  | true => rfl
  | false =>
    have hside : p.side.reverse.reverse = p.side := Side.reverse_reverse
    have hfrac : 1 - (1 - p.fraction) = p.fraction := sub_sub_cancel 1 p.fraction
    show PointOnEdge.mk p.pid p.edgeId p.side.reverse.reverse (1 - (1 - p.fraction)) p.vertexId = p
    rw [hside, hfrac]

/-- The place on the turned road. -/
def Place.turn : Place → Place
  | source => target
  | target => source
  | point p => point (turnPoint false p)

@[simp] theorem Place.turn_vertex : a.turn.vertex (fetchEdge false e) = a.vertex e := by
  cases a <;> rfl

@[simp] theorem Place.turn_fraction : a.turn.fraction = 1 - a.fraction := by
  cases a with
  | source => exact (sub_zero 1).symm
  | target => exact (sub_self 1).symm
  | point p => rfl

theorem Place.On.turn (h : a.On e points) :
    a.turn.On (fetchEdge false e) (points.map (turnPoint false)) := by
  cases a with
  | source | target => trivial
  | point p => exact ⟨List.mem_map_of_mem h.1, h.2⟩

theorem Place.OpensForward.turn (h : a.OpensForward e d) :
    a.turn.OpensForward (fetchEdge false e) d.reverse := by
  cases a with
  | source | target => trivial
  | point p =>
    show _ ∨ d.reverse = .both ∨ p.side.reverse = .both ∨ p.side.reverse = d.reverse
    rw [Side.reverse_eq_both_iff, Side.reverse_eq_both_iff, Side.reverse_inj]
    exact h

theorem Place.OpensBackward.turn (h : a.OpensBackward e d) :
    a.turn.OpensBackward (fetchEdge false e) d.reverse := by
  cases a with
  | source | target => trivial
  | point p =>
    show _ ∨ d.reverse = .both ∨ p.side.reverse = .both ∨ p.side.reverse ≠ d.reverse
    rw [Side.reverse_eq_both_iff, Side.reverse_eq_both_iff, ne_eq, Side.reverse_inj]
    exact h

/-- No two points lie at the same place of a road. -/
def Apart (points : List PointOnEdge) : Prop :=
  ∀ p ∈ points, ∀ q ∈ points, p.edgeId = q.edgeId → p.fraction = q.fraction → p = q

theorem Place.Precedes.turn (hapart : Apart points) (ha : a.On e points) (hb : b.On e points)
    (h : a.Precedes b) : b.turn.Precedes a.turn := by
  cases a with
  | source => cases b <;> trivial
  | target => cases b <;> exact h.elim
  | point p =>
    cases b with
    | source => exact h.elim
    | target => trivial
    | point q =>
      obtain hlt | ⟨heq, hlt⟩ : Before p q := h
      · exact .inl (sub_lt_sub_left hlt 1)
      · rw [hapart p ha.1 q hb.1 (ha.2.trans hb.2.symm) heq] at hlt
        exact absurd hlt (lt_irrefl _)

/-- A way along a road leads the other way along the turned road. -/
theorem RoadArc.turn (hapart : Apart points) (h : RoadArc es d points u v w) :
    RoadArc (es.map (fetchEdge false)) d.reverse (points.map (turnPoint false)) v u w := by
  have hdelta : ∀ a b : Place, a.turn.fraction - b.turn.fraction = b.fraction - a.fraction := by
    intro a b
    rw [Place.turn_fraction, Place.turn_fraction, sub_sub_sub_cancel_left]
  cases h with
  | forward he hc ha hb hab hopena hopenb =>
    have harc := RoadArc.forward (List.mem_map_of_mem he) hc hb.turn ha.turn
      (hab.turn hapart ha hb) hopenb.turn hopena.turn
    rwa [Place.turn_vertex, Place.turn_vertex, hdelta] at harc
  | backward he hr ha hb hab hopena hopenb =>
    have harc := RoadArc.backward (List.mem_map_of_mem he) hr hb.turn ha.turn
      (hab.turn hapart ha hb) hopenb.turn hopena.turn
    rwa [Place.turn_vertex, Place.turn_vertex, hdelta] at harc
  | @atEnd e a b he ha hb hsame hend =>
    have harc := RoadArc.atEnd (d := d.reverse) (List.mem_map_of_mem he) hb.turn ha.turn
      (by rw [Place.turn_fraction, Place.turn_fraction, hsame])
      (by
        rw [Place.turn_fraction, ← hsame, sub_eq_zero, sub_eq_self]
        exact hend.symm.imp Eq.symm id)
    rwa [Place.turn_vertex, Place.turn_vertex] at harc

theorem Apart.turn (h : Apart points) (normal : Bool) : Apart (points.map (turnPoint normal)) := by
  intro p hp q hq hid hfrac
  obtain ⟨p, hpold, rfl⟩ := List.mem_map.mp hp
  obtain ⟨q, hqold, rfl⟩ := List.mem_map.mp hq
  rw [turnPoint_edgeId, turnPoint_edgeId] at hid
  have hfrac : p.fraction = q.fraction := by
    cases normal with
    | true => exact hfrac
    | false => exact sub_right_injective hfrac
  rw [h p hpold q hqold hid hfrac]

/-- The turned network is the network with its ways turned round. -/
theorem roadArc_turned (hapart : Apart points) :
    RoadArc (es.map (fetchEdge false)) d.reverse (points.map (turnPoint false)) u v w ↔
      RoadArc es d points v u w := by
  constructor
  · intro h
    have h := h.turn (hapart.turn false)
    rwa [List.map_map, List.map_map, Side.reverse_reverse,
      show fetchEdge false ∘ fetchEdge false = id from funext fun _ => fetchEdge_fetchEdge false,
      show turnPoint false ∘ turnPoint false = id from funext fun _ => turnPoint_turnPoint false,
      List.map_id, List.map_id] at h
  · exact fun h => h.turn hapart

/-! ## The network that is searched -/

/-- The arcs in the direction of a search. -/
def Along (normal : Bool) (A : Int → Int → ℚ → Prop) (u v : Int) (w : ℚ) : Prop :=
  if normal then A u v w else A v u w

theorem isDist_along {A : Int → Int → ℚ → Prop} {normal directed : Bool} {x y : Int} {c : ℚ} :
    IsDist (Oriented directed (Along normal A)) x y c ↔
      if normal then IsDist (Oriented directed A) x y c
        else IsDist (Oriented directed A) y x c := by
  cases normal with
  | true => exact Iff.rfl
  | false => exact @IsDist.reverse_iff _ _ _ _ (Oriented directed A) y x c

theorem reachable_along {A : Int → Int → ℚ → Prop} {normal directed : Bool} {x y : Int} :
    Reachable (Oriented directed (Along normal A)) x y ↔
      if normal then Reachable (Oriented directed A) x y
        else Reachable (Oriented directed A) y x := by
  cases normal with
  | true => exact Iff.rfl
  | false => exact exists_congr fun c => @Walk.reverse_iff _ _ _ (Oriented directed A) y x c

/-- Each road with points can be divided at them, in the direction of the search. -/
def Dividable (normal : Bool) (d : Side) (es : List EdgeT) (points : List PointOnEdge) : Prop :=
  ∀ e ∈ es, ∀ p ∈ points, p.edgeId = e.id → e.source ≠ e.target ∧
    Splittable (fetchEdge normal e) (turnSide normal d)
      ((points.filter (e.id = ·.edgeId)).map (turnPoint normal))

instance (normal : Bool) (d : Side) (es : List EdgeT) (points : List PointOnEdge) :
    Decidable (Dividable normal d es points) := by
  unfold Dividable
  infer_instance

theorem Network.turn (h : Network es points) (normal : Bool) :
    Network (es.map (fetchEdge normal)) (points.map (turnPoint normal)) := by
  constructor
  case ids =>
    rw [List.map_map, show (·.id) ∘ fetchEdge normal = (·.id) from
      funext fun e => fetchEdge_id normal]
    exact h.ids
  case pids =>
    rw [List.map_map, show (·.pid) ∘ turnPoint normal = (·.pid) from
      funext fun p => turnPoint_pid normal]
    exact h.pids
  case fraction =>
    intro p hp
    obtain ⟨p, hpold, rfl⟩ := List.mem_map.mp hp
    obtain ⟨h0, h1⟩ := h.fraction p hpold
    cases normal with
    | true => exact ⟨h0, h1⟩
    | false => exact ⟨sub_nonneg.mpr h1, sub_le_self 1 h0⟩
  case own =>
    intro p hp e he
    obtain ⟨p, hpold, rfl⟩ := List.mem_map.mp hp
    obtain ⟨e, heold, rfl⟩ := List.mem_map.mp he
    rw [turnPoint_pid]
    cases normal with
    | true => exact h.own p hpold e heold
    | false => exact (h.own p hpold e heold).symm

theorem Dividable.turn {normal : Bool} (h : Dividable normal d es points) :
    Dividable true (turnSide normal d) (es.map (fetchEdge normal))
      (points.map (turnPoint normal)) := by
  intro e he p hp hid
  obtain ⟨e, heold, rfl⟩ := List.mem_map.mp he
  obtain ⟨p, hpold, rfl⟩ := List.mem_map.mp hp
  rw [turnPoint_edgeId, fetchEdge_id] at hid
  obtain ⟨hends, hsplit⟩ := h e heold p hpold hid
  refine ⟨?_, ?_⟩
  · cases normal with
    | true => exact hends
    | false => exact hends.symm
  · have hfilter : (points.map (turnPoint normal)).filter ((fetchEdge normal e).id = ·.edgeId) =
        (points.filter (e.id = ·.edgeId)).map (turnPoint normal) := by
      rw [List.filter_map, fetchEdge_id]
      congr 2
      funext p
      exact congrArg (fun i => decide (e.id = i)) (turnPoint_edgeId normal)
    rw [hfilter]
    show Splittable _ _ (((points.filter (e.id = ·.edgeId)).map (turnPoint normal)).map id)
    rwa [List.map_id]

/-- The roads are sound when they can be divided. -/
theorem Network.sound {on : EdgeT → List PointOnEdge} (hnet : Network es points)
    (hdivides : Divides es points on) (h : Dividable true d es points) :
    ∀ e ∈ es, Sound e d (on e) := by
  intro e he
  have hmem : ∀ {q}, q ∈ on e → q ∈ points ∧ q.edgeId = e.id := fun hq =>
    (hdivides.mem_iff he).mp hq
  have hroad : on e ≠ [] → e.source ≠ e.target ∧ Splittable e d (on e) := by
    intro hne
    obtain ⟨q, hq⟩ := List.exists_mem_of_ne_nil _ hne
    obtain ⟨hends, hsplit⟩ := h e he q (hmem hq).1 (hmem hq).2
    have hsplit : Splittable e d ((points.filter (e.id = ·.edgeId)).map id) := hsplit
    rw [List.map_id] at hsplit
    exact ⟨hends, hsplit.perm (hdivides.perm e he)⟩
  constructor
  case inOrder =>
    exact ⟨hdivides.sorted e he, fun q hq => (hnet.fraction q (hmem hq).1).1,
      fun q hq => (hnet.fraction q (hmem hq).1).2⟩
  case own =>
    refine ⟨fun q hq => (hnet.own q (hmem hq).1 e he).1,
      fun q hq => (hnet.own q (hmem hq).1 e he).2, fun p hp q hq heq => ?_⟩
    exact List.inj_on_of_nodup_map hnet.pids (hmem hp).1 (hmem hq).1 (neg_injective heq)
  case ends => exact fun hne => (hroad hne).1
  case splittable => exact fun hne => (hroad hne).2

/-- The table that is searched has the distances of the network, in the direction of the
    search. -/
theorem searched_spec (normal directed : Bool) (hnet : Network es points)
    (hdividable : Dividable normal (effectiveSide d directed) es points)
    (hapart : normal = false → Apart points)
    (hes : ∀ e, e ∈ es.map (fetchEdge normal) ↔ e ∈ others ∨ e ∈ divided)
    (hothers : ∀ e ∈ others, ∀ p ∈ points, p.edgeId ≠ e.id)
    (hdivided : ∀ e ∈ divided, ∃ p ∈ points, p.edgeId = e.id) :
    (new points divided normal d directed).error = "" ∧
      (divided ≠ [] → (new points divided normal d directed).newEdges ≠ []) ∧
      Equidistant (TableArc (others ++ (new points divided normal d directed).newEdges))
        (Along normal (RoadArc es (effectiveSide d directed) points)) := by
  have hturned := hnet.turn normal
  rw [new_turned]
  obtain ⟨herror, hne, on, hdivides, harcs⟩ := new_spec (d := turnSide normal d) directed
    hturned.pids hturned.fraction hes
    (fun e he p hp => by
      obtain ⟨p, hpold, rfl⟩ := List.mem_map.mp hp
      rw [turnPoint_edgeId]
      exact hothers e he p hpold)
    fun e he => by
      obtain ⟨p, hp, hid⟩ := hdivided e he
      exact ⟨_, List.mem_map_of_mem hp, (turnPoint_edgeId normal).trans hid⟩
  refine ⟨herror, hne, (Equidistant.of_iff harcs).trans ?_⟩
  rw [effectiveSide_turnSide]
  refine (equidistant_netArc hdivides (hturned.sound hdivides hdividable.turn)).trans
    (Equidistant.of_iff fun u v w => ?_)
  cases normal with
  | true =>
    rw [show es.map (fetchEdge true) = es from List.map_id es,
      show points.map (turnPoint true) = points from List.map_id points]
    exact Iff.rfl
  | false => exact roadArc_turned (hapart rfl)

end Turned

end PgPointsGraph

end PgRouting
