import PgRouting.Spec.SpoiledSplits

/-!
# When dividing an edge keeps the network

What `create_new_edges` makes of one edge keeps its distances if and only if no point of both
sides comes after a point of one side, and no point is at the target. A loop that costs nothing
is the exception: as long as its points stay joined to it, nothing can be lost.

## Key results

- `preserves_of_loop`: the points of a loop that costs nothing
- `preserves_iff`: when the arcs keep the distances
- `new_preserves_iff`: when `Pg_points_graph` keeps them
-/

namespace PgRouting

namespace PgPointsGraph

variable {edge : EdgeT} {d : Side} {p q x y z : PointOnEdge} {u v : Int} {w : ℚ}
variable {done rest l points : List PointOnEdge}

/-! ## Loops that cost nothing -/

theorem PointArc.nonneg {s : Splitting} (h : PointArc edge d s p u v w) : 0 ≤ w := by
  cases h with
  | fromSource | toSource | fromTarget | toTarget => exact le_rfl
  | forward _ _ _ hw => exact hw
  | backward _ _ _ hw => exact hw

theorem SplitArc.nonneg (h : SplitArc edge d l u v w) : 0 ≤ w := by
  cases h with
  | point _ harc => exact harc.nonneg
  | lastForward hw => exact hw
  | lastBackward hw => exact hw

/-- Induction over the points in their order. -/
theorem points_induction {P : PointOnEdge → Prop}
    (step : ∀ done p rest, l = done ++ p :: rest → (∀ q ∈ done, P q) → P p) :
    ∀ q ∈ l, P q := by
  suffices h : ∀ done rest, l = done ++ rest → ∀ q ∈ done, P q from
    h l [] (List.append_nil l).symm
  intro done
  induction done using List.reverseRecOn with
  | nil => exact fun _ _ q hq => nomatch hq
  | append_singleton done p ih =>
    intro rest hl q hq
    rw [List.append_assoc, List.singleton_append] at hl
    obtain hq | hq := List.mem_append.mp hq
    · exact ih _ hl q hq
    · rw [List.mem_singleton.mp hq]
      exact step done p rest hl (ih _ hl)

section Loop

variable (hloop : edge.source = edge.target) (hc : edge.cost = 0) (hr : edge.reverseCost = 0)

include hloop in
/-- A point at an end of a loop is joined to it. -/
theorem walks_of_end (hq : q ∈ l) (h0 : 0 ≤ q.fraction) (h1 : q.fraction ≤ 1)
    (hin : ¬ q.inside = true) :
    Walk (SplitArc edge d l) edge.source (-q.pid) 0 ∧
      Walk (SplitArc edge d l) (-q.pid) edge.source 0 := by
  obtain hlt | hend := lt_or_eq_of_le h1
  · obtain ⟨hfrom, hto⟩ := SplitArc.of_source edge d hq
      (fraction_eq_zero h0 hlt hin)
    exact ⟨Walk.single hfrom, Walk.single hto⟩
  · obtain ⟨hfrom, hto⟩ := SplitArc.of_target edge d hq hend
    rw [hloop]
    exact ⟨Walk.single hfrom, Walk.single hto⟩

include hc in
/-- The arc that leads to a point. -/
theorem SplitArc.forward_zero (hl : l = done ++ p :: rest) (hin : p.inside = true)
    (hcuts : cutsForward edge d p = true) :
    SplitArc edge d l (splitting edge d done).prevTarget (-p.pid) 0 := by
  have harc := PointArc.forward (s := splitting edge d done) hin hcuts hc.ge
    (by rw [hc, mul_zero])
  rw [hc, mul_zero] at harc
  exact .point hl harc

include hr in
/-- The arc that leads from a point. -/
theorem SplitArc.backward_zero (hl : l = done ++ p :: rest) (hin : p.inside = true)
    (hcuts : cutsBackward edge d p = true) :
    SplitArc edge d l (-p.pid) (if bothWays edge d p then (splitting edge d done).prevTarget
      else (splitting edge d done).prevRtarget) 0 := by
  have harc := PointArc.backward (s := splitting edge d done) hin hcuts hr.ge
    (by rw [hr, mul_zero])
  rw [hr, mul_zero] at harc
  exact .point hl harc

include hr in
theorem SplitArc.lastBackward_zero :
    SplitArc edge d l edge.target (splitting edge d l).prevRtarget 0 := by
  have hw : edge.reverseCost - (splitting edge d l).aggRcost = 0 := by
    rw [hr, (aggRcost_eq_zero hr.le).1, sub_zero]
  have harc := @SplitArc.lastBackward edge d l hw.ge
  rwa [hw] at harc

include hloop hc in
/-- The points that divide the way from the source are reached. -/
theorem walk_to_forward (h : InOrder l) :
    ∀ p ∈ l, cutsForward edge d p = true →
      Walk (SplitArc edge d l) edge.source (-p.pid) 0 := by
  refine points_induction fun done p rest hl ih hcuts => ?_
  obtain ⟨hdone, hsub, hp, _⟩ := h.before hl
  by_cases hin : p.inside = true
  · have harc := SplitArc.forward_zero hc hl hin hcuts
    have hlatest := latest_forward edge d hdone.sorted
    generalize (splitting edge d done).prevTarget = v at harc hlatest
    generalize (splitting edge d done).prevFraction = f at hlatest
    cases hlatest with
    | source _ => exact Walk.single harc
    | @point y hy hcutsy _ =>
      have hwalk := (ih y hy hcutsy).snoc harc
      rwa [add_zero] at hwalk
  · exact (walks_of_end hloop hp (h.nonneg p hp) (h.le_one p hp) hin).1

include hloop hc hr in
/-- The points lead to the source, unless the way from them ends at a point at the target. -/
theorem walk_to_source (h : InOrder l)
    (hstray : ∀ z ∈ l, z.inside = true → cutsBackward edge d z = false → ∀ x ∈ l, Before z x →
      x.fraction = 1 → cutsForward edge d x = false) :
    ∀ p ∈ l, Walk (SplitArc edge d l) (-p.pid) edge.source 0 := by
  refine points_induction fun done p rest hl ih => ?_
  obtain ⟨hdone, hsub, hp, _⟩ := h.before hl
  by_cases hin : p.inside = true
  · by_cases hcuts : cutsBackward edge d p = true
    · have harc := SplitArc.backward_zero hr hl hin hcuts
      -- The arc leads to the source or to a point before, from which the way is known.
      have hprev : ∀ {v f cuts}, Latest cuts edge.source done v f →
          Walk (SplitArc edge d l) v edge.source 0 := by
        intro v f cuts hlatest
        cases hlatest with
        | source _ => exact .nil _
        | @point y hy _ _ => exact ih y hy
      have hwalk : Walk (SplitArc edge d l) (if bothWays edge d p then
          (splitting edge d done).prevTarget else (splitting edge d done).prevRtarget)
          edge.source 0 := by
        split
        · exact hprev (latest_forward _ _ hdone.sorted)
        · exact hprev (latest_backward _ _ hdone.sorted)
      have := Walk.cons harc hwalk
      rwa [add_zero] at this
    · -- No point at the target divides the way from the source.
      have hcuts := Bool.eq_false_iff.mpr hcuts
      have h1 : ∀ q ∈ l, cutsForward edge d q = true → q.fraction < 1 := by
        intro q hq hcutsq
        refine lt_of_le_of_ne (h.le_one q hq) fun hend => ?_
        have hbefore : Before p q := .inl (hend ▸ (inside_iff.mp hin).2)
        rw [hstray p hp hin hcuts q hq hbefore hend] at hcutsq
        exact Bool.false_ne_true hcutsq
      -- The way on to the target, which is the source, costs nothing.
      have hφ : Measures (fun _ => 0) edge edge.cost l :=
        ⟨rfl, hc.symm, fun q _ => by rw [hc, mul_zero]⟩
      have htight := ((forward_tight (d := d) h hφ hc.ge h1).2 p hp
        (cutsForward_of_not_backward hcuts)).2
      rwa [Tight, sub_zero, ← hloop] at htight
  · exact (walks_of_end hloop hp (h.nonneg p hp) (h.le_one p hp) hin).2

include hloop hr in
/-- A point that only divides the way to the source is reached unless it is lost. -/
theorem walk_to_backward (h : InOrder l) (hlost : ¬ Lost edge d l z) (hz : z ∈ l)
    (hin : z.inside = true) (hcutsz : cutsForward edge d z = false) :
    Walk (SplitArc edge d l) edge.source (-z.pid) 0 := by
  obtain ⟨done, rest, hl⟩ := List.append_of_mem hz
  have hcutsz' : cutsBackward edge d z = true := by
    obtain hcuts | hcuts := cutsForward_or_cutsBackward edge d z
    · rw [hcutsz] at hcuts
      exact absurd hcuts Bool.false_ne_true
    · exact hcuts
  -- From where the chain stands later, it leads back to the point.
  have hchain : ∀ seen later, rest = seen ++ later →
      Walk (SplitArc edge d l) (splitting edge d (done ++ z :: seen)).prevRtarget (-z.pid) 0 := by
    intro seen
    induction seen using List.reverseRecOn with
    | nil =>
      intro _ _
      rw [splitting_concat, splitAtPoint_prevRtarget, if_pos hcutsz']
      exact .nil _
    | append_singleton seen x ih =>
      intro later hrest
      rw [List.append_assoc, List.singleton_append] at hrest
      have hl' : l = (done ++ z :: seen) ++ x :: later := by
        rw [hl, hrest, List.append_assoc, List.cons_append]
      obtain ⟨hdone, hsub, hx, hbefore⟩ := h.before hl'
      have hzx : Before z x := hbefore z (List.mem_append_right done List.mem_cons_self)
      rw [← List.cons_append, ← List.append_assoc, splitting_concat, splitAtPoint_prevRtarget]
      by_cases hcuts : cutsBackward edge d x = true
      · have hboth : ¬ bothWays edge d x = true := fun hboth =>
          hlost ⟨hz, hin, hcutsz, x, hx, .inl hboth, hzx⟩
        have hinx : x.inside = true := by
          refine inside_iff.mpr ⟨(inside_iff.mp hin).1.trans_le hzx.le, ?_⟩
          refine lt_of_le_of_ne (h.le_one x hx) fun hend => ?_
          exact hlost ⟨hz, hin, hcutsz, x, hx, .inr ⟨hend, hcuts⟩, hzx⟩
        have harc := SplitArc.backward_zero hr hl' hinx hcuts
        rw [if_neg hboth] at harc
        rw [if_pos hcuts]
        have hwalk := Walk.cons harc (ih _ hrest)
        rwa [add_zero] at hwalk
      · rw [if_neg hcuts]
        exact ih _ hrest
  have hwalk := Walk.cons (@SplitArc.lastBackward_zero edge d l hr)
    (by
      have := hchain rest [] (List.append_nil rest).symm
      rwa [← hl] at this)
  rwa [add_zero, ← hloop] at hwalk

include hloop hc hr in
/-- A loop that costs nothing keeps its points joined to it. -/
theorem preserves_of_loop (h : InOrder l) (hlost : ∀ z, ¬ Lost edge d l z)
    (hstray : ∀ z ∈ l, z.inside = true → cutsBackward edge d z = false → ∀ x ∈ l, Before z x →
      x.fraction = 1 → cutsForward edge d x = false) :
    Preserves edge d l (SplitArc edge d l) := by
  have hdist : ∀ {u v}, Walk (SplitArc edge d l) u v 0 → IsDist (SplitArc edge d l) u v 0 :=
    fun hwalk => ⟨hwalk, fun _ hc => Walk.nonneg (fun _ _ _ harc => harc.nonneg) hc⟩
  have hto : ∀ p ∈ l, Walk (SplitArc edge d l) (-p.pid) edge.source 0 :=
    walk_to_source hloop hc hr h hstray
  have hfrom : ∀ p ∈ l, Walk (SplitArc edge d l) edge.source (-p.pid) 0 := by
    intro p hp
    by_cases hcuts : cutsForward edge d p = true
    · exact walk_to_forward hloop hc h p hp hcuts
    · by_cases hin : p.inside = true
      · exact walk_to_backward hloop hr h (hlost p) hp hin (Bool.eq_false_iff.mpr hcuts)
      · exact (walks_of_end hloop hp (h.nonneg p hp) (h.le_one p hp) hin).1
  constructor
  case there => exact fun _ => by rw [← hloop, hc]; exact hdist (.nil _)
  case noWayThere => exact fun hneg => absurd hc hneg.ne
  case back => exact fun _ => by rw [← hloop, hr]; exact hdist (.nil _)
  case noWayBack => exact fun hneg => absurd hr hneg.ne
  case forward =>
    intro _ p hp _
    rw [hc, mul_zero, mul_zero, ← hloop]
    exact ⟨hdist (hfrom p hp), hdist (hto p hp)⟩
  case backward =>
    intro _ p hp _
    rw [hr, mul_zero, mul_zero, ← hloop]
    exact ⟨hdist (hfrom p hp), hdist (hto p hp)⟩

end Loop

/-! ## When the distances are kept -/

/-- The point lies on one side of a road with two directions. -/
def OneSided (edge : EdgeT) (d : Side) (p : PointOnEdge) : Prop :=
  0 ≤ edge.cost ∧ 0 ≤ edge.reverseCost ∧ d ≠ .both ∧ p.side ≠ .both

instance (edge : EdgeT) (d : Side) (p : PointOnEdge) : Decidable (OneSided edge d p) :=
  inferInstanceAs (Decidable (_ ∧ _ ∧ _ ∧ _))

/-- The points that an edge can be divided at: none is at the target, and none of both sides comes
    after one of one side. On a loop that costs nothing a point of one side only must not have
    one after it that takes the end of its chain away. -/
def Splittable (edge : EdgeT) (d : Side) (points : List PointOnEdge) : Prop :=
  if edge.source = edge.target then
    edge.cost = 0 ∧ edge.reverseCost = 0 ∧
      ∀ z ∈ points, ∀ x ∈ points, OneSided edge d z → 0 < z.fraction → z.fraction < 1 →
        Before z x →
          (z.side = d → x.fraction = 1 → x.side ≠ .both ∧ x.side ≠ d) ∧
          (z.side ≠ d → x.side ≠ .both ∧ (x.fraction = 1 → x.side = d))
  else
    (0 ≤ edge.cost ∨ 0 ≤ edge.reverseCost → ∀ p ∈ points, p.fraction ≠ 1) ∧
      ∀ z ∈ points, ∀ x ∈ points, OneSided edge d z → 0 < z.fraction → Before z x →
        x.side ≠ .both

instance (edge : EdgeT) (d : Side) (points : List PointOnEdge) :
    Decidable (Splittable edge d points) := by
  unfold Splittable
  infer_instance

theorem oneSided_iff : OneSided edge d p ↔ ¬ bothWays edge d p = true := by
  simp only [OneSided, bothWays, decide_eq_true_eq, not_or, not_lt, ne_eq]

theorem OneSided.bothWays_iff (h : OneSided edge d z) :
    bothWays edge d x = true ↔ x.side = .both := by
  obtain ⟨hc, hr, hd, _⟩ := h
  simp [bothWays, not_lt.mpr hc, not_lt.mpr hr, hd]

/-- A place on an edge that is no loop has one position. -/
theorem OwnVertices.exists_position (hown : OwnVertices edge l)
    (hne : edge.source ≠ edge.target) : ∃ pos, Measures pos edge 1 l := by
  refine ⟨fun v => if v = edge.target then 1
    else ((l.find? (-·.pid = v)).map (·.fraction)).getD 0, ?_, if_pos rfl, fun q hq => ?_⟩
  · have hnone : l.find? (-·.pid = edge.source) = none := by
      rw [List.find?_eq_none]
      intro q hq
      simpa using hown.source q hq
    rw [if_neg hne, hnone]
    rfl
  · rw [if_neg (hown.target q hq), mul_one]
    cases hfind : l.find? (-·.pid = -q.pid) with
    | none =>
      rw [List.find?_eq_none] at hfind
      exact absurd (decide_eq_true rfl) (hfind q hq)
    | some y =>
      have hy : -y.pid = -q.pid := by simpa using List.find?_some hfind
      rw [hown.inj y (List.mem_of_find?_eq_some hfind) q hq hy]
      rfl

/-- Where no point of both sides comes after one of one side, the chains stay together. -/
theorem aligned_of_sides (h : InOrder l) (hsides : ∀ z ∈ l, ∀ x ∈ l, OneSided edge d z →
    0 < z.fraction → Before z x → x.side ≠ .both) : Aligned edge d l := by
  intro p hp q hq hqp hboth
  by_contra hnot
  rw [not_or] at hnot
  have hsided := oneSided_iff.mpr hnot.2
  have hfrac := lt_of_le_of_ne (h.nonneg q hq) (Ne.symm hnot.1)
  exact hsides q hq p hp hsided hfrac hqp (hsided.bothWays_iff.mp hboth)

/-- A road that is no loop keeps its distances when it can be divided at the points. -/
theorem preserves_of_splittable (h : InOrder l) (hown : OwnVertices edge l)
    (hne : edge.source ≠ edge.target)
    (hend : 0 ≤ edge.cost ∨ 0 ≤ edge.reverseCost → ∀ p ∈ l, p.fraction ≠ 1)
    (hsides : ∀ z ∈ l, ∀ x ∈ l, OneSided edge d z → 0 < z.fraction → Before z x →
      x.side ≠ .both) : Preserves edge d l (SplitArc edge d l) := by
  obtain ⟨pos, hpos⟩ := hown.exists_position hne
  exact preserves_of_aligned h hpos
    (fun hopen q hq => lt_of_le_of_ne (h.le_one q hq) (hend hopen q hq))
    fun _ => aligned_of_sides h hsides

/-- A road that is no loop can be divided at the points when it keeps its distances. -/
theorem Preserves.splittable (hpres : Preserves edge d l (SplitArc edge d l)) (h : InOrder l)
    (hown : OwnVertices edge l) (hne : edge.source ≠ edge.target) :
    (0 ≤ edge.cost ∨ 0 ≤ edge.reverseCost → ∀ p ∈ l, p.fraction ≠ 1) ∧
      ∀ z ∈ l, ∀ x ∈ l, OneSided edge d z → 0 < z.fraction → Before z x → x.side ≠ .both := by
  obtain ⟨pos, hpos⟩ := hown.exists_position hne
  -- A point at the target would cut one of the two ways off.
  have hend : 0 ≤ edge.cost ∨ 0 ≤ edge.reverseCost → ∀ p ∈ l, p.fraction ≠ 1 := by
    intro hopen p hp hend
    have hback : 0 ≤ edge.reverseCost → cutsBackward edge d p = true → False := fun hr hcuts =>
      not_reachable_source h hpos hp hend hcuts (hpres.back hr).reachable
    by_cases hboth : bothWays edge d p = true
    · obtain hc | hr := hopen
      · exact not_reachable_target h hpos hp hend (cutsForward_of_bothWays hboth)
          (hpres.there hc).reachable
      · exact hback hr (cutsBackward_of_bothWays hboth)
    · obtain ⟨hc, hr⟩ := costs_of_not_bothWays hboth
      obtain hcuts | hcuts := cutsForward_or_cutsBackward edge d p
      · exact not_reachable_target h hpos hp hend hcuts (hpres.there hc).reachable
      · exact hback hr hcuts
  refine ⟨hend, fun z hz x hx hsided hfrac hzx hside => ?_⟩
  have hc := hsided.1
  have hr := hsided.2.1
  have h1 : ∀ q ∈ l, q.fraction < 1 := fun q hq =>
    lt_of_le_of_ne (h.le_one q hq) (hend (.inl hc) q hq)
  have hin : z.inside = true := inside_iff.mpr ⟨hfrac, h1 z hz⟩
  have hbothx : bothWays edge d x = true := hsided.bothWays_iff.mpr hside
  -- The point divides one of the two ways only, and with the point of both sides behind it the way
  -- back to the source or the way to the point itself is cut off.
  by_cases hcuts : cutsForward edge d z = true
  · have hcuts' : cutsBackward edge d z = false :=
      Bool.eq_false_iff.mpr fun hback => oneSided_iff.mp hsided (bothWays_of_cuts hcuts hback)
    exact not_reachable_source_of_stray h hown hne h1 ⟨hz, hin, hcuts', x, hx, hbothx, hzx⟩
      (hpres.back hr).reachable
  · have hcuts := Bool.eq_false_iff.mpr hcuts
    have hback : cutsBackward edge d z = true := by
      obtain hforward | hback := cutsForward_or_cutsBackward edge d z
      · rw [hcuts] at hforward
        exact absurd hforward Bool.false_ne_true
      · exact hback
    exact not_reachable_point h hown ⟨hz, hin, hcuts, x, hx, .inl hbothx, hzx⟩
      (hpres.backward hr z hz ((opensBackward_iff hr).mpr hback)).1.reachable

theorem Preserves.congr {A B : Int → Int → ℚ → Prop} (h : Preserves edge d points A)
    (hpoints : ∀ p, p ∈ points ↔ p ∈ l) (hAB : ∀ u v w, A u v w ↔ B u v w) :
    Preserves edge d l B := by
  have heq : A = B := by
    funext u v w
    exact propext (hAB u v w)
  subst heq
  exact ⟨h.there, h.noWayThere, h.back, h.noWayBack,
    fun hc p hp => h.forward hc p ((hpoints p).mpr hp),
    fun hr p hp => h.backward hr p ((hpoints p).mpr hp)⟩

/-- What a loop that keeps its distances costs, and where its points are. -/
theorem Preserves.loop (hpres : Preserves edge d l (SplitArc edge d l)) (h : InOrder l)
    (hown : OwnVertices edge l) (hloop : edge.source = edge.target) :
    edge.cost = 0 ∧ edge.reverseCost = 0 ∧ (∀ z, ¬ Lost edge d l z) ∧
      ∀ z ∈ l, z.inside = true → cutsBackward edge d z = false → ∀ x ∈ l, Before z x →
        x.fraction = 1 → cutsForward edge d x = false := by
  have hnil : Walk (SplitArc edge d l) edge.source edge.target 0 := hloop ▸ .nil _
  have hnil' : Walk (SplitArc edge d l) edge.target edge.source 0 := hloop ▸ .nil _
  have hc : 0 ≤ edge.cost := by
    by_contra hneg
    exact hpres.noWayThere (not_le.mp hneg) ⟨0, hnil⟩
  have hr : 0 ≤ edge.reverseCost := by
    by_contra hneg
    exact hpres.noWayBack (not_le.mp hneg) ⟨0, hnil'⟩
  have hc0 := (hpres.there hc).le hnil
  have hr0 := (hpres.back hr).le hnil'
  refine ⟨le_antisymm hc0 hc, le_antisymm hr0 hr, fun z hz => ?_,
    fun z hz hin hcutsz x hx hzx hend => ?_⟩
  · have hback : cutsBackward edge d z = true := by
      obtain hforward | hback := cutsForward_or_cutsBackward edge d z
      · rw [hz.2.2.1] at hforward
        exact absurd hforward Bool.false_ne_true
      · exact hback
    exact not_reachable_point h hown hz
      (hpres.backward hr z hz.1 ((opensBackward_iff hr).mpr hback)).1.reachable
  · by_contra hcutsx
    have hforward := cutsForward_of_not_backward hcutsz
    exact not_reachable_target_of_end h hown hz hin hcutsz hx hend
      (Bool.not_eq_false _ |>.mp hcutsx)
      (hpres.forward hc z hz ((opensForward_iff hc).mpr hforward)).2.reachable

/-- The distances are kept if and only if the edge can be divided at the points. -/
theorem preserves_iff (h : InOrder l) (hown : OwnVertices edge l) :
    Preserves edge d l (SplitArc edge d l) ↔ Splittable edge d l := by
  by_cases hloop : edge.source = edge.target
  · rw [Splittable, if_pos hloop]
    constructor
    · intro hpres
      -- A lost point is not reached, and at a stray point there is no way on: neither may be there.
      obtain ⟨hc, hr, hlost, hstray⟩ := hpres.loop h hown hloop
      refine ⟨hc, hr, fun z hz x hx hsided hz0 hz1 hzx => ?_⟩
      have hin : z.inside = true := inside_iff.mpr ⟨hz0, hz1⟩
      have hboth := oneSided_iff.mp hsided
      constructor
      · intro hside hend
        have hcuts := hstray z hz hin (cutsBackward_eq_false hboth hside.symm) x hx hzx hend
        constructor
        · intro hsidex
          rw [cutsForward_of_bothWays (hsided.bothWays_iff.mpr hsidex)] at hcuts
          exact Bool.false_ne_true hcuts.symm
        · intro hsidex
          rw [cutsForward_of_side hsidex.symm] at hcuts
          exact Bool.false_ne_true hcuts.symm
      · intro hside
        have hcuts := cutsForward_eq_false hboth (Ne.symm hside)
        constructor
        · intro hsidex
          exact hlost z ⟨hz, hin, hcuts, x, hx, .inl (hsided.bothWays_iff.mpr hsidex), hzx⟩
        · intro hend
          by_contra hsidex
          exact hlost z ⟨hz, hin, hcuts, x, hx,
            .inr ⟨hend, cutsBackward_of_side (Ne.symm hsidex)⟩, hzx⟩
    · intro hsplit
      obtain ⟨hc, hr, hpoints⟩ := hsplit
      refine preserves_of_loop hloop hc hr h (fun z hz => ?_)
        fun z hz hin hcutsz x hx hzx hend => ?_
      · -- The points on the side of the driver and those on the other side are blocked differently.
        obtain ⟨hzl, hin, hcutsz, x, hx, hblocks, hzx⟩ := hz
        have hboth : ¬ bothWays edge d z = true := fun hboth => by
          rw [cutsForward_of_bothWays hboth] at hcutsz
          exact Bool.false_ne_true hcutsz.symm
        have hside : z.side ≠ d := fun hside => by
          rw [cutsForward_of_side hside.symm] at hcutsz
          exact Bool.false_ne_true hcutsz.symm
        have hsided := oneSided_iff.mpr hboth
        obtain ⟨hin0, hin1⟩ := inside_iff.mp hin
        obtain ⟨hsidex, hendx⟩ := (hpoints z hzl x hx hsided hin0 hin1 hzx).2 hside
        obtain hbothx | ⟨hend, hcutsx⟩ := hblocks
        · exact hsidex (hsided.bothWays_iff.mp hbothx)
        · rw [cutsBackward_eq_false (fun hbothx => hsidex (hsided.bothWays_iff.mp hbothx))
            (hendx hend).symm] at hcutsx
          exact Bool.false_ne_true hcutsx
      · have hboth : ¬ bothWays edge d z = true := fun hboth => by
          rw [cutsBackward_of_bothWays hboth] at hcutsz
          exact Bool.false_ne_true hcutsz.symm
        have hside : z.side = d := by
          by_contra hside
          rw [cutsBackward_of_side (Ne.symm hside)] at hcutsz
          exact Bool.false_ne_true hcutsz.symm
        have hsided := oneSided_iff.mpr hboth
        obtain ⟨hin0, hin1⟩ := inside_iff.mp hin
        obtain ⟨hsidex, hsidex'⟩ := (hpoints z hz x hx hsided hin0 hin1 hzx).1 hside hend
        exact cutsForward_eq_false (fun hbothx => hsidex (hsided.bothWays_iff.mp hbothx))
          (Ne.symm hsidex')
  · rw [Splittable, if_neg hloop]
    constructor
    · exact fun hpres => hpres.splittable h hown hloop
    · exact fun hsplit => preserves_of_splittable h hown hloop hsplit.1 hsplit.2

theorem Splittable.perm (hperm : l.Perm points) (h : Splittable edge d points) :
    Splittable edge d l := by
  have hmem : ∀ {p}, p ∈ l → p ∈ points := fun hp => hperm.mem_iff.mp hp
  unfold Splittable at h ⊢
  split
  · rename_i hloop
    rw [if_pos hloop] at h
    exact ⟨h.1, h.2.1, fun z hz x hx => h.2.2 z (hmem hz) x (hmem hx)⟩
  · rename_i hloop
    rw [if_neg hloop] at h
    exact ⟨fun hopen p hp => h.1 hopen p (hmem hp),
      fun z hz x hx => h.2 z (hmem hz) x (hmem hx)⟩

/-- **One edge.** The edges that `Pg_points_graph` makes of an edge keep its distances, and have
    each point where its fraction says, if and only if the edge can be divided at the points. -/
theorem new_preserves_iff (edge : EdgeT) (points : List PointOnEdge) (d : Side) (directed : Bool)
    (hne : points ≠ []) (hpids : (points.map (·.pid)).Nodup)
    (hedge : ∀ p ∈ points, p.edgeId = edge.id)
    (hfrac : ∀ p ∈ points, 0 ≤ p.fraction ∧ p.fraction ≤ 1)
    (hends : ∀ p ∈ points, -p.pid ≠ edge.source ∧ -p.pid ≠ edge.target) :
    Preserves edge (effectiveSide d directed) points
        (TableArc (new points [edge] true d directed).newEdges) ↔
      Splittable edge (effectiveSide d directed) points := by
  obtain ⟨l, hperm, hsorted, harcs⟩ := tableArc_new (d := d) directed hne hpids hedge hfrac
  have hmem : ∀ {p}, p ∈ l → p ∈ points := fun hp => hperm.mem_iff.mp hp
  have horder : InOrder l :=
    ⟨hsorted, fun q hq => (hfrac q (hmem hq)).1, fun q hq => (hfrac q (hmem hq)).2⟩
  have hown : OwnVertices edge l := by
    refine ⟨fun q hq => (hends q (hmem hq)).1, fun q hq => (hends q (hmem hq)).2,
      fun p hp q hq heq => ?_⟩
    exact List.inj_on_of_nodup_map hpids (hmem hp) (hmem hq) (neg_injective heq)
  constructor
  · intro hpres
    have hpres := hpres.congr (l := l) (fun p => hperm.mem_iff.symm) harcs
    exact ((preserves_iff horder hown).mp hpres).perm hperm.symm
  · intro hsplit
    have hpres := (preserves_iff horder hown).mpr (hsplit.perm hperm)
    exact hpres.congr (fun p => hperm.mem_iff) fun u v w => (harcs u v w).symm

/-- A point of both sides before one of the right side, on a road with two directions. -/
theorem new_preserves_iff_bothFirst :
    Preserves ⟨7, 10, 20, 8, 4⟩ .right [⟨1, 7, .both, 1 / 4, 0⟩, ⟨2, 7, .right, 1 / 2, 0⟩]
      (TableArc (new [⟨1, 7, .both, 1 / 4, 0⟩, ⟨2, 7, .right, 1 / 2, 0⟩] [⟨7, 10, 20, 8, 4⟩] true
        .right true).newEdges) :=
  (new_preserves_iff ⟨7, 10, 20, 8, 4⟩ [⟨1, 7, .both, 1 / 4, 0⟩, ⟨2, 7, .right, 1 / 2, 0⟩] .right
    true (by decide) (by decide) (by decide) (by decide +kernel) (by decide)).mpr
    (by decide +kernel)

/-- The other way round, the way back is lost. -/
example : ¬ Splittable ⟨7, 10, 20, 8, 4⟩ .right
    [⟨1, 7, .right, 1 / 4, 0⟩, ⟨2, 7, .both, 1 / 2, 0⟩] := by
  decide +kernel

end PgPointsGraph

end PgRouting
