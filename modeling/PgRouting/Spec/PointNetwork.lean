import PgRouting.Spec.SplitNetwork

/-!
# Networks with points

What a network with points on its roads is for: on each road one can stop at its ends and at the
points that are open in the direction of travel, and the way from one stop to a later one costs
its part of the road. The edges that `Pg_points_graph` makes of the roads have the distances of
this network, between vertices as well as points.

## Key results

- `SplitArc.road`, `walk_forward`, `walk_backward`: each leads along the arcs of the other
- `equidistant_netArc`: the distances are the same
-/

namespace PgRouting

namespace PgPointsGraph

variable {edge : EdgeT} {d : Side} {p q x : PointOnEdge} {u v : Int} {w : ℚ}
variable {done rest l points : List PointOnEdge} {es : List EdgeT}

/-! ## The network -/

/-- A place on a road. -/
inductive Place
  | source
  | target
  | point (p : PointOnEdge)

namespace Place

/-- The vertex of a place. -/
def vertex (edge : EdgeT) : Place → Int
  | source => edge.source
  | target => edge.target
  | point p => -p.pid

/-- How far a place is from the source. -/
def fraction : Place → ℚ
  | source => 0
  | target => 1
  | point p => p.fraction

/-- The place lies on the road. -/
def On (edge : EdgeT) (points : List PointOnEdge) : Place → Prop
  | point p => p ∈ points ∧ p.edgeId = edge.id
  | _ => True

/-- One can stop there on the way from the source. -/
def OpensForward (edge : EdgeT) (d : Side) : Place → Prop
  | point p => PgPointsGraph.OpensForward edge d p
  | _ => True

/-- One can stop there on the way to the source. -/
def OpensBackward (edge : EdgeT) (d : Side) : Place → Prop
  | point p => PgPointsGraph.OpensBackward edge d p
  | _ => True

/-- The order of the places on a road. -/
def Precedes : Place → Place → Prop
  | source, point _ => True
  | source, target => True
  | point p, point q => Before p q
  | point _, target => True
  | _, _ => False

end Place

/-- The ways between two places on one road. -/
inductive RoadArc (es : List EdgeT) (d : Side) (points : List PointOnEdge) :
    Int → Int → ℚ → Prop
  | forward {e : EdgeT} {a b : Place} (he : e ∈ es) (hc : 0 ≤ e.cost) (ha : a.On e points)
      (hb : b.On e points) (hab : a.Precedes b) (hopena : a.OpensForward e d)
      (hopenb : b.OpensForward e d) :
      RoadArc es d points (a.vertex e) (b.vertex e) ((b.fraction - a.fraction) * e.cost)
  | backward {e : EdgeT} {a b : Place} (he : e ∈ es) (hr : 0 ≤ e.reverseCost)
      (ha : a.On e points) (hb : b.On e points) (hab : a.Precedes b)
      (hopena : a.OpensBackward e d) (hopenb : b.OpensBackward e d) :
      RoadArc es d points (b.vertex e) (a.vertex e) ((b.fraction - a.fraction) * e.reverseCost)
  | atEnd {e : EdgeT} {a b : Place} (he : e ∈ es) (ha : a.On e points) (hb : b.On e points)
      (hsame : a.fraction = b.fraction) (hend : a.fraction = 0 ∨ a.fraction = 1) :
      RoadArc es d points (a.vertex e) (b.vertex e) 0

/-! ## The edges of the roads -/

/-- The points on each of the roads, in their order. -/
structure Divides (es : List EdgeT) (points : List PointOnEdge)
    (on : EdgeT → List PointOnEdge) : Prop where
  perm : ∀ e ∈ es, (on e).Perm (points.filter (e.id = ·.edgeId))
  sorted : ∀ e ∈ es, (on e).Pairwise Before

/-- The arcs of the edges that the roads are replaced by. -/
def NetArc (es : List EdgeT) (d : Side) (on : EdgeT → List PointOnEdge) (u v : Int) (w : ℚ) :
    Prop :=
  ∃ e ∈ es, SplitArc e d (on e) u v w

/-- What is needed of a road with points. -/
structure Sound (edge : EdgeT) (d : Side) (l : List PointOnEdge) : Prop where
  inOrder : InOrder l
  own : OwnVertices edge l
  ends : l ≠ [] → edge.source ≠ edge.target
  splittable : l ≠ [] → Splittable edge d l

theorem Sound.lt_one (h : Sound edge d l) (hopen : 0 ≤ edge.cost ∨ 0 ≤ edge.reverseCost) :
    ∀ q ∈ l, q.fraction < 1 := by
  intro q hq
  have hne : l ≠ [] := List.ne_nil_of_mem hq
  have hsplit := h.splittable hne
  rw [Splittable, if_neg (h.ends hne)] at hsplit
  exact lt_of_le_of_ne (h.inOrder.le_one q hq) (hsplit.1 hopen q hq)

theorem Sound.aligned (h : Sound edge d l) : Aligned edge d l := by
  by_cases hne : l = []
  · intro p hp
    rw [hne] at hp
    exact nomatch hp
  · have hsplit := h.splittable hne
    rw [Splittable, if_neg (h.ends hne)] at hsplit
    exact aligned_of_sides h.inOrder hsplit.2

/-! ## The edges lead along the roads -/

/-- Where the chain from the source stands is a place on the road. -/
theorem Latest.place_forward {f : ℚ} (h : Latest (cutsForward edge d) edge.source done v f)
    (hdone : ∀ q ∈ done, q ∈ points ∧ q.edgeId = edge.id) (hc : 0 ≤ edge.cost) :
    ∃ a : Place, a.vertex edge = v ∧ a.fraction = f ∧ a.On edge points ∧
      a.OpensForward edge d ∧ a.Precedes .target ∧
      ∀ p, (∀ q ∈ done, Before q p) → a.Precedes (.point p) := by
  cases h with
  | source _ => exact ⟨.source, rfl, rfl, trivial, trivial, trivial, fun _ _ => trivial⟩
  | @point y hy hcuts _ =>
    exact ⟨.point y, rfl, rfl, hdone y hy, (opensForward_iff hc).mpr hcuts, trivial,
      fun p hp => hp y hy⟩

/-- Where the chain to the source stands is a place on the road. -/
theorem Latest.place_backward {f : ℚ} (h : Latest (cutsBackward edge d) edge.source done v f)
    (hdone : ∀ q ∈ done, q ∈ points ∧ q.edgeId = edge.id) (hr : 0 ≤ edge.reverseCost) :
    ∃ a : Place, a.vertex edge = v ∧ a.fraction = f ∧ a.On edge points ∧
      a.OpensBackward edge d ∧ a.Precedes .target ∧
      ∀ p, (∀ q ∈ done, Before q p) → a.Precedes (.point p) := by
  cases h with
  | source _ => exact ⟨.source, rfl, rfl, trivial, trivial, trivial, fun _ _ => trivial⟩
  | @point y hy hcuts _ =>
    exact ⟨.point y, rfl, rfl, hdone y hy, (opensBackward_iff hr).mpr hcuts, trivial,
      fun p hp => hp y hy⟩

/-- An arc of the edges stands for a way along the road. -/
theorem SplitArc.road (h : Sound edge d l) (he : edge ∈ es)
    (hl : ∀ q ∈ l, q ∈ points ∧ q.edgeId = edge.id) (harc : SplitArc edge d l u v w) :
    ∃ c ≤ w, Walk (RoadArc es d points) u v c := by
  cases harc with
  | @point done rest p _ _ _ hsplit harc =>
    obtain ⟨hdone, hsub, hp, hbefore⟩ := h.inOrder.before hsplit
    have hdone' : ∀ q ∈ done, q ∈ points ∧ q.edgeId = edge.id := fun q hq => hl q (hsub q hq)
    have hforward := latest_forward edge d hdone.sorted
    have hbackward := latest_backward edge d hdone.sorted
    cases harc with
    -- A point on an end of the edge is joined to it at no cost, whatever side it is on.
    | fromSource hf =>
      exact ⟨0, le_rfl, Walk.single (RoadArc.atEnd (a := .source) (b := .point p) he trivial
        (hl p hp) hf.symm (.inl rfl))⟩
    | toSource hf =>
      exact ⟨0, le_rfl, Walk.single (RoadArc.atEnd (a := .point p) (b := .source) he (hl p hp)
        trivial hf (.inl hf))⟩
    | fromTarget hf =>
      exact ⟨0, le_rfl, Walk.single (RoadArc.atEnd (a := .target) (b := .point p) he trivial
        (hl p hp) hf.symm (.inr rfl))⟩
    | toTarget hf =>
      exact ⟨0, le_rfl, Walk.single (RoadArc.atEnd (a := .point p) (b := .target) he (hl p hp)
        trivial hf (.inr hf))⟩
    -- The last place that cuts the direction is a place of the road, and no point lies between.
    | forward hin hcuts hc hw =>
      obtain ⟨a, ha, hf, hon, hopen, _, hprec⟩ := hforward.place_forward hdone' hc
      rw [← ha, ← hf]
      exact ⟨_, le_rfl, Walk.single (RoadArc.forward (b := .point p) he hc hon (hl p hp)
        (hprec p hbefore) hopen ((opensForward_iff hc).mpr hcuts))⟩
    -- `create_new_edges` starts the arc back at the point and ends it at the forward previous
    -- target.
    | backward hin hcuts hr hw =>
      obtain ⟨a, ha, hf, hon, hopen, _, hprec⟩ := hbackward.place_backward hdone' hr
      have hopenp : (Place.point p).OpensBackward edge d := (opensBackward_iff hr).mpr hcuts
      have hroad : RoadArc es d points (-p.pid) (a.vertex edge)
          ((p.fraction - (splitting edge d done).prevRfraction) * edge.reverseCost) :=
        hf ▸ RoadArc.backward (b := .point p) he hr hon (hl p hp) (hprec p hbefore) hopen hopenp
      by_cases hboth : bothWays edge d p = true
      · rw [if_pos hboth]
        -- Both directions have been cut at the same points, so the previous targets agree.
        obtain ⟨hfrac, hsame⟩ := hforward.align hbackward hdone.nonneg fun q hq => by
          obtain hq0 | hqb := h.aligned p hp q (hsub q hq) (hbefore q hq) hboth
          · exact .inl hq0
          · exact .inr ⟨cutsForward_of_bothWays hqb, cutsBackward_of_bothWays hqb⟩
        obtain hsame | hzero := hsame
        · rw [hsame, ← ha]
          exact ⟨_, le_rfl, Walk.single hroad⟩
        · -- Over the source.
          have hend : RoadArc es d points (a.vertex edge) (splitting edge d done).prevTarget 0 := by
            rw [← hfrac, hzero] at hf
            generalize (splitting edge d done).prevTarget = v' at hforward
            generalize (splitting edge d done).prevFraction = f' at hforward hzero
            cases hforward with
            | source _ => exact RoadArc.atEnd (b := .source) he hon trivial hf (.inl hf)
            | @point y hy _ _ =>
              exact RoadArc.atEnd (b := .point y) he hon (hdone' y hy) (hf.trans hzero.symm)
                (.inl hf)
          have hwalk := (Walk.single hroad).snoc hend
          rw [add_zero] at hwalk
          exact ⟨_, le_rfl, hwalk⟩
      · rw [if_neg hboth, ← ha]
        exact ⟨_, le_rfl, Walk.single hroad⟩
  -- The arc to the end of the edge costs what the pieces before it have left over.
  | lastForward hw =>
    have hc : 0 ≤ edge.cost := by
      by_contra hneg
      rw [(aggCost_eq_zero (not_le.mp hneg).le).1, sub_zero] at hw
      exact hneg hw
    obtain ⟨a, ha, hf, hon, hopen, hprec, _⟩ :=
      (latest_forward edge d h.inOrder.sorted).place_forward hl hc
    have hagg := (spent_forward edge d h.inOrder.sorted h.inOrder.nonneg
      (fun q hq _ => h.lt_one (.inl hc) q hq) hc).1
    rw [← ha, hagg, ← one_sub_mul, ← hf]
    exact ⟨_, le_rfl, Walk.single (RoadArc.forward (b := .target) he hc hon trivial hprec hopen
      trivial)⟩
  | lastBackward hw =>
    have hr : 0 ≤ edge.reverseCost := by
      by_contra hneg
      rw [(aggRcost_eq_zero (not_le.mp hneg).le).1, sub_zero] at hw
      exact hneg hw
    obtain ⟨a, ha, hf, hon, hopen, hprec, _⟩ :=
      (latest_backward edge d h.inOrder.sorted).place_backward hl hr
    have hagg := (spent_backward edge d h.inOrder.sorted h.inOrder.nonneg
      (fun q hq _ => h.lt_one (.inr hr) q hq) hr).1
    rw [← ha, hagg, ← one_sub_mul, ← hf]
    exact ⟨_, le_rfl, Walk.single (RoadArc.backward (b := .target) he hr hon trivial hprec hopen
      trivial)⟩

/-! ## The roads lead along the edges -/

/-- Positions on a road with points are those of the places. -/
theorem Measures.place {pos : Int → ℚ} (hpos : Measures pos edge 1 l)
    (hl : ∀ q, q ∈ points ∧ q.edgeId = edge.id → q ∈ l) {a : Place} (ha : a.On edge points) :
    pos (a.vertex edge) = a.fraction := by
  cases a with
  | source => exact hpos.source
  | target => exact hpos.target
  | point q => exact (hpos.point q (hl q ha)).trans (mul_one _)

/-- The edges lead from a place to a later one. -/
theorem walk_forward (h : Sound edge d l) (hl : ∀ q, q ∈ points ∧ q.edgeId = edge.id → q ∈ l)
    (hc : 0 ≤ edge.cost) {a b : Place} (ha : a.On edge points) (hb : b.On edge points)
    (hab : a.Precedes b) (hopena : a.OpensForward edge d) (hopenb : b.OpensForward edge d) :
    Walk (SplitArc edge d l) (a.vertex edge) (b.vertex edge)
      ((b.fraction - a.fraction) * edge.cost) := by
  by_cases hne : edge.source = edge.target
  · -- A loop has no points.
    have hnil : l = [] := by
      by_contra hnil
      exact h.ends hnil hne
    subst hnil
    cases a with
    | source =>
      cases b with
      | source => exact hab.elim
      | target =>
        have harc := @SplitArc.lastForward edge d []
          (hc.trans (sub_zero _).ge)
        show Walk _ _ _ ((1 - 0) * edge.cost)
        rw [sub_zero, one_mul]
        exact Walk.single (sub_zero edge.cost ▸ harc)
      | point q => exact nomatch hl q hb
    | target => cases b <;> exact hab.elim
    | point q => exact nomatch hl q ha
  · obtain ⟨pos, hpos⟩ := h.own.exists_position hne
    have h1 : ∀ q ∈ l, cutsForward edge d q = true → q.fraction < 1 :=
      fun q hq _ => h.lt_one (.inl hc) q hq
    have hφ := hpos.mul edge.cost
    -- The chain of forward segments costs exactly what the fractions say.
    have htight : Tight (SplitArc edge d l) (fun v => pos v * edge.cost) (a.vertex edge)
        (b.vertex edge) := by
      cases a with
      | source =>
        cases b with
        | source => exact hab.elim
        | target => exact (forward_tight h.inOrder hφ hc h1).1
        | point q =>
          exact ((forward_tight h.inOrder hφ hc h1).2 q (hl q hb) ((opensForward_iff hc).mp
            hopenb)).1
      | target => cases b <;> exact hab.elim
      | point p =>
        cases b with
        | source => exact hab.elim
        | target =>
          exact ((forward_tight h.inOrder hφ hc h1).2 p (hl p ha) ((opensForward_iff hc).mp
            hopena)).2
        | point q =>
          exact forward_between h.inOrder hφ hc h1 (hl q hb) (hl p ha)
            ((opensForward_iff hc).mp hopenb) ((opensForward_iff hc).mp hopena) hab
    rw [Tight, hpos.place hl ha, hpos.place hl hb, ← sub_mul] at htight
    exact htight

/-- The edges lead from a place to an earlier one. -/
theorem walk_backward (h : Sound edge d l) (hl : ∀ q, q ∈ points ∧ q.edgeId = edge.id → q ∈ l)
    (hr : 0 ≤ edge.reverseCost) {a b : Place} (ha : a.On edge points) (hb : b.On edge points)
    (hab : a.Precedes b) (hopena : a.OpensBackward edge d) (hopenb : b.OpensBackward edge d) :
    Walk (SplitArc edge d l) (b.vertex edge) (a.vertex edge)
      ((b.fraction - a.fraction) * edge.reverseCost) := by
  by_cases hne : edge.source = edge.target
  · have hnil : l = [] := by
      by_contra hnil
      exact h.ends hnil hne
    subst hnil
    cases a with
    | source =>
      cases b with
      | source => exact hab.elim
      | target =>
        have harc := @SplitArc.lastBackward edge d []
          (hr.trans (sub_zero _).ge)
        show Walk _ _ _ ((1 - 0) * edge.reverseCost)
        rw [sub_zero, one_mul]
        exact Walk.single (sub_zero edge.reverseCost ▸ harc)
      | point q => exact nomatch hl q hb
    | target => cases b <;> exact hab.elim
    | point q => exact nomatch hl q ha
  · obtain ⟨pos, hpos⟩ := h.own.exists_position hne
    have h1 : ∀ q ∈ l, cutsBackward edge d q = true → q.fraction < 1 :=
      fun q hq _ => h.lt_one (.inr hr) q hq
    have hφ := hpos.mul edge.reverseCost
    -- The same chain for the other direction, whose arcs are read backwards.
    have htight : Tight (fun v u w => SplitArc edge d l u v w) (fun v => pos v * edge.reverseCost)
        (a.vertex edge) (b.vertex edge) := by
      have htight := backward_tight h.inOrder hφ hr h.aligned h1
      cases a with
      | source =>
        cases b with
        | source => exact hab.elim
        | target => exact htight.1
        | point q => exact (htight.2 q (hl q hb) ((opensBackward_iff hr).mp hopenb)).1
      | target => cases b <;> exact hab.elim
      | point p =>
        cases b with
        | source => exact hab.elim
        | target => exact (htight.2 p (hl p ha) ((opensBackward_iff hr).mp hopena)).2
        | point q =>
          exact backward_between h.inOrder hφ hr h.aligned h1 (hl q hb) (hl p ha)
            ((opensBackward_iff hr).mp hopenb) ((opensBackward_iff hr).mp hopena) hab
    rw [Tight, hpos.place hl ha, hpos.place hl hb, ← sub_mul] at htight
    exact Walk.reverse_iff.mp htight

/-- What lies at the same end of a road is joined. -/
theorem walk_atEnd (hl : ∀ q, q ∈ points ∧ q.edgeId = edge.id → q ∈ l) {a b : Place}
    (ha : a.On edge points) (hb : b.On edge points) (hsame : a.fraction = b.fraction)
    (hend : a.fraction = 0 ∨ a.fraction = 1) :
    Walk (SplitArc edge d l) (a.vertex edge) (b.vertex edge) 0 := by
  -- Each place at an end is joined to the end.
  have hjoin : ∀ c : Place, c.On edge points → ∀ f, c.fraction = f → f = 0 ∨ f = 1 →
      let v := if f = 0 then edge.source else edge.target
      Walk (SplitArc edge d l) (c.vertex edge) v 0 ∧
        Walk (SplitArc edge d l) v (c.vertex edge) 0 := by
    intro c hc f hf hend
    obtain rfl | rfl := hend
    · rw [if_pos rfl]
      cases c with
      | source => exact ⟨.nil _, .nil _⟩
      | target => exact absurd hf one_ne_zero
      | point q =>
        obtain ⟨hfrom, hto⟩ := SplitArc.of_source edge d (hl q hc) hf
        exact ⟨Walk.single hto, Walk.single hfrom⟩
    · rw [if_neg one_ne_zero]
      cases c with
      | source => exact absurd hf.symm one_ne_zero
      | target => exact ⟨.nil _, .nil _⟩
      | point q =>
        obtain ⟨hfrom, hto⟩ := SplitArc.of_target edge d (hl q hc) hf
        exact ⟨Walk.single hto, Walk.single hfrom⟩
  have hwalk := (hjoin a ha _ rfl hend).1.append (hjoin b hb _ hsame.symm hend).2
  rwa [add_zero] at hwalk

/-! ## The same distances -/

variable {on : EdgeT → List PointOnEdge}

theorem Divides.mem_iff (h : Divides es points on) {e : EdgeT} (he : e ∈ es) :
    q ∈ on e ↔ q ∈ points ∧ q.edgeId = e.id := by
  rw [(h.perm e he).mem_iff, List.mem_filter, decide_eq_true_eq, eq_comm]

/-- The edges have the distances of the network. -/
theorem equidistant_netArc (hdiv : Divides es points on) (hsound : ∀ e ∈ es, Sound e d (on e)) :
    Equidistant (NetArc es d on) (RoadArc es d points) := by
  constructor
  · intro u v w harc
    obtain ⟨e, he, harc⟩ := harc
    exact harc.road (hsound e he) he fun q hq => (hdiv.mem_iff he).mp hq
  · intro u v w harc
    have hmono : ∀ {e u v c}, e ∈ es → Walk (SplitArc e d (on e)) u v c →
        Walk (NetArc es d on) u v c := fun he hwalk => hwalk.mono fun _ _ _ harc => ⟨_, he, harc⟩
    cases harc with
    | forward he hc ha hb hab hopena hopenb =>
      exact ⟨_, le_rfl, hmono he (walk_forward (hsound _ he)
        (fun q hq => (hdiv.mem_iff he).mpr hq) hc ha hb hab hopena hopenb)⟩
    | backward he hr ha hb hab hopena hopenb =>
      exact ⟨_, le_rfl, hmono he (walk_backward (hsound _ he)
        (fun q hq => (hdiv.mem_iff he).mpr hq) hr ha hb hab hopena hopenb)⟩
    | atEnd he ha hb hsame hend =>
      exact ⟨_, le_rfl, hmono he (walk_atEnd (fun q hq => (hdiv.mem_iff he).mpr hq) ha hb hsame
        hend)⟩

end PgPointsGraph

end PgRouting
