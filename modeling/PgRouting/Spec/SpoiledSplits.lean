import PgRouting.Spec.SplitEdges

/-!
# Edges whose distances are lost

A point at the target takes the end of the chain away from the target, and after a point of one
side a point of both sides takes the end of the wrong chain. In each case a set of vertices shows
it that no arc leaves.

## Key results

- `not_reachable_target` / `not_reachable_source`: a point at the target cuts the way
- `not_reachable_point`: no arc leads to a point that the chain to the source has lost
- `not_reachable_source_of_stray`: the way to the source ends on the chain from it
- `not_reachable_target_of_end`: the chain from the source ends at a point at the target
-/

namespace PgRouting

namespace PgPointsGraph

variable {edge : EdgeT} {d : Side} {p q x y z : PointOnEdge} {u v : Int} {w : ℚ}
variable {done rest l : List PointOnEdge} {pos : Int → ℚ}

theorem Before.trans (h : Before p q) (h' : Before q x) : Before p x := by
  obtain hlt | ⟨heq, hpid⟩ := h
  · exact .inl (hlt.trans_le h'.le)
  · obtain hlt | ⟨heq', hpid'⟩ := h'
    · exact .inl (heq ▸ hlt)
    · exact .inr ⟨heq.trans heq', hpid.trans hpid'⟩

theorem inside_iff : p.inside = true ↔ 0 < p.fraction ∧ p.fraction < 1 := by
  rw [PointOnEdge.inside, decide_eq_true_eq]

/-- The points are vertices of their own. -/
structure OwnVertices (edge : EdgeT) (l : List PointOnEdge) : Prop where
  source : ∀ q ∈ l, -q.pid ≠ edge.source
  target : ∀ q ∈ l, -q.pid ≠ edge.target
  inj : ∀ p ∈ l, ∀ q ∈ l, -p.pid = -q.pid → p = q

/-- The point at which a chain stands. -/
theorem Latest.of_point {cuts : PointOnEdge → Bool} {f : ℚ}
    (h : Latest cuts edge.source done v f) (hown : OwnVertices edge l)
    (hsub : ∀ q ∈ done, q ∈ l) (hz : z ∈ l) (hv : v = -z.pid) :
    z ∈ done ∧ cuts z = true ∧ ∀ q ∈ done, cuts q = true → q = z ∨ Before q z := by
  cases h with
  | source _ => exact absurd hv.symm (hown.source z hz)
  | @point y hmem hcuts hlast =>
    obtain rfl := hown.inj y (hsub y hmem) z hz hv
    exact ⟨hmem, hcuts, hlast⟩

/-- A chain does not stand at the target of an edge that is no loop. -/
theorem Latest.ne_target {cuts : PointOnEdge → Bool} {f : ℚ}
    (h : Latest cuts edge.source done v f) (hown : OwnVertices edge l)
    (hsub : ∀ q ∈ done, q ∈ l) (hne : edge.source ≠ edge.target) : v ≠ edge.target := by
  cases h with
  | source _ => exact hne
  | point hmem _ _ => exact hown.target _ (hsub _ hmem)

/-- A chain stands at a point once it has seen one that divides the way. -/
theorem Latest.exists_point {cuts : PointOnEdge → Bool} {source : Int} {f : ℚ}
    (h : Latest cuts source done v f) (hx : x ∈ done) (hcuts : cuts x = true) :
    ∃ y ∈ done, v = -y.pid ∧ cuts y = true ∧ (x = y ∨ Before x y) := by
  cases h with
  | source hnone => exact absurd hcuts (by rw [hnone x hx]; exact Bool.false_ne_true)
  | @point y hmem hcutsy hlast => exact ⟨y, hmem, rfl, hcutsy, hlast x hx hcuts⟩

/-! ## Points at the target -/

section AtTarget

/-- Where the chain stands before a point is no further than the point. -/
theorem prev_le (h : InOrder l) (hpos : Measures pos edge 1 l) (hl : l = done ++ p :: rest) :
    pos (splitting edge d done).prevTarget ≤ p.fraction ∧
      pos (splitting edge d done).prevRtarget ≤ p.fraction := by
  obtain ⟨hdone, hsub, hp, hbefore⟩ := h.before hl
  have hle : ∀ q ∈ done, q.fraction ≤ p.fraction := fun q hq => (hbefore q hq).le
  have hpos' : ∀ q ∈ done, pos (-q.pid) = q.fraction * 1 := fun q hq => hpos.point q (hsub q hq)
  have hforward := latest_forward edge d hdone.sorted
  have hbackward := latest_backward edge d hdone.sorted
  rw [hforward.potential hpos.source hpos', hbackward.potential hpos.source hpos', mul_one,
    mul_one]
  exact ⟨hforward.fraction_le (h.nonneg p hp) hle, hbackward.fraction_le (h.nonneg p hp) hle⟩

/-- A point at the target that divides the way from the source cuts it. -/
theorem not_reachable_target (h : InOrder l) (hpos : Measures pos edge 1 l) (hy : y ∈ l)
    (hend : y.fraction = 1) (hcuts : cutsForward edge d y = true) :
    ¬ Reachable (SplitArc edge d l) edge.source edge.target := by
  intro hreach
  obtain ⟨c, hwalk⟩ := hreach
  have hpoint : ∀ q ∈ l, pos (-q.pid) = q.fraction := fun q hq => by
    rw [hpos.point q hq, mul_one]
  have hlt : pos edge.target < 1 := by
    refine hwalk.closed (C := fun v => pos v < 1) (fun u v w harc hu => ?_)
      (by rw [hpos.source]; exact one_pos)
    cases harc with
    | @point done rest p _ _ _ hl harc =>
      have hp := (h.before hl).2.2.1
      cases harc with
      | fromSource hf => rw [hpoint p hp, hf]; exact one_pos
      | toSource hf => rw [hpos.source]; exact one_pos
      | fromTarget hf => exact absurd hpos.target hu.ne
      | toTarget hf => exact absurd ((hpoint p hp).trans hf) hu.ne
      | forward hin _ _ _ => rw [hpoint p hp]; exact (inside_iff.mp hin).2
      | backward hin _ _ _ =>
        obtain ⟨hle, hrle⟩ := prev_le (d := d) h hpos hl
        split
        · exact hle.trans_lt (inside_iff.mp hin).2
        · exact hrle.trans_lt (inside_iff.mp hin).2
    | lastForward _ =>
      have hlatest := latest_forward edge d h.sorted
      rw [hlatest.potential hpos.source hpos.point, mul_one] at hu
      exact absurd (hend ▸ hlatest.le hy hcuts) (not_le.mpr hu)
    | lastBackward _ => exact absurd hpos.target hu.ne
  exact absurd hpos.target hlt.ne

/-- A point at the target that divides the way to the source cuts it. -/
theorem not_reachable_source (h : InOrder l) (hpos : Measures pos edge 1 l) (hy : y ∈ l)
    (hend : y.fraction = 1) (hcuts : cutsBackward edge d y = true) :
    ¬ Reachable (SplitArc edge d l) edge.target edge.source := by
  intro hreach
  obtain ⟨c, hwalk⟩ := hreach
  have hpoint : ∀ q ∈ l, pos (-q.pid) = q.fraction := fun q hq => by
    rw [hpos.point q hq, mul_one]
  have hge : 1 ≤ pos edge.source := by
    refine hwalk.closed (C := fun v => 1 ≤ pos v) (fun u v w harc hu => ?_) hpos.target.ge
    cases harc with
    | @point done rest p _ _ _ hl harc =>
      have hp := (h.before hl).2.2.1
      cases harc with
      | fromSource hf => exact absurd hu (by rw [hpos.source]; exact not_le.mpr one_pos)
      | toSource hf => exact absurd hu (by rw [hpoint p hp, hf]; exact not_le.mpr one_pos)
      | fromTarget hf => exact ((hpoint p hp).trans hf).ge
      | toTarget hf => exact hpos.target.ge
      | forward hin _ _ _ =>
        have hle := hu.trans (prev_le (d := d) h hpos hl).1
        exact absurd hle (not_le.mpr (inside_iff.mp hin).2)
      | backward hin _ _ _ =>
        rw [hpoint p hp] at hu
        exact absurd hu (not_le.mpr (inside_iff.mp hin).2)
    | lastForward _ => exact hpos.target.ge
    | lastBackward _ =>
      have hlatest := latest_backward edge d h.sorted
      rw [hlatest.potential hpos.source hpos.point, mul_one]
      exact hend ▸ hlatest.le hy hcuts
  rw [hpos.source] at hge
  exact absurd hge (not_le.mpr one_pos)

end AtTarget

/-! ## Points of both sides after points of one side -/

section OneSide

/-- A point inside the edge that only divides the way to the source, with a point after it that
    takes the end of the chain elsewhere. -/
def Lost (edge : EdgeT) (d : Side) (l : List PointOnEdge) (z : PointOnEdge) : Prop :=
  z ∈ l ∧ z.inside = true ∧ cutsForward edge d z = false ∧
    ∃ x ∈ l, (bothWays edge d x = true ∨ x.fraction = 1 ∧ cutsBackward edge d x = true) ∧
      Before z x

/-- No arc leads to a lost point. -/
theorem not_reachable_point (h : InOrder l) (hown : OwnVertices edge l) (hz : Lost edge d l z) :
    ¬ Reachable (SplitArc edge d l) edge.target (-z.pid) := by
  intro hreach
  obtain ⟨c, hwalk⟩ := hreach
  refine hwalk.closed (C := fun v => ∀ z, Lost edge d l z → v ≠ -z.pid)
    (fun u v w harc hu z hz hv => ?_) (fun z hz => (hown.target z hz.1).symm) z hz rfl
  obtain ⟨hzl, hin, hcutsz, x, hx, hblocks, hzx⟩ := hz
  -- `x` is the point that the backward chain goes on from.
  have hcutsx : cutsBackward edge d x = true := by
    obtain hboth | ⟨_, hcuts⟩ := hblocks
    · exact cutsBackward_of_bothWays hboth
    · exact hcuts
  -- The chain to the source does not stand at the point once the other one has been seen.
  have hpassed : ∀ done, done.Pairwise Before → (∀ q ∈ done, q ∈ l) → x ∈ done →
      (splitting edge d done).prevRtarget ≠ -z.pid := by
    intro done hdone hsub hxdone hprev
    obtain ⟨_, _, hlast⟩ := (latest_backward edge d hdone).of_point hown hsub hzl
      hprev
    obtain rfl | hbefore := hlast x hxdone hcutsx
    · exact Before.irrefl _ hzx
    · exact hzx.asymm hbefore
  cases harc with
  | @point done rest p _ _ _ hl harc =>
    obtain ⟨hdone, hsub, hp, _⟩ := h.before hl
    cases harc with
    | fromSource hf =>
      obtain rfl := hown.inj p hp z hzl hv
      exact absurd hf (inside_iff.mp hin).1.ne'
    | toSource _ => exact hown.source z hzl hv.symm
    | fromTarget hf =>
      obtain rfl := hown.inj p hp z hzl hv
      exact absurd hf (inside_iff.mp hin).2.ne
    | toTarget _ => exact hown.target z hzl hv.symm
    | forward _ hcuts _ _ =>
      obtain rfl := hown.inj p hp z hzl hv
      rw [hcutsz] at hcuts
      exact Bool.false_ne_true hcuts
    | backward hinp hcuts _ _ =>
      by_cases hboth : bothWays edge d p = true
      · -- The chain from the source stands at no such point.
        rw [if_pos hboth] at hv
        obtain ⟨_, hcutsz', _⟩ := (latest_forward edge d hdone.sorted).of_point
          hown hsub hzl hv
        rw [hcutsz] at hcutsz'
        exact Bool.false_ne_true hcutsz'
      · rw [if_neg hboth] at hv
        have hxdone : x ∉ done := fun hxdone => hpassed done hdone.sorted hsub hxdone hv
        -- So the point that the arc leaves is lost as well.
        have hcutsp : cutsForward edge d p = false :=
          Bool.eq_false_iff.mpr fun hcutsp => hboth (bothWays_of_cuts hcutsp hcuts)
        have hpx : Before p x := by
          obtain rfl | hafter := h.eq_or_before hl hx hxdone
          · obtain hbothx | ⟨hend, _⟩ := hblocks
            · exact absurd hbothx hboth
            · exact absurd hend (inside_iff.mp hinp).2.ne
          · exact hafter
        exact hu p ⟨hp, hinp, hcutsp, x, hx, hblocks, hpx⟩ rfl
  | lastForward _ => exact hown.target z hzl hv.symm
  | lastBackward _ => exact hpassed l h.sorted (fun q hq => hq) hx hv

/-- A point inside the edge that only divides the way from the source, with a point of both sides
    after it. -/
def Stray (edge : EdgeT) (d : Side) (l : List PointOnEdge) (z : PointOnEdge) : Prop :=
  z ∈ l ∧ z.inside = true ∧ cutsBackward edge d z = false ∧
    ∃ x ∈ l, bothWays edge d x = true ∧ Before z x

/-- A point at or after a point of both sides that comes after a stray one. -/
def PastStray (edge : EdgeT) (d : Side) (l : List PointOnEdge) (y : PointOnEdge) : Prop :=
  y ∈ l ∧ ∃ z ∈ l, ∃ x ∈ l, z.inside = true ∧ cutsBackward edge d z = false ∧
    bothWays edge d x = true ∧ Before z x ∧ (x = y ∨ Before x y)

theorem cutsForward_of_not_backward (h : cutsBackward edge d z = false) :
    cutsForward edge d z = true := by
  obtain hcuts | hcuts := cutsForward_or_cutsBackward edge d z
  · exact hcuts
  · rw [h] at hcuts
    exact absurd hcuts Bool.false_ne_true

/-- The points where the way from the target ends. -/
def Strays (edge : EdgeT) (d : Side) (l : List PointOnEdge) (y : PointOnEdge) : Prop :=
  Stray edge d l y ∨ PastStray edge d l y

theorem Strays.mem (h : Strays edge d l y) : y ∈ l := by
  obtain h | h := h
  · exact h.1
  · exact h.1

/-- Behind such a point the chain from the source goes on to one. -/
theorem Strays.forward (h : InOrder l) (hl : l = done ++ p :: rest) (hy : Strays edge d l y)
    (hydone : y ∈ done) (hlast : ∀ q ∈ done, cutsForward edge d q = true → q = y ∨ Before q y)
    (hin : p.inside = true) (hcuts : cutsForward edge d p = true) : Strays edge d l p := by
  obtain ⟨_, _, hp, hbefore⟩ := h.before hl
  have hyp := hbefore y hydone
  obtain ⟨hyl, hiny, hcutsy, x, hx, hboth, hyx⟩ |
    ⟨hyl, z, hz, x, hx, hinz, hcutsz, hboth, hzx, hxy⟩ := hy
  · have hxdone : x ∉ done := by
      intro hxdone
      obtain rfl | hxy := hlast x hxdone (cutsForward_of_bothWays hboth)
      · exact Before.irrefl _ hyx
      · exact hyx.asymm hxy
    by_cases hcutsp : cutsBackward edge d p = true
    · exact .inr ⟨hp, y, hyl, p, hp, hiny, hcutsy, bothWays_of_cuts hcuts hcutsp, hyp, .inl rfl⟩
    · obtain rfl | hpx := h.eq_or_before hl hx hxdone
      · exact absurd (cutsBackward_of_bothWays hboth) hcutsp
      · exact .inl ⟨hp, hin, Bool.eq_false_iff.mpr hcutsp, x, hx, hboth, hpx⟩
  · refine .inr ⟨hp, z, hz, x, hx, hinz, hcutsz, hboth, hzx, .inr ?_⟩
    obtain rfl | hxy := hxy
    · exact hyp
    · exact hxy.trans hyp

/-- Such a point that divides the way to the source hands it on to one. -/
theorem Strays.backward (h : InOrder l) (h1 : ∀ q ∈ l, q.fraction < 1)
    (hl : l = done ++ p :: rest) (hp : Strays edge d l p)
    (hcuts : cutsBackward edge d p = true) :
    ∃ y, Strays edge d l y ∧ (if bothWays edge d p then (splitting edge d done).prevTarget
      else (splitting edge d done).prevRtarget) = -y.pid := by
  obtain ⟨hdone, hsub, hpl, hbefore⟩ := h.before hl
  have hforward := latest_forward edge d hdone.sorted
  have hbackward := latest_backward edge d hdone.sorted
  obtain ⟨_, _, hcutsp, _⟩ | ⟨_, z, hz, x, hx, hinz, hcutsz, hboth, hzx, hxp⟩ := hp
  · rw [hcutsp] at hcuts
    exact absurd hcuts Bool.false_ne_true
  obtain rfl | hxp := hxp
  · -- The first point of both sides: the chain from the source stands behind the stray point.
    have hzdone := h.mem_done hl hz hzx
    obtain ⟨y, hy, hv, hcutsy, hzy⟩ := hforward.exists_point hzdone
      (cutsForward_of_not_backward hcutsz)
    rw [if_pos hboth]
    refine ⟨y, ?_, hv⟩
    by_cases hcutsy' : cutsBackward edge d y = true
    · obtain rfl | hzy := hzy
      · rw [hcutsz] at hcutsy'
        exact absurd hcutsy' Bool.false_ne_true
      · exact .inr ⟨hsub y hy, z, hz, y, hsub y hy, hinz, hcutsz,
          bothWays_of_cuts hcutsy hcutsy', hzy, .inl rfl⟩
    · have hiny : y.inside = true := by
        refine inside_iff.mpr ⟨(inside_iff.mp hinz).1.trans_le ?_, h1 y (hsub y hy)⟩
        obtain rfl | hzy := hzy
        · exact le_rfl
        · exact hzy.le
      exact .inl ⟨hsub y hy, hiny, Bool.eq_false_iff.mpr hcutsy', x, hx, hboth, hbefore y hy⟩
  · -- The first point of both sides is divided already, and each point at or behind it is stray.
    have hxdone := h.mem_done hl hx hxp
    have hpast : ∀ y ∈ done, x = y ∨ Before x y → Strays edge d l y := fun y hy hxy =>
      .inr ⟨hsub y hy, z, hz, x, hx, hinz, hcutsz, hboth, hzx, hxy⟩
    split
    · obtain ⟨y, hy, hv, _, hxy⟩ := hforward.exists_point hxdone (cutsForward_of_bothWays hboth)
      exact ⟨y, hpast y hy hxy, hv⟩
    · obtain ⟨y, hy, hv, _, hxy⟩ := hbackward.exists_point hxdone (cutsBackward_of_bothWays hboth)
      exact ⟨y, hpast y hy hxy, hv⟩

/-- The way from the target ends at the stray points and those after them. -/
theorem not_reachable_source_of_stray (h : InOrder l) (hown : OwnVertices edge l)
    (hne : edge.source ≠ edge.target) (h1 : ∀ q ∈ l, q.fraction < 1) (hz : Stray edge d l z) :
    ¬ Reachable (SplitArc edge d l) edge.target edge.source := by
  intro hreach
  obtain ⟨c, hwalk⟩ := hreach
  have hclosed := hwalk.closed (C := fun v => v = edge.target ∨
    ∃ y, Strays edge d l y ∧ v = -y.pid) (fun u v w harc hu => ?_) (.inl rfl)
  · obtain hsource | ⟨y, hy, hv⟩ := hclosed
    · exact hne hsource
    · exact hown.source y hy.mem hv.symm
  cases harc with
  | @point done rest p _ _ _ hl harc =>
    obtain ⟨hdone, hsub, hp, hbefore⟩ := h.before hl
    -- A point that has been reached is a stray one or comes after one.
    have hpoint : -p.pid = edge.target ∨ (∃ y, Strays edge d l y ∧ -p.pid = -y.pid) →
        Strays edge d l p := by
      intro hu
      obtain htarget | ⟨y, hy, hv⟩ := hu
      · exact absurd htarget (hown.target p hp)
      · rwa [hown.inj p hp y hy.mem hv]
    cases harc with
    | fromSource hf =>
      obtain hsource | ⟨y, hy, hv⟩ := hu
      · exact absurd hsource hne
      · exact absurd hv.symm (hown.source y hy.mem)
    | toSource hf =>
      obtain ⟨_, hin, _⟩ | ⟨_, z, _, x, _, hinz, _, _, hzx, hxp⟩ := hpoint hu
      · exact absurd hf (inside_iff.mp hin).1.ne'
      · have hle : z.fraction ≤ p.fraction := by
          obtain rfl | hxp := hxp
          · exact hzx.le
          · exact (hzx.trans hxp).le
        exact absurd (hf ▸ hle) (not_le.mpr (inside_iff.mp hinz).1)
    | fromTarget hf => exact absurd hf (h1 p hp).ne
    | toTarget hf => exact absurd hf (h1 p hp).ne
    | forward hin hcuts _ _ =>
      have hlatest := latest_forward edge d hdone.sorted
      obtain htarget | ⟨y, hy, hv⟩ := hu
      · exact absurd htarget (hlatest.ne_target hown hsub hne)
      · obtain ⟨hydone, _, hlast⟩ := hlatest.of_point hown hsub hy.mem hv
        exact .inr ⟨p, hy.forward h hl hydone hlast hin hcuts, rfl⟩
    | backward _ hcuts _ _ => exact .inr ((hpoint hu).backward h h1 hl hcuts)
  | lastForward _ => exact .inl rfl
  | lastBackward _ =>
    obtain ⟨hzl, hin, hcutsz, x, hx, hboth, hzx⟩ := hz
    obtain ⟨y, hy, hv, _, hxy⟩ := (latest_backward edge d h.sorted).exists_point
      hx (cutsBackward_of_bothWays hboth)
    exact .inr ⟨y, .inr ⟨hy, z, hzl, x, hx, hin, hcutsz, hboth, hzx, hxy⟩, hv⟩

/-- Behind a point that only divides the way from the source, this way ends at a point at the
    target. -/
theorem not_reachable_target_of_end (h : InOrder l) (hown : OwnVertices edge l) (hz : z ∈ l)
    (hin : z.inside = true) (hcutsz : cutsBackward edge d z = false) (hx : x ∈ l)
    (hend : x.fraction = 1) (hcutsx : cutsForward edge d x = true) :
    ¬ Reachable (SplitArc edge d l) (-z.pid) edge.target := by
  intro hreach
  obtain ⟨c, hwalk⟩ := hreach
  have hclosed := hwalk.closed (C := fun v => ∃ y ∈ l, v = -y.pid ∧ y.inside = true ∧
    cutsForward edge d y = true ∧ (z = y ∨ Before z y)) (fun u v w harc hu => ?_)
    ⟨z, hz, rfl, hin, cutsForward_of_not_backward hcutsz, .inl rfl⟩
  · obtain ⟨y, hy, hv, _⟩ := hclosed
    exact hown.target y hy hv.symm
  -- A step from an inner point that cuts the way from the source leads to another such point.
  obtain ⟨y, hy, hv, hiny, hcutsy, hzy⟩ := hu
  cases harc with
  | @point done rest p _ _ _ hl harc =>
    obtain ⟨hdone, hsub, hp, hbefore⟩ := h.before hl
    have hlatest := latest_forward edge d hdone.sorted
    cases harc with
    | fromSource hf => exact absurd hv.symm (hown.source y hy)
    | toSource hf =>
      obtain rfl := hown.inj p hp y hy hv
      exact absurd hf (inside_iff.mp hiny).1.ne'
    | fromTarget hf => exact absurd hv.symm (hown.target y hy)
    | toTarget hf =>
      obtain rfl := hown.inj p hp y hy hv
      exact absurd hf (inside_iff.mp hiny).2.ne
    | forward hinp hcuts _ _ =>
      obtain ⟨hydone, _, _⟩ := hlatest.of_point hown hsub hy hv
      have hyp := hbefore y hydone
      refine ⟨p, hp, rfl, hinp, hcuts, .inr ?_⟩
      obtain rfl | hzy := hzy
      · exact hyp
      · exact hzy.trans hyp
    | backward hinp hcuts _ _ =>
      obtain rfl := hown.inj p hp y hy hv
      obtain rfl | hzp := hzy
      · rw [hcutsz] at hcuts
        exact absurd hcuts Bool.false_ne_true
      obtain ⟨y, hydone, hv, hcutsy', hzy⟩ := hlatest.exists_point (h.mem_done hl hz hzp)
        (cutsForward_of_not_backward hcutsz)
      rw [if_pos (bothWays_of_cuts hcutsy hcuts)]
      refine ⟨y, hsub y hydone, hv, inside_iff.mpr ⟨?_, ?_⟩, hcutsy', hzy⟩
      · refine (inside_iff.mp hin).1.trans_le ?_
        obtain rfl | hzy := hzy
        · exact le_rfl
        · exact hzy.le
      · exact (hbefore y hydone).le.trans_lt (inside_iff.mp hinp).2
  -- The last segment starts at a point at the target, which is no inner one.
  | lastForward _ =>
    obtain ⟨_, _, hlast⟩ := (latest_forward edge d h.sorted).of_point hown
      (fun q hq => hq) hy hv
    have hle : 1 ≤ y.fraction := by
      obtain rfl | hxy := hlast x hx hcutsx
      · exact hend.ge
      · exact hend ▸ hxy.le
    exact absurd hle (not_le.mpr (inside_iff.mp hiny).2)
  | lastBackward _ => exact absurd hv.symm (hown.target y hy)

end OneSide

end PgPointsGraph

end PgRouting
