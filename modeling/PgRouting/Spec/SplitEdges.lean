import PgRouting.Spec.SplitArcs

/-!
# Distances along a divided edge

The new edges of `create_new_edges` keep the distances of the edge that they divide, and give
each point the part of the costs that its fraction says, unless a point is at the target or a
point of both sides comes after a point of one side: the loop adds the last cost again for the
first, and leaves the chain of the other direction for the second.

## Key results

- `forward_tight` / `backward_tight`: the walks along the chains
- `SplitArc.along`: an arc costs what the positions of its ends say
-/

namespace PgRouting

namespace PgPointsGraph

variable {edge : EdgeT} {d : Side} {p q x : PointOnEdge} {u v : Int} {w : ℚ}
variable {done rest l points : List PointOnEdge}

/-! ## What is to be preserved -/

/-- The point can be reached in the direction of the edge. -/
def OpensForward (edge : EdgeT) (d : Side) (p : PointOnEdge) : Prop :=
  edge.reverseCost < 0 ∨ d = .both ∨ p.side = .both ∨ p.side = d

/-- The point can be reached against the direction of the edge. -/
def OpensBackward (edge : EdgeT) (d : Side) (p : PointOnEdge) : Prop :=
  edge.cost < 0 ∨ d = .both ∨ p.side = .both ∨ p.side ≠ d

/-- The arcs have the distances of the edge, and those of the points on it. -/
structure Preserves (edge : EdgeT) (d : Side) (points : List PointOnEdge)
    (A : Int → Int → ℚ → Prop) : Prop where
  there : 0 ≤ edge.cost → IsDist A edge.source edge.target edge.cost
  noWayThere : edge.cost < 0 → ¬ Reachable A edge.source edge.target
  back : 0 ≤ edge.reverseCost → IsDist A edge.target edge.source edge.reverseCost
  noWayBack : edge.reverseCost < 0 → ¬ Reachable A edge.target edge.source
  forward : 0 ≤ edge.cost → ∀ p ∈ points, OpensForward edge d p →
    IsDist A edge.source (-p.pid) (p.fraction * edge.cost) ∧
      IsDist A (-p.pid) edge.target ((1 - p.fraction) * edge.cost)
  backward : 0 ≤ edge.reverseCost → ∀ p ∈ points, OpensBackward edge d p →
    IsDist A edge.target (-p.pid) ((1 - p.fraction) * edge.reverseCost) ∧
      IsDist A (-p.pid) edge.source (p.fraction * edge.reverseCost)

theorem opensForward_iff (hc : 0 ≤ edge.cost) :
    OpensForward edge d p ↔ cutsForward edge d p = true := by
  simp only [OpensForward, cutsForward, bothWays, decide_eq_true_eq, not_lt.mpr hc, false_or,
    or_assoc, @eq_comm _ d p.side]

theorem opensBackward_iff (hr : 0 ≤ edge.reverseCost) :
    OpensBackward edge d p ↔ cutsBackward edge d p = true := by
  simp only [OpensBackward, cutsBackward, bothWays, decide_eq_true_eq, not_lt.mpr hr, false_or,
    or_assoc, ne_eq, @eq_comm _ d p.side]

/-! ## The chains -/

section Chains

variable {A : Int → Int → ℚ → Prop} {cuts : PointOnEdge → Bool} {source : Int} {φ : Int → ℚ}
variable {f c : ℚ}

/-- A chain leads from the source over the points that divide the way to the place where it is
    continued. -/
theorem chain_tight (prev : List PointOnEdge → Int) (hnil : prev [] = source)
    (hconcat : ∀ done p, prev (done ++ [p]) = if cuts p then -p.pid else prev done)
    (hstep : ∀ done p rest, l = done ++ p :: rest → cuts p = true →
      Tight A φ (prev done) (-p.pid)) (hl : l = done ++ rest) :
    Tight A φ source (prev done) ∧ ∀ q ∈ done, cuts q = true →
      Tight A φ source (-q.pid) ∧ Tight A φ (-q.pid) (prev done) := by
  induction done using List.reverseRecOn generalizing rest with
  | nil => exact ⟨hnil ▸ Tight.refl _, fun q hq => nomatch hq⟩
  | append_singleton done p ih =>
    rw [List.append_assoc, List.singleton_append] at hl
    obtain ⟨hprev, hpoints⟩ := ih hl
    rw [hconcat]
    by_cases hcuts : cuts p = true
    · have harc := hstep done p rest hl hcuts
      rw [if_pos hcuts]
      refine ⟨hprev.trans harc, fun q hq hcutsq => ?_⟩
      obtain hq | hq := List.mem_append.mp hq
      · obtain ⟨hfrom, hto⟩ := hpoints q hq hcutsq
        exact ⟨hfrom, hto.trans harc⟩
      · rw [List.mem_singleton.mp hq]
        exact ⟨hprev.trans harc, Tight.refl _⟩
    · rw [if_neg hcuts]
      refine ⟨hprev, fun q hq hcutsq => ?_⟩
      obtain hq | hq := List.mem_append.mp hq
      · exact hpoints q hq hcutsq
      · rw [List.mem_singleton.mp hq] at hcutsq
        exact absurd hcutsq hcuts

/-- Where the chain is continued, the potential is that of the fraction. -/
theorem Latest.potential (h : Latest cuts source done v f) (hsource : φ source = 0)
    (hφ : ∀ q ∈ done, φ (-q.pid) = q.fraction * c) : φ v = f * c := by
  cases h with
  | source _ => rw [hsource, zero_mul]
  | point hmem _ _ => exact hφ _ hmem

/-- What lies at the source is joined to it. -/
theorem Latest.tight_source (h : Latest cuts source done v f) (hf : f = 0)
    (hzero : ∀ q ∈ done, q.fraction = 0 → A source (-q.pid) 0 ∧ A (-q.pid) source 0)
    (hφ : φ v = φ source) : Tight A φ source v ∧ Tight A φ v source := by
  rw [Tight, Tight, hφ, sub_self]
  cases h with
  | source _ => exact ⟨.nil _, .nil _⟩
  | point hmem _ _ =>
    obtain ⟨hfrom, hto⟩ := hzero _ hmem hf
    exact ⟨Walk.single hfrom, Walk.single hto⟩

/-- The chain is continued to a point at the source over the source. -/
theorem Latest.tight_of_zero (h : Latest cuts source done v f) (h0 : ∀ q ∈ done, 0 ≤ q.fraction)
    (hbefore : ∀ q ∈ done, q.fraction ≤ p.fraction) (hp : p.fraction = 0)
    (hzero : ∀ q ∈ done, q.fraction = 0 → A source (-q.pid) 0 ∧ A (-q.pid) source 0)
    (harc : A source (-p.pid) 0) (hsource : φ source = 0)
    (hφ : ∀ q ∈ done, φ (-q.pid) = q.fraction * c) (hφp : φ (-p.pid) = p.fraction * c) :
    Tight A φ v (-p.pid) := by
  have hf : f = 0 := le_antisymm (h.fraction_le le_rfl (hp ▸ hbefore)) (h.nonneg h0)
  have hv : φ v = φ source := by rw [h.potential hsource hφ, hf, zero_mul, hsource]
  refine (h.tight_source hf hzero hv).2.trans ?_
  rw [Tight, hφp, hp, zero_mul, hsource, sub_zero]
  exact Walk.single harc

/-- Two chains are continued at the same place, or at the source, when the points inside divide
    both ways or neither. -/
theorem Latest.align {cuts' : PointOnEdge → Bool} {v' : Int} {f' : ℚ}
    (h : Latest cuts source done v f) (h' : Latest cuts' source done v' f')
    (h0 : ∀ q ∈ done, 0 ≤ q.fraction)
    (hagree : ∀ q ∈ done, q.fraction = 0 ∨ (cuts q = true ∧ cuts' q = true)) :
    f = f' ∧ (v = v' ∨ f = 0) := by
  -- If the last point of one chain lies at the source, all points do.
  have hall : f = 0 → f' = 0 := by
    intro hf
    refine le_antisymm (h'.fraction_le le_rfl fun q hq => ?_) (h'.nonneg h0)
    obtain hq0 | ⟨hcuts, _⟩ := hagree q hq
    · exact hq0.le
    · exact hf ▸ h.le hq hcuts
  by_cases hf : f = 0
  · exact ⟨hf.trans (hall hf).symm, .inr hf⟩
  cases h with
  | source _ => exact absurd rfl hf
  | @point y hmem hcuts hlast =>
    obtain hy0 | ⟨_, hcutsy⟩ := hagree y hmem
    · exact absurd hy0 hf
    cases h' with
    | source hnone => exact absurd hcutsy (by rw [hnone y hmem]; exact Bool.false_ne_true)
    | @point z hmem' hcuts' hlast' =>
      have hz : cuts z = true := by
        obtain hz0 | ⟨hz, _⟩ := hagree z hmem'
        · obtain rfl | hbefore := hlast' y hmem hcutsy
          · exact absurd hz0 hf
          · exact absurd (le_antisymm (hz0 ▸ hbefore.le) (h0 y hmem)) hf
        · exact hz
      obtain rfl | hbefore := hlast z hmem' hz
      · exact ⟨rfl, .inl rfl⟩
      · obtain rfl | hbefore' := hlast' y hmem hcutsy
        · exact ⟨rfl, .inl rfl⟩
        · exact absurd hbefore' hbefore.asymm

end Chains

/-! ## The way from the source, and the way to it -/

/-- Points on an edge, in their order. -/
structure InOrder (l : List PointOnEdge) : Prop where
  sorted : l.Pairwise Before
  nonneg : ∀ q ∈ l, 0 ≤ q.fraction
  le_one : ∀ q ∈ l, q.fraction ≤ 1

/-- The potential is the part of the cost `c` up to a place on the edge. -/
structure Measures (φ : Int → ℚ) (edge : EdgeT) (c : ℚ) (l : List PointOnEdge) : Prop where
  source : φ edge.source = 0
  target : φ edge.target = c
  point : ∀ q ∈ l, φ (-q.pid) = q.fraction * c

/-- What is known of the points before a point. -/
theorem InOrder.before (h : InOrder l) (hl : l = done ++ p :: rest) :
    InOrder done ∧ (∀ q ∈ done, q ∈ l) ∧ p ∈ l ∧ ∀ q ∈ done, Before q p := by
  obtain ⟨hsorted, h0, h1⟩ := h
  subst hl
  obtain ⟨hdone, _, hbefore⟩ := List.pairwise_append.mp hsorted
  have hsub : ∀ q ∈ done, q ∈ done ++ p :: rest := fun q hq => List.mem_append_left _ hq
  exact ⟨⟨hdone, fun q hq => h0 q (hsub q hq), fun q hq => h1 q (hsub q hq)⟩, hsub,
    List.mem_append_right done List.mem_cons_self,
    fun q hq => hbefore q hq p List.mem_cons_self⟩

/-- A point that comes before another one has been seen before it. -/
theorem InOrder.mem_done (h : InOrder l) (hl : l = done ++ p :: rest) (hx : x ∈ l)
    (hbefore : Before x p) : x ∈ done := by
  have hsorted := h.sorted
  subst hl
  obtain hx | hx := List.mem_append.mp hx
  · exact hx
  · obtain rfl | hx := List.mem_cons.mp hx
    · exact absurd hbefore (Before.irrefl x)
    · have hafter := (List.pairwise_cons.mp (List.pairwise_append.mp hsorted).2.1).1 x hx
      exact absurd hbefore hafter.asymm

/-- A point that has not been seen before another one is the same or comes after it. -/
theorem InOrder.eq_or_before (h : InOrder l) (hl : l = done ++ p :: rest) (hx : x ∈ l)
    (hnot : x ∉ done) : x = p ∨ Before p x := by
  have hsorted := h.sorted
  subst hl
  obtain hx | hx := List.mem_append.mp hx
  · exact absurd hx hnot
  · obtain rfl | hx := List.mem_cons.mp hx
    · exact .inl rfl
    · exact .inr ((List.pairwise_cons.mp (List.pairwise_append.mp hsorted).2.1).1 x hx)

variable (edge d) in
theorem SplitArc.of_source (hq : q ∈ l) (h : q.fraction = 0) :
    SplitArc edge d l edge.source (-q.pid) 0 ∧ SplitArc edge d l (-q.pid) edge.source 0 := by
  obtain ⟨done, rest, hl⟩ := List.append_of_mem hq
  exact ⟨.point hl (.fromSource h), .point hl (.toSource h)⟩

variable (edge d) in
theorem SplitArc.of_target (hq : q ∈ l) (h : q.fraction = 1) :
    SplitArc edge d l edge.target (-q.pid) 0 ∧ SplitArc edge d l (-q.pid) edge.target 0 := by
  obtain ⟨done, rest, hl⟩ := List.append_of_mem hq
  exact ⟨.point hl (.fromTarget h), .point hl (.toTarget h)⟩

section Ways

variable {φ : Int → ℚ}

/-- The chain from the source is continued to a point. -/
theorem forward_step (h : InOrder l) (hφ : Measures φ edge edge.cost l) (hc : 0 ≤ edge.cost)
    (hl : l = done ++ p :: rest) (hcuts : cutsForward edge d p = true) (h1 : p.fraction < 1) :
    Tight (SplitArc edge d l) φ (splitting edge d done).prevTarget (-p.pid) := by
  obtain ⟨hdone, hsub, hp, hbefore⟩ := h.before hl
  have hle : ∀ q ∈ done, q.fraction ≤ p.fraction := fun q hq => (hbefore q hq).le
  have hφ' : ∀ q ∈ done, φ (-q.pid) = q.fraction * edge.cost :=
    fun q hq => hφ.point q (hsub q hq)
  have hlatest := latest_forward edge d hdone.sorted
  by_cases hin : p.inside = true
  · have hw : φ (-p.pid) - φ (splitting edge d done).prevTarget =
        (p.fraction - (splitting edge d done).prevFraction) * edge.cost := by
      rw [hφ.point p hp, hlatest.potential hφ.source hφ', sub_mul]
    rw [Tight, hw]
    refine Walk.single (.point hl (.forward hin hcuts hc ?_))
    exact mul_nonneg (sub_nonneg.mpr (hlatest.fraction_le (h.nonneg p hp) hle)) hc
  · have hzero := fraction_eq_zero (h.nonneg p hp) h1 hin
    exact hlatest.tight_of_zero hdone.nonneg hle hzero
      (fun q hq => SplitArc.of_source _ _ (hsub q hq)) (SplitArc.of_source _ _ hp hzero).1
      hφ.source hφ'
      (hφ.point p hp)

/-- The chain from the source leads over all points that divide the way. -/
theorem forward_chain (h : InOrder l) (hφ : Measures φ edge edge.cost l) (hc : 0 ≤ edge.cost)
    (h1 : ∀ q ∈ l, cutsForward edge d q = true → q.fraction < 1) (hl : l = done ++ rest) :
    Tight (SplitArc edge d l) φ edge.source (splitting edge d done).prevTarget ∧
      ∀ q ∈ done, cutsForward edge d q = true → Tight (SplitArc edge d l) φ edge.source (-q.pid) ∧
        Tight (SplitArc edge d l) φ (-q.pid) (splitting edge d done).prevTarget :=
  chain_tight (fun done => (splitting edge d done).prevTarget) rfl
    (fun done p => by rw [splitting_concat, splitAtPoint_prevTarget])
    (fun done p rest hl hcuts => forward_step h hφ hc hl hcuts (h1 p (h.before hl).2.2.1 hcuts)) hl

/-- The chain from the source leads from a point that divides the way to a later one. -/
theorem forward_between (h : InOrder l) (hφ : Measures φ edge edge.cost l) (hc : 0 ≤ edge.cost)
    (h1 : ∀ q ∈ l, cutsForward edge d q = true → q.fraction < 1) (hp : p ∈ l) (hq : q ∈ l)
    (hcutsp : cutsForward edge d p = true) (hcutsq : cutsForward edge d q = true)
    (hqp : Before q p) : Tight (SplitArc edge d l) φ (-q.pid) (-p.pid) := by
  obtain ⟨done, rest, hl⟩ := List.append_of_mem hp
  have hto := ((forward_chain h hφ hc h1 hl).2 q (h.mem_done hl hq hqp) hcutsq).2
  exact hto.trans (forward_step h hφ hc hl hcutsp (h1 p hp hcutsp))

/-- The way from the source to the target leads over all points that divide it. -/
theorem forward_tight (h : InOrder l) (hφ : Measures φ edge edge.cost l) (hc : 0 ≤ edge.cost)
    (h1 : ∀ q ∈ l, cutsForward edge d q = true → q.fraction < 1) :
    Tight (SplitArc edge d l) φ edge.source edge.target ∧
      ∀ q ∈ l, cutsForward edge d q = true → Tight (SplitArc edge d l) φ edge.source (-q.pid) ∧
        Tight (SplitArc edge d l) φ (-q.pid) edge.target := by
  obtain ⟨hprev, hpoints⟩ := forward_chain h hφ hc h1 (List.append_nil l).symm
  have hlatest := latest_forward edge d h.sorted
  have hagg := (spent_forward _ _ h.sorted h.nonneg h1 hc).1
  have hlast : Tight (SplitArc edge d l) φ (splitting edge d l).prevTarget edge.target := by
    have hw : φ edge.target - φ (splitting edge d l).prevTarget =
        edge.cost - (splitting edge d l).aggCost := by
      rw [hφ.target, hlatest.potential hφ.source hφ.point, hagg]
    rw [Tight, hw]
    refine Walk.single (.lastForward ?_)
    rw [hagg, ← one_sub_mul]
    exact mul_nonneg (sub_nonneg.mpr (hlatest.lt_one h1).le) hc
  exact ⟨hprev.trans hlast, fun q hq hcuts =>
    ⟨(hpoints q hq hcuts).1, (hpoints q hq hcuts).2.trans hlast⟩⟩

/-- The points before one that divides both ways divide both ways as well, or lie at the
    source. -/
def Aligned (edge : EdgeT) (d : Side) (l : List PointOnEdge) : Prop :=
  ∀ p ∈ l, ∀ q ∈ l, Before q p → bothWays edge d p = true →
    q.fraction = 0 ∨ bothWays edge d q = true

/-- The chain to the source is continued at a point: here the arcs are read backwards. -/
theorem backward_step (h : InOrder l) (hφ : Measures φ edge edge.reverseCost l)
    (hr : 0 ≤ edge.reverseCost) (halign : Aligned edge d l) (hl : l = done ++ p :: rest)
    (hcuts : cutsBackward edge d p = true) (h1 : p.fraction < 1) :
    Tight (fun v u w => SplitArc edge d l u v w) φ (splitting edge d done).prevRtarget
      (-p.pid) := by
  obtain ⟨hdone, hsub, hp, hbefore⟩ := h.before hl
  have hle : ∀ q ∈ done, q.fraction ≤ p.fraction := fun q hq => (hbefore q hq).le
  have hφ' : ∀ q ∈ done, φ (-q.pid) = q.fraction * edge.reverseCost :=
    fun q hq => hφ.point q (hsub q hq)
  have hends : ∀ q ∈ done, q.fraction = 0 →
      SplitArc edge d l (-q.pid) edge.source 0 ∧ SplitArc edge d l edge.source (-q.pid) 0 :=
    fun q hq hf => (SplitArc.of_source _ _ (hsub q hq) hf).symm
  have hlatest := latest_backward edge d hdone.sorted
  by_cases hin : p.inside = true
  · have hw : φ (-p.pid) - φ (splitting edge d done).prevRtarget =
        (p.fraction - (splitting edge d done).prevRfraction) * edge.reverseCost := by
      rw [hφ.point p hp, hlatest.potential hφ.source hφ', sub_mul]
    have harc := SplitArc.point hl (.backward hin hcuts hr
      (mul_nonneg (sub_nonneg.mpr (hlatest.fraction_le (h.nonneg p hp) hle)) hr))
    rw [← hw] at harc
    by_cases hboth : bothWays edge d p = true
    · -- The edge leads to where the chain from the source is continued.
      rw [if_pos hboth] at harc
      have hforward := latest_forward edge d hdone.sorted
      obtain ⟨hfrac, hsame⟩ := hforward.align hlatest hdone.nonneg fun q hq => by
        obtain hq0 | hqb := halign p hp q (hsub q hq) (hbefore q hq) hboth
        · exact .inl hq0
        · exact .inr ⟨cutsForward_of_bothWays hqb, cutsBackward_of_bothWays hqb⟩
      obtain hsame | hzero := hsame
      · exact Walk.single (hsame ▸ harc)
      · have hv := hforward.potential hφ.source hφ'
        have hv' := hlatest.potential hφ.source hφ'
        rw [← hfrac, hzero, zero_mul, ← hφ.source] at hv'
        rw [hzero, zero_mul, ← hφ.source] at hv
        rw [hv', ← hv] at harc
        exact ((hlatest.tight_source (hfrac ▸ hzero) hends hv').2.trans
          (hforward.tight_source hzero hends hv).1).trans (Walk.single harc)
    · rw [if_neg hboth] at harc
      exact Walk.single harc
  · -- The point is at the source.
    have hzero := fraction_eq_zero (h.nonneg p hp) h1 hin
    exact hlatest.tight_of_zero hdone.nonneg hle hzero hends (SplitArc.of_source _ _ hp hzero).2
      hφ.source hφ' (hφ.point p hp)

/-- The chain to the source leads over all points that divide the way. -/
theorem backward_chain (h : InOrder l) (hφ : Measures φ edge edge.reverseCost l)
    (hr : 0 ≤ edge.reverseCost) (halign : Aligned edge d l)
    (h1 : ∀ q ∈ l, cutsBackward edge d q = true → q.fraction < 1) (hl : l = done ++ rest) :
    Tight (fun v u w => SplitArc edge d l u v w) φ edge.source
        (splitting edge d done).prevRtarget ∧
      ∀ q ∈ done, cutsBackward edge d q = true →
        Tight (fun v u w => SplitArc edge d l u v w) φ edge.source (-q.pid) ∧
          Tight (fun v u w => SplitArc edge d l u v w) φ (-q.pid)
            (splitting edge d done).prevRtarget :=
  chain_tight (fun done => (splitting edge d done).prevRtarget) rfl
    (fun done p => by rw [splitting_concat, splitAtPoint_prevRtarget])
    (fun done p rest hl hcuts =>
      backward_step h hφ hr halign hl hcuts (h1 p (h.before hl).2.2.1 hcuts)) hl

/-- The chain to the source leads from a point that divides the way to an earlier one. -/
theorem backward_between (h : InOrder l) (hφ : Measures φ edge edge.reverseCost l)
    (hr : 0 ≤ edge.reverseCost) (halign : Aligned edge d l)
    (h1 : ∀ q ∈ l, cutsBackward edge d q = true → q.fraction < 1) (hp : p ∈ l) (hq : q ∈ l)
    (hcutsp : cutsBackward edge d p = true) (hcutsq : cutsBackward edge d q = true)
    (hqp : Before q p) :
    Tight (fun v u w => SplitArc edge d l u v w) φ (-q.pid) (-p.pid) := by
  obtain ⟨done, rest, hl⟩ := List.append_of_mem hp
  have hto := ((backward_chain h hφ hr halign h1 hl).2 q (h.mem_done hl hq hqp) hcutsq).2
  exact hto.trans (backward_step h hφ hr halign hl hcutsp (h1 p hp hcutsp))

/-- The way from the target to the source leads over all points that divide it. -/
theorem backward_tight (h : InOrder l) (hφ : Measures φ edge edge.reverseCost l)
    (hr : 0 ≤ edge.reverseCost) (halign : Aligned edge d l)
    (h1 : ∀ q ∈ l, cutsBackward edge d q = true → q.fraction < 1) :
    Tight (fun v u w => SplitArc edge d l u v w) φ edge.source edge.target ∧
      ∀ q ∈ l, cutsBackward edge d q = true →
        Tight (fun v u w => SplitArc edge d l u v w) φ edge.source (-q.pid) ∧
          Tight (fun v u w => SplitArc edge d l u v w) φ (-q.pid) edge.target := by
  obtain ⟨hprev, hpoints⟩ := backward_chain h hφ hr halign h1 (List.append_nil l).symm
  have hlatest := latest_backward edge d h.sorted
  have hagg := (spent_backward _ _ h.sorted h.nonneg h1 hr).1
  have hlast : Tight (fun v u w => SplitArc edge d l u v w) φ (splitting edge d l).prevRtarget
      edge.target := by
    have hw : φ edge.target - φ (splitting edge d l).prevRtarget =
        edge.reverseCost - (splitting edge d l).aggRcost := by
      rw [hφ.target, hlatest.potential hφ.source hφ.point, hagg]
    rw [Tight, hw]
    have harc : SplitArc edge d l edge.target (splitting edge d l).prevRtarget
        (edge.reverseCost - (splitting edge d l).aggRcost) := by
      refine .lastBackward ?_
      rw [hagg, ← one_sub_mul]
      exact mul_nonneg (sub_nonneg.mpr (hlatest.lt_one h1).le) hr
    exact Walk.single harc
  exact ⟨hprev.trans hlast, fun q hq hcuts =>
    ⟨(hpoints q hq hcuts).1, (hpoints q hq hcuts).2.trans hlast⟩⟩

end Ways

/-! ## Distances -/

section Distances

variable {pos : Int → ℚ}

theorem Measures.mul (h : Measures pos edge 1 l) (c : ℚ) :
    Measures (fun v => pos v * c) edge c l where
  source := by rw [h.source, zero_mul]
  target := by rw [h.target, one_mul]
  point q hq := by rw [h.point q hq, mul_one]

/-- An arc costs what the positions of its ends say. -/
theorem SplitArc.along (h : InOrder l) (hpos : Measures pos edge 1 l)
    (h1 : 0 ≤ edge.cost ∨ 0 ≤ edge.reverseCost → ∀ q ∈ l, q.fraction < 1)
    (halign : 0 ≤ edge.reverseCost → Aligned edge d l) (harc : SplitArc edge d l u v w) :
    pos u = pos v ∧ w = 0 ∨
      (0 ≤ edge.cost ∧ pos u ≤ pos v ∧ w = (pos v - pos u) * edge.cost) ∨
      (0 ≤ edge.reverseCost ∧ pos v ≤ pos u ∧ w = (pos u - pos v) * edge.reverseCost) := by
  have hpoint : ∀ q ∈ l, pos (-q.pid) = q.fraction := fun q hq => by
    rw [hpos.point q hq, mul_one]
  cases harc with
  | @point done rest p _ _ _ hl harc =>
    obtain ⟨hdone, hsub, hp, hbefore⟩ := h.before hl
    have hle : ∀ q ∈ done, q.fraction ≤ p.fraction := fun q hq => (hbefore q hq).le
    have hforward := latest_forward edge d hdone.sorted
    have hbackward := latest_backward edge d hdone.sorted
    -- The previous targets stand where the previous fractions say.
    have hprev : pos (splitting edge d done).prevTarget = (splitting edge d done).prevFraction := by
      rw [hforward.potential hpos.source fun q hq => hpos.point q (hsub q hq), mul_one]
    have hrprev : pos (splitting edge d done).prevRtarget =
        (splitting edge d done).prevRfraction := by
      rw [hbackward.potential hpos.source fun q hq => hpos.point q (hsub q hq), mul_one]
    cases harc with
    | fromSource hf => exact .inl ⟨by rw [hpos.source, hpoint p hp, hf], rfl⟩
    | toSource hf => exact .inl ⟨by rw [hpos.source, hpoint p hp, hf], rfl⟩
    | fromTarget hf => exact .inl ⟨by rw [hpos.target, hpoint p hp, hf], rfl⟩
    | toTarget hf => exact .inl ⟨by rw [hpos.target, hpoint p hp, hf], rfl⟩
    | forward _ _ hc _ =>
      rw [hprev, hpoint p hp]
      exact .inr (.inl ⟨hc, hforward.fraction_le (h.nonneg p hp) hle, rfl⟩)
    -- The arc ends at the forward previous target, so both directions must have been cut alike.
    | backward _ _ hr _ =>
      have hv : pos (if bothWays edge d p then (splitting edge d done).prevTarget
          else (splitting edge d done).prevRtarget) = (splitting edge d done).prevRfraction := by
        by_cases hboth : bothWays edge d p = true
        · rw [if_pos hboth, hprev]
          refine (hforward.align hbackward hdone.nonneg fun q hq => ?_).1
          obtain hq0 | hqb := halign hr p hp q (hsub q hq) (hbefore q hq) hboth
          · exact .inl hq0
          · exact .inr ⟨cutsForward_of_bothWays hqb, cutsBackward_of_bothWays hqb⟩
        · rw [if_neg hboth, hrprev]
      rw [hv, hpoint p hp]
      exact .inr (.inr ⟨hr, hbackward.fraction_le (h.nonneg p hp) hle, rfl⟩)
  | lastForward hw =>
    have hlatest := latest_forward edge d h.sorted
    have hc : 0 ≤ edge.cost := by
      by_contra hneg
      rw [(aggCost_eq_zero (not_le.mp hneg).le).1, sub_zero] at hw
      exact hneg hw
    rw [hlatest.potential hpos.source hpos.point, hpos.target, mul_one]
    refine .inr (.inl ⟨hc, hlatest.fraction_le zero_le_one h.le_one, ?_⟩)
    rw [(spent_forward _ _ h.sorted h.nonneg (fun q hq _ => h1 (.inl hc) q hq) hc).1, one_sub_mul]
  | lastBackward hw =>
    have hlatest := latest_backward edge d h.sorted
    have hr : 0 ≤ edge.reverseCost := by
      by_contra hneg
      rw [(aggRcost_eq_zero (not_le.mp hneg).le).1, sub_zero] at hw
      exact hneg hw
    rw [hlatest.potential hpos.source hpos.point, hpos.target, mul_one]
    refine .inr (.inr ⟨hr, hlatest.fraction_le zero_le_one h.le_one, ?_⟩)
    rw [(spent_backward _ _ h.sorted h.nonneg (fun q hq _ => h1 (.inr hr) q hq) hr).1, one_sub_mul]

/-- The distances are kept when no point is at the target of a way that is open and the chains
    are aligned. -/
theorem preserves_of_aligned (h : InOrder l) (hpos : Measures pos edge 1 l)
    (h1 : 0 ≤ edge.cost ∨ 0 ≤ edge.reverseCost → ∀ q ∈ l, q.fraction < 1)
    (halign : 0 ≤ edge.reverseCost → Aligned edge d l) :
    Preserves edge d l (SplitArc edge d l) := by
  have halong : ∀ u v w, SplitArc edge d l u v w → _ :=
    fun u v w harc => harc.along h hpos h1 halign
  -- The ways that are open.
  have hforward : 0 ≤ edge.cost → ∀ u v,
      Tight (SplitArc edge d l) (fun v => pos v * edge.cost) u v →
      IsDist (SplitArc edge d l) u v (pos v * edge.cost - pos u * edge.cost) := by
    intro hc u v htight
    refine htight.isDist fun u v w harc => ?_
    obtain ⟨heq, rfl⟩ | ⟨_, _, rfl⟩ | ⟨hr, hle, rfl⟩ := halong u v w harc
    · rw [heq, add_zero]
    · rw [sub_mul, add_sub_cancel]
    · exact le_add_of_le_of_nonneg (mul_le_mul_of_nonneg_right hle hc)
        (mul_nonneg (sub_nonneg.mpr hle) hr)
  have hbackward : 0 ≤ edge.reverseCost → ∀ u v,
      Tight (fun v u w => SplitArc edge d l u v w) (fun v => pos v * edge.reverseCost) u v →
      IsDist (SplitArc edge d l) v u (pos v * edge.reverseCost - pos u * edge.reverseCost) := by
    intro hr u v htight
    refine IsDist.reverse_iff.mp (htight.isDist fun v u w harc => ?_)
    obtain ⟨heq, rfl⟩ | ⟨hc, hle, rfl⟩ | ⟨_, _, rfl⟩ := halong u v w harc
    · rw [heq, add_zero]
    · exact le_add_of_le_of_nonneg (mul_le_mul_of_nonneg_right hle hr)
        (mul_nonneg (sub_nonneg.mpr hle) hc)
    · rw [sub_mul, add_sub_cancel]
  have hpoint : ∀ q ∈ l, pos (-q.pid) = q.fraction := fun q hq => by
    rw [hpos.point q hq, mul_one]
  constructor
  case there =>
    intro hc
    have hdist := hforward hc _ _
      (forward_tight h (hpos.mul edge.cost) hc fun q hq _ => h1 (.inl hc) q hq).1
    rwa [hpos.source, hpos.target, one_mul, zero_mul, sub_zero] at hdist
  case back =>
    intro hr
    have hdist := hbackward hr _ _ (backward_tight h (hpos.mul edge.reverseCost) hr (halign hr)
      fun q hq _ => h1 (.inr hr) q hq).1
    rwa [hpos.source, hpos.target, one_mul, zero_mul, sub_zero] at hdist
  case noWayThere =>
    -- The arcs do not lead nearer to the target.
    intro hc hreach
    obtain ⟨c, hwalk⟩ := hreach
    have hle : pos edge.target ≤ 0 := by
      refine hwalk.closed (C := fun v => pos v ≤ 0) (fun u v w harc hu => ?_) hpos.source.le
      obtain ⟨heq, _⟩ | ⟨hc', _, _⟩ | ⟨_, hle, _⟩ := halong u v w harc
      · exact heq ▸ hu
      · exact absurd hc' (not_le.mpr hc)
      · exact hle.trans hu
    rw [hpos.target] at hle
    exact absurd hle (not_le.mpr one_pos)
  case noWayBack =>
    intro hr hreach
    obtain ⟨c, hwalk⟩ := hreach
    have hle : 1 ≤ pos edge.source := by
      refine hwalk.closed (C := fun v => 1 ≤ pos v) (fun u v w harc hu => ?_) hpos.target.ge
      obtain ⟨heq, _⟩ | ⟨_, hle, _⟩ | ⟨hr', _, _⟩ := halong u v w harc
      · exact heq ▸ hu
      · exact hu.trans hle
      · exact absurd hr' (not_le.mpr hr)
    rw [hpos.source] at hle
    exact absurd hle (not_le.mpr one_pos)
  case forward =>
    intro hc q hq hopen
    obtain ⟨hfrom, hto⟩ := (forward_tight h (hpos.mul edge.cost) hc
      fun q hq _ => h1 (.inl hc) q hq).2 q hq ((opensForward_iff hc).mp hopen)
    have hdfrom := hforward hc _ _ hfrom
    have hdto := hforward hc _ _ hto
    rw [hpoint q hq, hpos.source, zero_mul, sub_zero] at hdfrom
    rw [hpoint q hq, hpos.target, ← sub_mul] at hdto
    exact ⟨hdfrom, hdto⟩
  case backward =>
    intro hr q hq hopen
    obtain ⟨hfrom, hto⟩ := (backward_tight h (hpos.mul edge.reverseCost) hr (halign hr)
      fun q hq _ => h1 (.inr hr) q hq).2 q hq ((opensBackward_iff hr).mp hopen)
    have hdfrom := hbackward hr _ _ hfrom
    have hdto := hbackward hr _ _ hto
    rw [hpoint q hq, hpos.source, zero_mul, sub_zero] at hdfrom
    rw [hpoint q hq, hpos.target, ← sub_mul] at hdto
    exact ⟨hdto, hdfrom⟩

end Distances

end PgPointsGraph

end PgRouting
