import PgRouting.Spec.PointNetwork

/-!
# The vertices of a network with points

Points on the roads make no way between two vertices longer or shorter: along a walk from a vertex
a place on a road is never nearer than over one of the ends of the road.

## Key results

- `PartWay.up` / `PartWay.down`: the way to a place over one end of its road
- `isDist_roadArc`: the distances between vertices are those of the table
-/

namespace PgRouting

/-! ## Places between two vertices -/

section Between

variable {B : Int → Int → ℚ → Prop} {x s t : Int} {f f' c k w : ℚ}

/-- A place at the fraction `f` of a way from `s` to `t` is as far as `c` over `s`. -/
def PartWay (B : Int → Int → ℚ → Prop) (x s t : Int) (f c : ℚ) : Prop :=
  ∃ c', Walk B x s c' ∧ (f = 0 ∧ c' ≤ c ∨ ∃ k, 0 ≤ k ∧ B s t k ∧ c' + f * k ≤ c)

theorem PartWay.of_walk (h : Walk B x s f') (hle : f' ≤ c) : PartWay B x s t 0 c :=
  ⟨f', h, .inl ⟨rfl, hle⟩⟩

/-- The vertex itself. -/
theorem PartWay.walk_zero (h : PartWay B x s t 0 c) : ∃ c' ≤ c, Walk B x s c' := by
  obtain ⟨c', hwalk, ⟨_, hle⟩ | ⟨k, _, _, hle⟩⟩ := h
  · exact ⟨c', hle, hwalk⟩
  · rw [zero_mul, add_zero] at hle
    exact ⟨c', hle, hwalk⟩

/-- The other vertex, over the whole way. -/
theorem PartWay.walk_one (h : PartWay B x s t 1 c) : ∃ c' ≤ c, Walk B x t c' := by
  obtain ⟨c', hwalk, ⟨hone, _⟩ | ⟨k, _, harc, hle⟩⟩ := h
  · exact absurd hone one_ne_zero
  · rw [one_mul] at hle
    exact ⟨c' + k, hle, hwalk.snoc harc⟩

/-- On along the way. -/
theorem PartWay.up (h : PartWay B x s t f c) (hf : 0 ≤ f) (hle : f ≤ f') (hk : 0 ≤ k)
    (harc : B s t k) : PartWay B x s t f' (c + (f' - f) * k) := by
  obtain ⟨c', hwalk, ⟨rfl, hc⟩ | ⟨k', hk', harc', hc⟩⟩ := h
  · refine ⟨c', hwalk, .inr ⟨k, hk, harc, ?_⟩⟩
    rw [sub_zero]
    exact add_le_add_left hc _
  · -- The cheaper of the two arcs will do for the whole part.
    obtain hkk | hkk := le_total k k'
    · refine ⟨c', hwalk, .inr ⟨k, hk, harc, ?_⟩⟩
      have hpart := mul_le_mul_of_nonneg_left hkk hf
      linarith
    · refine ⟨c', hwalk, .inr ⟨k', hk', harc', ?_⟩⟩
      have hpart := mul_le_mul_of_nonneg_left hkk (sub_nonneg.mpr hle)
      linarith

/-- Back along the way. -/
theorem PartWay.down (h : PartWay B x s t f c) (hf' : 0 ≤ f') (hle : f' ≤ f) (hw : 0 ≤ w) :
    PartWay B x s t f' (c + w) := by
  obtain ⟨c', hwalk, ⟨rfl, hc⟩ | ⟨k, hk, harc, hc⟩⟩ := h
  · exact ⟨c', hwalk, .inl ⟨le_antisymm hle hf', hc.trans (le_add_of_nonneg_right hw)⟩⟩
  · refine ⟨c', hwalk, .inr ⟨k, hk, harc, ?_⟩⟩
    have hpart := mul_le_mul_of_nonneg_right hle hk
    linarith

end Between

namespace PgPointsGraph

variable {d : Side} {points : List PointOnEdge} {es : List EdgeT} {e : EdgeT} {x y v : Int}
variable {f f' c k w : ℚ} {directed : Bool} {B : Int → Int → ℚ → Prop}

/-! ## Ways over one road -/

/-- A place on the road is as far as `c` over one of its ends. -/
def Near (B : Int → Int → ℚ → Prop) (x : Int) (e : EdgeT) (f c : ℚ) : Prop :=
  PartWay B x e.source e.target f c ∨ PartWay B x e.target e.source (1 - f) c

theorem Near.up (h : Near B x e f c) (hf : 0 ≤ f) (hle : f ≤ f') (hf' : f' ≤ 1) (hk : 0 ≤ k)
    (harc : B e.source e.target k) : Near B x e f' (c + (f' - f) * k) := by
  obtain h | h := h
  · exact .inl (h.up hf hle hk harc)
  · exact .inr (h.down (sub_nonneg.mpr hf') (sub_le_sub_left hle 1)
      (mul_nonneg (sub_nonneg.mpr hle) hk))

theorem Near.down (h : Near B x e f c) (hf : f ≤ 1) (hle : f' ≤ f) (hf' : 0 ≤ f') (hk : 0 ≤ k)
    (harc : B e.target e.source k) : Near B x e f' (c + (f - f') * k) := by
  obtain h | h := h
  · exact .inl (h.down hf' hle (mul_nonneg (sub_nonneg.mpr hle) hk))
  · have hup := h.up (sub_nonneg.mpr hf) (sub_le_sub_left hle 1) hk harc
    rw [sub_sub_sub_cancel_left] at hup
    exact .inr hup

/-- The tables and points that go together. -/
structure Network (es : List EdgeT) (points : List PointOnEdge) : Prop where
  ids : (es.map (·.id)).Nodup
  pids : (points.map (·.pid)).Nodup
  fraction : ∀ p ∈ points, 0 ≤ p.fraction ∧ p.fraction ≤ 1
  own : ∀ p ∈ points, ∀ e ∈ es, -p.pid ≠ e.source ∧ -p.pid ≠ e.target

theorem Network.place_fraction (h : Network es points) {a : Place} (ha : a.On e points) :
    0 ≤ a.fraction ∧ a.fraction ≤ 1 := by
  cases a with
  | source => exact ⟨le_rfl, zero_le_one⟩
  | target => exact ⟨zero_le_one, le_rfl⟩
  | point p => exact h.fraction p ha.1

theorem Network.le_of_precedes (h : Network es points) {a b : Place} (ha : a.On e points)
    (hb : b.On e points) (hab : a.Precedes b) : a.fraction ≤ b.fraction := by
  cases a with
  | source => exact (h.place_fraction hb).1
  | target => cases b <;> exact hab.elim
  | point p =>
    cases b with
    | source => exact hab.elim
    | target => exact (h.place_fraction ha).2
    | point q => exact Before.le hab

theorem tableArc_cost (he : e ∈ es) (hc : 0 ≤ e.cost) :
    TableArc es e.source e.target e.cost :=
  ⟨e, he, hc, .inl ⟨rfl, rfl, rfl⟩⟩

theorem tableArc_reverseCost (he : e ∈ es) (hr : 0 ≤ e.reverseCost) :
    TableArc es e.target e.source e.reverseCost :=
  ⟨e, he, hr, .inr (.inl ⟨rfl, rfl, rfl⟩)⟩

/-- The ways to go on one road: up, down, or not at all. -/
inductive Moves (B : Int → Int → ℚ → Prop) (e : EdgeT) (f f' : ℚ) : ℚ → Prop
  | stay (h : f = f') : Moves B e f f' 0
  | up {k : ℚ} (h : f ≤ f') (hk : 0 ≤ k) (harc : B e.source e.target k) :
      Moves B e f f' ((f' - f) * k)
  | down {k : ℚ} (h : f' ≤ f) (hk : 0 ≤ k) (harc : B e.target e.source k) :
      Moves B e f f' ((f - f') * k)

/-- An arc along a road leads up or down the road, or stays where it is. -/
theorem Network.moves (h : Network es points)
    (harc : Oriented directed (RoadArc es d points) x y w) :
    ∃ e ∈ es, ∃ a b : Place, a.On e points ∧ b.On e points ∧ a.vertex e = x ∧ b.vertex e = y ∧
      Moves (Oriented directed (TableArc es)) e a.fraction b.fraction w := by
  obtain harc | ⟨hdir, harc⟩ := harc
  · cases harc with
    | forward he hc ha hb hab _ _ =>
      exact ⟨_, he, _, _, ha, hb, rfl, rfl,
        .up (h.le_of_precedes ha hb hab) hc (.inl (tableArc_cost he hc))⟩
    | backward he hr ha hb hab _ _ =>
      exact ⟨_, he, _, _, hb, ha, rfl, rfl,
        .down (h.le_of_precedes ha hb hab) hr (.inl (tableArc_reverseCost he hr))⟩
    | atEnd he ha hb hsame _ => exact ⟨_, he, _, _, ha, hb, rfl, rfl, .stay hsame⟩
  · cases harc with
    | forward he hc ha hb hab _ _ =>
      exact ⟨_, he, _, _, hb, ha, rfl, rfl,
        .down (h.le_of_precedes ha hb hab) hc (.inr ⟨hdir, tableArc_cost he hc⟩)⟩
    | backward he hr ha hb hab _ _ =>
      exact ⟨_, he, _, _, ha, hb, rfl, rfl,
        .up (h.le_of_precedes ha hb hab) hr (.inr ⟨hdir, tableArc_reverseCost he hr⟩)⟩
    | atEnd he ha hb hsame _ => exact ⟨_, he, _, _, hb, ha, rfl, rfl, .stay hsame.symm⟩

theorem Near.moves (h : Near B x e f c) (hf : 0 ≤ f ∧ f ≤ 1) (hf' : 0 ≤ f' ∧ f' ≤ 1)
    (hmoves : Moves B e f f' w) : Near B x e f' (c + w) := by
  cases hmoves with
  | stay hsame => rwa [← hsame, add_zero]
  | up hle hk harc => exact h.up hf.1 hle hf'.2 hk harc
  | down hle hk harc => exact h.down hf.2 hle hf'.1 hk harc

/-! ## Walks over the roads -/

/-- What a walk of length `c` from `x` to `v` means: a vertex is not nearer in the table, and a
    point is not nearer over the ends of its road. -/
structure NoShortcut (B : Int → Int → ℚ → Prop) (es : List EdgeT) (points : List PointOnEdge)
    (x v : Int) (c : ℚ) : Prop where
  vertex : (∀ p ∈ points, -p.pid ≠ v) → ∃ c' ≤ c, Walk B x v c'
  point : ∀ e ∈ es, ∀ p ∈ points, p.edgeId = e.id → -p.pid = v → Near B x e p.fraction c

theorem NoShortcut.near (h : NoShortcut B es points x v c) (hnet : Network es points)
    (he : e ∈ es) {a : Place} (ha : a.On e points) (hv : a.vertex e = v) :
    Near B x e a.fraction c := by
  subst hv
  cases a with
  | source =>
    obtain ⟨c', hle, hwalk⟩ := h.vertex fun p hp => (hnet.own p hp e he).1
    exact .inl (.of_walk hwalk hle)
  | target =>
    obtain ⟨c', hle, hwalk⟩ := h.vertex fun p hp => (hnet.own p hp e he).2
    refine .inr ?_
    show PartWay _ _ _ _ (1 - 1) c
    rw [sub_self]
    exact .of_walk hwalk hle
  | point p => exact h.point e he p ha.1 ha.2 rfl

theorem NoShortcut.of_near (hnet : Network es points) (he : e ∈ es) {b : Place}
    (hb : b.On e points) (h : Near B x e b.fraction c) :
    NoShortcut B es points x (b.vertex e) c := by
  cases b with
  | source =>
    refine ⟨fun _ => ?_, fun e' he' p hp _ hv => absurd hv (hnet.own p hp e he).1⟩
    obtain h | h := h
    · exact h.walk_zero
    · have h : PartWay _ _ _ _ (1 - 0) _ := h
      rw [sub_zero] at h
      exact h.walk_one
  | target =>
    refine ⟨fun _ => ?_, fun e' he' p hp _ hv => absurd hv (hnet.own p hp e he).2⟩
    obtain h | h := h
    · exact h.walk_one
    · have h : PartWay _ _ _ _ (1 - 1) _ := h
      rw [sub_self] at h
      exact h.walk_zero
  | point q =>
    refine ⟨fun hnot => absurd rfl (hnot q hb.1), fun e' he' p hp hid hv => ?_⟩
    obtain rfl : p = q := List.inj_on_of_nodup_map hnet.pids hp hb.1 (neg_injective hv)
    obtain rfl : e' = e := List.inj_on_of_nodup_map hnet.ids he' he (hid.symm.trans hb.2)
    exact h

/-- No walk over the roads is a shortcut. -/
theorem Network.noShortcut (hnet : Network es points) {v : Int}
    (hx : ∀ p ∈ points, -p.pid ≠ x)
    (hwalk : Walk (Oriented directed (RoadArc es d points)) x v c) :
    NoShortcut (Oriented directed (TableArc es)) es points x v c := by
  refine hwalk.snoc_induction ⟨fun _ => ⟨0, le_rfl, .nil x⟩, fun _ _ p hp _ hv =>
    absurd hv (hx p hp)⟩ fun v t c w _ ih harc => ?_
  obtain ⟨e, he, a, b, ha, hb, rfl, rfl, hmoves⟩ := hnet.moves harc
  exact .of_near hnet he hb ((ih.near hnet he ha rfl).moves (hnet.place_fraction ha)
    (hnet.place_fraction hb) hmoves)

/-- The ways along the whole roads. -/
theorem roadArc_of_tableArc (harc : TableArc es x y w) : RoadArc es d points x y w := by
  obtain ⟨e, he, hw, ⟨rfl, rfl, rfl⟩ | ⟨rfl, rfl, rfl⟩ | ⟨hdir, _⟩⟩ := harc
  · have hroad := @RoadArc.forward es d points e .source .target he
      hw trivial trivial trivial trivial trivial
    rwa [show (Place.target.fraction - Place.source.fraction) * e.cost = e.cost from by
      rw [Place.fraction, Place.fraction, sub_zero, one_mul]] at hroad
  · have hroad := @RoadArc.backward es d points e .source .target he
      hw trivial trivial trivial trivial trivial
    rwa [show (Place.target.fraction - Place.source.fraction) * e.reverseCost = e.reverseCost
      from by rw [Place.fraction, Place.fraction, sub_zero, one_mul]] at hroad
  · exact absurd hdir (by decide)

/-- The roads have the distances of the table between the vertices. -/
theorem isDist_roadArc (hnet : Network es points) (hx : ∀ p ∈ points, -p.pid ≠ x)
    (hy : ∀ p ∈ points, -p.pid ≠ y) :
    IsDist (Oriented directed (RoadArc es d points)) x y c ↔
      IsDist (Oriented directed (TableArc es)) x y c := by
  refine IsDist.congr (fun c hwalk => (hnet.noShortcut hx hwalk).vertex hy) (fun c hwalk => ?_) c
  refine ⟨c, le_rfl, hwalk.mono fun u v w harc => ?_⟩
  obtain harc | ⟨hdir, harc⟩ := harc
  · exact .inl (roadArc_of_tableArc harc)
  · exact .inr ⟨hdir, roadArc_of_tableArc harc⟩

end PgPointsGraph

end PgRouting
