import PgRouting.Lib.Walk
import Mathlib.Algebra.Group.Submonoid.Pointwise
import Mathlib.Algebra.Order.Monoid.WithTop
import Mathlib.Data.DFinsupp.WellFounded

/-!
# Label-correcting searches

A label-correcting search keeps a label for every vertex (`⊤` when it has none), the arc that has
given it the label, and vertices that wait. It takes a waiting vertex and relaxes the arcs that
leave it; a vertex whose label gets better waits again. No vertex is ever settled.

`LabelCorrecting` is the invariant of such a search, whatever order the vertices wait in. Labels
only get better, and they are weights of walks, which no infinite sequence goes down in.

## Key results

- `LabelCorrecting.relax`, `LabelCorrecting.served`: the invariant survives a round
- `LabelCorrecting.isDist_iff`: when nothing waits the labels are the distances
- `LabelCorrecting.tight`: then the parents lie on shortest walks
- `Rooted`: the parents of a labelled vertex lead back to the start
- `wellFoundedOn_walkLabels`: labels cannot get better for ever
-/

namespace PgRouting

variable {V T : Type*}

/-- The parents lead from the vertex back to `s`. -/
inductive Rooted (s : V) (parent : V → Option (V × T)) : V → Prop
  | root : Rooted s parent s
  | child {u v : V} {w : T} (h : parent v = some (u, w)) (hu : Rooted s parent u) :
    Rooted s parent v

/-- The invariant of a label-correcting search over the arcs `A` from `s`. -/
structure LabelCorrecting [AddCommMonoid T] [LinearOrder T] (A : V → V → T → Prop) (s : V)
    (label : V → WithTop T) (parent : V → Option (V × T)) (waiting : V → Prop) : Prop where
  source : label s = 0
  root : parent s = none
  /-- Every label is the weight of a walk. -/
  sound : ∀ v (c : T), label v = c → Walk A s v c
  /-- The label of a vertex is at least what its parent now gives it. -/
  arc : ∀ u v w, parent v = some (u, w) → A u v w ∧ label v ≠ ⊤ ∧ label u + w ≤ label v
  rooted : ∀ v, label v ≠ ⊤ → Rooted s parent v
  known : ∀ v, waiting v → label v ≠ ⊤
  /-- The arcs that leave a vertex that does not wait have been relaxed. -/
  closed : ∀ u v w, ¬ waiting u → A u v w → label v ≤ label u + w

namespace LabelCorrecting

variable [AddCommMonoid T] [LinearOrder T] [IsOrderedAddMonoid T] {A : V → V → T → Prop} {s : V}
  {label : V → WithTop T} {parent : V → Option (V × T)} {waiting waiting' : V → Prop}
  {u v x : V} {w c : T}

omit [IsOrderedAddMonoid T] in
/-- A search that starts in `s`. -/
theorem start [DecidableEq V] :
    LabelCorrecting A s (Function.update (fun _ => ⊤) s 0) (fun _ => none) (· = s) where
  source := Function.update_self _ _ _
  root := rfl
  sound v c hc := by
    by_cases hv : v = s
    · subst hv
      rw [Function.update_self] at hc
      obtain rfl : (0 : T) = c := WithTop.coe_injective hc
      exact .nil v
    · rw [Function.update_of_ne hv] at hc
      cases hc
  arc u v w h := by cases h
  rooted v hv := by
    by_cases heq : v = s
    · subst heq
      exact .root
    · exact absurd (Function.update_of_ne heq _ _) hv
  known v hv := by
    subst hv
    rw [Function.update_self]
    exact WithTop.zero_ne_top
  closed u v w hu _ := by
    rw [Function.update_of_ne hu, WithTop.top_add]
    exact le_top

omit [IsOrderedAddMonoid T] in
/-- A vertex whose arcs have been relaxed need not wait. -/
theorem served (h : LabelCorrecting A s label parent waiting)
    (hsub : ∀ y, waiting' y → waiting y)
    (hdone : ∀ y, waiting y → waiting' y ∨ ∀ v w, A y v w → label v ≤ label y + w) :
    LabelCorrecting A s label parent waiting' where
  source := h.source
  root := h.root
  sound := h.sound
  arc := h.arc
  rooted := h.rooted
  known v hv := h.known v (hsub v hv)
  closed u v w hu harc := by
    by_cases hwait : waiting u
    · exact (hdone u hwait).resolve_left hu v w harc
    · exact h.closed u v w hwait harc

section Nonneg

variable (hA : ∀ u v w, A u v w → 0 ≤ w)
include hA

theorem label_nonneg (h : LabelCorrecting A s label parent waiting) (v : V) : 0 ≤ label v := by
  cases hv : label v with
  | top => exact le_top
  | coe c => exact WithTop.coe_nonneg.mpr ((h.sound v c hv).nonneg hA)

/-- The parents still lead back when a vertex with a better label gets a new parent. -/
theorem rooted_update [DecidableEq V] (h : LabelCorrecting A s label parent waiting)
    (harc : A x v w) (hlt : label x + w < label v) {y : V} (hy : Rooted s parent y) :
    Rooted s (Function.update parent v (some (x, w))) y := by
  have hvs : s ≠ v := by
    rintro rfl
    rw [h.source] at hlt
    exact absurd hlt (not_lt.mpr
      (add_nonneg (h.label_nonneg hA x) (WithTop.coe_nonneg.mpr (hA _ _ _ harc))))
  -- The labels of the parents of `x` are less than the label of `v`, so `v` is none of them.
  have hbefore : ∀ {y}, Rooted s parent y → label y < label v →
      Rooted s (Function.update parent v (some (x, w))) y := by
    intro y hy
    induction hy with
    | root => exact fun _ => .root
    | @child u y w' hparent _ ih =>
      intro hyv
      have hne : y ≠ v := fun heq => absurd (heq ▸ hyv) (lt_irrefl _)
      obtain ⟨harc', _, hle⟩ := h.arc u y w' hparent
      have huy : label u ≤ label y :=
        (le_add_of_nonneg_right (WithTop.coe_nonneg.mpr (hA _ _ _ harc'))).trans hle
      refine .child (w := w') ?_ (ih (huy.trans_lt hyv))
      rw [Function.update_of_ne hne, hparent]
  have hxv : label x < label v :=
    (le_add_of_nonneg_right (WithTop.coe_nonneg.mpr (hA _ _ _ harc))).trans_lt hlt
  have hx : Rooted s parent x := h.rooted x (ne_top_of_lt hxv)
  have hnew : Rooted s (Function.update parent v (some (x, w))) v :=
    .child (Function.update_self _ _ _) (hbefore hx hxv)
  induction hy with
  | root => exact .root
  | @child u y w' hparent _ ih =>
    by_cases hyv : y = v
    · exact hyv ▸ hnew
    · refine .child (w := w') ?_ ih
      rw [Function.update_of_ne hyv, hparent]

/-- An arc is relaxed that gives `v` a better label. -/
theorem relax [DecidableEq V] (h : LabelCorrecting A s label parent waiting)
    (harc : A x v w) (hlt : label x + w < label v) (hkeep : ∀ y, waiting y → waiting' y)
    (hv : waiting' v) (honly : ∀ y, waiting' y → waiting y ∨ y = v) :
    LabelCorrecting A s (Function.update label v (label x + w))
      (Function.update parent v (some (x, w))) waiting' := by
  have hw : (0 : WithTop T) ≤ w := WithTop.coe_nonneg.mpr (hA _ _ _ harc)
  -- The source keeps its label 0, and a loop never improves.
  have hvs : s ≠ v := by
    rintro rfl
    rw [h.source] at hlt
    exact absurd hlt (not_lt.mpr (add_nonneg (h.label_nonneg hA x) hw))
  have hxv : x ≠ v := by
    rintro rfl
    exact absurd hlt (not_lt.mpr (le_add_of_nonneg_right hw))
  have hnew : label x + w ≠ ⊤ := ne_top_of_lt hlt
  -- Labels only fall, which is why arcs from nodes that do not wait stay closed.
  have hdecrease : ∀ y, Function.update label v (label x + w) y ≤ label y := by
    intro y
    by_cases hy : y = v
    · rw [hy, Function.update_self]
      exact hlt.le
    · rw [Function.update_of_ne hy]
  have hlabelled : ∀ y, label y ≠ ⊤ → Function.update label v (label x + w) y ≠ ⊤ :=
    fun y hy => ne_top_of_le_ne_top hy (hdecrease y)
  constructor
  case source => rw [Function.update_of_ne hvs, h.source]
  case root => rw [Function.update_of_ne hvs, h.root]
  case sound =>
    intro y c hc
    by_cases hy : y = v
    · subst hy
      rw [Function.update_self] at hc
      cases hx : label x with
      | top => rw [hx, WithTop.top_add] at hnew; exact absurd rfl hnew
      | coe a =>
        rw [hx] at hc
        obtain rfl : a + w = c := WithTop.coe_injective hc
        exact (h.sound x a hx).snoc harc
    · rw [Function.update_of_ne hy] at hc
      exact h.sound y c hc
  case arc =>
    intro u y w' hparent
    by_cases hy : y = v
    · subst hy
      rw [Function.update_self] at hparent
      cases hparent
      rw [Function.update_self, Function.update_of_ne hxv]
      exact ⟨harc, hnew, le_refl _⟩
    · rw [Function.update_of_ne hy] at hparent
      obtain ⟨harc', htop, hle⟩ := h.arc u y w' hparent
      refine ⟨harc', hlabelled y htop, ?_⟩
      rw [Function.update_of_ne hy]
      exact (add_le_add_left (hdecrease u) _).trans hle
  -- The parents still lead to the source: `v` hangs under `x` now.
  case rooted =>
    intro y hy
    by_cases hyv : y = v
    · subst hyv
      exact .child (Function.update_self _ _ _) (h.rooted_update hA harc hlt (h.rooted x
        fun hx => hnew (by rw [hx, WithTop.top_add])))
    · rw [Function.update_of_ne hyv] at hy
      exact h.rooted_update hA harc hlt (h.rooted y hy)
  case known =>
    intro y hy
    obtain hy | rfl := honly y hy
    · exact hlabelled y (h.known y hy)
    · rwa [Function.update_self]
  case closed =>
    intro u y w' hu harc'
    have huv : u ≠ v := fun heq => hu (heq ▸ hv)
    rw [Function.update_of_ne huv]
    exact (hdecrease y).trans (h.closed u y w' (fun hwait => hu (hkeep u hwait)) harc')

end Nonneg

/-- When nothing waits no walk is shorter than the label. -/
theorem label_le (h : LabelCorrecting A s label parent waiting) (hnone : ∀ v, ¬ waiting v)
    (p : Walk A u v c) : label v ≤ label u + c := by
  induction p with
  | nil u => rw [WithTop.coe_zero, add_zero]
  | @cons u x v w c arc _ ih =>
    refine ih.trans ?_
    rw [WithTop.coe_add, ← add_assoc]
    exact add_le_add_left (h.closed u x w (hnone u) arc) _

/-- When nothing waits the labels are the distances. -/
theorem isDist_iff (h : LabelCorrecting A s label parent waiting) (hnone : ∀ v, ¬ waiting v) :
    IsDist A s v c ↔ label v = c := by
  have hlower : ∀ {c : T}, Walk A s v c → label v ≤ c := by
    intro c p
    have hle := h.label_le hnone p
    rwa [h.source, zero_add] at hle
  constructor
  · intro hd
    have hle := hlower hd.walk
    cases hv : label v with
    | top => rw [hv] at hle; exact absurd hle (by simp)
    | coe d =>
      rw [hv] at hle
      exact congrArg _ (le_antisymm (WithTop.coe_le_coe.mp hle) (hd.le (h.sound v d hv)))
  · intro hv
    refine ⟨h.sound v c hv, fun d p => ?_⟩
    have hle := hlower p
    rw [hv] at hle
    exact WithTop.coe_le_coe.mp hle

/-- When nothing waits the labelled vertices are those that can be reached. -/
theorem reachable_iff (h : LabelCorrecting A s label parent waiting)
    (hnone : ∀ v, ¬ waiting v) : Reachable A s v ↔ label v ≠ ⊤ := by
  constructor
  · rintro ⟨c, p⟩ hv
    have hle := h.label_le hnone p
    rw [h.source, zero_add, hv] at hle
    exact absurd hle (by simp)
  · intro hv
    obtain ⟨c, hc⟩ := WithTop.ne_top_iff_exists.mp hv
    exact ⟨c, h.sound v c hc.symm⟩

end LabelCorrecting

/-! ## Labels do not get better for ever -/

/-- The weights of the walks of a graph with finitely many weights, none of them negative. -/
theorem isPWO_walks [AddCommMonoid T] [LinearOrder T] [IsOrderedCancelAddMonoid T]
    {A : V → V → T → Prop} (hA : ∀ u v w, A u v w → 0 ≤ w)
    (hfinite : {w | ∃ u v, A u v w}.Finite) : {c | ∃ u v, Walk A u v c}.IsPWO := by
  have hclosure := Set.IsPWO.addSubmonoid_closure
    (fun w (hw : w ∈ {w | ∃ u v, A u v w}) => by
      obtain ⟨u, v, harc⟩ := hw
      exact hA u v w harc)
    hfinite.isPWO
  refine hclosure.mono ?_
  rintro c ⟨u, v, p⟩
  induction p with
  | nil u => exact zero_mem _
  | cons arc _ ih => exact add_mem (AddSubmonoid.subset_closure ⟨_, _, arc⟩) ih

/-- The labels in a set, and the label of a vertex that has none. -/
def labelsIn (S : Set T) : Set (WithTop T) := insert ⊤ ((fun c : T => (c : WithTop T)) '' S)

/-- The labellings by weights of walks from `s`. -/
def walkLabels [AddMonoid T] (A : V → V → T → Prop) (s : V) : Set (V → WithTop T) :=
  {f | ∀ v (c : T), f v = c → Walk A s v c}

/-- No infinite sequence of labellings by weights of walks goes down. -/
theorem wellFoundedOn_walkLabels [AddCommMonoid T] [LinearOrder T] [IsOrderedCancelAddMonoid T]
    {A : V → V → T → Prop} {s : V} (hA : ∀ u v w, A u v w → 0 ≤ w)
    (hfinite : {w | ∃ u v, A u v w}.Finite) (hreach : {v | Reachable A s v}.Finite) :
    (walkLabels A s).WellFoundedOn (· < ·) := by
  have hwf : (labelsIn {c | ∃ u v, Walk A u v c}).IsWF :=
    (((isPWO_walks hA hfinite).image_of_monotone WithTop.coe_mono).insert ⊤).isWF
  have : WellFoundedLT (labelsIn {c | ∃ u v, Walk A u v c}) := ⟨hwf⟩
  have : Finite {v | Reachable A s v} := hreach
  have hmem : ∀ (f : walkLabels A s) (v : V), f.1 v ∈ labelsIn {c | ∃ u v, Walk A u v c} := by
    intro f v
    cases hv : f.1 v with
    | top => exact .inl rfl
    | coe c => exact .inr ⟨c, ⟨s, v, f.2 v c hv⟩, rfl⟩
  -- A labelling is determined by the labels of the vertices that can be reached.
  refine Subrelation.wf ?_ (InvImage.wf (fun (f : walkLabels A s) (v : {v | Reachable A s v}) =>
    (⟨f.1 v, hmem f v⟩ : labelsIn {c | ∃ u v, Walk A u v c})) wellFounded_lt)
  intro f g hlt
  obtain ⟨hle, v, hv⟩ := Pi.lt_def.mp (show f.1 < g.1 from hlt)
  obtain ⟨c, hc⟩ := WithTop.ne_top_iff_exists.mp (ne_top_of_lt hv)
  refine Pi.lt_def.mpr ⟨fun u => hle u, ⟨v, c, f.2 v c hc.symm⟩, hv⟩

end PgRouting
