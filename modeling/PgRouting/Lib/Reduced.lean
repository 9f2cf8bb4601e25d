import PgRouting.Lib.LabelSetting
import Mathlib.Tactic.Abel

/-!
# Searches guided by an estimate

A search that orders its queue by the cost of a vertex plus an estimate `h` is a
label-setting search over reduced weights: the label of a vertex is its cost plus its
estimate, and an arc weighs by `h v - h u` more than it costs. When no arc costs less
than the estimate falls along it, no reduced weight is negative.

## Key results

- `reduced_nonneg`: consistent estimates give reduced weights that are not negative
- `walk_reduced`: the reduced weight of a walk depends on its cost and its ends only
- `isDist_of_isLeast_reduced`: a least reduced label is a distance
-/

namespace PgRouting

variable {V K : Type*} [AddCommGroup K] {A : V → V → K → Prop} {h : V → K} {u v t : V}

/-- The arcs with their reduced weights. -/
def Reduced (A : V → V → K → Prop) (h : V → K) (u v : V) (w : WithTop K) : Prop :=
  ∃ c, A u v c ∧ w = ((c + h v - h u : K) : WithTop K)

/-- Along a walk the estimates telescope. -/
theorem Walk.reduced {c : K} (p : Walk A u t c) :
    Walk (Reduced A h) u t ((c + h t - h u : K) : WithTop K) := by
  induction p with
  | nil u =>
    rw [zero_add, sub_self]
    exact .nil u
  | @cons u v t w c arc rest ih =>
    have hsum : w + c + h t - h u = (w + h v - h u) + (c + h t - h v) := by abel
    rw [hsum, WithTop.coe_add]
    exact .cons ⟨w, arc, rfl⟩ ih

theorem walk_reduced {w : WithTop K} : Walk (Reduced A h) u t w ↔
    ∃ c, Walk A u t c ∧ w = ((c + h t - h u : K) : WithTop K) := by
  constructor
  · intro p
    induction p with
    | nil u => exact ⟨0, .nil u, by simp⟩
    | cons arc rest ih =>
      obtain ⟨w, harc, rfl⟩ := arc
      obtain ⟨c, hc, rfl⟩ := ih
      refine ⟨w + c, .cons harc hc, ?_⟩
      rw [← WithTop.coe_add]
      congr 1
      abel
  · intro hw
    obtain ⟨c, p, rfl⟩ := hw
    exact p.reduced

/-- The labels of a search that starts in `u` with the label `h u`. -/
theorem labelled_reduced {w : WithTop K} :
    Labelled (Reduced A h) (fun v c => v = u ∧ c = (h u : WithTop K)) t w ↔
      ∃ c, Walk A u t c ∧ w = ((c + h t : K) : WithTop K) := by
  have hsum : ∀ c : K, (h u : WithTop K) + ((c + h t - h u : K) : WithTop K) =
      ((c + h t : K) : WithTop K) := by
    intro c
    rw [← WithTop.coe_add]
    congr 1
    abel
  constructor
  · intro hlab
    obtain ⟨_, _, b, ⟨rfl, rfl⟩, hwalk, rfl⟩ := hlab
    obtain ⟨c, hc, rfl⟩ := walk_reduced.mp hwalk
    exact ⟨c, hc, hsum c⟩
  · intro hw
    obtain ⟨c, hc, rfl⟩ := hw
    exact ⟨u, h u, _, ⟨rfl, rfl⟩, hc.reduced, (hsum c).symm⟩

variable [LinearOrder K] [IsOrderedAddMonoid K]

theorem reduced_nonneg (hA : ∀ u v c, A u v c → h u ≤ c + h v) {w : WithTop K}
    (hw : Reduced A h u v w) : 0 ≤ w := by
  obtain ⟨c, harc, rfl⟩ := hw
  have hle := sub_nonneg.mpr (hA u v c harc)
  exact_mod_cast hle

/-- A least reduced label belongs to a shortest walk. -/
theorem isDist_of_isLeast_reduced {w : WithTop K} (hleast : IsLeast
    {w | Labelled (Reduced A h) (fun v c => v = u ∧ c = (h u : WithTop K)) t w} w) :
    ∃ c, IsDist A u t c ∧ w = ((c + h t : K) : WithTop K) := by
  obtain ⟨c, hc, rfl⟩ := labelled_reduced.mp hleast.1
  refine ⟨c, ⟨hc, fun d hd => ?_⟩, rfl⟩
  have hle := hleast.2 (labelled_reduced.mpr ⟨d, hd, rfl⟩)
  exact le_of_add_le_add_right (WithTop.coe_le_coe.mp hle)

end PgRouting
