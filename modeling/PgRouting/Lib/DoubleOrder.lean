import Mathlib.Data.Prod.Lex
import Mathlib.Algebra.Order.Ring.Int

/-!
# The order of the doubles

The comparison of doubles is a strict order: a NaN is less than no double, and no double is
less than it. A double that is a number has a rank, and the comparison compares the ranks.
-/

namespace PgRouting

open Float.Model

/-- Where a double stands: the group of its sign and kind, and within the group its exponent and
    its mantissa. A NaN stands nowhere. -/
def floatRank : UnpackedFloat → Option (ℤ ×ₗ ℤ ×ₗ ℤ)
  | .notANumber => none
  | .infinity .positive => some (toLex (2, toLex (0, 0)))
  | .finite .positive mantissa exponent _ => some (toLex (1, toLex (exponent, mantissa)))
  | .zero _ => some (toLex (0, toLex (0, 0)))
  | .finite .negative mantissa exponent _ => some (toLex (-1, toLex (-exponent, -mantissa)))
  | .infinity .negative => some (toLex (-2, toLex (0, 0)))

theorem compare_then_eq_lt (e f : Int) (m n : Nat) :
    (compare e f).then (compare m n) = .lt ↔ e < f ∨ e = f ∧ m < n := by
  rw [Ordering.then_eq_lt, compare_lt_iff_lt, compare_eq_iff_eq, compare_lt_iff_lt]

theorem compare_then_eq_gt (e f : Int) (m n : Nat) :
    (compare e f).then (compare m n) = .gt ↔ f < e ∨ e = f ∧ n < m := by
  rw [Ordering.then_eq_gt, compare_gt_iff_gt, compare_eq_iff_eq, compare_gt_iff_gt]

/-- Doubles are compared by their ranks. -/
theorem unpackedFloat_lt_iff (a b : UnpackedFloat) :
    a.lt b = true ↔ ∃ x ∈ floatRank a, ∃ y ∈ floatRank b, x < y := by
  rcases a with (_ | _) | _ | (_ | _) | ⟨_ | _, m, e, _⟩ <;>
    rcases b with (_ | _) | _ | (_ | _) | ⟨_ | _, n, f, _⟩ <;>
    dsimp only [floatRank, UnpackedFloat.lt, UnpackedFloat.compare] <;>
    simp [Prod.Lex.lt_iff, compare_then_eq_lt, compare_then_eq_gt]
  rfl

theorem float_lt_irrefl (a : Float) : ¬ a < a := by
  intro h
  have hlt : a.toModel.unpack.lt a.toModel.unpack = true := of_decide_eq_true h
  obtain ⟨x, hx, y, hy, hxy⟩ := (unpackedFloat_lt_iff _ _).mp hlt
  rw [Option.mem_unique hx hy] at hxy
  exact lt_irrefl y hxy

theorem float_lt_trans {a b c : Float} (hab : a < b) (hbc : b < c) : a < c := by
  have hab' : a.toModel.unpack.lt b.toModel.unpack = true := of_decide_eq_true hab
  have hbc' : b.toModel.unpack.lt c.toModel.unpack = true := of_decide_eq_true hbc
  obtain ⟨x, hx, y, hy, hxy⟩ := (unpackedFloat_lt_iff _ _).mp hab'
  obtain ⟨y', hy', z, hz, hyz⟩ := (unpackedFloat_lt_iff _ _).mp hbc'
  rw [Option.mem_unique hy' hy] at hyz
  have hac : a.toModel.unpack.lt c.toModel.unpack = true :=
    (unpackedFloat_lt_iff _ _).mpr ⟨x, hx, z, hz, hxy.trans hyz⟩
  exact decide_eq_true hac

end PgRouting
