import Mathlib.Data.List.Flatten
import Mathlib.Data.List.GetD
import Mathlib.Data.List.Perm.Basic
import Mathlib.Data.List.Nodup

/-!
# Items in bins

Every item of a list is in exactly one bin. Items may be moved from one bin to another and
empty bins may be thrown away. Moving an item towards the first bin lowers the weight of the
bins, so that it can be done finitely often only.

## Key results

- `Partitions.set_set`: two bins may be replaced by bins with the same items
- `Partitions.filter`: bins without items may be left out
- `weight_set_set`, `weight_filter_le`: what happens to the weight
-/

namespace PgRouting

variable {β ι : Type*} (items : β → List ι)

/-- The bins hold all the items, each of them once. -/
def Partitions (bins : List β) (all : List ι) : Prop := (bins.flatMap items).Perm all

/-- Every item counts the number of bins that stand before its own one. -/
def weight : List β → Nat
  | [] => 0
  | _ :: bins => weight bins + (bins.flatMap items).length

variable {items} {bins bins' : List β} {all : List ι} {a b d : β} {i j : Nat} {o : ι}

theorem getD_set_ne (h : i ≠ j) : (bins.set i a).getD j d = bins.getD j d := by
  simp [List.getD_eq_getElem?_getD, List.getElem?_set_ne h]

theorem getD_set_self (h : i < bins.length) : (bins.set i a).getD i d = a := by
  rw [List.getD_eq_getElem _ _ (by rw [List.length_set]; exact h), List.getElem_set_self]

/-- Replacing two elements of a list. -/
theorem exists_perm_set_set (hi : i < bins.length) (hj : j < bins.length) (hij : i ≠ j) :
    ∃ rest, bins.Perm (bins.getD i d :: bins.getD j d :: rest) ∧
      ∀ a b, ((bins.set j b).set i a).Perm (a :: b :: rest) := by
  induction bins generalizing i j with
  | nil => exact absurd hi (Nat.not_lt_zero i)
  | cons x bins ih =>
    cases i with
    | zero =>
      cases j with
      | zero => exact absurd rfl hij
      | succ j =>
        have hj' : j < bins.length := Nat.lt_of_succ_lt_succ hj
        refine ⟨bins.eraseIdx j, ?_, fun a b => ?_⟩
        · rw [List.getD_cons_zero, List.getD_cons_succ, List.getD_eq_getElem _ _ hj']
          exact (List.getElem_cons_eraseIdx_perm hj').symm.cons x
        · exact (List.set_perm_cons_eraseIdx hj' b).cons a
    | succ i =>
      have hi' : i < bins.length := Nat.lt_of_succ_lt_succ hi
      cases j with
      | zero =>
        refine ⟨bins.eraseIdx i, ?_, fun a b => ?_⟩
        · rw [List.getD_cons_zero, List.getD_cons_succ, List.getD_eq_getElem _ _ hi']
          exact ((List.getElem_cons_eraseIdx_perm hi').symm.cons x).trans (List.Perm.swap _ _ _)
        · exact ((List.set_perm_cons_eraseIdx hi' a).cons b).trans (List.Perm.swap _ _ _)
      | succ j =>
        obtain ⟨rest, hperm, hset⟩ := ih hi' (Nat.lt_of_succ_lt_succ hj) (fun h => hij (by rw [h]))
        refine ⟨x :: rest, ?_, fun a b => ?_⟩
        · rw [List.getD_cons_succ, List.getD_cons_succ]
          exact (hperm.cons x).trans
            ((List.Perm.swap _ _ _).trans ((List.Perm.swap _ _ _).cons _))
        · exact ((hset a b).cons x).trans
            ((List.Perm.swap _ _ _).trans ((List.Perm.swap _ _ _).cons _))

namespace Partitions

theorem mem (h : Partitions items bins all) (hb : b ∈ bins) (ho : o ∈ items b) : o ∈ all :=
  h.mem_iff.mp (List.mem_flatMap.mpr ⟨b, hb, ho⟩)

theorem perm (h : Partitions items bins all) (hperm : bins'.Perm bins) :
    Partitions items bins' all :=
  (hperm.flatMap_right items).trans h

/-- No item is in two bins. -/
theorem not_mem (h : Partitions items bins all) (hall : all.Nodup) (hi : i < bins.length)
    (hj : j < bins.length) (hij : i ≠ j) (ho : o ∈ items (bins.getD i d)) :
    o ∉ items (bins.getD j d) := by
  intro ho'
  obtain ⟨rest, hperm, -⟩ := exists_perm_set_set (d := d) hi hj hij
  have hnodup := (hperm.flatMap_right items).symm.trans h |>.nodup_iff.mpr hall
  rw [List.flatMap_cons, List.flatMap_cons, ← List.append_assoc] at hnodup
  exact List.disjoint_of_nodup_append (List.Nodup.of_append_left hnodup) ho ho'

/-- Two bins are replaced by bins that hold the same items. -/
theorem set_set (h : Partitions items bins all) (hi : i < bins.length) (hj : j < bins.length)
    (hij : i ≠ j)
    (hsame : (items a ++ items b).Perm (items (bins.getD i d) ++ items (bins.getD j d))) :
    Partitions items ((bins.set j b).set i a) all := by
  obtain ⟨rest, hperm, hset⟩ := exists_perm_set_set (d := d) hi hj hij
  have hnew := (hset a b).flatMap_right items
  have hold := hperm.flatMap_right items
  rw [List.flatMap_cons, List.flatMap_cons, ← List.append_assoc] at hnew hold
  exact hnew.trans ((hsame.append_right _).trans (hold.symm.trans h))

/-- Bins without items are thrown away. -/
theorem filter (h : Partitions items bins all) {keep : β → Bool}
    (hempty : ∀ b ∈ bins, keep b = false → items b = []) :
    Partitions items (bins.filter keep) all := by
  have hsame : (bins.filter keep).flatMap items = bins.flatMap items := by
    clear h
    induction bins with
    | nil => rfl
    | cons b bins ih =>
      have hrest := ih fun b hb => hempty b (List.mem_cons_of_mem _ hb)
      rw [List.filter_cons]
      split
      · rw [List.flatMap_cons, List.flatMap_cons, hrest]
      · rename_i hkeep
        rw [List.flatMap_cons, hrest, hempty b List.mem_cons_self (by simpa using hkeep),
          List.nil_append]
  unfold Partitions
  rw [hsame]
  exact h

end Partitions

/-- The weight after one bin has been replaced. -/
theorem weight_set (items : β → List α) (bins : List β) (hi : i < bins.length) :
    weight items (bins.set i a) + i * (items (bins.getD i d)).length =
      weight items bins + i * (items a).length := by
  induction bins generalizing i with
  | nil => exact absurd hi (Nat.not_lt_zero i)
  | cons x bins ih =>
    cases i with
    | zero => simp [weight]
    | succ i =>
      have hi' : i < bins.length := Nat.lt_of_succ_lt_succ hi
      have hweight := ih hi'
      -- The items of all bins behind the first change by those of the bin that is replaced.
      have hlength : ((bins.set i a).flatMap items).length + (items (bins.getD i d)).length =
          (bins.flatMap items).length + (items a).length := by
        have hset := ((List.set_perm_cons_eraseIdx hi' a).flatMap_right items).length_eq
        have hget := ((List.getElem_cons_eraseIdx_perm hi').flatMap_right items).length_eq
        rw [List.flatMap_cons, List.length_append] at hset hget
        rw [List.getD_eq_getElem _ _ hi']
        omega
      rw [List.set_cons_succ, List.getD_cons_succ]
      simp only [weight, Nat.succ_mul]
      omega

/-- Moving an item to an earlier bin lowers the weight. -/
theorem weight_set_set (hi : i < bins.length) (hj : j < i)
    (ha : (items a).length + 1 = (items (bins.getD i d)).length)
    (hb : (items b).length = (items (bins.getD j d)).length + 1) :
    weight items ((bins.set j b).set i a) < weight items bins := by
  have hfirst := weight_set items bins (a := b) (d := d) (Nat.lt_trans hj hi)
  have hsecond := weight_set items (bins.set j b) (a := a) (d := d)
    (by rw [List.length_set]; exact hi)
  rw [getD_set_ne (Nat.ne_of_lt hj), ← ha, Nat.mul_add] at hsecond
  rw [hb, Nat.mul_add] at hfirst
  omega

/-- Throwing bins away does not raise the weight. -/
theorem weight_filter_le {keep : β → Bool} :
    weight items (bins.filter keep) ≤ weight items bins := by
  induction bins with
  | nil => exact Nat.le_refl 0
  | cons b bins ih =>
    have hlength : ((bins.filter keep).flatMap items).length ≤ (bins.flatMap items).length :=
      (List.filter_sublist.flatMap items).length_le
    rw [List.filter_cons]
    split
    · simp only [weight]
      omega
    · simp only [weight]
      omega

/-- The weight is bounded by the number of bins for every item. -/
theorem weight_le (items : β → List α) (bins : List β) :
    weight items bins ≤ bins.length * (bins.flatMap items).length := by
  induction bins with
  | nil => exact Nat.le_refl 0
  | cons b bins ih =>
    have hle : bins.length * (bins.flatMap items).length ≤
        bins.length * (items b ++ bins.flatMap items).length := by
      apply Nat.mul_le_mul_left
      rw [List.length_append]
      exact Nat.le_add_left _ _
    rw [List.length_cons, Nat.succ_mul, List.flatMap_cons]
    simp only [weight]
    rw [List.length_append] at hle ⊢
    omega

end PgRouting
