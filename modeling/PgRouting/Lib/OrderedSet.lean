import Mathlib.Order.Lattice
import Mathlib.Data.List.Pairwise

/-!
# Ordered sets with a comparison

An ordered set with a comparison of its own is the list of its elements in order. An element
goes before the first one that it is less than, and is not inserted when it is neither less nor
greater than one that is there.

The comparison is a Boolean function. Where it agrees with the order of the keys of the
elements, the list is sorted by the keys, and no two elements have the same key.

## Key results

- `orderedInsert_sorted`: the list stays sorted
- `exists_mem_orderedInsert`: an element with the key is there after the insertion
- `length_orderedInsert`: a new key makes the set larger
-/

namespace PgRouting

variable {α κ : Type*}

/-- `insert` of an ordered set with the comparison `less`. -/
def orderedInsert (less : α → α → Bool) (x : α) : List α → List α
  | [] => [x]
  | y :: l =>
    if less x y then x :: y :: l
    else if less y x then y :: orderedInsert less x l
    else y :: l

/-- The comparison compares the keys. -/
def ComparesKeys [LT κ] (less : α → α → Bool) (key : α → κ) (x y : α) : Prop :=
  less x y = true ↔ key x < key y

variable {less : α → α → Bool} {x y : α} {l : List α}

/-- Nothing is in the set but the elements that were there and the new one. -/
theorem mem_of_mem_orderedInsert (h : y ∈ orderedInsert less x l) : y = x ∨ y ∈ l := by
  induction l with
  | nil => exact .inl (List.mem_singleton.mp h)
  | cons z l ih =>
    rw [orderedInsert] at h
    split at h
    · exact List.mem_cons.mp h
    · split at h
      · obtain rfl | h := List.mem_cons.mp h
        · exact .inr List.mem_cons_self
        · exact (ih h).imp id (List.mem_cons_of_mem z)
      · exact .inr h

/-- No element gets lost. -/
theorem mem_orderedInsert_of_mem (h : y ∈ l) : y ∈ orderedInsert less x l := by
  induction l with
  | nil => cases h
  | cons z l ih =>
    rw [orderedInsert]
    split
    · exact List.mem_cons_of_mem x h
    · split
      · obtain rfl | h := List.mem_cons.mp h
        · exact List.mem_cons_self
        · exact List.mem_cons_of_mem z (ih h)
      · exact h

/-- After an insertion the set is not empty. -/
theorem orderedInsert_ne_nil : orderedInsert less x l ≠ [] := by
  cases l with
  | nil => exact List.cons_ne_nil x []
  | cons z l =>
    rw [orderedInsert]
    split
    · exact List.cons_ne_nil _ _
    · split <;> exact List.cons_ne_nil _ _

section Keys

variable [LinearOrder κ] {key : α → κ}
variable (hx : ∀ y ∈ l, ComparesKeys less key x y) (hy : ∀ y ∈ l, ComparesKeys less key y x)

include hx hy

/-- The new element or one with the same key is in the set. -/
theorem exists_mem_orderedInsert :
    x ∈ orderedInsert less x l ∨ ∃ y ∈ l, key y = key x := by
  induction l with
  | nil => exact .inl List.mem_cons_self
  | cons z l ih =>
    rw [orderedInsert]
    by_cases hlt : less x z
    · rw [if_pos hlt]
      exact .inl List.mem_cons_self
    · rw [if_neg hlt]
      by_cases hgt : less z x
      · rw [if_pos hgt]
        obtain h | ⟨y, hmem, hkey⟩ := ih (fun y h => hx y (List.mem_cons_of_mem z h))
          fun y h => hy y (List.mem_cons_of_mem z h)
        · exact .inl (List.mem_cons_of_mem z h)
        · exact .inr ⟨y, List.mem_cons_of_mem z hmem, hkey⟩
      · have hnlt : ¬ key x < key z := fun h => hlt ((hx z List.mem_cons_self).mpr h)
        have hngt : ¬ key z < key x := fun h => hgt ((hy z List.mem_cons_self).mpr h)
        exact .inr ⟨z, List.mem_cons_self, le_antisymm (not_lt.mp hnlt) (not_lt.mp hngt)⟩

/-- The list stays sorted. -/
theorem orderedInsert_sorted (hl : l.Pairwise fun y z => key y < key z) :
    (orderedInsert less x l).Pairwise fun y z => key y < key z := by
  induction l with
  | nil => exact List.pairwise_singleton _ x
  | cons z l ih =>
    obtain ⟨hz, hrest⟩ := List.pairwise_cons.mp hl
    rw [orderedInsert]
    by_cases hlt : less x z
    · rw [if_pos hlt]
      have hxz : key x < key z := (hx z List.mem_cons_self).mp hlt
      apply List.pairwise_cons.mpr ⟨fun y h => ?_, hl⟩
      obtain rfl | h := List.mem_cons.mp h
      · exact hxz
      · exact lt_trans hxz (hz y h)
    · rw [if_neg hlt]
      by_cases hgt : less z x
      · rw [if_pos hgt]
        have hzx : key z < key x := (hy z List.mem_cons_self).mp hgt
        have hsorted := ih (fun y h => hx y (List.mem_cons_of_mem z h))
          (fun y h => hy y (List.mem_cons_of_mem z h)) hrest
        apply List.pairwise_cons.mpr ⟨fun y h => ?_, hsorted⟩
        obtain rfl | h := mem_of_mem_orderedInsert h
        · exact hzx
        · exact hz y h
      · -- The element is there already.
        rw [if_neg hgt]
        exact hl

/-- A new key makes the set larger, and the element itself is there. -/
theorem length_orderedInsert (hnew : ∀ y ∈ l, key y ≠ key x) :
    (orderedInsert less x l).length = l.length + 1 := by
  induction l with
  | nil => rfl
  | cons z l ih =>
    rw [orderedInsert]
    by_cases hlt : less x z
    · rw [if_pos hlt]
      rfl
    · rw [if_neg hlt]
      have hgt : less z x = true := by
        apply (hy z List.mem_cons_self).mpr
        have hnlt : ¬ key x < key z := fun h => hlt ((hx z List.mem_cons_self).mpr h)
        exact lt_of_le_of_ne (not_lt.mp hnlt) (hnew z List.mem_cons_self)
      rw [if_pos hgt, List.length_cons, List.length_cons,
        ih (fun y h => hx y (List.mem_cons_of_mem z h))
          (fun y h => hy y (List.mem_cons_of_mem z h))
          fun y h => hnew y (List.mem_cons_of_mem z h)]

end Keys

end PgRouting
