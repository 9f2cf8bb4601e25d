import Mathlib.Order.Lattice
import Mathlib.Order.MinMax
import Mathlib.Data.List.Perm.Basic

/-!
# Least-first priority queues

`std::priority_queue` with `std::greater` hands out a least entry first. Which
of several equal entries it hands out cannot be seen, so a queue is the list of
its entries: `push` adds one, `top?` is the least one, `pop` removes it.
-/

namespace PgRouting

/-- The entries of a `std::priority_queue<α, std::vector<α>, std::greater<α>>`. -/
abbrev PriorityQueue (α : Type*) := List α

namespace PriorityQueue

variable {α : Type*}

/-- Add an entry. -/
def push (a : α) (q : PriorityQueue α) : PriorityQueue α := a :: q

@[simp] theorem mem_push {a b : α} {q : PriorityQueue α} : b ∈ push a q ↔ b = a ∨ b ∈ q :=
  List.mem_cons

@[simp] theorem length_push {a : α} {q : PriorityQueue α} : (push a q).length = q.length + 1 := rfl

section LinearOrder

variable [LinearOrder α]

/-- A least entry, if there is one. -/
def top? (q : PriorityQueue α) : Option α := q.min?

/-- Remove the least entry. -/
def pop (q : PriorityQueue α) : PriorityQueue α :=
  match top? q with
  | none => q
  | some a => q.erase a

variable {q q' : PriorityQueue α} {a b : α}

/-- The top is an entry that no other entry precedes. -/
theorem top?_eq_some : top? q = some a ↔ a ∈ q ∧ ∀ b ∈ q, a ≤ b := List.min?_eq_some_iff

theorem top?_eq_none : top? q = none ↔ q = [] := List.min?_eq_none_iff

theorem pop_eq_erase (h : top? q = some a) : pop q = q.erase a := by
  simp only [pop, h]

/-- `pop` adds no entry. -/
theorem mem_of_mem_pop (h : b ∈ pop q) : b ∈ q := by
  unfold pop at h
  split at h
  · exact h
  · exact List.mem_of_mem_erase h

/-- `pop` removes nothing but the top. -/
theorem mem_pop_of_ne (h : top? q = some a) (hb : b ∈ q) (hne : b ≠ a) : b ∈ pop q := by
  rw [pop_eq_erase h]
  exact (List.mem_erase_of_ne hne).mpr hb

/-- `pop` removes one entry. -/
theorem length_pop (h : top? q = some a) : (pop q).length + 1 = q.length := by
  have hmem : a ∈ q := (top?_eq_some.mp h).1
  have hpos := List.length_pos_of_mem hmem
  rw [pop_eq_erase h, List.length_erase_of_mem hmem]
  omega

/-- Taking an entry of the second part of a queue. -/
theorem pop_perm_right {l : List α} (h : q'.Perm (l ++ q)) (htop : top? q' = some a)
    (ha : a ∈ q) : (pop q').Perm (l ++ q.erase a) := by
  rw [pop_eq_erase htop]
  have hswap : (l ++ q).Perm (q ++ l) := List.perm_append_comm
  refine ((h.trans hswap).erase a).trans ?_
  rw [List.erase_append_left _ ha]
  exact List.perm_append_comm

/-- Taking an entry of the first part of a queue. -/
theorem pop_perm_left {l : List α} (h : q'.Perm (l ++ q)) (htop : top? q' = some a)
    (ha : a ∈ l) : ∃ l' ⊆ l, (pop q').Perm (l' ++ q) := by
  rw [pop_eq_erase htop]
  refine ⟨l.erase a, List.erase_subset, (h.erase a).trans ?_⟩
  rw [List.erase_append_left _ ha]

end LinearOrder

end PriorityQueue

end PgRouting
