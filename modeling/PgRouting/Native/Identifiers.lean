import Mathlib.Data.List.Sort

/-!
# Sets of identifiers

`class Identifiers<T>`, a `std::set`: its elements in ascending order, without
repetitions. The order is a field of the set, so that no operation has to
re-establish it for its callers.
-/

namespace PgRouting

variable {α : Type} [LinearOrder α]

/-- Insert an element into an ascending list, unless it is there. -/
def insertId (a : α) : List α → List α
  | [] => [a]
  | b :: l => if a < b then a :: b :: l else if a = b then b :: l else b :: insertId a l

theorem mem_insertId {a x : α} {l : List α} : x ∈ insertId a l ↔ x = a ∨ x ∈ l := by
  induction l with
  | nil => simp only [insertId, List.mem_singleton, List.not_mem_nil, or_false]
  | cons b l ih =>
    simp only [insertId]
    split
    · exact List.mem_cons
    · split
      · rename_i _ heq
        simp [heq]
      · rw [List.mem_cons, ih, List.mem_cons]
        tauto

theorem insertId_sorted {a : α} {l : List α} (h : l.Pairwise (· < ·)) :
    (insertId a l).Pairwise (· < ·) := by
  induction l with
  | nil => exact List.pairwise_singleton _ _
  | cons b l ih =>
    obtain ⟨hb, hl⟩ := List.pairwise_cons.mp h
    simp only [insertId]
    split
    · rename_i hlt
      refine List.pairwise_cons.mpr ⟨fun x hx => ?_, h⟩
      obtain rfl | hx := List.mem_cons.mp hx
      · exact hlt
      · exact hlt.trans (hb x hx)
    · split
      · exact h
      · rename_i hge hne
        refine List.pairwise_cons.mpr ⟨fun x hx => ?_, ih hl⟩
        obtain rfl | hx := mem_insertId.mp hx
        · exact lt_of_le_of_ne (not_lt.mp hge) (Ne.symm hne)
        · exact hb x hx

/-- `class Identifiers` -/
structure Identifiers (α : Type) [LinearOrder α] where
  ids : List α
  sorted : ids.Pairwise (· < ·)
deriving DecidableEq

namespace Identifiers

/-- `Identifiers()` -/
def empty : Identifiers α := ⟨[], List.Pairwise.nil⟩

/-- `has` -/
def has (s : Identifiers α) (a : α) : Bool := decide (a ∈ s.ids)

instance : Membership α (Identifiers α) := ⟨fun s a => a ∈ s.ids⟩

instance (s : Identifiers α) (a : α) : Decidable (a ∈ s) :=
  inferInstanceAs (Decidable (a ∈ s.ids))

/-- `size` -/
def size (s : Identifiers α) : Nat := s.ids.length

/-- `front`, for a set that is not empty. -/
def front? (s : Identifiers α) : Option α := s.ids.head?

/-- `pop_front` -/
def popFront (s : Identifiers α) : Identifiers α := ⟨s.ids.tail, s.sorted.tail⟩

/-- `operator +=` with an element -/
def add (s : Identifiers α) (a : α) : Identifiers α := ⟨insertId a s.ids, insertId_sorted s.sorted⟩

/-- `operator +=` with a set -/
def union (s t : Identifiers α) : Identifiers α := t.ids.foldl add s

/-- `operator -=` with an element -/
def remove (s : Identifiers α) (a : α) : Identifiers α :=
  ⟨s.ids.filter (· ≠ a), s.sorted.filter _⟩

/-- `operator *` -/
def inter (s t : Identifiers α) : Identifiers α :=
  ⟨s.ids.filter fun a => t.has a, s.sorted.filter _⟩

/-- `Identifiers(number)`, the numbers below the given one. -/
def ofSize (number : Nat) : Identifiers Nat := ⟨List.range number, List.pairwise_lt_range⟩

instance : Inhabited (Identifiers α) := ⟨empty⟩

variable {s t : Identifiers α} {a x : α}

@[simp] theorem has_iff : s.has a = true ↔ a ∈ s := decide_eq_true_iff

@[simp] theorem not_mem_empty : a ∉ (empty : Identifiers α) := List.not_mem_nil

@[simp] theorem mem_add : x ∈ s.add a ↔ x = a ∨ x ∈ s := mem_insertId

@[simp] theorem mem_remove : x ∈ s.remove a ↔ x ∈ s ∧ x ≠ a := by
  show x ∈ s.ids.filter (· ≠ a) ↔ x ∈ s.ids ∧ x ≠ a
  simp

@[simp] theorem mem_inter : x ∈ s.inter t ↔ x ∈ s ∧ x ∈ t := by
  show x ∈ s.ids.filter _ ↔ x ∈ s.ids ∧ x ∈ t
  rw [List.mem_filter, has_iff]

@[simp] theorem mem_ofSize {n i : Nat} : i ∈ ofSize n ↔ i < n := List.mem_range

/-- Adding elements one by one. -/
theorem mem_foldl_add {l : List α} : x ∈ l.foldl add s ↔ x ∈ s ∨ x ∈ l := by
  induction l generalizing s with
  | nil => simp
  | cons a l ih =>
    rw [List.foldl_cons, ih, mem_add, List.mem_cons]
    tauto

@[simp] theorem mem_union : x ∈ s.union t ↔ x ∈ s ∨ x ∈ t := mem_foldl_add

theorem front?_mem (h : s.front? = some a) : a ∈ s := List.mem_of_head? h

theorem front?_none (h : s.front? = none) : a ∉ s := by
  have hnil : s.ids = [] := List.head?_eq_none_iff.mp h
  show a ∉ s.ids
  rw [hnil]
  exact List.not_mem_nil

/-- A set is determined by its elements. -/
theorem ext_mem (h : ∀ x, x ∈ s ↔ x ∈ t) : s = t := by
  obtain ⟨l, hl⟩ := s
  obtain ⟨l', hl'⟩ := t
  have hperm : l.Perm l' :=
    (List.perm_ext_iff_of_nodup (hl.imp ne_of_lt) (hl'.imp ne_of_lt)).mpr h
  congr 1
  exact hperm.eq_of_pairwise (fun a b _ _ hab hba => absurd (hab.trans hba) (lt_irrefl a)) hl hl'

theorem nodup : s.ids.Nodup := s.sorted.imp ne_of_lt

theorem perm_add (h : a ∉ s) : (s.add a).ids.Perm (a :: s.ids) := by
  apply (List.perm_ext_iff_of_nodup (nodup (s := s.add a)) (List.nodup_cons.mpr ⟨h, nodup⟩)).mpr
  intro x
  rw [List.mem_cons]
  exact mem_add

theorem perm_remove (h : a ∈ s) : s.ids.Perm (a :: (s.remove a).ids) := by
  have hnot : a ∉ (s.remove a).ids := fun ha => (mem_remove.mp ha).2 rfl
  apply (List.perm_ext_iff_of_nodup nodup (List.nodup_cons.mpr ⟨hnot, nodup⟩)).mpr
  intro x
  rw [List.mem_cons]
  show x ∈ s ↔ x = a ∨ x ∈ s.remove a
  rw [mem_remove]
  by_cases hx : x = a
  · rw [hx]
    exact iff_of_true h (.inl rfl)
  · simp [hx]

theorem size_add (h : a ∉ s) : (s.add a).size = s.size + 1 := (perm_add h).length_eq

theorem size_remove (h : a ∈ s) : (s.remove a).size + 1 = s.size := (perm_remove h).length_eq.symm

theorem size_le (h : ∀ x ∈ s, x ∈ t) : s.size ≤ t.size :=
  (List.subperm_of_subset nodup h).length_le

/-- A proper subset is smaller. -/
theorem size_lt (h : ∀ x ∈ s, x ∈ t) (hne : s ≠ t) : s.size < t.size := by
  apply lt_of_le_of_ne (size_le h)
  intro hsize
  apply hne
  apply ext_mem
  intro x
  exact ((List.subperm_of_subset nodup h).perm_of_length_le hsize.ge).mem_iff

/-- A set of two elements: the first two fronts. -/
theorem front?_of_size_two (h : s.size = 2) :
    ∃ u w, s.front? = some u ∧ s.popFront.front? = some w ∧ u ≠ w ∧ ∀ x, x ∈ s ↔ x = u ∨ x = w := by
  obtain ⟨l, hl⟩ := s
  obtain ⟨u, w, rfl⟩ := List.length_eq_two.mp h
  have hlt : u < w := (List.pairwise_cons.mp hl).1 w List.mem_cons_self
  refine ⟨u, w, rfl, rfl, hlt.ne, fun x => ?_⟩
  show x ∈ [u, w] ↔ x = u ∨ x = w
  simp

/-- A set of one element. -/
theorem mem_of_size_one (h : s.size = 1) : ∃ u, ∀ x, x ∈ s ↔ x = u := by
  obtain ⟨l, hl⟩ := s
  obtain ⟨u, rfl⟩ := List.length_eq_one_iff.mp h
  refine ⟨u, fun x => ?_⟩
  show x ∈ [u] ↔ x = u
  simp

end Identifiers

end PgRouting
