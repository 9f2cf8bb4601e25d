import Mathlib.Data.List.Pairwise
import Mathlib.Data.List.Perm.Subperm
import Mathlib.Data.List.Dedup
import Mathlib.Order.Lattice

/-!
# The cheapest elements

`Nearest n P cost l` says that the list `l` consists of `n` elements of `P` that no other
element of `P` undercuts, or of all of them when there are fewer than `n`.

## Key results

- `nearest_take`: the first elements of a sorted list
- `nearest_take_iff`: when the first elements of a sorted part are the cheapest of the whole
- `Nearest.length_eq_min`: how many they are
-/

namespace PgRouting

variable {α T : Type*} [LinearOrder T]

/-- `l` lists `n` cheapest elements of `P`, or all of them when there are fewer. -/
structure Nearest (n : Nat) (P : α → Prop) (cost : α → T) (l : List α) : Prop where
  nodup : l.Nodup
  sound : ∀ x ∈ l, P x
  length : l.length ≤ n
  all : l.length < n → ∀ x, P x → x ∈ l
  cheapest : ∀ x, P x → x ∉ l → ∀ y ∈ l, cost y ≤ cost x

variable {n k : Nat} {P Q : α → Prop} {cost : α → T} {l l' : List α}

namespace Nearest

theorem perm (h : Nearest n P cost l) (hl : l.Perm l') : Nearest n P cost l' where
  nodup := hl.nodup_iff.mp h.nodup
  sound x hx := h.sound x (hl.mem_iff.mpr hx)
  length := hl.length_eq ▸ h.length
  all hlt x hx := hl.mem_iff.mp (h.all (by rw [hl.length_eq]; exact hlt) x hx)
  cheapest x hx hnot y hy :=
    h.cheapest x hx (fun hmem => hnot (hl.mem_iff.mp hmem)) y (hl.mem_iff.mpr hy)

/-- A list that leaves an element out is full. -/
theorem length_eq (h : Nearest n P cost l) {x : α} (hx : P x) (hnot : x ∉ l) : l.length = n := by
  have hle := h.length
  by_contra hne
  exact hnot (h.all (by omega) x hx)

/-- There are `n` of them, or as many as there are elements. -/
theorem length_eq_min [DecidableEq α] (h : Nearest n P cost l) (hl' : l'.Nodup)
    (hmem : ∀ x, x ∈ l' ↔ P x) : l.length = min n l'.length := by
  have hle := h.length
  have hsub : l ⊆ l' := fun x hx => (hmem x).mpr (h.sound x hx)
  have hle' := (h.nodup.subperm hsub).length_le
  by_cases hlt : l.length < n
  · have hsup : l' ⊆ l := fun x hx => h.all hlt x ((hmem x).mp hx)
    have hge := (hl'.subperm hsup).length_le
    omega
  · omega

/-- Fewer than `n` elements are `n` cheapest ones only when nothing has been left out. -/
theorem iff_all (h : Nearest k P cost l) (hk : k < n) :
    Nearest n P cost l ↔ ∀ x, P x → x ∈ l := by
  have hlen := h.length
  constructor
  · intro hn
    exact hn.all (by omega)
  · intro hall
    exact ⟨h.nodup, h.sound, by omega, fun _ => hall, h.cheapest⟩

end Nearest

/-- Among the elements that a sorted list starts with, those that cost no more than `x` are
    found before any other. -/
theorem take_le_of_count {x : α} (hsort : l.Pairwise fun a b => cost a ≤ cost b)
    (hcount : n ≤ (l.filter fun y => cost y ≤ cost x).length) :
    ∀ y ∈ l.take n, cost y ≤ cost x := by
  intro y hy
  by_contra hlt
  -- What follows the first `n` elements costs at least as much as `y`.
  have hdrop : (l.drop n).filter (fun z => cost z ≤ cost x) = [] := by
    rw [List.filter_eq_nil_iff]
    intro z hz
    have hyz : cost y ≤ cost z := by
      have h := hsort
      rw [← List.take_append_drop n l, List.pairwise_append] at h
      exact h.2.2 y hy z hz
    have hzx : cost x < cost z := lt_of_lt_of_le (not_le.mp hlt) hyz
    simpa using hzx
  have hsplit : (l.filter fun z => cost z ≤ cost x) =
      (l.take n).filter fun z => cost z ≤ cost x := by
    conv_lhs => rw [← List.take_append_drop n l]
    rw [List.filter_append, hdrop, List.append_nil]
  have hless : ((l.take n).filter fun z => cost z ≤ cost x).length < (l.take n).length := by
    rw [List.length_filter_lt_length_iff_exists]
    exact ⟨y, hy, by simpa using hlt⟩
  have htake : (l.take n).length ≤ n := List.length_take_le n l
  rw [hsplit] at hcount
  omega

/-- The first elements of a sorted part are the cheapest of the whole if and only if the part
    has enough elements that cost no more than what it leaves out. -/
theorem nearest_take_iff (hnodup : l.Nodup) (hsound : ∀ x ∈ l, P x)
    (hsort : l.Pairwise fun a b => cost a ≤ cost b) :
    Nearest n P cost (l.take n) ↔
      ∀ x, P x → x ∉ l → n ≤ (l.filter fun y => cost y ≤ cost x).length := by
  constructor
  · intro h x hx hnot
    have hnot' : x ∉ l.take n := fun hmem => hnot (List.mem_of_mem_take hmem)
    -- Something is left out, so the part has `n` elements, all as cheap as that.
    have hall : (l.take n).filter (fun y => cost y ≤ cost x) = l.take n := by
      rw [List.filter_eq_self]
      intro y hy
      exact decide_eq_true (h.cheapest x hx hnot' y hy)
    calc n = (l.take n).length := (h.length_eq hx hnot').symm
      _ = ((l.take n).filter fun y => cost y ≤ cost x).length := by rw [hall]
      _ ≤ (l.filter fun y => cost y ≤ cost x).length :=
        ((List.take_sublist n l).filter _).length_le
  · intro hcount
    constructor
    case nodup => exact hnodup.sublist (List.take_sublist n l)
    case sound => exact fun x hx => hsound x (List.mem_of_mem_take hx)
    case length => exact List.length_take_le n l
    case all =>
      intro hlt x hx
      -- A part with fewer than `n` elements has no room for `n` that cost no more.
      have hshort : l.length < n := by
        rw [List.length_take] at hlt
        omega
      rw [List.take_of_length_le (Nat.le_of_lt hshort)]
      by_contra hnot
      have hle := hcount x hx hnot
      have hfilter := List.length_filter_le (fun y => decide (cost y ≤ cost x)) l
      omega
    case cheapest =>
      intro x hx hnot y hy
      by_cases hmem : x ∈ l
      · have hdrop : x ∈ l.drop n := by
          rw [← List.take_append_drop n l, List.mem_append] at hmem
          exact hmem.resolve_left hnot
        rw [← List.take_append_drop n l, List.pairwise_append] at hsort
        exact hsort.2.2 y hy x hdrop
      · exact take_le_of_count hsort (hcount x hx hmem) y hy

/-- Sorting by a key puts the keys in order. -/
theorem pairwise_mergeSort_key {β κ : Type*} [LinearOrder κ] (key : β → κ) (l : List β) :
    (l.mergeSort fun x y => decide (key x ≤ key y)).Pairwise fun x y => key x ≤ key y := by
  have h := List.pairwise_mergeSort
    (fun x y z hxy hyz => decide_eq_true
      (le_trans (of_decide_eq_true hxy) (of_decide_eq_true hyz) : key x ≤ key z))
    (fun x y => by simpa using le_total (key x) (key y)) l
  exact h.imp fun hle => of_decide_eq_true hle

/-- Sorting by one key after another orders by both: elements with the same key stay in the order
    in which they were. -/
theorem pairwise_mergeSort_lex {β κ κ' : Type*} [LinearOrder κ] [LinearOrder κ'] (key : β → κ)
    (key' : β → κ') (l : List β) :
    ((l.mergeSort fun x y => decide (key' x ≤ key' y)).mergeSort
      fun x y => decide (key x ≤ key y)).Pairwise
        fun x y => key x < key y ∨ key x = key y ∧ key' x ≤ key' y := by
  let m := l.mergeSort fun x y => decide (key' x ≤ key' y)
  let r := m.mergeSort fun x y => decide (key x ≤ key y)
  -- The elements with one key are those before, in the same order.
  have hsame : ∀ k, m.filter (key · = k) = r.filter (key · = k) := by
    intro k
    have hsub : (m.filter (key · = k)).Sublist r := by
      refine List.sublist_mergeSort (fun a b c hab hbc => ?_) (fun a b => ?_) ?_
        (List.filter_sublist (p := (key · = k)))
      · simp only [decide_eq_true_eq] at *
        exact hab.trans hbc
      · simpa using le_total (key a) (key b)
      · apply List.pairwise_of_forall_mem_list
        intro x hx y hy
        simp only [List.mem_filter, decide_eq_true_eq] at *
        exact (hx.2.trans hy.2.symm).le
    have hfilter := hsub.filter (key · = k)
    rw [List.filter_filter] at hfilter
    simp only [Bool.and_self] at hfilter
    exact hfilter.eq_of_length ((List.mergeSort_perm m _).filter _).length_eq.symm
  rw [List.pairwise_iff_forall_sublist]
  intro x y hxy
  have hle := List.pairwise_iff_forall_sublist.mp (pairwise_mergeSort_key key m) hxy
  obtain hlt | heq := lt_or_eq_of_le hle
  · exact .inl hlt
  · refine .inr ⟨heq, ?_⟩
    have hpair := hxy.filter (key · = key x)
    rw [show [x, y].filter (key · = key x) = [x, y] by simp [heq]] at hpair
    rw [← hsame (key x)] at hpair
    exact List.pairwise_iff_forall_sublist.mp (pairwise_mergeSort_key key' l)
      (hpair.trans List.filter_sublist)

/-- However the part is ordered, its first elements are the cheapest of the whole if and only if
    they are when it is sorted, and it has no more than `n` elements or none cheaper than
    another. -/
theorem nearest_take_any_iff (cost : α → T) (hn : 1 ≤ n) (hnodup : l.Nodup)
    (hsound : ∀ x ∈ l, P x) :
    (∀ l' : List α, l'.Perm l → Nearest n P cost (l'.take n)) ↔
      (∀ x, P x → x ∉ l → n ≤ (l.filter fun y => cost y ≤ cost x).length) ∧
      (l.length ≤ n ∨ ∀ x ∈ l, ∀ y ∈ l, cost x = cost y) := by
  let sorted := l.mergeSort fun x y => decide (cost x ≤ cost y)
  have hperm : sorted.Perm l := List.mergeSort_perm l _
  have hsort : sorted.Pairwise fun x y => cost x ≤ cost y := pairwise_mergeSort_key cost l
  have hiff := nearest_take_iff (n := n) (hperm.nodup_iff.mpr hnodup)
    (fun x hx => hsound x (hperm.mem_iff.mp hx)) hsort
  -- Sorting does not change what is counted.
  have hcount : (∀ x, P x → x ∉ sorted →
      n ≤ (sorted.filter fun y => cost y ≤ cost x).length) ↔
      ∀ x, P x → x ∉ l → n ≤ (l.filter fun y => cost y ≤ cost x).length := by
    simp only [hperm.mem_iff, (hperm.filter _).length_eq]
  constructor
  · intro h
    refine ⟨hcount.mp (hiff.mp (h sorted hperm)), ?_⟩
    -- A longer part with two different costs has an order that is wrong.
    by_contra hnot
    obtain ⟨hlong, hne⟩ : n < l.length ∧ ∃ x ∈ l, ∃ y ∈ l, cost x < cost y := by
      have h' := not_or.mp hnot
      refine ⟨Nat.lt_of_not_le h'.1, ?_⟩
      by_contra hall
      apply h'.2
      intro x hx y hy
      apply le_antisymm
      · exact not_lt.mp fun hlt => hall ⟨y, hy, x, hx, hlt⟩
      · exact not_lt.mp fun hlt => hall ⟨x, hx, y, hy, hlt⟩
    obtain ⟨x, hx, y, hy, hlt⟩ := hne
    have hxy : x ≠ y := fun heq => lt_irrefl _ (heq ▸ hlt)
    -- The dearer element comes first and the cheaper one last.
    obtain ⟨l₁, l₂, rfl⟩ := List.append_of_mem hx
    have hy' : y ∈ l₁ ++ l₂ := by
      simp only [List.mem_append, List.mem_cons] at hy ⊢
      obtain hy | rfl | hy := hy
      · exact .inl hy
      · exact absurd rfl hxy
      · exact .inr hy
    obtain ⟨l₃, l₄, heq⟩ := List.append_of_mem hy'
    have hperm' : (y :: (l₃ ++ l₄) ++ [x]).Perm (l₁ ++ x :: l₂) := by
      have h₁ : (y :: (l₃ ++ l₄)).Perm (l₁ ++ l₂) := by
        rw [heq]
        exact List.perm_middle.symm
      calc (y :: (l₃ ++ l₄) ++ [x]).Perm (l₁ ++ l₂ ++ [x]) := h₁.append_right _
        _ |>.Perm (x :: (l₁ ++ l₂)) := List.perm_append_singleton x _
        _ |>.Perm (l₁ ++ x :: l₂) := List.perm_middle.symm
    have hnear := h _ hperm'
    have hlen := hperm'.length_eq
    have hshort : n ≤ (y :: (l₃ ++ l₄)).length := by
      rw [List.length_append, List.length_singleton] at hlen
      omega
    rw [List.take_append_of_le_length hshort] at hnear
    -- The dearer one is kept and the cheaper one is not.
    have hyin : y ∈ (y :: (l₃ ++ l₄)).take n := by
      obtain ⟨k, rfl⟩ : ∃ k, n = k + 1 := ⟨n - 1, by omega⟩
      rw [List.take_succ_cons]
      exact List.mem_cons_self
    have hxout : x ∉ (y :: (l₃ ++ l₄)).take n := by
      intro hmem
      have hnd := hperm'.nodup_iff.mpr hnodup
      have hdisj := (List.nodup_append.mp hnd).2.2
      exact hdisj x (List.mem_of_mem_take hmem) x (List.mem_singleton.mpr rfl) rfl
    have hle := hnear.cheapest x (hsound x hx) hxout y hyin
    exact absurd hlt (not_lt.mpr hle)
  · intro h l' hl'
    obtain ⟨hcnt, hshort | hequal⟩ := h
    · have hnear := hiff.mpr (hcount.mpr hcnt)
      rw [List.take_of_length_le (hperm.length_eq ▸ hshort)] at hnear
      rw [List.take_of_length_le (hl'.length_eq ▸ hshort)]
      exact hnear.perm (hperm.trans hl'.symm)
    · apply (nearest_take_iff (hl'.nodup_iff.mpr hnodup)
        (fun x hx => hsound x (hl'.mem_iff.mp hx)) ?_).mpr
      · simpa only [hl'.mem_iff, (hl'.filter _).length_eq] using hcnt
      · apply List.pairwise_of_forall_mem_list
        intro x hx y hy
        exact le_of_eq (hequal x (hl'.mem_iff.mp hx) y (hl'.mem_iff.mp hy))

/-- The first elements of a sorted list of all elements are the cheapest. -/
theorem nearest_take (hnodup : l.Nodup) (hall : ∀ x, x ∈ l ↔ P x)
    (hsort : l.Pairwise fun a b => cost a ≤ cost b) : Nearest n P cost (l.take n) := by
  apply (nearest_take_iff hnodup (fun x hx => (hall x).mp hx) hsort).mpr
  intro x hx hnot
  exact absurd ((hall x).mpr hx) hnot

end PgRouting
