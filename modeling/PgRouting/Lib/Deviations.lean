import Mathlib.Order.Defs.PartialOrder
import Mathlib.Data.List.Infix

/-!
# The best sequences by their deviations

To list sequences in the order of their costs, one keeps the sequences that have been found and
some candidates for the next one. A sequence deviates from those found after a common prefix, by
an item that none of them has there. When for every prefix of a sequence found a candidate is as
cheap as all sequences that deviate after it, a cheapest candidate is a cheapest sequence that
has not been found; and once it has been, only its own prefixes need new candidates.

The sequences are the `items` of the elements of some type, and `X` says which of them are to be
listed. None of these is a proper prefix of another.

## Key results

- `exists_deviates`: a sequence that has not been found deviates after some prefix
- `Covers.exists_le`: some candidate is as cheap
- `Covers.found`: what is left to be covered when a candidate moves to those found
-/

namespace PgRouting

variable {α β T : Type*} (items : β → List α)

/-- The element deviates after `π` from all those in `R`. -/
def Deviates (R : List β) (π : List α) (q : β) : Prop :=
  ∃ a, π ++ [a] <+: items q ∧ ∀ p ∈ R, ¬ π ++ [a] <+: items p

/-- For every prefix in `D` of an element of `R`, some candidate is as cheap as what deviates
    after it. -/
def Covers [LE T] (cost : β → T) (X : β → Prop) (D : List α → Prop) (R H : List β) : Prop :=
  ∀ π, D π → (∃ p ∈ R, π <+: items p) → ∀ q, X q → Deviates items R π q →
    ∃ h ∈ H, Deviates items R π h ∧ cost h ≤ cost q

variable {items} {R H H' : List β} {π : List α} {p q : β}

/-- What deviates from the elements of `R` is none of them. -/
theorem Deviates.not_mem (h : Deviates items R π q) : ∀ p ∈ R, items p ≠ items q := by
  intro p hp heq
  obtain ⟨a, hpre, hnot⟩ := h
  exact hnot p hp (heq ▸ hpre)

/-- What has another prefix does not change the deviations. -/
theorem deviates_cons_iff (hp : ¬ π <+: items p) :
    Deviates items (p :: R) π q ↔ Deviates items R π q := by
  constructor
  · intro h
    obtain ⟨a, hpre, hnot⟩ := h
    exact ⟨a, hpre, fun r hr => hnot r (List.mem_cons_of_mem p hr)⟩
  · intro h
    obtain ⟨a, hpre, hnot⟩ := h
    refine ⟨a, hpre, fun r hr => ?_⟩
    obtain rfl | hr := List.mem_cons.mp hr
    · exact fun h => hp ((List.prefix_append π [a]).trans h)
    · exact hnot r hr

/-- Deviations depend only on which elements there are. -/
theorem Deviates.congr {R' : List β} (hR : ∀ p, p ∈ R ↔ p ∈ R') (h : Deviates items R π q) :
    Deviates items R' π q := by
  obtain ⟨a, hpre, hnot⟩ := h
  exact ⟨a, hpre, fun p hp => hnot p ((hR p).mpr hp)⟩

/-- A sequence that has not been found deviates after some prefix that it has in common with one
    of those found. -/
theorem exists_deviates (hstart : ∃ p ∈ R, π <+: items p) (hq : π <+: items q)
    (hnew : ∀ p ∈ R, ¬ items q <+: items p) :
    ∃ π', π <+: π' ∧ (∃ p ∈ R, π' <+: items p) ∧ Deviates items R π' q := by
  obtain ⟨rest, hrest⟩ := hq
  induction rest generalizing π with
  | nil =>
    obtain ⟨p, hp, hpre⟩ := hstart
    rw [List.append_nil] at hrest
    exact absurd (hrest ▸ hpre) (hnew p hp)
  | cons a rest ih =>
    have hnext : π ++ [a] ++ rest = items q := by simpa using hrest
    by_cases hcommon : ∃ p ∈ R, π ++ [a] <+: items p
    · obtain ⟨π', hpre, hR, hdev⟩ := ih hcommon hnext
      exact ⟨π', (List.prefix_append π [a]).trans hpre, hR, hdev⟩
    · have hnone : ∀ p ∈ R, ¬ π ++ [a] <+: items p := fun p hp h => hcommon ⟨p, hp, h⟩
      exact ⟨π, List.prefix_refl π, hstart, a, ⟨rest, hnext⟩, hnone⟩

section Cost

variable [Preorder T] {cost : β → T} {X : β → Prop} {D : List α → Prop}

/-- More candidates cover as much. -/
theorem Covers.mono (h : Covers items cost X D R H) (hH : ∀ x ∈ H, x ∈ H') :
    Covers items cost X D R H' := by
  intro π hD hR q hq hdev
  obtain ⟨x, hx, hxdev, hle⟩ := h π hD hR q hq hdev
  exact ⟨x, hH x hx, hxdev, hle⟩

/-- Fewer prefixes are covered as well. -/
theorem Covers.anti {D' : List α → Prop} (h : Covers items cost X D R H) (hD : ∀ π, D' π → D π) :
    Covers items cost X D' R H :=
  fun π hπ hR q hq hdev => h π (hD π hπ) hR q hq hdev

/-- What is covered depends only on which elements have been found. -/
theorem Covers.congr {R' : List β} (h : Covers items cost X D R H) (hR : ∀ p, p ∈ R ↔ p ∈ R') :
    Covers items cost X D R' H := by
  intro π hD hcommon q hq hdev
  have hcommon' : ∃ p ∈ R, π <+: items p := by
    obtain ⟨p, hp, hpre⟩ := hcommon
    exact ⟨p, (hR p).mpr hp, hpre⟩
  obtain ⟨x, hx, hxdev, hle⟩ := h π hD hcommon' q hq (hdev.congr fun p => (hR p).symm)
  exact ⟨x, hx, hxdev.congr hR, hle⟩

/-- The prefixes can be covered one after the other. -/
theorem Covers.union {D' : List α → Prop} (h : Covers items cost X D R H)
    (h' : Covers items cost X D' R H) : Covers items cost X (fun π => D π ∨ D' π) R H := by
  intro π hD hR q hq hdev
  obtain hD | hD := hD
  · exact h π hD hR q hq hdev
  · exact h' π hD hR q hq hdev

/-- Some candidate is as cheap as a sequence that has not been found. -/
theorem Covers.exists_le {s : α} (h : Covers items cost X (· ≠ []) R H) (hR : R ≠ [])
    (hs : ∀ p ∈ R, [s] <+: items p) (hq : X q) (hqs : [s] <+: items q)
    (hnew : ∀ p ∈ R, ¬ items q <+: items p) : ∃ x ∈ H, cost x ≤ cost q := by
  obtain ⟨p, hp⟩ := List.exists_mem_of_ne_nil R hR
  obtain ⟨π, hpre, hcommon, hdev⟩ := exists_deviates ⟨p, hp, hs p hp⟩ hqs hnew
  have hne : π ≠ [] := by
    intro hnil
    rw [hnil] at hpre
    exact List.cons_ne_nil s [] (List.prefix_nil.mp hpre)
  obtain ⟨x, hx, _, hle⟩ := h π hne hcommon q hq hdev
  exact ⟨x, hx, hle⟩

/-- When a candidate moves to those found, only its own prefixes need other candidates. -/
theorem Covers.found (h : Covers items cost X (· ≠ []) R H)
    (hH : ∀ x ∈ H, items x ≠ items p → x ∈ H') :
    Covers items cost X (fun π => π ≠ [] ∧ ¬ π <+: items p) (p :: R) H' := by
  intro π hD hcommon q hq hdev
  obtain ⟨hne, hother⟩ := hD
  rw [deviates_cons_iff hother] at hdev
  have hcommon' : ∃ r ∈ R, π <+: items r := by
    obtain ⟨r, hr, hpre⟩ := hcommon
    obtain rfl | hr := List.mem_cons.mp hr
    · exact absurd hpre hother
    · exact ⟨r, hr, hpre⟩
  obtain ⟨x, hx, hxdev, hle⟩ := h π hne hcommon' q hq hdev
  have hxp : items x ≠ items p := by
    intro heq
    obtain ⟨a, hpre, _⟩ := hxdev
    exact hother (heq ▸ (List.prefix_append π [a]).trans hpre)
  exact ⟨x, hH x hx hxp, (deviates_cons_iff hother).mpr hxdev, hle⟩

end Cost

end PgRouting
