import PgRouting.Spec.RouteParts
import PgRouting.Lib.SearchTree
import Mathlib.Data.Set.Defs
import Mathlib.Tactic.Linarith
import Mathlib.Tactic.Positivity

/-!
# The order of `compPathsLess`

`compPathsLess` takes total costs for equal whose difference is below epsilon, and goes on with
the lengths and the nodes. So a path can come before a cheaper one, and being nearly equal is
not transitive: a path can be less than a second one, that one less than a third one, and the
third one less than the first.

## Key results

- `compPathsLess_eq_true_iff`: what the comparison says
- `not_transitive_compPathsLess`: three paths in a circle
- `usableOn_iff`: the paths on which the sets of Yen work
-/

namespace PgRouting

namespace Path

variable {p q r : Path} {l : List Path} {t : BinaryTree Path}

/-! ## What the comparison says -/

/-- What is compared when the costs are taken for equal: the length and the nodes. -/
def shape (p : Path) : Nat ×ₗ List Int := toLex (p.path.length, p.nodes)

theorem shape_eq_iff : shape p = shape q ↔ p.nodes = q.nodes := by
  constructor
  · intro h
    exact congrArg (fun k => (ofLex k).2) h
  · intro h
    have hlen : p.path.length = q.path.length := by simpa [nodes] using congrArg List.length h
    rw [shape, shape, hlen, h]

/-- One path is less when it is cheaper by epsilon at least, or when the costs are nearly equal
    and its length and nodes come first. -/
theorem compPathsLess_eq_true_iff : compPathsLess p q = true ↔
    p.totCost + epsilon ≤ q.totCost ∨
      |q.totCost - p.totCost| < epsilon ∧ shape p < shape q := by
  have hpos : (0 : ℚ) < epsilon := by
    rw [epsilon]
    positivity
  by_cases hnear : |q.totCost - p.totCost| < epsilon
  · have hlt : ¬ p.totCost + epsilon ≤ q.totCost := by
      have hle := (abs_lt.mp hnear).2
      linarith
    rw [or_iff_right hlt, and_iff_right hnear, shape, shape, Prod.Lex.toLex_lt_toLex]
    obtain hlen | hlen | hlen := lt_trichotomy p.path.length q.path.length
    · simp [compPathsLess, hnear, hlen, hlen.not_gt]
    · simp [compPathsLess, hnear, hlen, nodesLess_iff _ _ hlen, nodes]
    · simp [compPathsLess, hnear, hlen, hlen.not_gt, hlen.ne']
  · rw [or_iff_left fun h => hnear h.1]
    obtain hneg | hpos' := abs_cases (q.totCost - p.totCost)
    · have hle : p.totCost + epsilon ≤ q.totCost := by linarith [not_lt.mp hnear]
      have hlt : p.totCost < q.totCost := by linarith
      simp [compPathsLess, hnear, hle, hlt, hlt.not_gt]
    · have hgt : q.totCost < p.totCost := by linarith
      have hle : ¬ p.totCost + epsilon ≤ q.totCost := by linarith
      simp [compPathsLess, hnear, hle, hgt]

/-- The total costs are nearly equal. -/
def Near (p q : Path) : Prop := |q.totCost - p.totCost| < epsilon

/-- Neither path is less than the other. -/
def Incomparable (p q : Path) : Prop := compPathsLess p q = false ∧ compPathsLess q p = false

theorem near_iff : Near p q ↔ ¬ p.totCost + epsilon ≤ q.totCost ∧
    ¬ q.totCost + epsilon ≤ p.totCost := by
  rw [Near, abs_lt]
  constructor
  · intro h
    constructor <;> linarith [h.1, h.2]
  · intro h
    obtain ⟨h₁, h₂⟩ := h
    constructor <;> linarith [not_le.mp h₁, not_le.mp h₂]

/-- Paths that cannot be told apart have nearly the same cost and the same nodes. -/
theorem incomparable_iff : Incomparable p q ↔ Near p q ∧ p.nodes = q.nodes := by
  rw [Incomparable, ← Bool.not_eq_true, ← Bool.not_eq_true, compPathsLess_eq_true_iff,
    compPathsLess_eq_true_iff, abs_sub_comm p.totCost, ← shape_eq_iff, near_iff]
  constructor
  · intro h
    obtain ⟨h₁, h₂⟩ := h
    rw [not_or] at h₁ h₂
    have hnear : Near p q := near_iff.mpr ⟨h₁.1, h₂.1⟩
    have hle : ¬ shape p < shape q := fun hlt => h₁.2 ⟨hnear, hlt⟩
    have hge : ¬ shape q < shape p := fun hlt => h₂.2 ⟨hnear, hlt⟩
    exact ⟨⟨h₁.1, h₂.1⟩, le_antisymm (not_lt.mp hge) (not_lt.mp hle)⟩
  · intro h
    obtain ⟨⟨h₁, h₂⟩, heq⟩ := h
    simp [h₁, h₂, heq]

/-- Three paths in a circle: the costs of the first two and those of the last two are nearly
    equal, while the third path is cheaper than the first one by epsilon. -/
theorem not_transitive_compPathsLess :
    ¬ ∀ p q r : Path, 0 ≤ p.totCost → 0 ≤ q.totCost → 0 ≤ r.totCost →
      compPathsLess p q = true → compPathsLess q r = true → compPathsLess p r = true := by
  intro h
  have hcircle := h
    ⟨[⟨1, 4, 1 / 2 ^ 52, 0⟩, ⟨4, -1, 0, 1 / 2 ^ 52⟩], 1, 4, 1 / 2 ^ 52⟩
    ⟨[⟨1, 5, 1 / 2 ^ 53, 0⟩, ⟨2, 6, 0, 1 / 2 ^ 53⟩, ⟨4, -1, 0, 1 / 2 ^ 53⟩], 1, 4, 1 / 2 ^ 53⟩
    ⟨[⟨1, 7, 0, 0⟩, ⟨3, 8, 0, 0⟩, ⟨2, 6, 0, 0⟩, ⟨4, -1, 0, 0⟩], 1, 4, 0⟩
  exact absurd (hcircle (by decide +kernel) (by decide +kernel) (le_refl _) (by decide +kernel)
    (by decide +kernel)) (by decide +kernel)

/-! ## Paths on which the comparison works -/

/-- On the paths the comparison is a strict weak order that tells paths with different nodes
    apart, and a set into which some of them are inserted keeps a path with the nodes of each and
    begins with a cheapest one of all that are inserted. -/
structure UsableOn (X : Set Path) : Prop where
  irrefl : ∀ p ∈ X, compPathsLess p p = false
  trans : ∀ p ∈ X, ∀ q ∈ X, ∀ r ∈ X,
    compPathsLess p q = true → compPathsLess q r = true → compPathsLess p r = true
  incomparable : ∀ p ∈ X, ∀ q ∈ X, ∀ r ∈ X, Incomparable p q → Incomparable q r → Incomparable p r
  sameNodes : ∀ p ∈ X, ∀ q ∈ X, Incomparable p q → p.nodes = q.nodes
  kept : ∀ l t, (∀ p ∈ l, p ∈ X) → Inserts compPathsLess l t →
    ∀ p ∈ l, ∃ q ∈ inorder t, q.nodes = p.nodes
  cheapest : ∀ l t, (∀ p ∈ l, p ∈ X) → Inserts compPathsLess l t →
    ∀ p, (inorder t).head? = some p → ∀ q ∈ l, p.totCost ≤ q.totCost

/-- Of two paths with nearly equal costs the cheaper one has the earlier length and nodes. -/
def Separated (X : Set Path) : Prop :=
  ∀ p ∈ X, ∀ q ∈ X, Near p q → p.totCost < q.totCost → shape p < shape q

variable {X : Set Path}

/-- No path is dropped but for one with the same nodes, whatever the paths are. -/
theorem inserts_kept (h : Inserts compPathsLess l t) :
    ∀ p ∈ l, ∃ q ∈ inorder t, q.nodes = p.nodes := by
  have hirrefl : ∀ p ∈ l, compPathsLess p p = false := fun p _ =>
    (incomparable_iff.mpr ⟨near_iff.mpr ⟨by simp [epsilon], by simp [epsilon]⟩, rfl⟩).1
  intro p hp
  obtain ⟨q, hq, hpq⟩ := h.exists_equivalent hirrefl p hp
  exact ⟨q, hq, (incomparable_iff.mp hpq).2.symm⟩

/-- A path that is less is not more expensive. -/
theorem Separated.totCost_le (hX : Separated X) (hp : p ∈ X) (hq : q ∈ X)
    (h : compPathsLess p q = true) : p.totCost ≤ q.totCost := by
  by_contra hgt
  have hgt := not_le.mp hgt
  obtain hle | ⟨hnear, hlt⟩ := compPathsLess_eq_true_iff.mp h
  · have hpos : (0 : ℚ) < epsilon := by simp [epsilon]
    linarith
  · have hnear' : Near q p := by rwa [Near, abs_sub_comm]
    exact absurd hlt (hX q hq p hp hnear' hgt).not_gt

/-- Paths with the same nodes and nearly equal costs have the same cost. -/
theorem Separated.totCost_eq (hX : Separated X) (hp : p ∈ X) (hq : q ∈ X)
    (h : Incomparable p q) : p.totCost = q.totCost := by
  obtain ⟨hnear, hnodes⟩ := incomparable_iff.mp h
  have hshape := shape_eq_iff.mpr hnodes
  obtain hlt | heq | hlt := lt_trichotomy p.totCost q.totCost
  · exact absurd hshape (hX p hp q hq hnear hlt).ne
  · exact heq
  · have hnear' : Near q p := by rwa [Near, abs_sub_comm]
    exact absurd hshape (hX q hq p hp hnear' hlt).ne'

theorem Separated.trans (hX : Separated X) (hp : p ∈ X) (hq : q ∈ X) (hr : r ∈ X)
    (hpq : compPathsLess p q = true) (hqr : compPathsLess q r = true) :
    compPathsLess p r = true := by
  have hle₁ := hX.totCost_le hp hq hpq
  have hle₂ := hX.totCost_le hq hr hqr
  rw [compPathsLess_eq_true_iff] at hpq hqr ⊢
  by_cases hfar : p.totCost + epsilon ≤ r.totCost
  · exact .inl hfar
  · obtain hpq | ⟨_, hpq⟩ := hpq
    · exact .inl (hpq.trans hle₂)
    · obtain hqr | ⟨_, hqr⟩ := hqr
      · have hpr : p.totCost + epsilon ≤ r.totCost := by linarith
        exact .inl hpr
      · refine .inr ⟨?_, hpq.trans hqr⟩
        rw [abs_lt]
        have hpos : (0 : ℚ) < epsilon := by simp [epsilon]
        constructor <;> linarith [not_le.mp hfar]

/-- A set of two paths that begins with the more expensive one. -/
theorem inserts_pair (hqp : compPathsLess q p = true) :
    Inserts compPathsLess [p, q] (.node p (.node q .nil .nil) .nil) := by
  have hone : Inserts compPathsLess ([] ++ [p]) (.node p .nil .nil) := .snoc .nil rfl
  have htwo : Inserts compPathsLess ([p] ++ [q]) (.node p (.node q .nil .nil) .nil) := by
    refine .snoc hone ?_
    simp [insertDown, hqp]
  exact htwo

/-- A set that drops the second path. -/
theorem inserts_same (h : Incomparable p q) : Inserts compPathsLess [q, p] (.node q .nil .nil) := by
  have hone : Inserts compPathsLess ([] ++ [q]) (.node q .nil .nil) := .snoc .nil rfl
  have htwo : Inserts compPathsLess ([q] ++ [p]) (.node q .nil .nil) := by
    refine .snoc hone ?_
    simp [insertDown, h.1, h.2]
  exact htwo

/-- **The order of paths.** The comparison works on paths exactly when of two paths with nearly
    equal costs the cheaper one has the earlier length and nodes. -/
theorem usableOn_iff (X : Set Path) : UsableOn X ↔ Separated X := by
  constructor
  · intro h p hp q hq hnear hlt
    by_contra hge
    obtain heq | hgt := (not_lt.mp hge).eq_or_lt
    · -- The cheaper path is dropped when it comes second.
      have hsame : Incomparable p q := incomparable_iff.mpr ⟨hnear, shape_eq_iff.mp heq.symm⟩
      have hmem : ∀ r ∈ [q, p], r ∈ X := by simp [hp, hq]
      have hle := h.cheapest _ _ hmem (inserts_same hsame) q rfl p (by simp)
      exact absurd hlt (not_lt.mpr hle)
    · have hqp : compPathsLess q p = true := by
        rw [compPathsLess_eq_true_iff, abs_sub_comm]
        exact .inr ⟨hnear, hgt⟩
      have hmem : ∀ r ∈ [p, q], r ∈ X := by simp [hp, hq]
      have hle := h.cheapest _ _ hmem (inserts_pair hqp) q rfl p (by simp)
      exact absurd hlt (not_lt.mpr hle)
  · intro h
    have hirrefl : ∀ p : Path, compPathsLess p p = false := by
      intro p
      have hnear : Near p p := by simp [Near, epsilon]
      exact (incomparable_iff.mpr ⟨hnear, rfl⟩).1
    constructor
    case irrefl => exact fun p _ => hirrefl p
    case trans => exact fun p hp q hq r hr => h.trans hp hq hr
    case incomparable =>
      intro p hp q hq r hr hpq hqr
      have hcost := (h.totCost_eq hp hq hpq).trans (h.totCost_eq hq hr hqr)
      have hnear : Near p r := by simp [Near, epsilon, hcost]
      exact incomparable_iff.mpr ⟨hnear,
        (incomparable_iff.mp hpq).2.trans (incomparable_iff.mp hqr).2⟩
    case sameNodes => exact fun p _ q _ hpq => (incomparable_iff.mp hpq).2
    case kept => exact fun l t _ ht => inserts_kept ht
    case cheapest =>
      intro l t hl ht p hhead q hq
      -- A path that is not there has one of the same cost in its place.
      obtain ⟨z, hz, hqz⟩ := ht.exists_equivalent (fun p _ => hirrefl p) q hq
      rw [h.totCost_eq (hl q hq) (hl z (ht.mem z hz)) hqz]
      have hsorted := ht.sorted fun a ha b hb c hc => h.trans (hl a ha) (hl b hb) (hl c hc)
      obtain ⟨rest, hrest⟩ := List.head?_eq_some_iff.mp hhead
      rw [hrest] at hsorted hz
      obtain rfl | hz := List.mem_cons.mp hz
      · exact le_refl _
      · have hmem : ∀ r ∈ p :: rest, r ∈ X := fun r hr => hl r (ht.mem r (hrest ▸ hr))
        exact h.totCost_le (hmem p List.mem_cons_self) (hmem z (List.mem_cons_of_mem p hz))
          ((List.pairwise_cons.mp hsorted).1 z hz)

end Path

end PgRouting
