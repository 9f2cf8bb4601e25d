import Mathlib.Data.List.Nodup
import Mathlib.Data.List.Perm.Subperm

/-!
# Trees given by parents

A map `P` gives every node its parent, and the root is its own parent. `Level P W r v k` says
that `v` lies `k` steps below the root `r` and that the way up to it stays within `W`.
`ClimbsTo P K u x` says that `x` is the first node in `K` on the way from `u` upwards.

A map is compacted when some nodes get as their parent the first node in `K` above them.

## Key results

- `Level.lt_length`: a level is less than the number of the nodes
- `Level.climbs`: from every node of the tree the way up meets `K`
- `Compacted.climbs_parent`: the way up from the new parent ends where the old one does
- `Compacted.level`: and keeps the nodes in the tree
-/

namespace PgRouting

variable {α : Type*}

/-- `v` is `k` steps below the root `r`, over nodes in `W`. -/
inductive Level (P : α → α) (W : α → Prop) (r : α) : α → Nat → Prop
  | root : Level P W r r 0
  | child {v : α} {k : Nat} (hne : P v ≠ v) (hv : W v) (up : Level P W r (P v) k) :
      Level P W r v (k + 1)

/-- `x` is the first node in `K` on the way from `u` upwards. -/
inductive ClimbsTo (P : α → α) (K : α → Prop) : α → α → Prop
  | here {u : α} (hu : K u) : ClimbsTo P K u u
  | up {u x : α} (hu : ¬ K u) (rest : ClimbsTo P K (P u) x) : ClimbsTo P K u x

variable {P P' : α → α} {W K : α → Prop} {r u v x y : α} {j k : Nat}

namespace Level

/-- Only the root can be outside of `W`. -/
theorem within (h : Level P W r v k) (hr : W r) : W v := by
  cases h with
  | root => exact hr
  | child _ hv _ => exact hv

/-- A node has only one level. -/
theorem unique (hr : P r = r) (h : Level P W r v j) (h' : Level P W r v k) : j = k := by
  induction h generalizing k with
  | root =>
    cases h' with
    | root => rfl
    | child hne _ _ => exact absurd hr hne
  | child hne _ _ ih =>
    cases h' with
    | root => exact absurd hr hne
    | child _ _ up' => rw [ih up']

/-- The root is the only node with the level 0. -/
theorem eq_root_iff (hr : P r = r) (h : Level P W r v k) : v = r ↔ k = 0 := by
  constructor
  · intro hv
    subst hv
    exact h.unique hr .root
  · intro hk
    subst hk
    cases h with
    | root => rfl

/-- There is a node on every level above. -/
theorem exists_at (h : Level P W r v k) (hj : j ≤ k) : ∃ u, Level P W r u j := by
  induction h with
  | root => exact ⟨r, Nat.le_zero.mp hj ▸ .root⟩
  | @child v k hne hv up ih =>
    by_cases heq : j = k + 1
    · exact ⟨v, heq ▸ .child hne hv up⟩
    · exact ih (by omega)

/-- The nodes on the way from the root to `v`. -/
theorem exists_way (hr : P r = r) (h : Level P W r v k) :
    ∃ l : List α, l.length = k + 1 ∧ l.Nodup ∧ ∀ u ∈ l, ∃ j ≤ k, Level P W r u j := by
  induction h with
  | root => exact ⟨[r], rfl, List.nodup_singleton r, fun u hu =>
      ⟨0, Nat.le_refl 0, List.mem_singleton.mp hu ▸ .root⟩⟩
  | @child v k hne hv up ih =>
    obtain ⟨l, hlen, hnodup, hlevel⟩ := ih
    have hnew : v ∉ l := by
      intro hmem
      obtain ⟨j, hj, hv'⟩ := hlevel v hmem
      have heq : j = k + 1 := hv'.unique hr (.child hne hv up)
      omega
    have hall : ∀ u ∈ v :: l, ∃ j ≤ k + 1, Level P W r u j := by
      intro u hu
      obtain rfl | hu := List.mem_cons.mp hu
      · exact ⟨k + 1, Nat.le_refl _, .child hne hv up⟩
      · obtain ⟨j, hj, hu⟩ := hlevel u hu
        exact ⟨j, by omega, hu⟩
    exact ⟨v :: l, by simp [hlen], List.nodup_cons.mpr ⟨hnew, hnodup⟩, hall⟩

/-- A level is less than the number of the nodes. -/
theorem lt_length (hr : P r = r) {nodes : List α} (hnodes : ∀ v, v = r ∨ W v → v ∈ nodes)
    (h : Level P W r v k) : k < nodes.length := by
  obtain ⟨l, hlen, hnodup, hlevel⟩ := h.exists_way hr
  have hsub : l ⊆ nodes := by
    intro u hu
    obtain ⟨j, _, hu⟩ := hlevel u hu
    apply hnodes u
    cases hu with
    | root => exact .inl rfl
    | child _ hw _ => exact .inr hw
  have hle := (hnodup.subperm hsub).length_le
  omega

/-- From every node of the tree the way up meets `K`, at no lower level. -/
theorem climbs (hroot : K r) (h : Level P W r v k) :
    ∃ x, ClimbsTo P K v x ∧ ∃ j ≤ k, Level P W r x j := by
  induction h with
  | root => exact ⟨r, .here hroot, 0, Nat.le_refl 0, .root⟩
  | @child v k hne hv up ih =>
    by_cases hkept : K v
    · exact ⟨v, .here hkept, k + 1, Nat.le_refl _, .child hne hv up⟩
    · obtain ⟨x, hx, j, hj, hlevel⟩ := ih
      exact ⟨x, .up hkept hx, j, by omega, hlevel⟩

end Level

namespace ClimbsTo

theorem kept (h : ClimbsTo P K u x) : K x := by
  induction h with
  | here hu => exact hu
  | up _ _ ih => exact ih

theorem unique (h : ClimbsTo P K u x) (h' : ClimbsTo P K u y) : x = y := by
  induction h with
  | here hu =>
    cases h' with
    | here => rfl
    | up hu' _ => exact absurd hu hu'
  | up hu _ ih =>
    cases h' with
    | here hu' => exact absurd hu' hu
    | up _ rest' => exact ih rest'

/-- The way up ends where it starts exactly in `K`. -/
theorem eq_iff (h : ClimbsTo P K u x) : x = u ↔ K u := by
  constructor
  · intro hx
    exact hx ▸ h.kept
  · intro hu
    exact h.unique (.here hu)

end ClimbsTo

/-- Every parent is the one it was or the first node in `K` from there upwards. -/
def Compacted (P : α → α) (K : α → Prop) (P' : α → α) : Prop :=
  ∀ v, P' v = P v ∨ ClimbsTo P K (P v) (P' v)

namespace Compacted

theorem refl (P : α → α) (K : α → Prop) : Compacted P K P := fun _ => .inl rfl

/-- The way up from the new parent ends where the way up from the old one does. -/
theorem climbs_parent (h : Compacted P K P') (hx : ClimbsTo P K (P' u) x) :
    ClimbsTo P K (P u) x := by
  obtain heq | hclimb := h u
  · exact heq ▸ hx
  · have hsame : x = P' u := hx.eq_iff.mpr hclimb.kept
    exact hsame.symm ▸ hclimb

/-- The root stays the root. -/
theorem root (h : Compacted P K P') (hr : P r = r) (hroot : K r) : P' r = r := by
  obtain heq | hclimb := h r
  · exact heq.trans hr
  · rw [hr] at hclimb
    exact hclimb.eq_iff.mpr hroot

/-- One more parent is replaced. -/
theorem update [DecidableEq α] (h : Compacted P K P') (hv : ClimbsTo P K (P v) x) :
    Compacted P K (Function.update P' v x) := by
  intro u
  by_cases hu : u = v
  · subst hu
    rw [Function.update_self]
    exact .inr hv
  · rw [Function.update_of_ne hu]
    exact h u

/-- The parent in a compacted map is at a lower level. -/
theorem lower (h : Compacted P K P') (hroot : K r) (hv : Level P W r v (k + 1)) :
    ∃ j ≤ k, Level P W r (P' v) j := by
  cases hv with
  | child hne hw up =>
    obtain heq | hclimb := h v
    · exact ⟨k, Nat.le_refl k, heq.symm ▸ up⟩
    · obtain ⟨x, hx, j, hj, hlevel⟩ := up.climbs hroot
      exact ⟨j, hj, hclimb.unique hx ▸ hlevel⟩

/-- So no other node than the root becomes its own parent. -/
theorem ne_self (h : Compacted P K P') (hr : P r = r) (hroot : K r)
    (hv : Level P W r v (k + 1)) : P' v ≠ v := by
  intro heq
  obtain ⟨j, hj, hlevel⟩ := h.lower hroot hv
  rw [heq] at hlevel
  have hsame : j = k + 1 := hlevel.unique hr hv
  omega

/-- A compacted map keeps the nodes in the tree. -/
theorem level (h : Compacted P K P') (hr : P r = r) (hroot : K r) (hv : Level P W r v k) :
    ∃ j ≤ k, Level P' W r v j := by
  induction k using Nat.strongRecOn generalizing v with
  | ind k ih =>
    cases hv with
    | root => exact ⟨0, Nat.le_refl 0, .root⟩
    | @child _ k hne hw up =>
      have hlevel : Level P W r v (k + 1) := .child hne hw up
      obtain ⟨i, hi, hup⟩ := h.lower hroot hlevel
      obtain ⟨j, hj, hup'⟩ := ih i (by omega) hup
      exact ⟨j + 1, by omega, .child (h.ne_self hr hroot hlevel) hw hup'⟩

end Compacted

end PgRouting
