import Mathlib.Logic.Relation
import Mathlib.Data.Set.Card
import Mathlib.Data.List.Dedup

/-!
# Connected components

The components of the vertices `S` under the edges of a relation, which are the
classes of the equivalence that the relation generates. An edge is a bridge when
there are more components without it, which is so when its ends are in two of them.
A vertex is an articulation point when it is on every path between some two others.

## Key results

- `components_lt_iff`: which edges are bridges
- `isArticulation_of_bridge`, `not_isArticulation`: when the end of a bridge is an
  articulation point
- `eqvGen_iff_leader`, `mem_articulations`: the components and the articulation points of a list
  of pairs are computed
-/

namespace PgRouting

open Relation

variable {α β : Type*} {S : Set α} {r r' : α → α → Prop} {a b v : α}

/-- A map that takes edges to connected vertices takes connected vertices to such. -/
theorem eqvGen_lift {s : β → β → Prop} (f : α → β) (h : ∀ x y, r x y → EqvGen s (f x) (f y))
    (hab : EqvGen r a b) : EqvGen s (f a) (f b) := by
  induction hab with
  | rel x y hxy => exact h x y hxy
  | refl x => exact .refl _
  | symm x y _ ih => exact ih.symm
  | trans x y z _ _ hxy hyz => exact hxy.trans _ _ _ hyz

/-- The number of components of the vertices `S`. -/
noncomputable def components (S : Set α) (r : α → α → Prop) : Nat := (Quot.mk r '' S).ncard

/-- With more edges there are not more components, and as many when the edges join no two of
    them. -/
theorem components_le (hS : S.Finite) (h : ∀ x y, r x y → EqvGen r' x y) :
    components S r' ≤ components S r ∧
      (components S r' = components S r ↔
        ∀ x ∈ S, ∀ y ∈ S, EqvGen r' x y → EqvGen r x y) := by
  set f : Quot r → Quot r' := Quot.lift (Quot.mk r') fun x y hxy => Quot.eqvGen_sound (h x y hxy)
    with hf
  have himage : Quot.mk r' '' S = f '' (Quot.mk r '' S) := by
    rw [Set.image_image]
  have hfin : (Quot.mk r '' S).Finite := hS.image _
  rw [components, components, himage]
  refine ⟨Set.ncard_image_le hfin, (Set.ncard_image_iff hfin).trans ?_⟩
  constructor
  · intro hinj x hx y hy hxy
    have heq : f (Quot.mk r x) = f (Quot.mk r y) := Quot.eqvGen_sound hxy
    exact Quot.eqvGen_exact
      (hinj (Set.mem_image_of_mem _ hx) (Set.mem_image_of_mem _ hy) heq)
  · rintro hall _ ⟨x, hx, rfl⟩ _ ⟨y, hy, rfl⟩ heq
    exact Quot.eqvGen_sound (hall x hx y hy (Quot.eqvGen_exact heq))

/-- Without the edges between `a` and `b` there are more components exactly when nothing else
    connects the two. -/
theorem components_lt_iff (hS : S.Finite) (ha : a ∈ S) (hb : b ∈ S)
    (hr : ∀ x y, r x y → r' x y) (h : ∀ x y, r' x y → r x y ∨ x = a ∧ y = b ∨ x = b ∧ y = a)
    (hab : EqvGen r' a b) : components S r' < components S r ↔ ¬ EqvGen r a b := by
  obtain ⟨hcard, hiff⟩ := components_le hS fun x y hxy => .rel _ _ (hr x y hxy)
  rw [hcard.lt_iff_ne, ne_eq, not_iff_not, hiff]
  constructor
  · intro hall
    exact hall a ha b hb hab
  · intro hconn x _ y _ hxy
    refine eqvGen_lift id (fun x y hxy => ?_) hxy
    obtain hxy | ⟨rfl, rfl⟩ | ⟨rfl, rfl⟩ := h x y hxy
    · exact .rel _ _ hxy
    · exact hconn
    · exact hconn.symm

/-! ## Articulation points -/

/-- The vertex is on every path between some two other vertices that are connected. -/
def IsArticulation (r : α → α → Prop) (v : α) : Prop :=
  ∃ x y, x ≠ v ∧ y ≠ v ∧ EqvGen r x y ∧ ¬ EqvGen (fun x y => x ≠ v ∧ y ≠ v ∧ r x y) x y

/-- An end of a bridge that has another neighbour is on every path from it over the bridge. -/
theorem isArticulation_of_bridge (hr : ∀ x y, r x y → r' x y)
    (h : ∀ x y, r' x y → r x y ∨ x = a ∧ y = b ∨ x = b ∧ y = a) (hab : EqvGen r' a b)
    (hbridge : ¬ EqvGen r a b) (hv : v ≠ a) (hadj : r a v ∨ r v a) : IsArticulation r' a := by
  have hva : EqvGen r v a := by
    obtain hadj | hadj := hadj
    · exact .symm _ _ (.rel _ _ hadj)
    · exact .rel _ _ hadj
  have hba : b ≠ a := by
    rintro rfl
    exact hbridge (.refl _)
  refine ⟨v, b, hv, hba, .trans _ _ _ (EqvGen.mono hr _ _ hva) hab, fun hvb => hbridge ?_⟩
  refine .trans _ _ _ hva.symm (EqvGen.mono ?_ _ _ hvb)
  rintro x y ⟨hx, hy, hxy⟩
  obtain hxy | ⟨hxa, _⟩ | ⟨_, hya⟩ := h x y hxy
  · exact hxy
  · exact absurd hxa hx
  · exact absurd hya hy

/-- A vertex with at most one neighbour is on no path between others. -/
theorem not_isArticulation (h : ∀ x y, r x y → (x = a → y = a ∨ y = b) ∧ (y = a → x = a ∨ x = b)) :
    ¬ IsArticulation r a := by
  classical
  rintro ⟨x, y, hx, hy, hxy, hnot⟩
  apply hnot
  -- A path that comes through the vertex can stay at its neighbour.
  have hlift := eqvGen_lift (s := fun x y => x ≠ a ∧ y ≠ a ∧ r x y)
    (fun z => if z = a then b else z) (fun p q hpq => ?_) hxy
  · rwa [if_neg hx, if_neg hy] at hlift
  · obtain ⟨hp, hq⟩ := h p q hpq
    by_cases hpa : p = a
    · rw [if_pos hpa]
      obtain hqa | hqb := hp hpa
      · rw [if_pos hqa]
        exact .refl _
      · split
        · exact .refl _
        · rw [hqb]
          exact .refl _
    · rw [if_neg hpa]
      by_cases hqa : q = a
      · rw [if_pos hqa, (hq hqa).resolve_left hpa]
        exact .refl _
      · rw [if_neg hqa]
        exact .rel _ _ ⟨hpa, hqa, hpq⟩

/-! ## Pairs -/

section Pairs

variable [DecidableEq α] {l : List (α × α)} {x y : α}

/-- The vertex that stands for all those that the pairs connect with the given one. -/
def leader : List (α × α) → α → α
  | [], x => x
  | p :: l, x => if leader l x = leader l p.1 then leader l p.2 else leader l x

theorem eqvGen_leader (h : ∀ p ∈ l, EqvGen r p.1 p.2) (x : α) : EqvGen r x (leader l x) := by
  induction l generalizing x with
  | nil => exact .refl _
  | cons p l ih =>
    have ih' := ih fun q hq => h q (List.mem_cons_of_mem _ hq)
    rw [leader]
    split_ifs with hx
    · -- from x to the first of the pair, to the second, and on to its leader
      have hp := h p List.mem_cons_self
      have hxp := ih' x
      rw [hx] at hxp
      exact (hxp.trans _ _ _ (ih' _).symm).trans _ _ _ (hp.trans _ _ _ (ih' _))
    · exact ih' x

theorem leader_eq_of_mem {p : α × α} (hp : p ∈ l) : leader l p.1 = leader l p.2 := by
  induction l with
  | nil => exact absurd hp List.not_mem_nil
  | cons q l ih =>
    obtain rfl | hp := List.mem_cons.mp hp
    · rw [leader, leader, if_pos rfl, ite_self]
    · rw [leader, leader, ih hp]

/-- The pairs connect two vertices when the same vertex stands for both. -/
theorem eqvGen_iff_leader (h : ∀ x y, r x y → (x, y) ∈ l ∨ (y, x) ∈ l)
    (h' : ∀ p ∈ l, EqvGen r p.1 p.2) : EqvGen r x y ↔ leader l x = leader l y := by
  constructor
  · intro hxy
    induction hxy with
    | rel x y hxy =>
      obtain hmem | hmem := h x y hxy
      · exact leader_eq_of_mem hmem
      · exact (leader_eq_of_mem hmem).symm
    | refl x => rfl
    | symm x y _ ih => exact ih.symm
    | trans x y z _ _ ih₁ ih₂ => exact ih₁.trans ih₂
  · intro heq
    have hx := eqvGen_leader h' x
    rw [heq] at hx
    exact hx.trans _ _ _ (eqvGen_leader h' y).symm

/-- The vertices that are in a pair. -/
def pairVertices (l : List (α × α)) : List α := (l.flatMap fun p => [p.1, p.2]).dedup

omit [DecidableEq α] in
/-- A vertex that is connected with another one has a neighbour. -/
theorem eq_or_related (h : EqvGen r x y) :
    x = y ∨ (∃ z, r x z ∨ r z x) ∧ ∃ z, r y z ∨ r z y := by
  induction h with
  | rel x y hxy => exact .inr ⟨⟨y, .inl hxy⟩, x, .inr hxy⟩
  | refl x => exact .inl rfl
  | symm x y _ ih => exact ih.imp Eq.symm And.symm
  | trans x y z _ _ ih₁ ih₂ =>
    obtain rfl | ⟨hx, hy⟩ := ih₁
    · exact ih₂
    · obtain rfl | ⟨_, hz⟩ := ih₂
      · exact .inr ⟨hx, hy⟩
      · exact .inr ⟨hx, hz⟩

/-- Without the vertex, two that the pairs connect are in different components. -/
def CutsApart (l : List (α × α)) (v : α) : Prop :=
  ∃ x ∈ pairVertices l, ∃ y ∈ pairVertices l, x ≠ v ∧ y ≠ v ∧ leader l x = leader l y ∧
    leader (l.filter fun p => p.1 ≠ v ∧ p.2 ≠ v) x ≠
      leader (l.filter fun p => p.1 ≠ v ∧ p.2 ≠ v) y

instance : Decidable (CutsApart l v) :=
  inferInstanceAs (Decidable (∃ x ∈ pairVertices l, ∃ y ∈ pairVertices l, _))

/-- The articulation points, each once. -/
def articulations (l : List (α × α)) : List α := (pairVertices l).filter fun v => CutsApart l v

theorem nodup_articulations (l : List (α × α)) : (articulations l).Nodup :=
  (List.nodup_dedup _).filter _

theorem mem_pairVertices : x ∈ pairVertices l ↔ ∃ y, (x, y) ∈ l ∨ (y, x) ∈ l := by
  simp only [pairVertices, List.mem_dedup, List.mem_flatMap, List.mem_cons, List.not_mem_nil,
    or_false, Prod.exists]
  constructor
  · rintro ⟨a, b, hmem, rfl | rfl⟩
    · exact ⟨b, .inl hmem⟩
    · exact ⟨a, .inr hmem⟩
  · rintro ⟨y, hmem | hmem⟩
    · exact ⟨x, y, hmem, .inl rfl⟩
    · exact ⟨y, x, hmem, .inr rfl⟩

/-- A vertex cuts others apart in the list when it is on every path between them. -/
theorem cutsApart_iff (hr : ∀ x y, r x y ↔ (x, y) ∈ l ∨ (y, x) ∈ l) :
    CutsApart l v ↔ IsArticulation r v := by
  have hall : ∀ x y, EqvGen r x y ↔ leader l x = leader l y := fun x y =>
    eqvGen_iff_leader (fun x y hxy => (hr x y).mp hxy) fun p hp => .rel _ _ ((hr _ _).mpr (.inl hp))
  have hwithout : ∀ x y, EqvGen (fun x y => x ≠ v ∧ y ≠ v ∧ r x y) x y ↔
      leader (l.filter fun p => p.1 ≠ v ∧ p.2 ≠ v) x =
        leader (l.filter fun p => p.1 ≠ v ∧ p.2 ≠ v) y := by
    intro x y
    refine eqvGen_iff_leader ?_ ?_
    · rintro x y ⟨hx, hy, hxy⟩
      obtain hmem | hmem := (hr x y).mp hxy
      · exact .inl (List.mem_filter.mpr ⟨hmem, decide_eq_true ⟨hx, hy⟩⟩)
      · exact .inr (List.mem_filter.mpr ⟨hmem, decide_eq_true ⟨hy, hx⟩⟩)
    · intro p hp
      obtain ⟨hmem, hne⟩ := List.mem_filter.mp hp
      obtain ⟨hx, hy⟩ := of_decide_eq_true hne
      exact .rel _ _ ⟨hx, hy, (hr _ _).mpr (.inl hmem)⟩
  constructor
  · rintro ⟨x, _, y, _, hx, hy, heq, hne⟩
    exact ⟨x, y, hx, hy, (hall x y).mpr heq, fun h => hne ((hwithout x y).mp h)⟩
  · rintro ⟨x, y, hx, hy, hxy, hnot⟩
    -- Two connected vertices that are not the same have edges, so that they are in the list.
    obtain rfl | ⟨⟨a, ha⟩, b, hb⟩ := eq_or_related hxy
    · exact absurd (.refl _) hnot
    · have hxmem : x ∈ pairVertices l := by
        rw [mem_pairVertices]
        rw [hr, hr] at ha
        exact ⟨a, by tauto⟩
      have hymem : y ∈ pairVertices l := by
        rw [mem_pairVertices]
        rw [hr, hr] at hb
        exact ⟨b, by tauto⟩
      exact ⟨x, hxmem, y, hymem, hx, hy, (hall x y).mp hxy, fun h => hnot ((hwithout x y).mpr h)⟩

theorem mem_articulations (hr : ∀ x y, r x y ↔ (x, y) ∈ l ∨ (y, x) ∈ l) :
    v ∈ articulations l ↔ IsArticulation r v := by
  rw [articulations, List.mem_filter, decide_eq_true_eq, cutsApart_iff hr, and_iff_right_of_imp]
  -- A vertex in no pair is on no path, so that nothing changes without it.
  intro hart
  by_contra hv
  obtain ⟨x, y, hx, hy, hxy, hnot⟩ := hart
  refine hnot (EqvGen.mono ?_ _ _ hxy)
  intro a b hab
  refine ⟨?_, ?_, hab⟩
  · rintro rfl
    exact hv (mem_pairVertices.mpr ⟨b, (hr a b).mp hab⟩)
  · rintro rfl
    exact hv (mem_pairVertices.mpr ⟨a, ((hr a b).mp hab).symm⟩)

end Pairs

end PgRouting
