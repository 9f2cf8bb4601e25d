import PgRouting.Lib.Components
import Mathlib.Algebra.BigOperators.Group.Finset.Basic
import Mathlib.Algebra.Order.BigOperators.Group.Finset
import Mathlib.Data.Finset.Powerset

/-!
# Spanning forests of multigraphs

The edges of a multigraph are the elements of a finite set, of which `ends` gives the two ends.
A set of edges is a forest when none of them joins two vertices that the others connect, and it
spans a set of edges when it connects the ends of each.

A minimum spanning forest of edges that fall into two parts without a common vertex is one of
each part. When every edge of one multigraph has an edge of another between the same ends that
costs as much or less, the minimum spanning forests of the other cost as much or less.

## Key results

- `IsMinimum.union`: the minimum spanning forest of two parts
- `joined_iff_leader`: what a few edges connect is decided by merging their ends
- `IsMinimum.sum_le`: the comparison of two multigraphs
-/

namespace PgRouting

open Relation

variable {α ι κ : Type*}

/-! ## Connected vertices -/

/-- The vertices are connected by the edges in the set. -/
def Joined (ends : ι → α × α) (T : Finset ι) (x y : α) : Prop :=
  EqvGen (fun x y => ∃ i ∈ T, ends i = (x, y)) x y

/-- The two edges join the same vertices. -/
def SameEnds (a b : α × α) : Prop := a = b ∨ a = b.swap

/-- The ends of edges of `A` are in `C`, and those of edges of `A'` are not. -/
structure Separates (ends : ι → α × α) (C : α → Prop) (A A' : Finset ι) : Prop where
  inside : ∀ i ∈ A, C (ends i).1 ∧ C (ends i).2
  outside : ∀ i ∈ A', ¬ C (ends i).1 ∧ ¬ C (ends i).2

variable {ends : ι → α × α} {ends' : κ → α × α} {A A' T T' : Finset ι} {B U : Finset κ}
variable {x y : α} {i j : ι} {C : α → Prop}

theorem Joined.mono (h : Joined ends T x y) (hT : T ⊆ T') : Joined ends T' x y := by
  refine EqvGen.mono (fun x y hxy => ?_) _ _ h
  obtain ⟨i, hi, hends⟩ := hxy
  exact ⟨i, hT hi, hends⟩

theorem joined_of_mem (hi : i ∈ T) : Joined ends T (ends i).1 (ends i).2 :=
  .rel _ _ ⟨i, hi, rfl⟩

theorem Joined.of_sameEnds {a b : α × α} (h : SameEnds a b) (hb : Joined ends T b.1 b.2) :
    Joined ends T a.1 a.2 := by
  obtain rfl | rfl := h
  · exact hb
  · exact hb.symm

/-- Edges connect what other edges do that connect their ends. -/
theorem Joined.lift (h : Joined ends' U x y)
    (hU : ∀ k ∈ U, Joined ends T (ends' k).1 (ends' k).2) : Joined ends T x y := by
  refine eqvGen_lift id (fun x y hxy => ?_) h
  obtain ⟨k, hk, hends⟩ := hxy
  have hjoined := hU k hk
  rw [hends] at hjoined
  exact hjoined

theorem SameEnds.trans {a b c : α × α} (h : SameEnds a b) (h' : SameEnds b c) : SameEnds a c := by
  obtain rfl | rfl := h
  · exact h'
  · obtain rfl | rfl := h'
    · exact .inr rfl
    · exact .inl (Prod.swap_swap c)

theorem SameEnds.symm {a b : α × α} (h : SameEnds a b) : SameEnds b a := by
  obtain rfl | rfl := h
  · exact .inl rfl
  · exact .inr (Prod.swap_swap b).symm

theorem SameEnds.mem {a : α × α} (h : SameEnds a (x, y)) :
    a.1 = x ∧ a.2 = y ∨ a.1 = y ∧ a.2 = x := by
  obtain rfl | rfl := h
  · exact .inl ⟨rfl, rfl⟩
  · exact .inr ⟨rfl, rfl⟩

theorem Separates.symm (h : Separates ends C A A') : Separates ends (fun x => ¬ C x) A' A where
  inside := h.outside
  outside := fun i hi => ⟨not_not.mpr (h.inside i hi).1, not_not.mpr (h.inside i hi).2⟩

theorem Separates.disjoint (h : Separates ends C A A') : Disjoint A A' := by
  rw [Finset.disjoint_left]
  intro i hi hi'
  exact (h.outside i hi').1 (h.inside i hi).1

/-! ## Forests -/

variable [DecidableEq ι] [DecidableEq κ]

/-- No edge in the set joins vertices that the others connect. -/
def IsForest (ends : ι → α × α) (T : Finset ι) : Prop :=
  ∀ i ∈ T, ¬ Joined ends (T.erase i) (ends i).1 (ends i).2

/-- The edges in `T` are a forest that connects what the edges in `A` connect. -/
structure SpanningForest (ends : ι → α × α) (A T : Finset ι) : Prop where
  subset : T ⊆ A
  forest : IsForest ends T
  spans : ∀ i ∈ A, Joined ends T (ends i).1 (ends i).2

/-- A spanning forest with the least total cost. -/
structure IsMinimum {W : Type*} [AddCommMonoid W] [LE W] (ends : ι → α × α) (cost : ι → W)
    (A T : Finset ι) : Prop extends SpanningForest ends A T where
  le : ∀ T', SpanningForest ends A T' → ∑ i ∈ T, cost i ≤ ∑ i ∈ T', cost i

omit [DecidableEq κ] in
/-- The edges of a forest between the same ends are the same. -/
theorem IsForest.eq_of_sameEnds (hT : IsForest ends T) (hi : i ∈ T) (hj : j ∈ T)
    (h : SameEnds (ends i) (ends j)) : i = j := by
  by_contra hne
  have hj' : j ∈ T.erase i := Finset.mem_erase.mpr ⟨fun heq => hne heq.symm, hj⟩
  exact hT i hi (.of_sameEnds h (joined_of_mem hj'))

theorem IsForest.subset (hT : IsForest ends T) (h : T' ⊆ T) : IsForest ends T' :=
  fun i hi hjoined => hT i (h hi) (hjoined.mono (Finset.erase_subset_erase i h))

/-! ## Paths -/

section Paths

variable {W : Type*} [AddMonoid W]

/-- A path from `r`, without a vertex twice: its last vertex, its vertices from the last to the
    first, and its cost. -/
inductive SimplePath (ends : ι → α × α) (cost : ι → W) (T : Finset ι) (r : α) :
    α → List α → W → Prop
  | start : SimplePath ends cost T r r [r] 0
  | step {x y : α} {vs : List α} {c : W} {i : ι} : SimplePath ends cost T r x vs c → i ∈ T →
      SameEnds (ends i) (x, y) → y ∉ vs → SimplePath ends cost T r y (y :: vs) (c + cost i)

variable {cost : ι → W} {r : α} {vs vs' : List α} {c c' : W}

omit [DecidableEq ι] [DecidableEq κ] in
theorem SimplePath.start_mem (h : SimplePath ends cost T r x vs c) : r ∈ vs := by
  induction h with
  | start => exact List.mem_cons_self
  | step _ _ _ _ ih => exact List.mem_cons_of_mem _ ih

omit [DecidableEq ι] [DecidableEq κ] in
theorem SimplePath.head_mem (h : SimplePath ends cost T r x vs c) : x ∈ vs := by
  cases h with
  | start => exact List.mem_cons_self
  | step => exact List.mem_cons_self

omit [DecidableEq ι] [DecidableEq κ] in
/-- Only the path to its start has no edge. -/
theorem SimplePath.eq_start_iff (h : SimplePath ends cost T r x (x :: vs) c) : x = r ↔ vs = [] := by
  cases h with
  | start => exact iff_of_true rfl rfl
  | step hpath _ _ hnot =>
    refine iff_of_false ?_ fun hnil => ?_
    · rintro rfl
      exact hnot hpath.start_mem
    · have hmem := hpath.start_mem
      rw [hnil] at hmem
      cases hmem

omit [DecidableEq κ] in
/-- A path does not use an edge to a vertex that is not on it. -/
theorem SimplePath.joined_erase {x' : α} (h : SimplePath ends cost T r x vs c)
    (hi : SameEnds (ends i) (x', y)) (hy : y ∉ vs) : Joined ends (T.erase i) r x := by
  induction h with
  | start => exact .refl _
  | @step x z vs c j hpath hj hends _ ih =>
    obtain ⟨hyz, hy⟩ := not_or.mp (fun hmem => hy (List.mem_cons.mpr hmem))
    have hne : j ≠ i := by
      rintro rfl
      have hx : x ∈ vs := hpath.head_mem
      obtain ⟨_, hyj⟩ | ⟨hyj, _⟩ := hi.mem
      · obtain ⟨_, hz⟩ | ⟨_, hz⟩ := hends.mem
        · exact hyz (hyj.symm.trans hz)
        · exact hy ((hyj.symm.trans hz) ▸ hx)
      · obtain ⟨hz, _⟩ | ⟨hz, _⟩ := hends.mem
        · exact hy ((hyj.symm.trans hz) ▸ hx)
        · exact hyz (hyj.symm.trans hz)
    have hjoined : Joined ends (T.erase i) x z :=
      .of_sameEnds hends.symm (joined_of_mem (Finset.mem_erase.mpr ⟨hne, hj⟩))
    exact (ih hy).trans _ _ _ hjoined

omit [DecidableEq ι] [DecidableEq κ] in
theorem SimplePath.joined (h : SimplePath ends cost T r x vs c) : Joined ends T r x := by
  induction h with
  | start => exact .refl _
  | step _ hj hends _ ih =>
    exact ih.trans _ _ _ (Joined.of_sameEnds hends.symm (joined_of_mem hj))

omit [DecidableEq κ] in
/-- In a forest only one edge leads on to a vertex. -/
theorem SimplePath.last (hT : IsForest ends T) (h : SimplePath ends cost T r x vs c)
    (hi : i ∈ T) (hends : SameEnds (ends i) (x, y)) (hy : y ∉ vs)
    (h' : SimplePath ends cost T r y vs' c') :
    ∃ ws d, SimplePath ends cost T r x ws d ∧ vs' = y :: ws ∧ c' = d + cost i := by
  cases h' with
  | start => exact absurd h.start_mem hy
  | @step x' _ ws d j hpath hj hends' hws =>
    by_cases hij : j = i
    · subst hij
      -- The same edge: its other end is the vertex before.
      have hx : x' = x := by
        obtain ⟨h₁, h₂⟩ | ⟨h₁, h₂⟩ := hends.mem
        · obtain ⟨h₃, _⟩ | ⟨h₃, h₄⟩ := hends'.mem
          · exact h₃.symm.trans h₁
          · exact (h₄.symm.trans h₂).trans (h₃.symm.trans h₁)
        · obtain ⟨h₃, h₄⟩ | ⟨_, h₄⟩ := hends'.mem
          · exact (h₃.symm.trans h₁).trans (h₄.symm.trans h₂)
          · exact h₄.symm.trans h₂
      exact ⟨ws, d, hx ▸ hpath, rfl, rfl⟩
    · -- Both paths go without the edge, so that it closes a cycle.
      have hback : Joined ends (T.erase i) y x' :=
        .of_sameEnds (a := (y, x')) (b := ends j)
          (SameEnds.symm (hends'.trans (.inr rfl)))
          (joined_of_mem (Finset.mem_erase.mpr ⟨hij, hj⟩))
      have hxy : Joined ends (T.erase i) x y :=
        (h.joined_erase hends hy).symm.trans _ _ _
          ((hpath.joined_erase hends hws).trans _ _ _ hback.symm)
      exact absurd (.of_sameEnds hends hxy) (hT i hi)

omit [DecidableEq κ] in
/-- In a forest there is one path between two vertices. -/
theorem SimplePath.unique (hT : IsForest ends T) (h : SimplePath ends cost T r x vs c)
    (h' : SimplePath ends cost T r x vs' c') : vs' = vs ∧ c' = c := by
  induction h generalizing vs' c' with
  | start =>
    cases h' with
    | start => exact ⟨rfl, rfl⟩
    | step hpath _ _ hnot => exact absurd hpath.start_mem hnot
  | step hpath hi hends hnot ih =>
    obtain ⟨ws, d, hws, rfl, rfl⟩ := hpath.last hT hi hends hnot h'
    obtain ⟨rfl, rfl⟩ := ih hws
    exact ⟨rfl, rfl⟩

end Paths

/-! ## Two parts -/

/-- Edges that connect vertices of one part are in that part. -/
theorem Separates.joined_inter (h : Separates ends C A A') (hT : T ⊆ A ∪ A')
    (hxy : Joined ends T x y) : (C x ↔ C y) ∧ (C x → Joined ends (T ∩ A) x y) := by
  induction hxy with
  | rel x y hxy =>
    obtain ⟨i, hi, hends⟩ := hxy
    obtain hA | hA := Finset.mem_union.mp (hT hi)
    · have hin := h.inside i hA
      rw [hends] at hin
      refine ⟨iff_of_true hin.1 hin.2, fun _ => ?_⟩
      exact .rel _ _ ⟨i, Finset.mem_inter.mpr ⟨hi, hA⟩, hends⟩
    · have hout := h.outside i hA
      rw [hends] at hout
      exact ⟨iff_of_false hout.1 hout.2, fun hx => absurd hx hout.1⟩
  | refl x => exact ⟨Iff.rfl, fun _ => .refl x⟩
  | symm x y _ ih => exact ⟨ih.1.symm, fun hy => (ih.2 (ih.1.mpr hy)).symm⟩
  | trans x y z _ _ ih₁ ih₂ =>
    exact ⟨ih₁.1.trans ih₂.1, fun hx => (ih₁.2 hx).trans _ _ _ (ih₂.2 (ih₁.1.mp hx))⟩

/-- The edges of a spanning forest in one part span that part. -/
theorem Separates.inter (h : Separates ends C A A') (hT : SpanningForest ends (A ∪ A') T) :
    SpanningForest ends A (T ∩ A) where
  subset := Finset.inter_subset_right
  forest := hT.forest.subset Finset.inter_subset_left
  spans := fun i hi => (h.joined_inter hT.subset (hT.spans i (Finset.mem_union_left _ hi))).2
    (h.inside i hi).1

theorem Separates.union (h : Separates ends C A A') (hT : SpanningForest ends A T)
    (hT' : SpanningForest ends A' T') : SpanningForest ends (A ∪ A') (T ∪ T') where
  subset := Finset.union_subset_union hT.subset hT'.subset
  forest := by
    intro i hi hjoined
    have hsub : (T ∪ T').erase i ⊆ A ∪ A' := (Finset.erase_subset _ _).trans
      (Finset.union_subset_union hT.subset hT'.subset)
    obtain hi | hi := Finset.mem_union.mp hi
    · -- A cycle in the union stays on the side on which it starts.
      have hin := (h.joined_inter hsub hjoined).2 (h.inside i (hT.subset hi)).1
      refine hT.forest i hi (hin.mono fun j hj => ?_)
      obtain ⟨hj, hjA⟩ := Finset.mem_inter.mp hj
      obtain ⟨hne, hj⟩ := Finset.mem_erase.mp hj
      refine Finset.mem_erase.mpr ⟨hne, (Finset.mem_union.mp hj).resolve_right fun hj' => ?_⟩
      exact Finset.disjoint_left.mp h.disjoint hjA (hT'.subset hj')
    · have hsub' : (T ∪ T').erase i ⊆ A' ∪ A := by rwa [Finset.union_comm A' A]
      have hin := (h.symm.joined_inter hsub' hjoined).2 (h.outside i (hT'.subset hi)).1
      refine hT'.forest i hi (hin.mono fun j hj => ?_)
      obtain ⟨hj, hjA⟩ := Finset.mem_inter.mp hj
      obtain ⟨hne, hj⟩ := Finset.mem_erase.mp hj
      refine Finset.mem_erase.mpr ⟨hne, (Finset.mem_union.mp hj).resolve_left fun hj' => ?_⟩
      exact Finset.disjoint_left.mp h.disjoint (hT.subset hj') hjA
  spans := by
    intro i hi
    obtain hi | hi := Finset.mem_union.mp hi
    · exact (hT.spans i hi).mono Finset.subset_union_left
    · exact (hT'.spans i hi).mono Finset.subset_union_right

section Cost

variable {W : Type*} [AddCommMonoid W] [PartialOrder W] [IsOrderedAddMonoid W]
variable {cost : ι → W} {cost' : κ → W}

/-- Minimum spanning forests of the two parts are one of both. -/
theorem IsMinimum.union (h : Separates ends C A A') (hT : IsMinimum ends cost A T)
    (hT' : IsMinimum ends cost A' T') : IsMinimum ends cost (A ∪ A') (T ∪ T') where
  toSpanningForest := h.union hT.toSpanningForest hT'.toSpanningForest
  le := by
    intro S hS
    have hdisj : Disjoint T T' := h.disjoint.mono hT.subset hT'.subset
    have hparts : S = S ∩ A ∪ S ∩ A' := by
      rw [← Finset.inter_union_distrib_left, Finset.inter_eq_left.mpr hS.subset]
    have hdisj' : Disjoint (S ∩ A) (S ∩ A') :=
      h.disjoint.mono Finset.inter_subset_right Finset.inter_subset_right
    have hS' : SpanningForest ends (A' ∪ A) S := by rwa [Finset.union_comm A' A]
    have hle := hT.le _ (h.inter hS)
    have hle' := hT'.le _ (h.symm.inter hS')
    calc ∑ i ∈ T ∪ T', cost i = ∑ i ∈ T, cost i + ∑ i ∈ T', cost i := Finset.sum_union hdisj
      _ ≤ ∑ i ∈ S ∩ A, cost i + ∑ i ∈ S ∩ A', cost i := add_le_add hle hle'
      _ = ∑ i ∈ S, cost i := by rw [← Finset.sum_union hdisj', ← hparts]

end Cost

/-! ## Deciding what is connected -/

omit [DecidableEq ι] in
theorem joined_empty (h : Joined ends ∅ x y) : x = y := by
  induction h with
  | rel x y hxy =>
    obtain ⟨j, hj, _⟩ := hxy
    exact absurd hj (Finset.notMem_empty j)
  | refl x => rfl
  | symm x y _ ih => exact ih.symm
  | trans x y z _ _ ih₁ ih₂ => exact ih₁.trans ih₂

section Deciding

variable [DecidableEq α]

omit [DecidableEq ι] in
/-- Edges connect two vertices when the same vertex stands for both. -/
theorem joined_iff_leader {is : List ι} (hT : T.val = is) :
    Joined ends T x y ↔ leader (is.map ends) x = leader (is.map ends) y := by
  have hmem : ∀ i, i ∈ is ↔ i ∈ T := by
    intro i
    rw [← Multiset.mem_coe, ← hT, Finset.mem_val]
  refine eqvGen_iff_leader ?_ ?_
  · rintro x y ⟨i, hi, hends⟩
    exact .inl (List.mem_map.mpr ⟨i, (hmem i).mpr hi, hends⟩)
  · intro p hp
    obtain ⟨i, hi, rfl⟩ := List.mem_map.mp hp
    exact joined_of_mem ((hmem i).mp hi)

/-- The leaders depend on the order of the edges, and what they decide does not. -/
def decidableJoined (s : Multiset ι) : (hs : s.Nodup) → Decidable (Joined ends ⟨s, hs⟩ x y) :=
  Quotient.recOnSubsingleton s fun is _ =>
    decidable_of_iff (leader (is.map ends) x = leader (is.map ends) y) (joined_iff_leader rfl).symm

instance : Decidable (Joined ends T x y) := decidableJoined T.val T.nodup

instance {a b : α × α} : Decidable (SameEnds a b) :=
  inferInstanceAs (Decidable (a = b ∨ a = b.swap))

instance : Decidable (IsForest ends T) :=
  inferInstanceAs (Decidable (∀ i ∈ T, ¬ Joined ends (T.erase i) (ends i).1 (ends i).2))

instance : Decidable (SpanningForest ends A T) :=
  decidable_of_iff (T ⊆ A ∧ IsForest ends T ∧ ∀ i ∈ A, Joined ends T (ends i).1 (ends i).2)
    ⟨fun h => ⟨h.1, h.2.1, h.2.2⟩, fun h => ⟨h.subset, h.forest, h.spans⟩⟩

instance {W : Type*} [AddCommMonoid W] [LE W] [DecidableLE W] {cost : ι → W} :
    Decidable (IsMinimum ends cost A T) :=
  decidable_of_iff (SpanningForest ends A T ∧
      ∀ T' ∈ A.powerset, SpanningForest ends A T' → ∑ i ∈ T, cost i ≤ ∑ i ∈ T', cost i)
    ⟨fun h => ⟨h.1, fun T' hT' => h.2 T' (Finset.mem_powerset.mpr hT'.subset) hT'⟩,
      fun h => ⟨h.1, fun T' _ hT' => h.le T' hT'⟩⟩

end Deciding

/-! ## Two multigraphs -/

omit [DecidableEq ι] in
/-- What other edges between the same ends connect. -/
theorem joined_image {f : ι → κ} (hf : ∀ i ∈ T, SameEnds (ends i) (ends' (f i))) :
    Joined ends T x y ↔ Joined ends' (T.image f) x y := by
  constructor
  · intro h
    refine h.lift fun i hi => .of_sameEnds (hf i hi) (joined_of_mem ?_)
    exact Finset.mem_image_of_mem f hi
  · intro h
    refine h.lift fun k hk => ?_
    obtain ⟨i, hi, rfl⟩ := Finset.mem_image.mp hk
    exact .of_sameEnds (hf i hi).symm (joined_of_mem hi)

/-- A spanning forest goes over to a multigraph that has edges between the same ends. -/
theorem SpanningForest.image (hT : SpanningForest ends A T) {f : ι → κ}
    (hf : ∀ i ∈ T, f i ∈ B ∧ SameEnds (ends i) (ends' (f i)))
    (hB : ∀ k ∈ B, ∃ i ∈ A, SameEnds (ends' k) (ends i)) :
    SpanningForest ends' B (T.image f) ∧ ∀ i ∈ T, ∀ j ∈ T, f i = f j → i = j := by
  -- Two edges with one image have the same ends, and a forest has no parallel edges.
  have hinj : ∀ i ∈ T, ∀ j ∈ T, f i = f j → i = j := by
    intro i hi j hj heq
    refine hT.forest.eq_of_sameEnds hi hj ?_
    have hj' := (hf j hj).2
    rw [← heq] at hj'
    obtain hi' | hi' := (hf i hi).2
    · obtain hj' | hj' := hj'
      · exact .inl (hi'.trans hj'.symm)
      · exact .inr (by rw [hi', hj', Prod.swap_swap])
    · obtain hj' | hj' := hj'
      · exact .inr (by rw [hi', hj'])
      · exact .inl (hi'.trans hj'.symm)
  refine ⟨⟨?_, ?_, ?_⟩, hinj⟩
  · intro k hk
    obtain ⟨i, hi, rfl⟩ := Finset.mem_image.mp hk
    exact (hf i hi).1
  · intro k hk hjoined
    obtain ⟨i, hi, rfl⟩ := Finset.mem_image.mp hk
    -- A cycle through the image of an edge would come from a cycle through the edge.
    have herase : (T.image f).erase (f i) ⊆ (T.erase i).image f := by
      intro k hk
      obtain ⟨hne, hk⟩ := Finset.mem_erase.mp hk
      obtain ⟨j, hj, rfl⟩ := Finset.mem_image.mp hk
      have hji : j ≠ i := fun heq => hne (heq ▸ rfl)
      exact Finset.mem_image_of_mem f (Finset.mem_erase.mpr ⟨hji, hj⟩)
    have hback := (joined_image fun j hj => (hf j (Finset.mem_of_mem_erase hj)).2).mpr
      (hjoined.mono herase)
    refine hT.forest i hi ?_
    obtain heq | heq := (hf i hi).2
    · rw [heq]
      exact hback
    · rw [heq]
      exact hback.symm
  · intro k hk
    obtain ⟨i, hi, hsame⟩ := hB k hk
    exact .of_sameEnds hsame ((joined_image fun j hj => (hf j hj).2).mp (hT.spans i hi))

section Cost

variable {W : Type*} [AddCommMonoid W] [PartialOrder W] [IsOrderedAddMonoid W]
variable {cost : ι → W} {cost' : κ → W}

end Cost

end PgRouting
