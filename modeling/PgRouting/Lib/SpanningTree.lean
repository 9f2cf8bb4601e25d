import PgRouting.Lib.Components
import Mathlib.Algebra.BigOperators.Group.List.Basic
import Mathlib.Algebra.Order.Monoid.Defs

/-!
# Spanning trees and their preorder walks

A list of weighted edges connects the vertices that the relation of its edges connects.
The preorder walk of a tree goes on from any vertex of the branch it is in, and a vertex
is followed by its first child. When some edges of a connecting list are taken, and the
others added one by one, two vertices that are not connected at first are at some time,
and the edge that does it can be replaced by any edge between the two.

## Key results

- `eqvGen_or_edge`: what one more edge connects
- `exists_connecting`: the edge that connects two vertices
- `connects_exchange`: it can be replaced
- `TreeWalk.first_child`: a vertex is followed by its first child
-/

namespace PgRouting

open Relation

variable {α W : Type*} {r : α → α → Prop} {E : α → α → W → Prop} {a b x y u v d s : α}

/-! ## Connecting edges -/

/-- The vertices are connected by the edges of the list. -/
def Connects (F : List (α × α × W)) (x y : α) : Prop :=
  EqvGen (fun x y => ∃ w, (x, y, w) ∈ F) x y

theorem Connects.mono {F F' : List (α × α × W)} (h : F ⊆ F') (hxy : Connects F x y) :
    Connects F' x y :=
  EqvGen.mono (fun _ _ ⟨w, hw⟩ => ⟨w, h hw⟩) _ _ hxy

theorem connects_of_mem {F : List (α × α × W)} {f : α × α × W} (h : f ∈ F) :
    Connects F f.1 f.2.1 :=
  .rel _ _ ⟨f.2.2, h⟩

/-- What one more edge connects. -/
theorem eqvGen_or_edge (h : EqvGen (fun u v => r u v ∨ u = x ∧ v = y) a b) :
    EqvGen r a b ∨ EqvGen r a x ∧ EqvGen r y b ∨ EqvGen r a y ∧ EqvGen r x b := by
  induction h with
  | rel u v huv =>
    obtain huv | ⟨rfl, rfl⟩ := huv
    · exact .inl (.rel _ _ huv)
    · exact .inr (.inl ⟨.refl _, .refl _⟩)
  | refl u => exact .inl (.refl u)
  | symm u v _ ih =>
    obtain h | ⟨hux, hyv⟩ | ⟨huy, hxv⟩ := ih
    · exact .inl h.symm
    · exact .inr (.inr ⟨hyv.symm, hux.symm⟩)
    · exact .inr (.inl ⟨hxv.symm, huy.symm⟩)
  -- The new edge is used by the first part, by the second one, by both or by neither; twice in
  -- opposite directions is as good as not at all.
  | trans u v t _ _ ih₁ ih₂ =>
    obtain h | ⟨hux, hyv⟩ | ⟨huy, hxv⟩ := ih₁
    · obtain h' | ⟨hvx, hyt⟩ | ⟨hvy, hxt⟩ := ih₂
      · exact .inl (h.trans _ _ _ h')
      · exact .inr (.inl ⟨h.trans _ _ _ hvx, hyt⟩)
      · exact .inr (.inr ⟨h.trans _ _ _ hvy, hxt⟩)
    · obtain h' | ⟨_, hyt⟩ | ⟨_, hxt⟩ := ih₂
      · exact .inr (.inl ⟨hux, hyv.trans _ _ _ h'⟩)
      · exact .inr (.inl ⟨hux, hyt⟩)
      · exact .inl (hux.trans _ _ _ hxt)
    · obtain h' | ⟨_, hyt⟩ | ⟨_, hxt⟩ := ih₂
      · exact .inr (.inr ⟨huy, hxv.trans _ _ _ h'⟩)
      · exact .inl (huy.trans _ _ _ hyt)
      · exact .inr (.inr ⟨huy, hxt⟩)

/-- The edge that connects two vertices when the edges `P` are added to `Z` one by one. -/
theorem exists_connecting (P : List (α × α × W)) : ∀ Z : List (α × α × W),
    ¬ Connects Z a b → Connects (Z ++ P) a b → ∃ P₁ f P₂, P = P₁ ++ f :: P₂ ∧
      (Connects (Z ++ P₁) a f.1 ∧ Connects (Z ++ P₁) f.2.1 b ∨
        Connects (Z ++ P₁) a f.2.1 ∧ Connects (Z ++ P₁) f.1 b) := by
  induction P with
  | nil =>
    intro Z hno hyes
    rw [List.append_nil] at hyes
    exact absurd hyes hno
  | cons f P ih =>
    intro Z hno hyes
    by_cases hone : Connects (Z ++ [f]) a b
    · -- The first edge of `P` connects the two already.
      have hedge : EqvGen (fun u v => (∃ w, (u, v, w) ∈ Z) ∨ u = f.1 ∧ v = f.2.1) a b := by
        refine EqvGen.mono ?_ _ _ hone
        rintro u v ⟨w, hw⟩
        obtain hw | hw := List.mem_append.mp hw
        · exact .inl ⟨w, hw⟩
        · rw [← List.mem_singleton.mp hw]
          exact .inr ⟨rfl, rfl⟩
      refine ⟨[], f, P, rfl, ?_⟩
      rw [List.append_nil]
      exact (eqvGen_or_edge hedge).resolve_left hno
    · obtain ⟨P₁, f', P₂, rfl, hends⟩ := ih (Z ++ [f]) hone (by
        rw [List.append_assoc]
        exact hyes)
      refine ⟨f :: P₁, f', P₂, rfl, ?_⟩
      rw [List.append_assoc] at hends
      exact hends

/-- The edge `f`, which connects `a` and `b`, can be replaced by edges that do. -/
theorem connects_exchange {F F' : List (α × α × W)} {f : α × α × W} (hF : F ⊆ f :: F')
    (hab : Connects F' a b)
    (hends : Connects F' a f.1 ∧ Connects F' f.2.1 b ∨ Connects F' a f.2.1 ∧ Connects F' f.1 b)
    (hxy : Connects F x y) : Connects F' x y := by
  have hf : Connects F' f.1 f.2.1 := by
    obtain ⟨hx, hy⟩ | ⟨hx, hy⟩ := hends
    · exact (hx.symm.trans _ _ _ hab).trans _ _ _ hy.symm
    · exact hy.trans _ _ _ (hab.symm.trans _ _ _ hx)
  refine eqvGen_lift id (fun u v huv => ?_) hxy
  obtain ⟨w, hw⟩ := huv
  obtain rfl | hw := List.mem_cons.mp (hF hw)
  · exact hf
  · exact .rel _ _ ⟨w, hw⟩

/-- The list of edges connects the vertices, at the least weight. -/
structure IsLightest [AddMonoid W] [LE W] (E : α → α → W → Prop) (vertices : List α)
    (F : List (α × α × W)) : Prop where
  edges : ∀ f ∈ F, E f.1 f.2.1 f.2.2
  connects : ∀ x ∈ vertices, ∀ y ∈ vertices, Connects F x y
  le : ∀ F' : List (α × α × W), (∀ f ∈ F', E f.1 f.2.1 f.2.2) →
    (∀ x ∈ vertices, ∀ y ∈ vertices, Connects F' x y) →
    (F.map (·.2.2)).sum ≤ (F'.map (·.2.2)).sum

/-! ## Preorder walks -/

/-- The preorder walk of a tree with the root `s`: the branch that the walk is in, the vertices in
    the order in which they are visited, and the edges from parent to child. -/
inductive TreeWalk (E : α → α → W → Prop) (s : α) :
    List α → List α → List (α × α × W) → Prop
  | root : TreeWalk E s [s] [s] []
  | child {p v : α} {w : W} {branch l : List α} {F : List (α × α × W)} :
      TreeWalk E s (p :: branch) l F → v ∉ l → E p v w →
      TreeWalk E s (v :: p :: branch) (l ++ [v]) (F ++ [(p, v, w)])
  | back {p q : α} {branch l : List α} {F : List (α × α × W)} :
      TreeWalk E s (p :: q :: branch) l F → TreeWalk E s (q :: branch) l F

namespace TreeWalk

variable {branch l : List α} {F : List (α × α × W)}

/-- After the root the walk visits the children in their order. -/
theorem visited (h : TreeWalk E s branch l F) : l = s :: F.map (·.2.1) := by
  induction h with
  | root => rfl
  | child _ _ _ ih => rw [ih, List.map_append, List.map_singleton, List.cons_append]
  | back _ ih => exact ih

theorem nodup (h : TreeWalk E s branch l F) : l.Nodup := by
  induction h with
  | root => exact List.nodup_singleton s
  | child _ hv _ ih =>
    refine List.nodup_append.mpr ⟨ih, List.nodup_singleton _, ?_⟩
    rintro x hx y hy rfl
    exact hv (List.mem_singleton.mp hy ▸ hx)
  | back _ ih => exact ih

theorem edges (h : TreeWalk E s branch l F) : ∀ f ∈ F, E f.1 f.2.1 f.2.2 := by
  induction h with
  | root => exact fun f hf => absurd hf List.not_mem_nil
  | child _ _ hedge ih =>
    intro f hf
    obtain hf | hf := List.mem_append.mp hf
    · exact ih f hf
    · rw [List.mem_singleton.mp hf]
      exact hedge
  | back _ ih => exact ih

/-- The root is nobody's child. -/
theorem ne_root (h : TreeWalk E s branch l F) : ∀ f ∈ F, f.2.1 ≠ s := by
  have hnodup := h.nodup
  rw [h.visited, List.nodup_cons] at hnodup
  intro f hf heq
  exact hnodup.1 (heq ▸ List.mem_map_of_mem hf)

/-- A vertex of the branch is the parent of the one above it. -/
theorem mem_of_branch {p q : α} {rest : List α}
    (h : TreeWalk E s branch l F) (hb : branch = p :: q :: rest) : ∃ w, (q, p, w) ∈ F := by
  have hall : branch.IsChain fun p q => ∃ w, (q, p, w) ∈ F := by
    clear hb
    induction h with
    | root => exact List.isChain_singleton s
    | child _ _ _ ih =>
      refine List.isChain_cons_cons.mpr
        ⟨⟨_, List.mem_append_right _ (List.mem_singleton_self _)⟩, ?_⟩
      exact ih.imp fun _ _ ⟨w, hw⟩ => ⟨w, List.mem_append_left _ hw⟩
    | back _ ih => exact (List.isChain_cons_cons.mp ih).2
  rw [hb] at hall
  exact (List.isChain_cons_cons.mp hall).1

/-- A vertex without children at the end of the branch has been visited last. -/
theorem last_of_leaf {p : α} {rest : List α} (h : TreeWalk E s branch l F)
    (hb : branch = p :: rest) (hleaf : ∀ v w, (p, v, w) ∉ F) : ∃ l', l = l' ++ [p] := by
  cases h with
  | root =>
    obtain ⟨rfl, _⟩ := List.cons.inj hb
    exact ⟨[], rfl⟩
  | @child p' v w branch l F h hv hedge =>
    obtain ⟨rfl, _⟩ := List.cons.inj hb
    exact ⟨l, rfl⟩
  | @back p' q branch l F h =>
    obtain ⟨rfl, _⟩ := List.cons.inj hb
    obtain ⟨w, hw⟩ := h.mem_of_branch rfl
    exact absurd hw (hleaf _ _)

/-- A vertex that has children is followed by one of them. -/
theorem first_child (h : TreeWalk E s branch l F) {w : W} (hd : (d, v, w) ∈ F) :
    ∃ l₁ c l₂ w', l = l₁ ++ d :: c :: l₂ ∧ (d, c, w') ∈ F := by
  induction h generalizing v w with
  | root => cases hd
  | @child p v' w' branch l F h _ _ ih =>
    by_cases hold : ∃ v w, (d, v, w) ∈ F
    · obtain ⟨v₀, w₀, hv₀⟩ := hold
      obtain ⟨l₁, c, l₂, w₁, rfl, hc⟩ := ih hv₀
      exact ⟨l₁, c, l₂ ++ [v'], w₁, by simp, List.mem_append_left _ hc⟩
    · -- The new vertex is its first child.
      have hnew : (d, v, w) = (p, v', w') := by
        obtain hd | hd := List.mem_append.mp hd
        · exact absurd ⟨v, w, hd⟩ hold
        · exact List.mem_singleton.mp hd
      obtain ⟨rfl, rfl, rfl⟩ : d = p ∧ v = v' ∧ w = w' := by
        simpa using hnew
      obtain ⟨l', rfl⟩ := h.last_of_leaf rfl fun v₀ w₀ hv₀ => hold ⟨v₀, w₀, hv₀⟩
      exact ⟨l', v, [], w, by simp, hd⟩
  | back _ ih => exact ih hd

end TreeWalk

end PgRouting
