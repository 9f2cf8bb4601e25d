import Mathlib.Algebra.Order.Group.Defs
import Mathlib.Order.Bounds.Basic

/-!
# Weighted walks and distances

A weighted graph is given by its arcs: `A u v w` says that an arc leads from
`u` to `v` with weight `w`. `Walk A u v c` says that some walk from `u` to `v`
has total weight `c`, and `IsDist A u v d` that `d` is the least such total.

## Key results

- `Walk.append` / `Walk.snoc`: walks compose
- `Walk.reverse`: a walk read backwards is a walk over the reversed arcs
- `Walk.mono`: a walk survives in a graph with at least as many arcs
- `IsDist.congr`: graphs whose walks dominate each other have the same distances
- `Equidistant.isDist_iff`: the same, told arc by arc
- `IsDist.bypass`: distances survive the removal of a vertex that the arcs lead around
- `Tight.isDist`: a walk that a potential proves to be a shortest one
-/

namespace PgRouting

variable {V T T' : Type*}

/-- `Walk A u v c`: a walk from `u` to `v` over arcs of `A`, of total weight `c`. -/
inductive Walk [AddMonoid T] (A : V → V → T → Prop) : V → V → T → Prop
  | nil (u : V) : Walk A u u 0
  | cons {u v t : V} {w c : T} (arc : A u v w) (rest : Walk A v t c) : Walk A u t (w + c)

/-- `t` can be reached from `u`. -/
def Reachable [AddMonoid T] (A : V → V → T → Prop) (u t : V) : Prop := ∃ c, Walk A u t c

/-- `d` is the length of a shortest walk from `u` to `t`. -/
def IsDist [AddMonoid T] [Preorder T] (A : V → V → T → Prop) (u t : V) (d : T) : Prop :=
  IsLeast {c | Walk A u t c} d

namespace Walk

section AddMonoid

variable [AddMonoid T] {A B : V → V → T → Prop} {u v t : V} {c d w : T}

/-- What no arc leaves, no walk leaves. -/
theorem closed {C : V → Prop} (h : ∀ u v w, A u v w → C u → C v) (p : Walk A u t c) (hu : C u) :
    C t := by
  induction p with
  | nil u => exact hu
  | cons arc rest ih => exact ih (h _ _ _ arc hu)

/-- One arc is a walk. -/
theorem single (arc : A u v w) : Walk A u v w := by
  have h := Walk.cons arc (Walk.nil v)
  rwa [add_zero] at h

/-- Walks that meet can be joined. -/
theorem append (p : Walk A u v c) (q : Walk A v t d) : Walk A u t (c + d) := by
  induction p with
  | nil u => rwa [zero_add]
  | cons arc rest ih => rw [add_assoc]; exact .cons arc (ih q)

/-- A walk can be prolonged by an arc at its end. -/
theorem snoc (p : Walk A u v c) (arc : A v t w) : Walk A u t (c + w) :=
  p.append (single arc)

/-- A walk survives a change of the arcs that keeps each of them. -/
theorem mono (h : ∀ u v w, A u v w → B u v w) (p : Walk A u t c) : Walk B u t c := by
  induction p with
  | nil u => exact .nil u
  | cons arc rest ih => exact .cons (h _ _ _ arc) ih

/-- Induction on a walk from its end: the last arc is split off. -/
theorem snoc_induction {motive : V → T → Prop} {u t : V} {c : T} (p : Walk A u t c)
    (nil : motive u 0)
    (snoc : ∀ v t c w, Walk A u v c → motive v c → A v t w → motive t (c + w)) :
    motive t c := by
  -- Generalized over a prefix already walked, so that the induction can peel arcs in front.
  suffices h : ∀ {v t : V} {d : T}, Walk A v t d → ∀ c, Walk A u v c → motive v c →
      motive t (c + d) by
    have := h p 0 (.nil u) nil
    rwa [zero_add] at this
  intro v t d q
  induction q with
  | nil v => intro c _ hm; rwa [add_zero]
  | cons arc rest ih =>
    intro c hp hm
    rw [← add_assoc]
    exact ih _ (hp.snoc arc) (snoc _ _ _ _ hp hm arc)

/-- A walk that ends elsewhere than it starts leaves by some arc. -/
theorem exists_first (p : Walk A u t c) (hne : u ≠ t) :
    ∃ v w d, A u v w ∧ Walk A v t d ∧ c = w + d := by
  cases p with
  | nil => exact absurd rfl hne
  | cons arc rest => exact ⟨_, _, _, arc, rest, rfl⟩

/-- A walk is still a walk after its weights have been mapped. -/
theorem map [AddMonoid T'] {f : T → T'} (h0 : f 0 = 0) (hadd : ∀ a b, f (a + b) = f a + f b)
    (p : Walk A u t c) : Walk (fun u v w' => ∃ w, A u v w ∧ w' = f w) u t (f c) := by
  induction p with
  | nil u => rw [h0]; exact .nil u
  | cons arc rest ih => rw [hadd]; exact .cons ⟨_, arc, rfl⟩ ih

end AddMonoid

section AddCommMonoid

variable [AddCommMonoid T] {A : V → V → T → Prop} {u t : V} {c : T}

/-- A walk read backwards is a walk over the reversed arcs. -/
theorem reverse (p : Walk A u t c) : Walk (fun v u w => A u v w) t u c := by
  induction p with
  | nil u => exact .nil u
  | cons arc rest ih => rw [add_comm]; exact ih.snoc arc

/-- Reversing the arcs reverses the walks. -/
theorem reverse_iff : Walk (fun v u w => A u v w) t u c ↔ Walk A u t c :=
  ⟨fun p => p.reverse, fun p => p.reverse⟩

end AddCommMonoid

section Ordered

variable [AddCommMonoid T] [PartialOrder T] [IsOrderedAddMonoid T]
variable {A B : V → V → T → Prop} {u v t : V} {c d : T}

/-- Without negative arcs no walk has negative weight. -/
theorem nonneg (hA : ∀ u v w, A u v w → 0 ≤ w) (p : Walk A u t c) : 0 ≤ c := by
  induction p with
  | nil u => exact le_refl 0
  | cons arc rest ih => exact add_nonneg (hA _ _ _ arc) ih

/-- If every arc of `A` can be replaced by a walk of `B` that is not longer, so can every walk. -/
theorem dominated (h : ∀ u v w, A u v w → ∃ c ≤ w, Walk B u v c) (p : Walk A u t c) :
    ∃ d ≤ c, Walk B u t d := by
  induction p with
  | nil u => exact ⟨0, le_refl 0, .nil u⟩
  | cons arc rest ih =>
    obtain ⟨c₁, hle₁, hw₁⟩ := h _ _ _ arc
    obtain ⟨c₂, hle₂, hw₂⟩ := ih
    exact ⟨c₁ + c₂, add_le_add hle₁ hle₂, hw₁.append hw₂⟩

/-- A walk between other vertices than `x` can avoid `x` when every passage through `x` can be
    replaced. -/
theorem bypass {x : V} (hA : ∀ u v w, A u v w → 0 ≤ w)
    (hkeep : ∀ u v w, A u v w → u ≠ x → v ≠ x → ∃ c ≤ w, Walk B u v c)
    (hpass : ∀ u v w w', A u x w → A x v w' → u ≠ x → v ≠ x → ∃ c ≤ w + w', Walk B u v c)
    (p : Walk A u t c) (ht : t ≠ x) :
    (u ≠ x → ∃ d ≤ c, Walk B u t d) ∧
    (u = x → ∀ a w, a ≠ x → A a x w → ∃ d ≤ w + c, Walk B a t d) := by
  -- A walk that stands at `x` is continued together with the arc that led there.
  induction p with
  | nil u => exact ⟨fun _ => ⟨0, le_refl 0, .nil u⟩, fun hu => absurd hu ht⟩
  | @cons u v t w c arc rest ih =>
    obtain ⟨ihne, iheq⟩ := ih ht
    constructor
    · intro hu
      by_cases hv : v = x
      · exact iheq hv u w hu (hv ▸ arc)
      · obtain ⟨c₁, hle₁, hw₁⟩ := hkeep u v w arc hu hv
        obtain ⟨c₂, hle₂, hw₂⟩ := ihne hv
        exact ⟨c₁ + c₂, add_le_add hle₁ hle₂, hw₁.append hw₂⟩
    · intro hu a w₀ ha harc
      subst hu
      by_cases hv : v = u
      · obtain ⟨d, hle, hd⟩ := iheq hv a w₀ ha harc
        have hw : c ≤ w + c := le_add_of_nonneg_left (hA _ _ _ arc)
        exact ⟨d, hle.trans (add_le_add (le_refl w₀) hw), hd⟩
      · obtain ⟨c₁, hle₁, hw₁⟩ := hpass a v w₀ w harc arc ha hv
        obtain ⟨c₂, hle₂, hw₂⟩ := ihne hv
        rw [← add_assoc]
        exact ⟨c₁ + c₂, add_le_add hle₁ hle₂, hw₁.append hw₂⟩

end Ordered

end Walk

namespace IsDist

variable [AddCommMonoid T] [PartialOrder T] {A B : V → V → T → Prop} {u v t : V} {c d : T}

theorem walk (h : IsDist A u t d) : Walk A u t d := h.1

theorem le (h : IsDist A u t d) (p : Walk A u t c) : d ≤ c := h.2 p

theorem reachable (h : IsDist A u t d) : Reachable A u t := ⟨d, h.1⟩

/-- A vertex has only one distance. -/
theorem unique (h : IsDist A u t c) (h' : IsDist A u t d) : c = d :=
  IsLeast.unique h h'

/-- Graphs whose walks between two vertices dominate each other give them the same distance. -/
theorem congr (hAB : ∀ c, Walk A u t c → ∃ d ≤ c, Walk B u t d)
    (hBA : ∀ c, Walk B u t c → ∃ d ≤ c, Walk A u t d) (d : T) :
    IsDist A u t d ↔ IsDist B u t d := by
  -- The two directions are the same argument with the graphs exchanged.
  suffices key : ∀ A B : V → V → T → Prop, (∀ c, Walk A u t c → ∃ d ≤ c, Walk B u t d) →
      (∀ c, Walk B u t c → ∃ d ≤ c, Walk A u t d) → IsDist A u t d → IsDist B u t d from
    ⟨key A B hAB hBA, key B A hBA hAB⟩
  intro A B hAB hBA h
  obtain ⟨d₁, hle₁, hw₁⟩ := hAB d h.walk
  obtain ⟨d₂, hle₂, hw₂⟩ := hBA d₁ hw₁
  have heq : d₁ = d := le_antisymm hle₁ ((h.le hw₂).trans hle₂)
  refine ⟨heq ▸ hw₁, fun c hc => ?_⟩
  obtain ⟨c', hle, hw⟩ := hBA c hc
  exact (h.le hw).trans hle

/-- Taking a vertex out of a graph keeps the distances between the others, when every passage
    through it has a replacement and every new arc stands for a walk. -/
theorem bypass [IsOrderedAddMonoid T] {x : V} (hA : ∀ u v w, A u v w → 0 ≤ w)
    (hkeep : ∀ u v w, A u v w → u ≠ x → v ≠ x → ∃ c ≤ w, Walk B u v c)
    (hpass : ∀ u v w w', A u x w → A x v w' → u ≠ x → v ≠ x → ∃ c ≤ w + w', Walk B u v c)
    (hback : ∀ u v w, B u v w → ∃ c ≤ w, Walk A u v c) (hu : u ≠ x) (ht : t ≠ x) (d : T) :
    IsDist B u t d ↔ IsDist A u t d :=
  congr (fun _ p => p.dominated hback) (fun _ p => (p.bypass hA hkeep hpass ht).1 hu) d

/-- Distances do not depend on the direction in which the walks are read. -/
theorem reverse_iff : IsDist (fun v u w => A u v w) t u d ↔ IsDist A u t d := by
  simp only [IsDist, Walk.reverse_iff]

end IsDist

/-! ## Graphs with the same distances -/

/-- The arcs of either graph stand for walks of the other one that are not longer. -/
structure Equidistant [AddMonoid T] [LE T] (A B : V → V → T → Prop) : Prop where
  there : ∀ u v w, A u v w → ∃ c ≤ w, Walk B u v c
  back : ∀ u v w, B u v w → ∃ c ≤ w, Walk A u v c

namespace Equidistant

section Monoid

variable [AddMonoid T] [Preorder T] {A B : V → V → T → Prop}

theorem of_iff (h : ∀ u v w, A u v w ↔ B u v w) : Equidistant A B :=
  ⟨fun u v w harc => ⟨w, le_rfl, .single ((h u v w).mp harc)⟩,
    fun u v w harc => ⟨w, le_rfl, .single ((h u v w).mpr harc)⟩⟩

end Monoid

variable [AddCommMonoid T] [PartialOrder T] [IsOrderedAddMonoid T]
variable {A B C : V → V → T → Prop} {u t : V}

theorem trans (h : Equidistant A B) (h' : Equidistant B C) : Equidistant A C := by
  constructor
  · intro u v w harc
    obtain ⟨c, hle, p⟩ := h.there u v w harc
    obtain ⟨d, hle', q⟩ := p.dominated h'.there
    exact ⟨d, hle'.trans hle, q⟩
  · intro u v w harc
    obtain ⟨c, hle, p⟩ := h'.back u v w harc
    obtain ⟨d, hle', q⟩ := p.dominated h.back
    exact ⟨d, hle'.trans hle, q⟩

theorem isDist_iff (h : Equidistant A B) (d : T) : IsDist A u t d ↔ IsDist B u t d :=
  IsDist.congr (fun _ p => p.dominated h.there) (fun _ p => p.dominated h.back) d

theorem reachable_iff (h : Equidistant A B) : Reachable A u t ↔ Reachable B u t := by
  constructor
  · intro ⟨c, p⟩
    obtain ⟨d, _, q⟩ := p.dominated h.there
    exact ⟨d, q⟩
  · intro ⟨c, p⟩
    obtain ⟨d, _, q⟩ := p.dominated h.back
    exact ⟨d, q⟩

end Equidistant

section Undirected

/-- The arcs, passed in both directions unless the graph is directed. -/
def Oriented (directed : Bool) (A : V → V → T → Prop) (u v : V) (w : T) : Prop :=
  A u v w ∨ directed = false ∧ A v u w

variable [AddCommMonoid T] {directed : Bool} {A B : V → V → T → Prop} {u v : V} {c : T}

theorem Walk.oriented (p : Walk A u v c) : Walk (Oriented directed A) u v c :=
  p.mono fun _ _ _ h => .inl h

theorem Walk.oriented_reverse (p : Walk A u v c) : Walk (Oriented false A) v u c :=
  p.reverse.mono fun _ _ _ h => .inr ⟨rfl, h⟩

/-- Arcs that stand for walks do so in both directions. -/
theorem oriented_dominated [LE T] (h : ∀ u v w, A u v w → ∃ c ≤ w, Walk B u v c) :
    ∀ u v w, Oriented directed A u v w → ∃ c ≤ w, Walk (Oriented directed B) u v c := by
  intro u v w harc
  obtain harc | ⟨rfl, harc⟩ := harc
  · obtain ⟨c, hle, hwalk⟩ := h u v w harc
    exact ⟨c, hle, hwalk.oriented⟩
  · obtain ⟨c, hle, hwalk⟩ := h v u w harc
    exact ⟨c, hle, hwalk.oriented_reverse⟩

theorem Equidistant.oriented [LE T] (h : Equidistant A B) (directed : Bool) :
    Equidistant (Oriented directed A) (Oriented directed B) :=
  ⟨oriented_dominated h.there, oriented_dominated h.back⟩

end Undirected

section Potential

variable [AddCommGroup T] {A : V → V → T → Prop} {φ : V → T} {u v t : V}

/-- A walk leads from `u` to `v` that is as long as the potentials of its ends differ. -/
def Tight (A : V → V → T → Prop) (φ : V → T) (u v : V) : Prop := Walk A u v (φ v - φ u)

theorem Tight.refl (u : V) : Tight A φ u u := by
  rw [Tight, sub_self]
  exact .nil u

theorem Tight.trans (h : Tight A φ u v) (h' : Tight A φ v t) : Tight A φ u t := by
  have hwalk := Walk.append h h'
  rwa [add_comm, sub_add_sub_cancel] at hwalk

variable [PartialOrder T] [IsOrderedAddMonoid T]

/-- Along a walk the potential rises by no more than the weight. -/
theorem Walk.potential_le (hφ : ∀ u v w, A u v w → φ v ≤ φ u + w) {c : T} (p : Walk A u v c) :
    φ v ≤ φ u + c := by
  induction p with
  | nil u => rw [add_zero]
  | @cons x y z w c arc rest ih =>
    calc φ z ≤ φ y + c := ih
      _ ≤ φ x + w + c := add_le_add (hφ x y w arc) (le_refl c)
      _ = φ x + (w + c) := add_assoc _ _ _

/-- When no arc is shorter than the potential rises along it, a tight walk is a shortest one. -/
theorem Tight.isDist (hφ : ∀ u v w, A u v w → φ v ≤ φ u + w) (h : Tight A φ u v) :
    IsDist A u v (φ v - φ u) :=
  ⟨h, fun _ hc => sub_le_iff_le_add'.mpr (hc.potential_le hφ)⟩

end Potential

open Classical in
/-- The distance from `u` to `t`, for vertices that have one. -/
noncomputable def distance [AddMonoid T] [Preorder T] (A : V → V → T → Prop) (u t : V) : T :=
  if h : ∃ d, IsDist A u t d then h.choose else 0

theorem IsDist.distance_eq [AddCommMonoid T] [PartialOrder T] {A : V → V → T → Prop} {u t : V}
    {d : T} (h : IsDist A u t d) : distance A u t = d := by
  have hex : ∃ d, IsDist A u t d := ⟨d, h⟩
  rw [distance, dif_pos hex]
  exact hex.choose_spec.unique h

end PgRouting
