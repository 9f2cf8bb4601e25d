import PgRouting.Spec.ContractionOrder

/-!
# Linear and dead end contraction leave nothing to contract

A contraction changes the status of the neighbours of the vertex only. The loop over
dead ends looks at all of them again. The recursion over linear vertices looks at the two
ends one after the other, and until it has come to an end that end may be missing from
the set: the recursion is proved for a set that holds every linear vertex but those which
the callers will look at again.

## Key results

- `PgrLinear.oneCycle_exact`: what one call of the recursion leaves behind
- `doContraction_fixpoint`
-/

namespace PgRouting

open PgrContractionGraph

variable {g g' : PgrContractionGraph} {kind : ContractionKind} {v x : Nat}

/-- A run in which every vertex is contracted in one way. -/
abbrev KindRun (kind : ContractionKind) : PgrContractionGraph → PgrContractionGraph → Prop :=
  Relation.ReflTransGen fun g g' =>
    ∃ v, g.Contractible (kind, v) ∧ g' = g.contractVertex (kind, v)

theorem KindRun.run (h : KindRun kind g g') : Run g g' := by
  refine Relation.ReflTransGen.mono (fun g g' hstep => ?_) _ _ h
  obtain ⟨v, hv, rfl⟩ := hstep
  exact ⟨(kind, v), hv, rfl⟩

theorem KindRun.nonneg (h : KindRun kind g g') (hg : g.Nonnegative) : g'.Nonnegative :=
  (h.run.frame hg).1

/-- A contracted vertex is not contractible any more. -/
theorem not_contractible_after (hg : g.Nonnegative) (hv : g.Contractible (kind, v)) :
    ¬ (g.contractVertex (kind, v)).Contractible (kind, v) :=
  fun h => ((hv.bypasses hg).1.touched_subset h.mem_touched).2 rfl

namespace PgrDeadend

/-- The loop has contracted dead ends, and its set holds the dead ends that are left. -/
structure Exact (g₀ : PgrContractionGraph) (s : PgrContractionGraph × Identifiers Nat) :
    Prop where
  run : KindRun .deadEnd g₀ s.1
  nonneg : s.1.Nonnegative
  mem_iff : ∀ x, x ∈ s.2 ↔ s.1.Contractible (.deadEnd, x)

theorem Exact.next {g₀ : PgrContractionGraph} {s s' : PgrContractionGraph × Identifiers Nat}
    (hs : Exact g₀ s) (hround : round s = .next s') : Exact g₀ s' := by
  obtain ⟨g, dead⟩ := s
  cases hv : dead.front? with
  | none =>
    simp only [round, hv] at hround
    cases hround
  | some v =>
    simp only [round, hv] at hround
    cases hround
    have hcon := (hs.mem_iff v).mp (Identifiers.front?_mem hv)
    obtain ⟨hbyp, _⟩ := hcon.bypasses hs.nonneg
    refine ⟨hs.run.tail ⟨v, hcon, rfl⟩, hbyp.nonneg, fun x => ?_⟩
    show x ∈ (g.findAdjacentVertices v).ids.foldl (reevaluate (g.contractDeadEnd v))
      (dead.remove v) ↔ (g.contractDeadEnd v).Contractible (.deadEnd, x)
    rw [mem_foldl_reevaluate]
    by_cases hadj : x ∈ (g.findAdjacentVertices v).ids
    · simp only [hadj, true_and, not_true_eq_false, false_and, or_false]
    · simp only [hadj, false_and, not_false_eq_true, true_and, false_or]
      rw [Identifiers.mem_remove]
      by_cases hne : x = v
      · subst hne
        exact iff_of_false (fun h => h.2 rfl) (not_contractible_after hs.nonneg hcon)
      · have hsame := hbyp.contractible_iff hne hadj .deadEnd
        exact (and_iff_left hne).trans ((hs.mem_iff x).trans hsame.symm)

/-- The loop over the dead ends ends when none is left. -/
theorem doContraction_exact {n : Nat} (hg : g.Nonnegative)
    (hends : ∀ x ∈ g.graph.touched, x < g.graph.numVertices)
    (h : doContraction n g = some g') :
    KindRun .deadEnd g g' ∧ ∀ x, ¬ g'.Contractible (.deadEnd, x) := by
  obtain ⟨s, hreach, hdone⟩ := runLoop_exit h
  have hstart : Exact g (g, calculateVertices g (calculateVertices g .empty)) := by
    refine ⟨.refl, hg, fun x => ?_⟩
    show x ∈ calculateVertices g (calculateVertices g .empty) ↔ g.Contractible (.deadEnd, x)
    rw [calculateVertices, mem_foldl_if_add_iff, calculateVertices, mem_foldl_if_add_iff,
      ← contractible_iff, List.mem_range]
    constructor
    · intro hx
      obtain (hx | hx) | hx := hx
      · cases hx
      · exact hx.2
      · exact hx.2
    · exact fun hx => .inr ⟨hends x hx.mem_touched, hx⟩
  have hs := hreach.invariant (fun s s' => Exact.next) hstart
  obtain ⟨g₁, dead⟩ := s
  cases hv : dead.front? with
  | some v =>
    simp only [round, hv] at hdone
    cases hdone
  | none =>
    simp only [round, hv] at hdone
    cases hdone
    exact ⟨hs.run, fun x hx => Identifiers.front?_none hv ((hs.mem_iff x).mpr hx)⟩

end PgrDeadend

namespace PgrLinear

/-- The set holds just the linear vertices, as far as they are not in `D`. -/
def ExactBut (D : Nat → Prop) (s : PgrContractionGraph × Identifiers Nat) : Prop :=
  ∀ x, ¬ D x → (x ∈ s.2 ↔ s.1.Contractible (.linear, x))

/-- The call for one vertex contracts linear vertices, and afterwards the set is right for this one
    too. The vertices in `D` are those that the callers will look at again. -/
theorem oneCycle_exact (n : Nat) : ∀ (D : Nat → Prop)
    (s s' : PgrContractionGraph × Identifiers Nat) (v : Nat), oneCycle n s v = some s' →
    s.1.Nonnegative → s.1.Contractible (.linear, v) → ExactBut (fun x => x = v ∨ D x) s →
    KindRun .linear s.1 s'.1 ∧ ExactBut D s' := by
  induction n with
  | zero =>
    intro D s s' v h
    cases h
  | succ n ih =>
    intro D s s' v h hg hv hexact
    obtain ⟨g, lin⟩ := s
    obtain ⟨u, w, hends, _, _, _, hmem, _⟩ := exists_linearEnds hv.1
    obtain ⟨hbyp, _⟩ := hv.bypasses hg
    have hstep : KindRun .linear g (g.contractLinear v) := .single ⟨v, hv, rfl⟩
    -- The two ends are looked at again, the one behind the other.
    have hexact₁ :
        ExactBut (fun x => x = u ∨ x = w ∨ D x) (g.contractLinear v, lin.remove v) := by
      intro x hx
      simp only [not_or] at hx
      obtain ⟨hxu, hxw, hD⟩ := hx
      show x ∈ lin.remove v ↔ _
      rw [Identifiers.mem_remove]
      by_cases hne : x = v
      · subst hne
        exact iff_of_false (fun h => h.2 rfl) (not_contractible_after hg hv)
      · have hadj : x ∉ g.findAdjacentVertices v := fun h => ((hmem x).mp h).elim hxu hxw
        have hbefore := hexact x fun h => h.elim hne hD
        have hsame := hbyp.contractible_iff hne hadj .linear
        exact (and_iff_left hne).trans (hbefore.trans hsame.symm)
    have hgoOn : ∀ (D : Nat → Prop) (t t' : PgrContractionGraph × Identifiers Nat) (y : Nat),
        (if isContractible t.1 y then oneCycle n t y else some (t.1, t.2.remove y)) = some t' →
        t.1.Nonnegative → ExactBut (fun x => x = y ∨ D x) t →
        KindRun .linear t.1 t'.1 ∧ ExactBut D t' := by
      intro D t t' y ht hnonneg hexact
      by_cases hy : isContractible t.1 y = true
      · rw [if_pos hy] at ht
        exact ih D t t' y ht hnonneg (contractible_iff.mpr hy) hexact
      · rw [if_neg hy] at ht
        obtain rfl := Option.some.inj ht
        refine ⟨.refl, fun x hD => ?_⟩
        show x ∈ t.2.remove y ↔ _
        rw [Identifiers.mem_remove]
        by_cases hne : x = y
        · subst hne
          exact iff_of_false (fun h => h.2 rfl) fun h => hy (contractible_iff.mp h)
        · exact (and_iff_left hne).trans (hexact x fun h => h.elim hne hD)
    simp only [oneCycle, hends, Option.bind_some] at h
    obtain ⟨t, ht, h⟩ := Option.bind_eq_some_iff.mp h
    obtain ⟨hrun₁, hexact₂⟩ := hgoOn _ (g.contractLinear v, lin.remove v) t u ht hbyp.nonneg hexact₁
    obtain ⟨hrun₂, hexact₃⟩ := hgoOn D t s' w h (hrun₁.nonneg hbyp.nonneg) hexact₂
    exact ⟨hstep.trans (hrun₁.trans hrun₂), hexact₃⟩

/-- The loop has contracted linear vertices, and its set holds those that are left. -/
structure Exact (g₀ : PgrContractionGraph) (s : PgrContractionGraph × Identifiers Nat) :
    Prop where
  run : KindRun .linear g₀ s.1
  nonneg : s.1.Nonnegative
  exact : ExactBut (fun _ => False) s

theorem Exact.next {n : Nat} {g₀ : PgrContractionGraph}
    {s s' : PgrContractionGraph × Identifiers Nat} (hs : Exact g₀ s)
    (hround : round n s = .next s') : Exact g₀ s' := by
  obtain ⟨g, lin⟩ := s
  cases hv : lin.front? with
  | none =>
    simp only [round, hv] at hround
    cases hround
  | some v =>
    have hcon := (hs.exact v id).mp (Identifiers.front?_mem hv)
    simp only [round, hv] at hround
    cases hcycle : oneCycle n (g, lin.remove v) v with
    | none =>
      rw [hcycle] at hround
      cases hround
    | some t =>
      rw [hcycle] at hround
      cases hround
      have hexact : ExactBut (fun x => x = v ∨ False) (g, lin.remove v) := by
        intro x hx
        have hne : x ≠ v := fun h => hx (.inl h)
        show x ∈ lin.remove v ↔ _
        rw [Identifiers.mem_remove]
        exact (and_iff_left hne).trans (hs.exact x id)
      obtain ⟨hrun, hexact'⟩ :=
        oneCycle_exact n _ (g, lin.remove v) s' v hcycle hs.nonneg hcon hexact
      exact ⟨hs.run.trans hrun, hrun.nonneg hs.nonneg, hexact'⟩

/-- The loop over the linear vertices ends when none is left. -/
theorem doContraction_exact {n : Nat} (hg : g.Nonnegative)
    (hends : ∀ x ∈ g.graph.touched, x < g.graph.numVertices)
    (h : doContraction n g = some g') :
    KindRun .linear g g' ∧ ∀ x, ¬ g'.Contractible (.linear, x) := by
  obtain ⟨s, hreach, hdone⟩ := runLoop_exit (Option.join_eq_some_iff.mp h)
  have hstart : Exact g (g, calculateVertices g) := by
    refine ⟨.refl, hg, fun x _ => ?_⟩
    show x ∈ calculateVertices g ↔ g.Contractible (.linear, x)
    rw [calculateVertices, mem_foldl_if_add_iff, ← contractible_iff, List.mem_range]
    constructor
    · intro hx
      obtain hx | hx := hx
      · cases hx
      · exact hx.2
    · exact fun hx => .inr ⟨hends x hx.mem_touched, hx⟩
  have hs := hreach.invariant (fun s s' => Exact.next) hstart
  obtain ⟨g₁, lin⟩ := s
  cases hv : lin.front? with
  | some v =>
    simp only [round, hv] at hdone
    split at hdone
    · cases hdone
    · cases hdone
  | none =>
    simp only [round, hv] at hdone
    cases hdone
    exact ⟨hs.run, fun x hx => Identifiers.front?_none hv ((hs.exact x id).mpr hx)⟩

end PgrLinear

/-- Both contractions end. The vertices they contract are dead ends or linear when they are
    contracted and not forbidden, and in the end none such is left. -/
theorem doContraction_fixpoint (g : PgrContractionGraph) (forbidden_vertices : Identifiers Nat)
    (hg : g.Nonnegative) (hends : ∀ x ∈ g.graph.touched, x < g.graph.numVertices) :
    (∃ g', (∃ N, ∀ n ≥ N, PgrLinear.doContraction n
        { g with forbiddenVertices := forbidden_vertices } = some g') ∧
      KindRun .linear { g with forbiddenVertices := forbidden_vertices } g' ∧
      ∀ v, ¬ (g'.isLinear v = true ∧ v ∉ forbidden_vertices)) ∧
    ∃ g', (∃ N, ∀ n ≥ N, PgrDeadend.doContraction n
        { g with forbiddenVertices := forbidden_vertices } = some g') ∧
      KindRun .deadEnd { g with forbiddenVertices := forbidden_vertices } g' ∧
      ∀ v, ¬ (g'.isDeadEnd v = true ∧ v ∉ forbidden_vertices) := by
  set g₀ : PgrContractionGraph := { g with forbiddenVertices := forbidden_vertices }
  have hforbidden : ∀ {kind g'}, KindRun kind g₀ g' → ∀ v, v ∉ forbidden_vertices →
      g'.isForbidden v = false := by
    intro kind g' hrun v hv
    rw [isForbidden, (hrun.run.frame hg).2.1, ← Bool.not_eq_true, Identifiers.has_iff]
    exact hv
  constructor
  · obtain ⟨g', _, N, hN⟩ := PgrLinear.doContraction_runs (g := g₀) hg
    obtain ⟨hrun, hnone⟩ := PgrLinear.doContraction_exact (g := g₀) hg hends (hN N (le_refl N))
    exact ⟨g', ⟨N, hN⟩, hrun, fun v hv => hnone v ⟨hv.1, hforbidden hrun v hv.2⟩⟩
  · obtain ⟨g', _, N, hN⟩ := PgrDeadend.doContraction_runs (g := g₀) hg
    obtain ⟨hrun, hnone⟩ := PgrDeadend.doContraction_exact (g := g₀) hg hends (hN N (le_refl N))
    exact ⟨g', ⟨N, hN⟩, hrun, fun v hv => hnone v ⟨hv.1, hforbidden hrun v hv.2⟩⟩

theorem doContraction_fixpoint_oneWayRoad :
    (∃ g', (∃ N, ∀ n ≥ N, PgrLinear.doContraction n
        { oneWayRoad with forbiddenVertices := .empty } = some g') ∧
      KindRun .linear { oneWayRoad with forbiddenVertices := .empty } g' ∧
      ∀ v, ¬ (g'.isLinear v = true ∧ v ∉ (.empty : Identifiers Nat))) ∧
    ∃ g', (∃ N, ∀ n ≥ N, PgrDeadend.doContraction n
        { oneWayRoad with forbiddenVertices := .empty } = some g') ∧
      KindRun .deadEnd { oneWayRoad with forbiddenVertices := .empty } g' ∧
      ∀ v, ¬ (g'.isDeadEnd v = true ∧ v ∉ (.empty : Identifiers Nat)) :=
  doContraction_fixpoint oneWayRoad .empty (ofTable_fresh _ _).sound.nonneg
    (ofTable_fresh _ _).sound.ends

end PgRouting
