import PgRouting.Spec.ContractedVertices

/-!
# The cycles of `Pgr_contract`

The queue of `Pgr_contract` starts with the mark -1 followed by the contraction
order. The loop over the kinds pushes the mark to the back where the kind should go,
so the first cycle performs the whole order and leaves a queue of marks, and all
later cycles leave the graph alone. Performing the order again therefore gives the
same graph exactly when nothing is left that it could contract.

## Key results

- `PgrContract.innerLoop`, `PgrContract.laterCycle`: the first cycle and the later ones
- `pgrContract_eq_perform`: any number of cycles is one performance of the order
- `perform_spec`: performing the order contracts something unless nothing is left
- `pgrContract_repeats_order_iff`
-/

namespace PgRouting

open PgrContractionGraph

variable {g g' g₀ : PgrContractionGraph} {forb : Identifiers Nat} {order : List Int}

/-- The graphs agree in all that the source stores. -/
def PgrContractionGraph.SameState (g g' : PgrContractionGraph) : Prop :=
  g.toPgrBaseGraph = g'.toPgrBaseGraph ∧ g.minEdgeId = g'.minEdgeId ∧
    g.forbiddenVertices = g'.forbiddenVertices

namespace PgrContract

/-- Every kind of the contraction order, in the given order. -/
def perform (n : Nat) (forb : Identifiers Nat) (order : List Int) (g : PgrContractionGraph) :
    Option PgrContractionGraph :=
  order.foldlM (fun g kind => oneCycle n g kind forb) g

/-- The whole contraction order, the given number of times in a row. -/
def performTimes (n : Nat) (forb : Identifiers Nat) (order : List Int) :
    Nat → PgrContractionGraph → Option PgrContractionGraph
  | 0, g => some g
  | times + 1, g => (perform n forb order g).bind (performTimes n forb order times)

/-- The kinds of contraction with the number that stands for each in a contraction order. -/
def number : ContractionKind → Int
  | .deadEnd => 1
  | .linear => 2

/-- No vertex that is not forbidden passes the test of a kind of the contraction order. -/
def NothingLeft (forb : Identifiers Nat) (order : List Int) (g : PgrContractionGraph) : Prop :=
  ∀ kind, number kind ∈ order → ∀ v, ¬ { g with forbiddenVertices := forb }.Contractible (kind, v)

/-! ## The queue -/

/-- The loop over the kinds performs them up to the mark, and every kind becomes a mark. -/
theorem innerLoop (n : Nat) : ∀ (order : List Int) (g g' : PgrContractionGraph) (m fuel : Nat),
    -1 ∉ order → perform n forb order g = some g' → order.length < fuel →
    runLoop (round n forb (-1)) fuel (g, order ++ List.replicate (m + 1) (-1)) =
      some (some (g', List.replicate (order.length + m + 1) (-1))) := by
  intro order
  induction order with
  | nil =>
    intro g g' m fuel _ hperform hfuel
    obtain rfl := Option.some.inj hperform
    obtain ⟨k, rfl⟩ : ∃ k, fuel = k + 1 := ⟨fuel - 1, by simp at hfuel; omega⟩
    apply runLoop_done
    simp [round, List.replicate_succ]
  | cons kind order ih =>
    intro g g' m fuel hmark hperform hfuel
    rw [List.mem_cons, not_or] at hmark
    rw [perform, List.foldlM_cons, Option.bind_eq_bind, Option.bind_eq_some_iff] at hperform
    obtain ⟨g₁, hone, hperform⟩ := hperform
    obtain ⟨k, rfl⟩ : ∃ k, fuel = k + 1 := ⟨fuel - 1, by omega⟩
    have hround : round n forb (-1) (g, (kind :: order) ++ List.replicate (m + 1) (-1)) =
        .next (g₁, order ++ List.replicate (m + 1 + 1) (-1)) := by
      simp only [round, List.cons_append, if_neg (Ne.symm hmark.1), hone]
      -- The mark goes to the back of the queue, where the kind has been lost.
      rw [List.append_assoc, List.replicate_succ' (n := m + 1)]
    rw [runLoop_next hround, ih g₁ g' (m + 1) k hmark.2 hperform (by simp at hfuel; omega),
      List.length_cons]
    congr 4
    omega

/-- A queue of marks: nothing is performed. -/
theorem laterCycle (n : Nat) (g : PgrContractionGraph) (m : Nat) (hn : 0 < n) :
    maxCyclesRound n forb (g, List.replicate (m + 1) (-1)) =
      some (g, List.replicate (m + 1) (-1)) := by
  obtain ⟨k, rfl⟩ : ∃ k, n = k + 1 := ⟨n - 1, by omega⟩
  simp only [maxCyclesRound, List.replicate_succ]
  rw [← List.replicate_succ', runLoop_done (r := some (g, List.replicate (m + 1) (-1)))]
  · rw [Option.join_some, List.replicate_succ]
  · simp [round, List.replicate_succ]

/-- Any number of later cycles. -/
theorem laterCycles (n : Nat) (g : PgrContractionGraph) (m : Nat) (hn : 0 < n) (l : List Nat) :
    l.foldlM (fun s _ => maxCyclesRound n forb s) (g, List.replicate (m + 1) (-1)) =
      some (g, List.replicate (m + 1) (-1)) := by
  induction l with
  | nil => rfl
  | cons i l ih =>
    rw [List.foldlM_cons, laterCycle n g m hn]
    exact ih

/-- Whatever the number of cycles, the contraction order is performed once. -/
theorem pgrContract_eq_perform {n times : Nat} (hmark : -1 ∉ order)
    (hperform : perform n forb order g = some g') (hn : order.length < n) (htimes : 1 ≤ times) :
    pgrContract n g forb order times = some g' := by
  obtain ⟨k, rfl⟩ : ∃ k, times = k + 1 := ⟨times - 1, by omega⟩
  have hfirst : maxCyclesRound n forb (g, -1 :: order) =
      some (g', List.replicate (order.length + 1) (-1)) := by
    simp only [maxCyclesRound]
    rw [← List.replicate_one, innerLoop n order g g' 0 n hmark hperform hn]
    rfl
  rw [pgrContract, Int.toNat_natCast, List.range_succ_eq_map, List.foldlM_cons, hfirst]
  show Option.map _ ((List.map Nat.succ (List.range k)).foldlM _ _) = _
  rw [laterCycles n g' order.length (by omega)]
  rfl

end PgrContract

/-! ## What performing a kind does -/

/-- A run that leaves as many vertices with an edge as there were has done nothing. -/
theorem PgrContractionGraph.Run.eq_of_card (h : Run g g') (hg : g.Nonnegative)
    (hcard : g'.graph.touched.card = g.graph.touched.card) : g' = g := by
  obtain rfl | ⟨g₁, hstep, hrun⟩ := h.cases_head
  · rfl
  · obtain ⟨p, hp, rfl⟩ := hstep
    obtain ⟨hbyp, _⟩ := hp.bypasses hg
    have hlt := hbyp.touched_lt hp.mem_touched
    have hle := (Run.frame hrun hbyp.nonneg).2.2
    omega

/-- The collecting loops of `calculateVertices` collect every vertex that passes the test. -/
theorem mem_foldl_if_add_iff {test : Nat → Bool} {x : Nat} (l : List Nat) :
    ∀ s : Identifiers Nat,
      x ∈ l.foldl (fun s v => if test v then s.add v else s) s ↔
        x ∈ s ∨ (x ∈ l ∧ test x = true) := by
  induction l with
  | nil => simp
  | cons v l ih =>
    intro s
    rw [List.foldl_cons, ih]
    by_cases hv : test v = true
    · rw [if_pos hv, Identifiers.mem_add, List.mem_cons]
      constructor
      · rintro ((rfl | hx) | hx)
        · exact .inr ⟨.inl rfl, hv⟩
        · exact .inl hx
        · exact .inr ⟨.inr hx.1, hx.2⟩
      · rintro (hx | ⟨rfl | hx, ht⟩)
        · exact .inl (.inr hx)
        · exact .inl (.inl rfl)
        · exact .inr ⟨hx, ht⟩
    · rw [if_neg hv, List.mem_cons]
      constructor
      · rintro (hx | hx)
        · exact .inl hx
        · exact .inr ⟨.inr hx.1, hx.2⟩
      · rintro (hx | ⟨rfl | hx, ht⟩)
        · exact .inl hx
        · exact absurd ht hv
        · exact .inr ⟨hx, ht⟩

theorem PgrContractionGraph.Run.sound (h : Run g g') (hg : g.Sound) : g'.Sound :=
  (h.kept hg).choose_spec.2.2.1

namespace PgrDeadend

theorem mem_calculateVertices (hg : g.Sound) {v : Nat} :
    v ∈ calculateVertices g (calculateVertices g .empty) ↔ g.Contractible (.deadEnd, v) := by
  rw [calculateVertices, mem_foldl_if_add_iff, calculateVertices, mem_foldl_if_add_iff,
    ← contractible_iff, List.mem_range]
  constructor
  · rintro ((hv | hv) | hv)
    · cases hv
    · exact hv.2
    · exact hv.2
  · intro hv
    exact .inr ⟨hg.ends v hv.mem_touched, hv⟩

/-- The dead end contraction contracts at least one vertex, unless there is none. -/
theorem doContraction_spec (hg : g.Sound) :
    ∃ g', Run g g' ∧ (∃ N, ∀ n ≥ N, doContraction n g = some g') ∧
      ((∃ v, g.Contractible (.deadEnd, v)) → g'.graph.touched.card < g.graph.touched.card) ∧
      ((∀ v, ¬ g.Contractible (.deadEnd, v)) → g' = g) := by
  obtain ⟨g', hrun, N, hN⟩ := doContraction_runs hg.nonneg
  refine ⟨g', hrun, ⟨N, hN⟩, fun hex => ?_, fun hnone => ?_⟩
  · obtain ⟨v, hv⟩ := hex
    have hinv : Inv g (g, calculateVertices g (calculateVertices g .empty)) :=
      ⟨.refl, hg.nonneg, fun x hx => (mem_calculateVertices hg).mp hx⟩
    obtain ⟨s', hs', hlt, hnext⟩ | hdone := round_spec hinv
    · have hstep : ∀ s, Inv s'.1 s → (∃ t, Inv s'.1 t ∧
          t.1.graph.touched.card < s.1.graph.touched.card ∧
            ∃ N, ∀ n : Nat, n ≥ N → round s = .next t) ∨
          ∃ r, Run s'.1 r ∧ ∃ N, ∀ n : Nat, n ≥ N → round s = .done r := by
        intro s hs
        obtain ⟨t, ht, hlt, hnext⟩ | hdone := round_spec hs
        · exact .inl ⟨t, ht, hlt, 0, fun _ _ => hnext⟩
        · exact .inr ⟨s.1, hs.run, 0, fun _ _ => hdone⟩
      obtain ⟨r, hr, M, hM⟩ := runLoop_eventually (f := fun _ => round) _ hstep
        ⟨.refl, hs'.nonneg, hs'.contractible⟩
      have heq : some g' = some r := by
        rw [← hN (max N M + 1) (by omega), doContraction, runLoop_next hnext,
          hM (max N M) (by omega) (max N M) (by omega)]
      rw [Option.some.inj heq]
      exact lt_of_le_of_lt (hr.frame hs'.nonneg).2.2 hlt
    · -- The vertex itself keeps the set from being empty.
      cases hfront : (calculateVertices g (calculateVertices g .empty)).front? with
      | none => exact absurd ((mem_calculateVertices hg).mpr hv) (Identifiers.front?_none hfront)
      | some x =>
        simp only [round, hfront] at hdone
        cases hdone
  · cases hfront : (calculateVertices g (calculateVertices g .empty)).front? with
    | none =>
      have hround : round (g, calculateVertices g (calculateVertices g .empty)) = .done g := by
        simp only [round, hfront]
      have heq : some g' = some g := by
        rw [← hN (N + 1) (by omega), doContraction, runLoop_done hround]
      exact Option.some.inj heq
    | some x =>
      exact absurd ((mem_calculateVertices hg).mp (Identifiers.front?_mem hfront)) (hnone x)

end PgrDeadend

namespace PgrLinear

theorem mem_calculateVertices (hg : g.Sound) {v : Nat} :
    v ∈ calculateVertices g ↔ g.Contractible (.linear, v) := by
  rw [calculateVertices, mem_foldl_if_add_iff, ← contractible_iff, List.mem_range]
  constructor
  · rintro (hv | hv)
    · cases hv
    · exact hv.2
  · intro hv
    exact .inr ⟨hg.ends v hv.mem_touched, hv⟩

/-- The linear contraction contracts at least one vertex, unless there is none. -/
theorem doContraction_spec (hg : g.Sound) :
    ∃ g', Run g g' ∧ (∃ N, ∀ n ≥ N, doContraction n g = some g') ∧
      ((∃ v, g.Contractible (.linear, v)) → g'.graph.touched.card < g.graph.touched.card) ∧
      ((∀ v, ¬ g.Contractible (.linear, v)) → g' = g) := by
  obtain ⟨g', hrun, N, hN⟩ := doContraction_runs hg.nonneg
  refine ⟨g', hrun, ⟨N, hN⟩, fun hex => ?_, fun hnone => ?_⟩
  · obtain ⟨v, hv⟩ := hex
    have hinv : Inv g (g, calculateVertices g) :=
      ⟨.refl, hg.nonneg, fun x hx => .inr ((mem_calculateVertices hg).mp hx)⟩
    obtain ⟨s', hs', hlt, M', hM'⟩ | ⟨r, ⟨g₁, rfl, _⟩, M', hM'⟩ :=
        round_spec hinv
    · obtain ⟨r, ⟨g₁, rfl, hr⟩, M, hM⟩ := runLoop_eventually _
        (fun s => round_spec) ⟨.refl, hs'.nonneg, hs'.clean⟩
      have heq : some g' = some g₁ := by
        rw [← hN (max N (max M M') + 1) (by omega), doContraction,
          runLoop_next (hM' _ (by omega)), hM _ (by omega) _ (by omega), Option.join_some]
      rw [Option.some.inj heq]
      exact lt_of_le_of_lt (hr.frame hs'.nonneg).2.2 hlt
    · cases hfront : (calculateVertices g).front? with
      | none => exact absurd ((mem_calculateVertices hg).mpr hv) (Identifiers.front?_none hfront)
      | some x =>
        have hdone := hM' M' (le_refl _)
        simp only [round, hfront] at hdone
        split at hdone
        · cases hdone
        · cases hdone
  · cases hfront : (calculateVertices g).front? with
    | none =>
      have hround : round (N + 1) (g, calculateVertices g) = .done (some g) := by
        simp only [round, hfront]
      have heq : some g' = some g := by
        rw [← hN (N + 1) (by omega), doContraction, runLoop_done hround, Option.join_some]
      exact Option.some.inj heq
    | some x =>
      exact absurd ((mem_calculateVertices hg).mp (Identifiers.front?_mem hfront)) (hnone x)

end PgrLinear

namespace PgrContract

/-- One kind contracts at least one vertex, unless there is none that it could contract. -/
theorem oneCycle_spec (hg : g.Sound) (hforb : g.forbiddenVertices = forb) (kind : ContractionKind) :
    ∃ g', Run g g' ∧ (∃ N, ∀ n ≥ N, oneCycle n g (number kind) forb = some g') ∧
      ((∃ v, g.Contractible (kind, v)) → g'.graph.touched.card < g.graph.touched.card) ∧
      ((∀ v, ¬ g.Contractible (kind, v)) → g' = g) := by
  subst hforb
  cases kind with
  | deadEnd => exact PgrDeadend.doContraction_spec hg
  | linear => exact PgrLinear.doContraction_spec hg

/-- Performing the contraction order contracts at least one vertex, unless nothing is left that it
    could contract. -/
theorem perform_spec (forb : Identifiers Nat) (kinds : List ContractionKind) :
    ∀ g : PgrContractionGraph, g.Sound → g.forbiddenVertices = forb →
    ∃ g', Run g g' ∧ (∃ N, ∀ n ≥ N, perform n forb (kinds.map number) g = some g') ∧
      ((∃ kind ∈ kinds, ∃ v, g.Contractible (kind, v)) →
        g'.graph.touched.card < g.graph.touched.card) ∧
      ((∀ kind ∈ kinds, ∀ v, ¬ g.Contractible (kind, v)) → g' = g) := by
  induction kinds with
  | nil =>
    intro g _ _
    refine ⟨g, .refl, ⟨0, fun _ _ => rfl⟩, fun hex => ?_, fun _ => rfl⟩
    obtain ⟨kind, hkind, _⟩ := hex
    cases hkind
  | cons kind kinds ih =>
    intro g hg hforb
    obtain ⟨g₁, hrun₁, ⟨N₁, hN₁⟩, hsome₁, hnone₁⟩ := oneCycle_spec hg hforb kind
    obtain ⟨_, hforb₁, hle₁⟩ := hrun₁.frame hg.nonneg
    have hg₁ := hrun₁.sound hg
    obtain ⟨g₂, hrun₂, ⟨N₂, hN₂⟩, hsome₂, hnone₂⟩ := ih g₁ hg₁ (hforb₁.trans hforb)
    have hle₂ := (hrun₂.frame hg₁.nonneg).2.2
    refine ⟨g₂, hrun₁.trans hrun₂, ⟨max N₁ N₂, fun n hn => ?_⟩, fun hex => ?_, fun hnone => ?_⟩
    · rw [perform, List.map_cons, List.foldlM_cons, hN₁ n (by omega)]
      exact hN₂ n (by omega)
    · -- A kind that leaves the graph alone leaves the later kinds what they could contract.
      by_cases hcard : g₁.graph.touched.card = g.graph.touched.card
      · obtain rfl := hrun₁.eq_of_card hg.nonneg hcard
        obtain ⟨k, hk, v, hv⟩ := hex
        obtain rfl | hk := List.mem_cons.mp hk
        · exact absurd (hsome₁ ⟨v, hv⟩) (lt_irrefl _)
        · exact hsome₂ ⟨k, hk, v, hv⟩
      · omega
    · obtain rfl := hnone₁ (hnone kind List.mem_cons_self)
      exact hnone₂ fun k hk => hnone k (List.mem_cons_of_mem _ hk)

/-- Performing the order any number of times is a run. -/
theorem performTimes_runs (forb : Identifiers Nat) (kinds : List ContractionKind) (times : Nat) :
    ∀ g : PgrContractionGraph, g.Sound → g.forbiddenVertices = forb →
    ∃ g', Run g g' ∧ (∃ N, ∀ n ≥ N, performTimes n forb (kinds.map number) times g = some g') ∧
      (0 < times → (∃ kind ∈ kinds, ∃ v, g.Contractible (kind, v)) →
        g'.graph.touched.card < g.graph.touched.card) ∧
      ((∀ kind ∈ kinds, ∀ v, ¬ g.Contractible (kind, v)) → g' = g) := by
  induction times with
  | zero =>
    intro g _ _
    exact ⟨g, .refl, ⟨0, fun _ _ => rfl⟩, fun h => absurd h (lt_irrefl 0), fun _ => rfl⟩
  | succ times ih =>
    intro g hg hforb
    obtain ⟨g₁, hrun₁, ⟨N₁, hN₁⟩, hsome₁, hnone₁⟩ := perform_spec forb kinds g hg hforb
    obtain ⟨_, hforb₁, _⟩ := hrun₁.frame hg.nonneg
    have hg₁ := hrun₁.sound hg
    obtain ⟨g₂, hrun₂, ⟨N₂, hN₂⟩, _, hnone₂⟩ := ih g₁ hg₁ (hforb₁.trans hforb)
    refine ⟨g₂, hrun₁.trans hrun₂, ⟨max N₁ N₂, fun n hn => ?_⟩, fun _ hex => ?_, fun hnone => ?_⟩
    · rw [performTimes, hN₁ n (by omega), Option.bind_some]
      exact hN₂ n (by omega)
    · exact lt_of_le_of_lt (hrun₂.frame hg₁.nonneg).2.2 (hsome₁ hex)
    · obtain rfl := hnone₁ hnone
      exact hnone₂ hnone

/-- The contraction order as a list of kinds. -/
theorem exists_kinds (horder : ∀ k ∈ order, k = 1 ∨ k = 2) :
    ∃ kinds : List ContractionKind, order = kinds.map number := by
  induction order with
  | nil => exact ⟨[], rfl⟩
  | cons k order ih =>
    obtain ⟨kinds, rfl⟩ := ih fun k hk => horder k (List.mem_cons_of_mem _ hk)
    obtain rfl | rfl := horder k List.mem_cons_self
    · exact ⟨.deadEnd :: kinds, rfl⟩
    · exact ⟨.linear :: kinds, rfl⟩

/-- The first contraction sets the forbidden vertices. -/
theorem perform_setForbidden (n : Nat) (kind : ContractionKind) (kinds : List ContractionKind) :
    perform n forb ((kind :: kinds).map number) { g with forbiddenVertices := forb } =
      perform n forb ((kind :: kinds).map number) g := by
  cases kind with
  | deadEnd => rfl
  | linear => rfl

/-- Nothing is performed when the contraction order is empty. -/
theorem performTimes_nil (n times : Nat) : performTimes n forb [] times g = some g := by
  induction times with
  | zero => rfl
  | succ times ih => exact ih

theorem number_injective : Function.Injective number := by
  intro k k' h
  cases k <;> cases k' <;> first | rfl | cases h

theorem nothingLeft_iff (hforb : g.forbiddenVertices = forb) (kinds : List ContractionKind) :
    NothingLeft forb (kinds.map number) g ↔
      ∀ kind ∈ kinds, ∀ v, ¬ g.Contractible (kind, v) := by
  subst hforb
  simp only [NothingLeft, List.mem_map_of_injective number_injective]

end PgrContract

open PgrContract

/-- The cycles repeat the contraction order, that is they give the graph that performing the order
    so many times in a row gives, exactly when there is one cycle or the first one leaves no vertex
    that a kind of the order could contract. -/
theorem pgrContract_repeats_order_iff (g : PgrContractionGraph) (hg : g.Sound)
    (forb : Identifiers Nat) (order : List Int) (horder : ∀ k ∈ order, k = 1 ∨ k = 2)
    (times : Nat) (htimes : 1 ≤ times) :
    ∃ N g₁ g₂ g₃, (∀ n ≥ N, perform n forb order g = some g₁ ∧
        pgrContract n g forb order times = some g₂ ∧
        performTimes n forb order times g = some g₃) ∧
      (g₂.SameState g₃ ↔ times = 1 ∨ NothingLeft forb order g₁) := by
  have hmark : -1 ∉ order := by
    intro hmem
    have := horder _ hmem
    omega
  obtain ⟨kinds, rfl⟩ := exists_kinds horder
  obtain ⟨k, rfl⟩ : ∃ k, times = k + 1 := ⟨times - 1, by omega⟩
  -- One performance leads to a graph with the forbidden vertices set, if there is any kind.
  obtain ⟨g₁, hg₁, hkinds, N₁, hN₁⟩ : ∃ g₁ : PgrContractionGraph, g₁.Sound ∧
      (kinds ≠ [] → g₁.forbiddenVertices = forb) ∧
      ∃ N, ∀ n ≥ N, perform n forb (kinds.map number) g = some g₁ := by
    cases kinds with
    | nil => exact ⟨g, hg, fun h => absurd rfl h, 0, fun _ _ => rfl⟩
    | cons kind kinds =>
      have hset : ({ g with forbiddenVertices := forb } : PgrContractionGraph).Sound :=
        ⟨hg.nonneg, hg.ends, hg.isolated⟩
      obtain ⟨g₁, hrun, ⟨N, hN⟩, _⟩ := perform_spec forb (kind :: kinds) _ hset rfl
      refine ⟨g₁, hrun.sound hset, fun _ => (hrun.frame hset.nonneg).2.1, N, fun n hn => ?_⟩
      rw [← perform_setForbidden]
      exact hN n hn
  by_cases hempty : kinds = []
  · subst hempty
    refine ⟨1, g, g, g, fun n hn => ⟨rfl, ?_, performTimes_nil n (k + 1)⟩, ?_⟩
    · exact pgrContract_eq_perform hmark rfl (by simp; omega) htimes
    · refine iff_of_true ⟨rfl, rfl, rfl⟩ (.inr fun kind hkind => ?_)
      cases hkind
  · have hforb₁ := hkinds hempty
    obtain ⟨g₃, hrun, ⟨N₃, hN₃⟩, hsome, hnone⟩ := performTimes_runs forb kinds k g₁ hg₁ hforb₁
    refine ⟨max (max N₁ N₃) ((kinds.map number).length + 1), g₁, g₁, g₃, fun n hn => ?_, ?_⟩
    · have hone := hN₁ n (by omega)
      refine ⟨hone, pgrContract_eq_perform hmark hone (by omega) htimes, ?_⟩
      rw [performTimes, hone, Option.bind_some]
      exact hN₃ n (by omega)
    · rw [nothingLeft_iff hforb₁]
      constructor
      · intro hsame
        by_contra hcon
        rw [not_or] at hcon
        have hleft : ∃ kind ∈ kinds, ∃ v, g₁.Contractible (kind, v) := by
          simpa using hcon.2
        have hlt := hsome (by omega) hleft
        have hgraph : g₁.graph = g₃.graph := congrArg PgrBaseGraph.graph hsame.1
        rw [hgraph] at hlt
        exact lt_irrefl _ hlt
      · rintro (hone | hleft)
        · obtain rfl : k = 0 := by omega
          rw [← Option.some.inj (hN₃ N₃ (le_refl _))]
          exact ⟨rfl, rfl, rfl⟩
        · rw [hnone hleft]
          exact ⟨rfl, rfl, rfl⟩

/-- Three roads meet in 2. -/
def crossing : PgrContractionGraph :=
  .ofTable false [⟨1, 1, 2, 1, 1⟩, ⟨2, 2, 3, 1, 1⟩, ⟨3, 2, 4, 1, 1⟩]

theorem pgrContract_repeats_order_iff_crossing :
    ∃ N g₁ g₂ g₃, (∀ n ≥ N, perform n .empty [2, 1] crossing = some g₁ ∧
        pgrContract n crossing .empty [2, 1] (2 : Nat) = some g₂ ∧
        performTimes n .empty [2, 1] 2 crossing = some g₃) ∧
      (g₂.SameState g₃ ↔ 2 = 1 ∨ NothingLeft .empty [2, 1] g₁) :=
  pgrContract_repeats_order_iff crossing (ofTable_fresh _ _).sound .empty [2, 1] (by decide) 2
    (by decide)

/-- The vertices 1 and 3 are forbidden. The dead end 4 is contracted in the first cycle, and 2 is
    linear from then on, but the second cycle does not find the kind in the queue any more. -/
theorem pgrContract_loses_kinds :
    ∃ g₂ g₃, pgrContract 9 crossing ((Identifiers.empty.add 0).add 2) [2, 1] 2 = some g₂ ∧
      performTimes 9 ((Identifiers.empty.add 0).add 2) [2, 1] 2 crossing = some g₃ ∧
      ¬ g₂.SameState g₃ := by
  have hcode : (pgrContract 9 crossing ((Identifiers.empty.add 0).add 2) [2, 1] 2).map
      (fun g => g.graph.edges.length) = some 2 := by decide +kernel
  have htwice : (performTimes 9 ((Identifiers.empty.add 0).add 2) [2, 1] 2 crossing).map
      (fun g => g.graph.edges.length) = some 1 := by decide +kernel
  obtain ⟨g₂, hg₂, hlen₂⟩ := Option.map_eq_some_iff.mp hcode
  obtain ⟨g₃, hg₃, hlen₃⟩ := Option.map_eq_some_iff.mp htwice
  refine ⟨g₂, g₃, hg₂, hg₃, fun hsame => ?_⟩
  have hgraph : g₂.graph = g₃.graph := congrArg PgrBaseGraph.graph hsame.1
  rw [hgraph] at hlen₂
  omega

end PgRouting
