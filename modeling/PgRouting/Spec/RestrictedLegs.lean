import PgRouting.Native.TrspVia
import Mathlib.Data.List.Infix
import Mathlib.Data.List.TakeWhile

/-!
# Which legs are restricted

`get_combinations` follows a rule from the first place where the rule's first edge is, so
it misses a rule that starts at a later place, and it runs over the end of the list when
the list ends inside the rule. A path that breaks two rules is cleared twice, and the
second time its ends are zero.

## Key results

- `findRule_eq_true`, `findRule_eq_none`: what the check of one rule finds
- `getCombinations_spec`: which legs are cleared and which pairs are wanted
- `getCombinations_exact_iff`: when exactly the restricted paths are cleared
-/

namespace PgRouting

namespace Utilities

variable {ruleList : List Rule} {r : Rule} {p p' : Path} {paths paths' : List Path}
variable {new new' : Combinations} {edges : List Int}

/-! ## The check of a rule -/

/-- The edges of the list from the first place where the first edge of the rule is. -/
def fromFirst (edges : List Int) (r : Rule) : List Int :=
  edges.dropWhile fun e => decide (r.all.head? ≠ some e)

theorem ruleBreaker_eq_true {edges rule : List Int} :
    ruleBreaker edges rule = some true ↔ rule <+: edges := by
  induction rule generalizing edges with
  | nil => simp [ruleBreaker]
  | cons e rule ih =>
    cases edges with
    | nil => simp [ruleBreaker]
    | cons x edges =>
      rw [ruleBreaker, List.cons_prefix_cons]
      by_cases hx : x = e
      · rw [if_neg (not_not.mpr hx), ih]
        exact (and_iff_right hx.symm).symm
      · rw [if_pos hx]
        exact iff_of_false (by simp) fun h => hx h.1.symm

/-- The check runs over the end when the list ends inside the rule. -/
theorem ruleBreaker_eq_none {edges rule : List Int} :
    ruleBreaker edges rule = none ↔ edges <+: rule ∧ edges ≠ rule := by
  induction rule generalizing edges with
  | nil =>
    simp only [ruleBreaker, reduceCtorEq, List.prefix_nil, false_iff, not_and, not_not]
    exact id
  | cons e rule ih =>
    cases edges with
    | nil => simp [ruleBreaker]
    | cons x edges =>
      rw [ruleBreaker, List.cons_prefix_cons]
      by_cases hx : x = e
      · rw [if_neg (not_not.mpr hx), ih, and_iff_right hx, hx]
        simp
      · rw [if_pos hx]
        exact iff_of_false (by simp) fun h => hx h.1.1

theorem findRule_cons {f : Int} {rest : List Int} (hr : r.all = f :: rest) :
    findRule edges r = if fromFirst edges r = [] then some false
      else ruleBreaker (fromFirst edges r) r.all := by
  have hfirst : (edges.dropWhile fun e => decide (e ≠ f)) = fromFirst edges r := by
    rw [fromFirst, hr]
    congr 1
    funext e
    simp [eq_comm]
  simp only [findRule, hr, List.head?_cons, Option.bind_eq_bind, Option.bind_some]
  rw [hfirst]
  split
  · rename_i hnil
    rw [if_pos hnil]
    rfl
  · rename_i hne
    rw [if_neg hne]

/-- A rule is found when it stands where its first edge is for the first time. -/
theorem findRule_eq_true :
    findRule edges r = some true ↔ r.all ≠ [] ∧ r.all <+: fromFirst edges r := by
  cases hr : r.all with
  | nil => simp [findRule, hr]
  | cons f rest =>
    rw [findRule_cons hr]
    split
    · rename_i hnil
      simp [hnil]
    · rw [ruleBreaker_eq_true, hr]
      simp

theorem findRule_eq_none : findRule edges r = none ↔ r.all = [] ∨
    fromFirst edges r ≠ [] ∧ fromFirst edges r <+: r.all ∧ fromFirst edges r ≠ r.all := by
  cases hr : r.all with
  | nil => simp [findRule, hr]
  | cons f rest =>
    rw [findRule_cons hr]
    split
    · rename_i hnil
      simp [hnil]
    · rename_i hne
      rw [ruleBreaker_eq_none, hr]
      simp [hne]

/-! ## Cleared paths -/

/-- The pair of the ends of a path. -/
def ends (p : Path) : Int × Int := (p.startId, p.endId)

/-- The path is empty or breaks a rule. -/
def cleared (ruleList : List Rule) (p : Path) : Bool :=
  p.path.isEmpty || ruleList.any fun r => findRule (edgesList p) r = some true

/-- How many rules are found in the list. -/
def breaks (ruleList : List Rule) (edges : List Int) : Nat :=
  ruleList.countP fun r => findRule edges r = some true

variable (ruleList) in
theorem cleared_iff (hne : p.path.isEmpty = false) :
    cleared ruleList p = true ↔ 0 < breaks ruleList (edgesList p) := by
  rw [cleared, hne, Bool.false_or, List.any_eq_true, breaks, List.countP_pos_iff]

/-- A path that breaks a rule is cleared, and its pair is wanted. Each further rule that it breaks
    adds the pair of a cleared path. -/
theorem checkRules_spec (h : checkRules edges ruleList p new = some (p', new')) :
    p' = (if 0 < breaks ruleList edges then p.clear else p) ∧ ∀ k, k ∈ new' ↔ k ∈ new ∨
      (0 < breaks ruleList edges ∧ k = toLex (ends p)) ∨
      (1 < breaks ruleList edges ∧ k = toLex (0, 0)) := by
  induction ruleList generalizing p new with
  | nil =>
    obtain ⟨rfl, rfl⟩ := Prod.mk.inj (Option.some.inj h)
    simp [breaks]
  | cons r ruleList ih =>
    simp only [checkRules, Option.bind_eq_bind, Option.bind_eq_some_iff] at h
    obtain ⟨breaker, hr, h⟩ := h
    cases breaker with
    | false =>
      have hcount : breaks (r :: ruleList) edges = breaks ruleList edges := by
        rw [breaks, List.countP_cons_of_neg (by simp [hr])]
        rfl
      rw [hcount]
      exact ih h
    | true =>
      have hcount : breaks (r :: ruleList) edges = breaks ruleList edges + 1 := by
        rw [breaks, List.countP_cons_of_pos (by simp [hr])]
        rfl
      obtain ⟨hp', hmem⟩ := ih h
      constructor
      · rw [hp', if_pos (by omega : 0 < breaks (r :: ruleList) edges)]
        split <;> rfl
      · -- From the second rule on the ends are those of a cleared path.
        intro k
        have hzero : ends p.clear = (0, 0) := rfl
        rw [hmem, Identifiers.mem_add, hzero, hcount]
        have hmany : 1 < breaks ruleList edges → 0 < breaks ruleList edges := by omega
        simp only [Nat.lt_add_left_iff_pos, Nat.succ_pos, true_and]
        tauto

theorem checkRules_isSome : (checkRules edges ruleList p new).isSome = true ↔
    ∀ r ∈ ruleList, findRule edges r ≠ none := by
  induction ruleList generalizing p new with
  | nil => simp [checkRules]
  | cons r ruleList ih =>
    rw [List.forall_mem_cons, checkRules]
    cases hr : findRule edges r with
    | none => simp
    | some breaker =>
      cases breaker with
      | false => simpa using ih
      | true => simpa using ih

/-- The body of the loop over the paths. -/
theorem checkPath_spec (h : checkPath ruleList p new = some (p', new')) :
    p' = (if cleared ruleList p then if p.path.isEmpty then p else p.clear else p) ∧
    ∀ k, k ∈ new' ↔ k ∈ new ∨ (cleared ruleList p = true ∧ k = toLex (ends p)) ∨
      ((p.path ≠ [] ∧ 1 < breaks ruleList (edgesList p)) ∧ k = toLex (0, 0)) := by
  rw [checkPath] at h
  split at h
  · rename_i hnil
    obtain ⟨rfl, rfl⟩ := Prod.mk.inj (Option.some.inj h)
    have hc : cleared ruleList p = true := by rw [cleared, hnil, Bool.true_or]
    have hrows : p.path = [] := List.isEmpty_iff.mp hnil
    refine ⟨by rw [hc, hnil]; rfl, fun k => ?_⟩
    rw [Identifiers.mem_add, hc]
    simp only [hrows, true_and, ne_eq, not_true_eq_false, false_and, or_false]
    exact or_comm
  · rename_i hne
    have hrows : p.path ≠ [] := by simpa using hne
    obtain ⟨hp', hmem⟩ := checkRules_spec h
    have hc := cleared_iff ruleList (Bool.eq_false_iff.mpr hne)
    constructor
    · rw [hp', if_neg hne]
      simp only [hc]
    · intro k
      rw [hmem, hc]
      simp only [hrows, ne_eq, not_false_eq_true, true_and]

variable (new) in
theorem checkPath_isSome : (checkPath ruleList p new).isSome = true ↔
    (p.path ≠ [] → ∀ r ∈ ruleList, findRule (edgesList p) r ≠ none) := by
  rw [checkPath]
  split
  · rename_i hnil
    simp [List.isEmpty_iff.mp hnil]
  · rename_i hne
    have hrows : p.path ≠ [] := by simpa using hne
    rw [checkRules_isSome]
    exact ⟨fun h _ => h, fun h => h hrows⟩

theorem combinationsLoop_spec (h : combinationsLoop ruleList paths new = some (paths', new')) :
    (paths'.filter fun p => !p.path.isEmpty) = (paths.filter fun p => !cleared ruleList p) ∧
    ∀ k, k ∈ new' ↔ k ∈ new ∨ (∃ p ∈ paths, cleared ruleList p = true ∧ k = toLex (ends p)) ∨
      ((∃ p ∈ paths, p.path ≠ [] ∧ 1 < breaks ruleList (edgesList p)) ∧ k = toLex (0, 0)) := by
  induction paths generalizing new paths' with
  | nil =>
    obtain ⟨rfl, rfl⟩ := Prod.mk.inj (Option.some.inj h)
    simp
  | cons p paths ih =>
    simp only [combinationsLoop, Option.bind_eq_bind, Option.bind_eq_some_iff, Option.pure_def,
      Option.some.injEq, Prod.mk.injEq] at h
    obtain ⟨⟨p₁, new₁⟩, hone, ⟨paths₁, new₂⟩, hrest, rfl, rfl⟩ := h
    obtain ⟨hfilter, hmem⟩ := ih hrest
    -- What becomes of the first path and which pairs it adds; the rest is the hypothesis.
    obtain ⟨hp₁, hmem₁⟩ := checkPath_spec hone
    constructor
    · cases hc : cleared ruleList p with
      | false =>
        have hne : (!p.path.isEmpty) = true := by
          rw [cleared, Bool.or_eq_false_iff] at hc
          rw [hc.1]
          rfl
        rw [hp₁, hc, List.filter_cons_of_pos (by simpa using hne), hfilter,
          List.filter_cons_of_pos (by simp [hc])]
        rfl
      | true =>
        have hnil : p₁.path.isEmpty = true := by
          rw [hp₁, hc, if_pos rfl]
          split
          · assumption
          · rfl
        rw [List.filter_cons_of_neg (by simp [hnil]), hfilter,
          List.filter_cons_of_neg (by simp [hc])]
    · intro k
      rw [hmem, hmem₁]
      simp only [List.mem_cons, or_and_right]
      grind

variable (new) in
theorem combinationsLoop_isSome : (combinationsLoop ruleList paths new).isSome = true ↔
    ∀ p ∈ paths, p.path ≠ [] → ∀ r ∈ ruleList, findRule (edgesList p) r ≠ none := by
  induction paths generalizing new with
  | nil => simp [combinationsLoop]
  | cons p paths ih =>
    rw [List.forall_mem_cons, ← checkPath_isSome new, combinationsLoop]
    cases hone : checkPath ruleList p new with
    | none => simp
    | some s =>
      have hrest := ih s.2
      simp only [Option.bind_eq_bind, Option.bind_some, Option.isSome_some, true_and]
      rw [← hrest]
      cases combinationsLoop ruleList paths s.2 with
      | none => rfl
      | some s' => rfl

/-- `get_combinations` keeps the paths that are not cleared and wants the pairs of the others. -/
theorem getCombinations_spec {kept : List Path} {wanted : Combinations}
    (h : getCombinations paths ruleList = some (kept, wanted)) :
    kept = (paths.filter fun p => !cleared ruleList p) ∧
    ∀ k, k ∈ wanted ↔ (∃ p ∈ paths, cleared ruleList p = true ∧ k = toLex (ends p)) ∨
      ((∃ p ∈ paths, p.path ≠ [] ∧ 1 < breaks ruleList (edgesList p)) ∧ k = toLex (0, 0)) := by
  simp only [getCombinations, Option.bind_eq_bind, Option.bind_eq_some_iff, Option.pure_def,
    Option.some.injEq, Prod.mk.injEq] at h
  obtain ⟨⟨paths₁, new₁⟩, hloop, rfl, rfl⟩ := h
  obtain ⟨hfilter, hmem⟩ := combinationsLoop_spec hloop
  refine ⟨hfilter, fun k => (hmem k).trans (or_iff_right fun hno => ?_)⟩
  cases hno

theorem getCombinations_isSome : (getCombinations paths ruleList).isSome = true ↔
    ∀ p ∈ paths, p.path ≠ [] → ∀ r ∈ ruleList, findRule (edgesList p) r ≠ none := by
  rw [← combinationsLoop_isSome .empty, getCombinations]
  cases combinationsLoop ruleList paths .empty with
  | none => rfl
  | some s => rfl

/-! ## Restricted paths -/

/-- The path is empty or goes along the edges of a rule. -/
def Restricted (ruleList : List Rule) (p : Path) : Prop :=
  p.path = [] ∨ ∃ r ∈ ruleList, r.all <:+: p.path.map (·.edge)

instance : Decidable (Restricted ruleList p) :=
  inferInstanceAs (Decidable (_ ∨ _))

/-- The rule stands where its first edge is for the first time. -/
def StandsFirst (edges : List Int) (r : Rule) : Prop := r.all <+: fromFirst edges r

instance : Decidable (StandsFirst edges r) :=
  inferInstanceAs (Decidable (r.all <+: fromFirst edges r))

/-- The list ends inside the rule. -/
def EndsInside (edges : List Int) (r : Rule) : Prop :=
  fromFirst edges r ≠ [] ∧ fromFirst edges r <+: r.all ∧ fromFirst edges r ≠ r.all

theorem readable_iff : (∀ r ∈ ruleList, findRule edges r ≠ none) ↔
    ∀ r ∈ ruleList, r.all ≠ [] ∧ ¬ EndsInside edges r := by
  simp only [EndsInside, ne_eq, findRule_eq_none, not_or]

theorem findRule_iff_standsFirst (hne : r.all ≠ []) :
    findRule edges r = some true ↔ StandsFirst edges r := by
  rw [findRule_eq_true, StandsFirst, and_iff_right hne]

/-! ## What that means for the edges of the path -/

/-- The edges of the path. -/
def usedEdges (p : Path) : List Int := p.path.map (·.edge)

/-- The path goes along the rule from the first time that it uses the rule's first edge. -/
def GoesAlong (used : List Int) (r : Rule) : Prop :=
  ∃ a b, used = a ++ (r.all ++ b) ∧ ∀ e ∈ r.all.head?, e ∉ a

/-- From the first time that it uses the rule's first edge the path goes along the rule, and it ends
    before the rule does. -/
def EndsOnRule (used : List Int) (r : Rule) : Prop :=
  ∃ a c, used = a ++ c ∧ c ≠ [] ∧ c <+: r.all ∧ c ≠ r.all ∧ ∀ e ∈ r.all.head?, e ∉ a

/-- As many zeros as there are edges, and the edges. -/
def behindZeros (used : List Int) : List Int := List.replicate used.length 0 ++ used

/-- The rule is noticed: the path goes along it from the first use of its first edge, or it begins
    with the edge 0 and is zeros with the first edges of the path after them. -/
def Noticed (used : List Int) (r : Rule) : Prop :=
  if r.all.head? = some 0 then r.all <+: behindZeros used else GoesAlong used r

/-- The path ends on the rule, or the rule begins with the edge 0 and the zeros with the whole path
    after them are less than the rule. -/
def CutOff (used : List Int) (r : Rule) : Prop :=
  if r.all.head? = some 0 then behindZeros used <+: r.all ∧ behindZeros used ≠ r.all
  else EndsOnRule used r

theorem fromFirst_append {a c rest : List Int} {f : Int} (hr : r.all = f :: rest) (ha : f ∉ a)
    (hc : c.head? = some f) : fromFirst (a ++ c) r = c := by
  have hskip : ∀ x ∈ a, decide (r.all.head? ≠ some x) = true := by
    intro x hx
    rw [hr, decide_eq_true_eq]
    rintro ⟨⟩
    exact ha hx
  obtain ⟨c', rfl⟩ := List.head?_eq_some_iff.mp hc
  rw [fromFirst, List.dropWhile_append_of_pos hskip, List.dropWhile_cons_of_neg (by simp [hr])]

theorem exists_fromFirst (edges : List Int) (r : Rule) :
    ∃ a, edges = a ++ fromFirst edges r ∧ ∀ e ∈ r.all.head?, e ∉ a := by
  refine ⟨edges.takeWhile fun e => decide (r.all.head? ≠ some e),
    List.takeWhile_append_dropWhile.symm, fun e he hmem => ?_⟩
  have hskip := List.mem_takeWhile_imp hmem
  rw [decide_eq_true_eq] at hskip
  exact hskip he

theorem goesAlong_iff : GoesAlong edges r ↔ StandsFirst edges r := by
  constructor
  · rintro ⟨a, b, rfl, ha⟩
    rw [StandsFirst]
    cases hr : r.all with
    | nil => exact List.nil_prefix
    | cons f rest =>
      rw [fromFirst_append hr (ha f (by rw [hr]; rfl)) rfl]
      exact List.prefix_append _ _
  · rintro ⟨b, hb⟩
    obtain ⟨a, hsplit, ha⟩ := exists_fromFirst edges r
    exact ⟨a, b, hb ▸ hsplit, ha⟩

instance (used : List Int) (r : Rule) : Decidable (Noticed used r) :=
  if hzero : r.all.head? = some 0 then
    decidable_of_iff (r.all <+: behindZeros used) (by rw [Noticed, if_pos hzero])
  else
    decidable_of_iff (StandsFirst used r) (by rw [Noticed, if_neg hzero, goesAlong_iff])

theorem endsOnRule_iff (hne : r.all ≠ []) : EndsOnRule edges r ↔ EndsInside edges r := by
  obtain ⟨f, rest, hr⟩ := List.exists_cons_of_ne_nil hne
  constructor
  · rintro ⟨a, c, rfl, hc, hprefix, hless, ha⟩
    have hhead : c.head? = some f := by
      rw [List.head?_eq_some_head hc, hprefix.head hc]
      simp [hr]
    rw [EndsInside, fromFirst_append hr (ha f (by rw [hr]; rfl)) hhead]
    exact ⟨hc, hprefix, hless⟩
  · rintro ⟨hc, hprefix, hless⟩
    obtain ⟨a, hsplit, ha⟩ := exists_fromFirst edges r
    exact ⟨a, _, hsplit, hc, hprefix, hless, ha⟩

/-- The zeros before the edges are skipped, unless the rule begins with one. -/
theorem fromFirst_edgesList (hrows : p.path ≠ []) : fromFirst (edgesList p) r =
    if r.all.head? = some 0 then behindZeros (usedEdges p) else fromFirst (usedEdges p) r := by
  have hlist : edgesList p = behindZeros (usedEdges p) := by
    rw [behindZeros, usedEdges, List.length_map]
    rfl
  rw [hlist]
  split
  · rename_i hzero
    obtain ⟨row, rows, hp⟩ := List.exists_cons_of_ne_nil hrows
    have hcons : behindZeros (usedEdges p) =
        0 :: (List.replicate rows.length 0 ++ usedEdges p) := by
      rw [behindZeros, usedEdges, List.length_map, hp, List.length_cons, List.replicate_succ]
      rfl
    rw [hcons, fromFirst, List.dropWhile_cons_of_neg (by simp [hzero])]
  · rename_i hzero
    refine List.dropWhile_append_of_pos fun x hx => ?_
    rw [List.eq_of_mem_replicate hx]
    simpa using hzero

theorem noticed_iff (hrows : p.path ≠ []) :
    Noticed (usedEdges p) r ↔ StandsFirst (edgesList p) r := by
  rw [Noticed, StandsFirst, fromFirst_edgesList hrows]
  split
  · rfl
  · exact goesAlong_iff

theorem cutOff_iff (hrows : p.path ≠ []) (hne : r.all ≠ []) :
    CutOff (usedEdges p) r ↔ EndsInside (edgesList p) r := by
  rw [CutOff, EndsInside, fromFirst_edgesList hrows]
  split
  · refine (and_iff_right ?_).symm
    rw [behindZeros, ne_eq, List.append_eq_nil_iff, not_and]
    intro _ hnil
    exact hrows (List.map_eq_nil_iff.mp hnil)
  · exact endsOnRule_iff hne

/-- A rule that is noticed is on the path, unless it begins with the edge 0. -/
theorem Noticed.on_path (h : Noticed edges r) (hzero : r.all.head? ≠ some 0) :
    r.all <:+: edges := by
  rw [Noticed, if_neg hzero] at h
  obtain ⟨a, b, rfl, _⟩ := h
  exact ⟨a, b, List.append_assoc _ _ _⟩

/-- No rule is empty, and the path is cut off on none. -/
def Readable (ruleList : List Rule) (p : Path) : Prop :=
  p.path ≠ [] → ∀ r ∈ ruleList, r.all ≠ [] ∧ ¬ CutOff (usedEdges p) r

/-- When the path goes along rules, it goes along one of them from the first use of the rule's first
    edge, and no rule begins with the edge 0 and is only noticed for the zeros. -/
structure Tellable (ruleList : List Rule) (used : List Int) : Prop where
  in_time : (∃ r ∈ ruleList, r.all <:+: used) → ∃ r ∈ ruleList, Noticed used r
  no_zeros : ∀ r ∈ ruleList, r.all.head? = some 0 → r.all <+: behindZeros used →
    ∃ r' ∈ ruleList, r'.all <:+: used

theorem Readable.findRule_ne (h : Readable ruleList p) (hrows : p.path ≠ []) :
    ∀ r ∈ ruleList, findRule (edgesList p) r ≠ none := by
  refine readable_iff.mpr fun r hr => ?_
  obtain ⟨hne, hcut⟩ := h hrows r hr
  exact ⟨hne, fun hends => hcut ((cutOff_iff hrows hne).mpr hends)⟩

theorem readable_of_findRule_ne
    (h : p.path ≠ [] → ∀ r ∈ ruleList, findRule (edgesList p) r ≠ none) :
    Readable ruleList p := by
  intro hrows r hr
  obtain ⟨hne, hends⟩ := readable_iff.mp (h hrows) r hr
  exact ⟨hne, fun hcut => hends ((cutOff_iff hrows hne).mp hcut)⟩

theorem breaks_eq (hrows : p.path ≠ []) (hne : ∀ r ∈ ruleList, r.all ≠ []) :
    breaks ruleList (edgesList p) = ruleList.countP fun r => Noticed (usedEdges p) r := by
  apply List.countP_congr
  intro r hr
  rw [decide_eq_true_eq, decide_eq_true_eq, findRule_iff_standsFirst (hne r hr),
    noticed_iff hrows]

theorem cleared_iff_noticed (hrows : p.path ≠ []) (hne : ∀ r ∈ ruleList, r.all ≠ []) :
    cleared ruleList p = true ↔ ∃ r ∈ ruleList, Noticed (usedEdges p) r := by
  rw [cleared_iff ruleList (by simpa using hrows), breaks_eq hrows hne, List.countP_pos_iff]
  simp only [decide_eq_true_eq]

/-- The cleared paths are the restricted ones when these can be told. -/
theorem cleared_iff_restricted (hne : p.path ≠ [] → ∀ r ∈ ruleList, r.all ≠ []) :
    (cleared ruleList p = true ↔ Restricted ruleList p) ↔
      (p.path ≠ [] → Tellable ruleList (usedEdges p)) := by
  by_cases hrows : p.path = []
  · have hc : cleared ruleList p = true := by rw [cleared, hrows]; rfl
    have hr : Restricted ruleList p := .inl hrows
    exact iff_of_true (iff_of_true hc hr) fun h => absurd hrows h
  · rw [cleared_iff_noticed hrows (hne hrows), Restricted, or_iff_right hrows,
      imp_iff_right hrows]
    constructor
    · intro h
      refine ⟨h.mpr, fun r hr hzero hprefix => h.mp ⟨r, hr, ?_⟩⟩
      rw [Noticed, if_pos hzero]
      exact hprefix
    · intro h
      refine ⟨?_, h.in_time⟩
      rintro ⟨r, hr, hnoticed⟩
      by_cases hzero : r.all.head? = some 0
      · rw [Noticed, if_pos hzero] at hnoticed
        exact h.no_zeros r hr hzero hnoticed
      · exact ⟨r, hr, hnoticed.on_path hzero⟩

theorem filter_eq_filter_iff {α : Type} {f g : α → Bool} {l : List α} :
    l.filter f = l.filter g ↔ ∀ a ∈ l, f a = g a := by
  refine ⟨fun h a ha => ?_, List.filter_congr⟩
  have hmem : a ∈ l.filter f ↔ a ∈ l.filter g := by rw [h]
  rw [List.mem_filter, List.mem_filter, and_iff_right ha, and_iff_right ha] at hmem
  exact Bool.eq_iff_iff.mpr hmem

/-- `get_combinations` clears exactly the restricted paths and returns exactly their pairs when it
    can read every rule, a restricted path uses no first edge of its rules too early, no rule is
    made up of zeros, and a path on which two rules are noticed is only there if zeros are the ends
    of a restricted path. -/
theorem getCombinations_exact_iff (paths : List Path) (ruleList : List Rule) :
    (∃ kept wanted, getCombinations paths ruleList = some (kept, wanted) ∧
      kept = (paths.filter fun p => ¬ Restricted ruleList p) ∧
      ∀ k, k ∈ wanted ↔ ∃ p ∈ paths, Restricted ruleList p ∧ k = toLex (p.startId, p.endId)) ↔
    (∀ p ∈ paths, Readable ruleList p) ∧
    (∀ p ∈ paths, p.path ≠ [] → Tellable ruleList (usedEdges p)) ∧
    ((∃ p ∈ paths, p.path ≠ [] ∧ 1 < ruleList.countP fun r => Noticed (usedEdges p) r) →
      ∃ p ∈ paths, Restricted ruleList p ∧ p.startId = 0 ∧ p.endId = 0) := by
  by_cases hread : ∀ p ∈ paths, Readable ruleList p
  case neg =>
    refine iff_of_false ?_ fun h => hread h.1
    rintro ⟨kept, wanted, hrun, _⟩
    have hsome := getCombinations_isSome.mp (Option.isSome_of_eq_some hrun)
    exact hread fun p hp => readable_of_findRule_ne (hsome p hp)
  have hne : ∀ p ∈ paths, p.path ≠ [] → ∀ r ∈ ruleList, r.all ≠ [] :=
    fun p hp hrows r hr => (hread p hp hrows r hr).1
  obtain ⟨⟨kept, wanted⟩, hrun⟩ := Option.isSome_iff_exists.mp
    (getCombinations_isSome.mpr fun p hp => (hread p hp).findRule_ne)
  obtain ⟨hkept, hwanted⟩ := getCombinations_spec hrun
  -- The paths that are left say which paths are cleared.
  have hfilter : (kept = paths.filter fun p => ¬ Restricted ruleList p) ↔
      ∀ p ∈ paths, (cleared ruleList p = true ↔ Restricted ruleList p) := by
    rw [hkept, filter_eq_filter_iff]
    refine forall₂_congr fun p _ => ?_
    rw [Bool.eq_iff_iff, Bool.not_eq_true', decide_eq_true_eq, ← Bool.not_eq_true]
    exact not_iff_not
  have hfirst : (∀ p ∈ paths, (cleared ruleList p = true ↔ Restricted ruleList p)) ↔
      ∀ p ∈ paths, p.path ≠ [] → Tellable ruleList (usedEdges p) :=
    forall₂_congr fun p hp => cleared_iff_restricted (hne p hp)
  have htwo : (∃ p ∈ paths, p.path ≠ [] ∧ 1 < breaks ruleList (edgesList p)) ↔
      ∃ p ∈ paths, p.path ≠ [] ∧ 1 < ruleList.countP fun r => Noticed (usedEdges p) r := by
    refine exists_congr fun p => and_congr_right fun hp => and_congr_right fun hrows => ?_
    rw [breaks_eq hrows (hne p hp hrows)]
  rw [htwo] at hwanted
  constructor
  · rintro ⟨kept', wanted', hrun', hkept', hwanted'⟩
    obtain ⟨rfl, rfl⟩ := Prod.mk.inj (Option.some.inj (hrun.symm.trans hrun'))
    refine ⟨hread, hfirst.mp (hfilter.mp hkept'), fun hmany => ?_⟩
    obtain ⟨p, hp, hres, hzero⟩ := (hwanted' _).mp ((hwanted _).mpr (.inr ⟨hmany, rfl⟩))
    obtain ⟨hs, ht⟩ := Prod.mk.inj (toLex.injective hzero)
    exact ⟨p, hp, hres, hs.symm, ht.symm⟩
  · rintro ⟨_, hstands, hmany⟩
    have hcleared := hfirst.mpr hstands
    refine ⟨kept, wanted, hrun, hfilter.mpr hcleared, fun k => (hwanted k).trans ?_⟩
    constructor
    · rintro (⟨p, hp, hc, rfl⟩ | ⟨htwice, rfl⟩)
      · exact ⟨p, hp, (hcleared p hp).mp hc, rfl⟩
      · obtain ⟨p, hp, hres, hs, ht⟩ := hmany htwice
        exact ⟨p, hp, hres, by rw [hs, ht]⟩
    · rintro ⟨p, hp, hres, rfl⟩
      exact .inl ⟨p, hp, (hcleared p hp).mpr hres, rfl⟩

/-- A path along the edges 5, 6 and 7. -/
def threeEdges : Path where
  startId := 1
  endId := 4
  totCost := 3
  path := [⟨1, 5, 1, 0⟩, ⟨2, 6, 1, 1⟩, ⟨3, 7, 1, 2⟩, ⟨4, -1, 0, 3⟩]

/-- The rules 5, 6 and 6, 7. -/
def twoRules : List Rule :=
  [.new ⟨1, [5, 6], by decide⟩, .new ⟨1, [6, 7], by decide⟩]

/-- The path breaks both rules, and a pair of zeros comes out beside its own. -/
theorem getCombinations_adds_zeros :
    ¬ ∃ kept wanted, getCombinations [threeEdges] twoRules = some (kept, wanted) ∧
      kept = ([threeEdges].filter fun p => ¬ Restricted twoRules p) ∧
      ∀ k, k ∈ wanted ↔
        ∃ p ∈ [threeEdges], Restricted twoRules p ∧ k = toLex (p.startId, p.endId) := by
  rintro ⟨kept, wanted, hrun, _, hwanted⟩
  have hzero : (getCombinations [threeEdges] twoRules).map (fun r => r.2.ids) =
      some [toLex (0, 0), toLex (1, 4)] := by
    decide
  rw [hrun, Option.map_some, Option.some.injEq] at hzero
  have hmem : toLex (0, 0) ∈ wanted.ids := by
    rw [hzero]
    exact List.mem_cons_self
  obtain ⟨p, hp, _, heq⟩ := (hwanted (toLex (0, 0))).mp hmem
  obtain rfl := List.mem_singleton.mp hp
  exact absurd (Prod.mk.inj (toLex.injective heq)).1 (by decide)

end Utilities

end PgRouting
