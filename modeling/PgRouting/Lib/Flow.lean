import Mathlib.Algebra.BigOperators.Ring.Finset
import Mathlib.Algebra.Order.BigOperators.Group.Finset
import Mathlib.Algebra.Order.Ring.Int
import Mathlib.Logic.Relation
import Mathlib.Tactic.Linarith
import Mathlib.Tactic.Positivity
import Mathlib.Tactic.Ring
import PgRouting.Lib.Multigraph

/-!
# Flows

A network has finitely many arcs, and each has an opposite one. A flow is given on the arcs, and
counts negatively on the opposite ones.

The flow from one vertex to another is what passes any set of vertices between them. When no arc
with room to spare leaves the vertices that such arcs reach, it is the capacity of the arcs that
leave these vertices, and more is not possible. Flows that augmenting paths build up never enter
the second vertex of all these paths.

A flow of at most one on each arc is taken apart into walks by following unused arcs.

## Key results

- `IsFlow.net_eq`: the flow through a cut
- `IsFlow.exists_minCut`: a flow without an augmenting path fills a cut
- `length_le_of_cut`: walks without a common arc are no more than the arcs of a cut
- `Augmented.isFlow`, `Augmented.le_zero`: flows that are built up by augmenting paths
- `Balanced.exists_next`: a walk along unused arcs goes on
-/

namespace PgRouting

open Relation

/-- A network whose arcs have opposite ones. -/
structure FlowNetwork (V E : Type*) extends Multigraph V E where
  rev : E → E
  rev_rev : ∀ e, rev (rev e) = e
  source_rev : ∀ e, source (rev e) = target e

namespace FlowNetwork

open Multigraph

variable {V E : Type*} (N : FlowNetwork V E) {capacity f : E → ℤ} {s t u v w : V} {e : E}
  {p : List E}

@[simp] theorem target_rev (e : E) : N.target (N.rev e) = N.source e := by
  rw [← N.source_rev, N.rev_rev]

/-- An arc with room to spare leads from one vertex to the other. -/
def Residual (capacity f : E → ℤ) (u v : V) : Prop :=
  ∃ e, N.source e = u ∧ N.target e = v ∧ f e < capacity e

variable {N}

/-! ## Walks along unused arcs -/

section Walks

variable [DecidableEq V]

variable (N) in
/-- Of the arcs used, as many enter a vertex between `s` and `t` as leave it, but at `v`, where a
    walk stands, one more enters. -/
def Balanced (s t : V) (used : Finset E) (v : V) : Prop :=
  ∀ w, w ≠ s → w ≠ t →
    (N.inArcs used w).card = (N.outArcs used w).card + if v = w then 1 else 0

theorem balanced_empty : N.Balanced s t ∅ s := by
  intro w hs ht
  rw [if_neg (Ne.symm hs)]
  rfl

/-- A walk that has come to an end is no longer there. -/
theorem Balanced.done {used : Finset E} (h : N.Balanced s t used t) : N.Balanced s t used s := by
  intro w hs ht
  rw [h w hs ht, if_neg (Ne.symm ht), if_neg (Ne.symm hs)]

/-- At a vertex that as many arcs leave as enter, a walk along unused arcs goes on. -/
theorem Balanced.exists_next {used F : Finset E} (h : N.Balanced s t used v) (hs : v ≠ s)
    (ht : v ≠ t) (hsub : used ⊆ F) (hF : (N.inArcs F v).card = (N.outArcs F v).card) :
    ∃ e ∈ F, e ∉ used ∧ N.source e = v := by
  have hmore := h v hs ht
  rw [if_pos rfl] at hmore
  exact exists_unused (by omega) hsub hF

/-- The walk goes along an arc that has not been used. -/
theorem Balanced.next [DecidableEq E] {used : Finset E} (h : N.Balanced s t used (N.source e))
    (he : e ∉ used) : N.Balanced s t (insert e used) (N.target e) := by
  intro w hs ht
  have hstep := h w hs ht
  simp only [inArcs, outArcs] at hstep ⊢
  rw [card_filter_insert he, card_filter_insert he]
  omega

end Walks

theorem count_le_one [DecidableEq E] (hsimple : (s :: p.map N.target).Nodup) (e : E) :
    p.count e ≤ 1 :=
  List.nodup_iff_count_le_one.mp (List.nodup_cons.mp hsimple).2.of_map e

variable [Fintype E]

/-! ## Flows and cuts -/

variable (N) in
/-- The arcs that leave a set of vertices. -/
def leaving (R : V → Prop) [DecidablePred R] : Finset E := {e | R (N.source e) ∧ ¬ R (N.target e)}

/-- Sums over the arcs that enter a vertex are sums over their opposites. -/
theorem sum_rev (g : E → ℤ) (q : V → V → Prop) [∀ u v, Decidable (q u v)] :
    ∑ e with q (N.source e) (N.target e), g (N.rev e) =
      ∑ e with q (N.target e) (N.source e), g e := by
  refine Finset.sum_nbij' N.rev N.rev ?_ ?_ ?_ ?_ ?_
  · simp [N.source_rev]
  · simp [N.source_rev]
  · simp [N.rev_rev]
  · simp [N.rev_rev]
  · simp

/-- Walks out of a set that have no arc in common are no more than the arcs that leave it. -/
theorem length_le_of_cut [DecidableEq E] {R : V → Prop} [DecidablePred R] (hu : R u) (hv : ¬ R v)
    (hcapacity : ∀ e, 0 ≤ capacity e) {walks : List (List E)}
    (hjoins : ∀ p ∈ walks, N.Joins u p v) (hnodup : walks.flatten.Nodup)
    (hopen : ∀ e ∈ walks.flatten, 0 < capacity e) :
    (walks.length : ℤ) ≤ ∑ e ∈ N.leaving R, capacity e := by
  -- Each walk crosses the cut on an arc of its own.
  have hcross : walks.length ≤ (walks.flatten.filter (· ∈ N.leaving R)).length := by
    clear hnodup hopen
    induction walks with
    | nil => exact le_refl 0
    | cons p walks ih =>
      obtain ⟨e, he, hleaves⟩ := (hjoins p List.mem_cons_self).exists_leaving hu hv
      have hpos : 0 < (p.filter (· ∈ N.leaving R)).length :=
        List.length_pos_of_mem (List.mem_filter.mpr ⟨he, by simp [leaving, hleaves]⟩)
      have hrest := ih fun q hq => hjoins q (List.mem_cons_of_mem _ hq)
      simp only [List.flatten_cons, List.filter_append, List.length_append, List.length_cons]
      omega
  have hsub : (walks.flatten.filter (· ∈ N.leaving R)).toFinset ⊆ N.leaving R := by
    intro e he
    simpa using (List.mem_filter.mp (List.mem_toFinset.mp he)).2
  have hcard := List.toFinset_card_of_nodup (hnodup.filter (· ∈ N.leaving R))
  calc (walks.length : ℤ) ≤ (walks.flatten.filter (· ∈ N.leaving R)).toFinset.card := by
        rw [hcard]
        exact_mod_cast hcross
    _ = ∑ e ∈ (walks.flatten.filter (· ∈ N.leaving R)).toFinset, 1 := by simp
    _ ≤ ∑ e ∈ (walks.flatten.filter (· ∈ N.leaving R)).toFinset, capacity e := by
        refine Finset.sum_le_sum fun e he => ?_
        exact hopen e (List.mem_of_mem_filter (List.mem_toFinset.mp he))
    _ ≤ ∑ e ∈ N.leaving R, capacity e :=
        Finset.sum_le_sum_of_subset_of_nonneg hsub fun e _ _ => hcapacity e

variable [DecidableEq V]

variable (N) in
/-- What leaves a vertex more than enters it. -/
def net (f : E → ℤ) (v : V) : ℤ := ∑ e with N.source e = v, f e

variable (N) in
/-- A flow from one vertex to another. -/
structure IsFlow (capacity f : E → ℤ) (s t : V) : Prop where
  skew : ∀ e, f (N.rev e) = -f e
  le : ∀ e, f e ≤ capacity e
  conserved : ∀ v, v ≠ s → v ≠ t → N.net f v = 0

/-- The flow is what passes through any cut. -/
theorem IsFlow.net_eq (h : N.IsFlow capacity f s t) {R : V → Prop} [DecidablePred R] (hs : R s)
    (ht : ¬ R t) : N.net f s = ∑ e ∈ N.leaving R, f e := by
  -- Inside the set each arc cancels with its reverse.
  have hinner : ∑ e with R (N.source e) ∧ R (N.target e), f e = 0 := by
    have hrev := N.sum_rev f fun u v => R u ∧ R v
    simp only [h.skew, Finset.sum_neg_distrib, and_comm] at hrev
    omega
  -- Of the vertices of the set only the source gives more than it takes.
  have hsource : ∑ e with R (N.source e), f e = N.net f s := by
    have hmaps : ∀ e ∈ Finset.univ.filter (fun e => R (N.source e)),
        N.source e ∈ insert s ((Finset.univ.filter fun e => R (N.source e)).image N.source) :=
      fun e he => Finset.mem_insert_of_mem (Finset.mem_image_of_mem _ he)
    rw [← Finset.sum_fiberwise_of_maps_to hmaps,
      Finset.sum_eq_single_of_mem s (Finset.mem_insert_self _ _)]
    · rw [net, Finset.filter_filter]
      refine Finset.sum_congr (Finset.filter_congr fun e _ => ?_) fun _ _ => rfl
      exact and_iff_right_of_imp fun he => he ▸ hs
    · intro v hv hne
      have hR : R v := by
        obtain rfl | hv := Finset.mem_insert.mp hv
        · exact hs
        · obtain ⟨e, he, rfl⟩ := Finset.mem_image.mp hv
          exact (Finset.mem_filter.mp he).2
      rw [← h.conserved v hne fun hvt => ht (hvt ▸ hR), net, Finset.filter_filter]
      refine Finset.sum_congr (Finset.filter_congr fun e _ => ?_) fun _ _ => rfl
      exact and_iff_right_of_imp fun he => he ▸ hR
  rw [← hsource, ← Finset.sum_filter_add_sum_filter_not _ (fun e => R (N.target e)),
    Finset.filter_filter, Finset.filter_filter, hinner, zero_add]
  rfl

/-- No flow is more than the capacity of a cut. -/
theorem IsFlow.net_le (h : N.IsFlow capacity f s t) {R : V → Prop} [DecidablePred R] (hs : R s)
    (ht : ¬ R t) : N.net f s ≤ ∑ e ∈ N.leaving R, capacity e := by
  rw [h.net_eq hs ht]
  exact Finset.sum_le_sum fun e _ => h.le e

/-- **The smallest cut.** A flow without an augmenting path fills the arcs out of the vertices that
    arcs with room to spare reach. -/
theorem IsFlow.exists_minCut (h : N.IsFlow capacity f s t)
    (hmax : ¬ ReflTransGen (N.Residual capacity f) s t) :
    ∃ R : V → Prop, ∃ _ : DecidablePred R, R s ∧ ¬ R t ∧
      (∀ u v, R u → N.Residual capacity f u v → R v) ∧
      N.net f s = ∑ e ∈ N.leaving R, capacity e := by
  classical
  refine ⟨ReflTransGen (N.Residual capacity f) s, inferInstance, .refl, hmax,
    fun u v hu huv => hu.tail huv, ?_⟩
  rw [h.net_eq .refl hmax]
  refine Finset.sum_congr rfl fun e he => ?_
  obtain ⟨hsource, htarget⟩ := (Finset.mem_filter.mp he).2
  by_contra hne
  exact htarget (hsource.tail ⟨e, rfl, rfl, lt_of_le_of_ne (h.le e) hne⟩)

/-! ## What the arcs carry -/

/-- The arcs that carry something. -/
def carrying (f : E → ℤ) : Finset E := {e | 0 < f e}

/-- Where each arc carries at most one, what leaves a vertex more than enters it is a number of
    arcs. -/
theorem net_eq_card (hskew : ∀ e, f (N.rev e) = -f e)
    (hunit : ∀ e, N.source e = v → f e ≤ 1 ∧ -1 ≤ f e) :
    N.net f v = (N.outArcs (carrying f) v).card - (N.inArcs (carrying f) v).card := by
  -- An arc carries one, its reverse does, or neither.
  have hsplit : ∀ e, N.source e = v →
      f e = (if 0 < f e then 1 else 0) - if 0 < f (N.rev e) then 1 else 0 := by
    intro e he
    have := hunit e he
    rw [hskew]
    split <;> split <;> omega
  have hout : ∑ e with N.source e = v, (if 0 < f e then (1 : ℤ) else 0) =
      (N.outArcs (carrying f) v).card := by
    rw [← Finset.sum_filter, Finset.sum_const, nsmul_one, Finset.filter_filter, outArcs, carrying,
      Finset.filter_filter]
    simp only [and_comm]
  have hin : ∑ e with N.source e = v, (if 0 < f (N.rev e) then (1 : ℤ) else 0) =
      (N.inArcs (carrying f) v).card := by
    rw [N.sum_rev (fun e => if 0 < f e then 1 else 0) fun u _ => u = v, ← Finset.sum_filter,
      Finset.sum_const, nsmul_one, Finset.filter_filter, inArcs, carrying, Finset.filter_filter]
    simp only [and_comm]
  rw [net, Finset.sum_congr rfl fun e he => hsplit e (Finset.mem_filter.mp he).2,
    Finset.sum_sub_distrib, hout, hin]

/-- What leaves a vertex more than enters it, from what the arcs carry. -/
theorem net_eq_sum (hskew : ∀ e, f (N.rev e) = -f e) (v : V) :
    N.net f v = ∑ e ∈ N.outArcs (carrying f) v, f e - ∑ e ∈ N.inArcs (carrying f) v, f e := by
  have hsplit : ∀ e, f e = (if 0 < f e then f e else 0) -
      if 0 < f (N.rev e) then f (N.rev e) else 0 := by
    intro e
    rw [hskew]
    split <;> split <;> omega
  have hout : ∑ e with N.source e = v, (if 0 < f e then f e else 0) =
      ∑ e ∈ N.outArcs (carrying f) v, f e := by
    rw [← Finset.sum_filter, Finset.filter_filter, outArcs, carrying, Finset.filter_filter]
    simp only [and_comm]
  have hin : ∑ e with N.source e = v, (if 0 < f (N.rev e) then f (N.rev e) else 0) =
      ∑ e ∈ N.inArcs (carrying f) v, f e := by
    rw [N.sum_rev (fun e => if 0 < f e then f e else 0) fun u _ => u = v, ← Finset.sum_filter,
      Finset.filter_filter, inArcs, carrying, Finset.filter_filter]
    simp only [and_comm]
  rw [net, Finset.sum_congr rfl fun e _ => hsplit e, Finset.sum_sub_distrib, hout, hin]

/-! ## Augmenting paths -/

variable [DecidableEq E]

variable (N) in
/-- The flow with `amount` more along the arcs. -/
def push (f : E → ℤ) (p : List E) (amount : ℤ) (e : E) : ℤ :=
  f e + amount * (p.count e - p.count (N.rev e))

variable (N) in
/-- The flows that are built up by augmenting paths. -/
inductive Augmented (capacity : E → ℤ) (s t : V) : (E → ℤ) → Prop
  | start : Augmented capacity s t 0
  | push {f p amount} (hf : Augmented capacity s t f) (hjoins : N.Joins s p t)
      (hsimple : (s :: p.map N.target).Nodup) (hpos : 0 < amount)
      (hroom : ∀ e ∈ p, f e + amount ≤ capacity e) : Augmented capacity s t (N.push f p amount)

/-- A walk leaves its start once more than it enters it, and enters its end once more than it
    leaves it. -/
theorem net_count (h : N.Joins u p v) (w : V) :
    N.net (fun e => p.count e - p.count (N.rev e)) w =
      (if u = w then 1 else 0) - if v = w then 1 else 0 := by
  induction p generalizing u with
  | nil =>
    obtain rfl : u = v := h
    simp [net]
  | cons a p ih =>
    obtain ⟨rfl, hrest⟩ := h
    have hcount : ∀ b, ∑ e with N.source e = w, (if b = e then (1 : ℤ) else 0) =
        if N.source b = w then 1 else 0 := by
      intro b
      rw [Finset.sum_ite_eq]
      simp
    have hopposite : ∀ e, a = N.rev e ↔ N.rev a = e :=
      fun e => ⟨fun h => by rw [h, N.rev_rev], fun h => by rw [← h, N.rev_rev]⟩
    -- The first arc counts for itself and against its reverse.
    have hsum : N.net (fun e => (a :: p).count e - (a :: p).count (N.rev e)) w =
        N.net (fun e => p.count e - p.count (N.rev e)) w +
          (∑ e with N.source e = w, (if a = e then (1 : ℤ) else 0) -
            ∑ e with N.source e = w, if N.rev a = e then (1 : ℤ) else 0) := by
      simp only [net, ← Finset.sum_sub_distrib, ← Finset.sum_add_distrib, List.count_cons,
        beq_iff_eq, hopposite]
      refine Finset.sum_congr rfl fun e _ => ?_
      push_cast
      ring
    rw [hsum, ih hrest, hcount, hcount, N.source_rev]
    ring

theorem net_push (h : N.Joins s p t) (amount : ℤ) (v : V) :
    N.net (N.push f p amount) v =
      N.net f v + amount * ((if s = v then 1 else 0) - if t = v then 1 else 0) := by
  rw [← net_count h, net, net, net, Finset.mul_sum, ← Finset.sum_add_distrib]
  rfl

/-- What augmenting paths build up is a flow. -/
theorem Augmented.isFlow (h : N.Augmented capacity s t f) (hcapacity : ∀ e, 0 ≤ capacity e) :
    N.IsFlow capacity f s t := by
  induction h with
  | start => exact ⟨fun e => by simp, hcapacity, fun v _ _ => by simp [net]⟩
  | @push f p amount _ hjoins hsimple hpos hroom ih =>
    refine ⟨fun e => ?_, fun e => ?_, fun v hs ht => ?_⟩
    · simp only [FlowNetwork.push, ih.skew, N.rev_rev]
      ring
    · -- an arc of the path has room for the amount, and no other arc gets more
      have hback : 0 ≤ amount * (p.count (N.rev e) : ℤ) := by positivity
      have hcount := count_le_one hsimple e
      simp only [FlowNetwork.push, mul_sub]
      by_cases he : e ∈ p
      · have hone : p.count e = 1 := by
          have := List.count_pos_iff.mpr he
          omega
        rw [hone, Nat.cast_one, mul_one]
        linarith [hroom e he]
      · rw [List.count_eq_zero_of_not_mem he, Nat.cast_zero, mul_zero]
        linarith [ih.le e]
    · rw [net_push hjoins, ih.conserved v hs ht, if_neg (Ne.symm hs), if_neg (Ne.symm ht)]
      ring

/-- It does not flow back to its start. -/
theorem Augmented.net_nonneg (h : N.Augmented capacity s t f) (hst : s ≠ t) : 0 ≤ N.net f s := by
  induction h with
  | start => simp [net]
  | push _ hjoins _ hpos _ ih =>
    rw [net_push hjoins, if_pos rfl, if_neg (Ne.symm hst)]
    linarith

omit [Fintype E] [DecidableEq V] in
/-- Nothing flows along a loop. -/
theorem Augmented.loop (h : N.Augmented capacity s t f) (he : N.source e = N.target e) :
    f e = 0 := by
  induction h with
  | start => rfl
  | @push f p amount _ hjoins hsimple hpos hroom ih =>
    have hback : N.source (N.rev e) = N.target (N.rev e) := by
      rw [N.source_rev, N.target_rev, he]
    simp only [FlowNetwork.push, ih,
      List.count_eq_zero_of_not_mem (hjoins.not_loop hsimple he),
      List.count_eq_zero_of_not_mem (hjoins.not_loop hsimple hback)]
    simp

omit [Fintype E] [DecidableEq V] in
/-- Where all arcs from the start lead, nothing enters from elsewhere. -/
theorem Augmented.le_zero (h : N.Augmented capacity s t f)
    (hfirst : ∀ e, N.source e = s → N.target e = v) (he : N.target e = v) (hne : N.source e ≠ s) :
    f e ≤ 0 := by
  induction h with
  | start => exact le_refl 0
  | @push f p amount _ hjoins hsimple hpos hroom ih =>
    -- the path is at the vertex after its first arc, and not a second time
    have hnot : e ∉ p := by
      cases p with
      | nil => exact List.not_mem_nil
      | cons a p =>
        obtain ⟨hsource, _⟩ := hjoins
        intro hmem
        obtain rfl | hmem := List.mem_cons.mp hmem
        · exact hne hsource
        · refine (List.nodup_cons.mp (List.nodup_cons.mp hsimple).2).1 ?_
          rw [hfirst a hsource, ← he]
          exact List.mem_map_of_mem hmem
    have hback : 0 ≤ amount * (p.count (N.rev e) : ℤ) := by positivity
    simp only [FlowNetwork.push, mul_sub, List.count_eq_zero_of_not_mem hnot, Nat.cast_zero,
      mul_zero]
    linarith

end FlowNetwork

end PgRouting
