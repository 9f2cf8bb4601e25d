import PgRouting.Spec.TrspRestriction

/-!
# Queries on one handler

`clear` resets everything but the queue: what the search to one target has left
in it is taken by the next search. A query gives the answer of a fresh handler
when the entries that it finds in the queue do not disturb its search: each of
them comes after all entries that the search takes, or is one from which nothing
can be relaxed.

The search on the handler is compared with the search on a fresh handler by a
simulation: the handler holds the same labels and predecessors, and its queue has
the entries that were left in addition.

## Key results

- `processTrsp_agrees`: a query with undisturbing entries answers like a fresh handler
- `processAll_iff_fresh`: so does a run of such queries
- `processAll_disturbed`: two queries of which the first one disturbs the second
-/

namespace PgRouting

namespace TrspQuery

variable {g : TrspGraph} {q q' f h : TrspQuery} {L : List PDP}

/-! ## Two handlers that differ in their queues -/

/-- `h` is like `f`, but its queue has the entries `L` in addition. -/
structure Agrees (L : List PDP) (f h : TrspQuery) : Prop where
  startVertex : h.startVertex = f.startVertex
  endVertex : h.endVertex = f.endVertex
  path : h.path = f.path
  parent : h.parent = f.parent
  dCost : h.dCost = f.dCost
  que : h.que.Perm (L ++ f.que)

theorem Agrees.addToQue (hA : Agrees L f h) (cost : WithTop ℚ) (i : Nat) (isStart : Bool) :
    Agrees L (f.addToQue cost i isStart) (h.addToQue cost i isStart) :=
  { hA with que := (hA.que.cons _).trans List.perm_middle.symm }

theorem Agrees.relax (hA : Agrees L f h) (curIdx index : Nat) (isStart : Bool) (e : EdgeInfo)
    (slot : Slot) (cost : ℚ) :
    Agrees L (f.relax curIdx isStart index e slot cost)
      (h.relax curIdx isStart index e slot cost) := by
  have htotal : h.getTotCost cost curIdx isStart = f.getTotCost cost curIdx isStart := by
    rw [getTotCost, getTotCost, hA.dCost]
  unfold TrspQuery.relax
  simp only [htotal, hA.dCost, hA.parent]
  split
  · refine Agrees.addToQue ?_ _ _ _
    exact ⟨hA.startVertex, hA.endVertex, hA.path, rfl, rfl, hA.que⟩
  · exact hA

/-- The walk back reads the predecessors only. -/
theorem checkPrecedence_congr (hp : q'.parent = q.parent) (i : Nat) (pos : Position)
    (l : List Int) : checkPrecedence g q' i pos l = checkPrecedence g q i pos l := by
  induction l generalizing i pos with
  | nil => rfl
  | cons p l ih =>
    simp only [checkPrecedence, hp, ih]

theorem getRestrictionCost_congr (hp : q'.parent = q.parent) (i : Nat) (e : EdgeInfo)
    (isStart : Bool) :
    getRestrictionCost g q' i e isStart = getRestrictionCost g q i e isStart := by
  simp only [getRestrictionCost, checkPrecedence_congr hp]

theorem Agrees.exploreEdge (hA : Agrees L f h) (curNode : Int) (e : EdgeInfo) (isStart : Bool)
    (index : Nat) : Option.Rel (Agrees L) (exploreEdge g curNode e isStart f index)
      (exploreEdge g curNode e isStart h index) := by
  have hif : ∀ {f h : TrspQuery} (c : Prop) [Decidable c] (slot : Slot) (edge : EdgeInfo)
      (cost : ℚ), Agrees L f h → Agrees L
        (if c then f.relax e.idx isStart index edge slot cost else f)
        (if c then h.relax e.idx isStart index edge slot cost else h) := by
    intro f h c _ slot edge cost hA
    split
    · exact hA.relax _ _ _ _ _ _
    · exact hA
  simp only [TrspQuery.exploreEdge, getRestrictionCost_congr hA.parent]
  cases g.edges[index]? with
  | none => exact .none
  | some edge =>
    simp only [Option.bind_eq_bind, Option.bind_some]
    cases getRestrictionCost g f e.idx edge isStart with
    | none => exact .none
    | some extra => exact .some (hif _ _ _ _ (hif _ _ _ _ hA))

theorem Agrees.explore (hA : Agrees L f h) (curNode : Int) (e : EdgeInfo) (isStart : Bool) :
    Option.Rel (Agrees L) (explore g curNode e isStart f) (explore g curNode e isStart h) :=
  foldlM_rel (fun _ _ _ hA => hA.exploreEdge _ _ _ _) hA

theorem Agrees.initializeQue (hA : Agrees L f h) :
    Option.Rel (Agrees L) (initializeQue g f) (initializeQue g h) := by
  have hif : ∀ {f h : TrspQuery} (c : Prop) [Decidable c] (slot : Slot) (edge : EdgeInfo)
      (cost : ℚ), Agrees L f h →
        Agrees L (if c then f.startWith edge slot cost else f)
          (if c then h.startWith edge slot cost else h) := by
    intro f h c _ slot edge cost hA
    split
    · refine Agrees.addToQue ?_ _ _ _
      exact ⟨hA.startVertex, hA.endVertex, hA.path, by simp only [hA.parent],
        by simp only [hA.dCost], hA.que⟩
    · exact hA
  rw [TrspQuery.initializeQue, TrspQuery.initializeQue, hA.startVertex]
  refine foldlM_rel (fun f h source hA => ?_) hA
  simp only [initializeEdge, hA.startVertex]
  cases g.edges[source]? with
  | none => exact .none
  | some edge =>
    have h₁ := hif (edge.startNode = f.startVertex ∧ 0 ≤ edge.cost) rcEdge edge edge.cost hA
    simp only [Option.bind_eq_bind, Option.bind_some, h₁.startVertex]
    exact .some (hif _ _ _ _ h₁)

/-- `construct_path` reads the predecessors, the costs and the path. -/
theorem Agrees.constructPath (hA : Agrees L f h) (n i : Nat) (slot : Slot) :
    Option.Rel (fun a b => a.1 = b.1 ∧ Agrees L a.2 b.2) (constructPath g n i slot f)
      (constructPath g n i slot h) := by
  induction n generalizing i slot with
  | zero => exact .none
  | succ n ih =>
    simp only [TrspQuery.constructPath, hA.parent]
    cases g.edges[i]? with
    | none => exact .none
    | some e =>
      cases hp : (f.parent i).vPos slot with
      | none =>
        exact .some ⟨rfl, hA.startVertex, hA.endVertex, by simp only [hA.path], rfl, hA.dCost,
          hA.que⟩
      | some slot' =>
        have hrec := ih ((f.parent i).eIdx slot) slot'
        simp only
        revert hrec
        rcases TrspQuery.constructPath g n ((f.parent i).eIdx slot) slot' f with _ | ⟨c, f'⟩ <;>
          rcases TrspQuery.constructPath g n ((f.parent i).eIdx slot) slot' h with _ | ⟨c', h'⟩
        · exact fun _ => .none
        · intro hrec
          cases hrec
        · intro hrec
          cases hrec
        · rintro (⟨heq, hA'⟩ | _)
          obtain rfl : c = c' := heq
          have hA' : Agrees L f' h' := hA'
          exact .some ⟨by simp only [hA'.dCost], hA'.startVertex, hA'.endVertex,
            by simp only [hA'.path, hA'.dCost], hA'.parent, hA'.dCost, hA'.que⟩

/-! ## Entries that do not disturb a search -/

/-- The search of a fresh handler that starts in `f₀` meets the state `f`. -/
def SearchState (g : TrspGraph) (f₀ f : TrspQuery) : Prop :=
  ∃ c, Reaches (explorationRound g) (f₀, none) (f, c)

/-- The search from `f₀` ends at the end vertex before it would take the entry: at any time it
    has an entry to take that does not come after this one. -/
def Late (g : TrspGraph) (f₀ : TrspQuery) (pos : PDP) : Prop :=
  ∀ f, SearchState g f₀ f → ∃ top, f.que.top? = some top ∧ top ≤ pos

/-- Taking the entry has no effect on the search from `f₀`: its traversal does not end at the end
    vertex and is never labelled by the search, and exploring it reads no predecessor out of
    bounds. Where the entry is the last one to be taken, the search has left its start vertex. -/
structure Inert (g : TrspGraph) (f₀ : TrspQuery) (i : Nat) (slot : Slot) : Prop where
  edge : ∃ e, g.edges[i]? = some e ∧ 0 ≤ e.edge.slotCost slot ∧
    e.edge.exit slot ≠ f₀.endVertex ∧ explore g (e.edge.exit slot) e slot {} ≠ none
  unlabelled : ∀ f, SearchState g f₀ f → (f.dCost i).get slot = ⊤
  exhausted : ∀ f, SearchState g f₀ f → f.que = [] → f.currentNode ≠ f.endVertex

/-- The entry does not disturb the search from `f₀`. -/
def Disregarded (g : TrspGraph) (f₀ : TrspQuery) (pos : PDP) : Prop :=
  Late g f₀ pos ∨ Inert g f₀ (ofLex (ofLex pos).2).1 (!(ofLex (ofLex pos).2).2)

/-- The entries that the handler `q` has in its queue do not disturb a query from `s` to `t`. -/
def Undisturbed (g : TrspGraph) (q : TrspQuery) (s t : Int) : Prop :=
  ∀ f₀, searchStart g s t = some f₀ → ∀ pos ∈ q.que, Disregarded g f₀ pos

/-! ## Taking an inert entry -/

/-- A traversal without a label has no predecessor. -/
def NoParent (q : TrspQuery) : Prop :=
  ∀ i slot, (q.dCost i).get slot = ⊤ → (q.parent i).eIdx slot = 0 ∧ (q.parent i).vPos slot = none

theorem NoParent.relax (hq : q.NoParent) {curIdx index : Nat} {isStart : Bool} {e : EdgeInfo}
    {slot : Slot} {cost : ℚ} (he : e.idx = index) :
    (q.relax curIdx isStart index e slot cost).NoParent := by
  intro i slot' hlabel
  unfold TrspQuery.relax at hlabel ⊢
  simp only at hlabel ⊢
  split at hlabel
  · rename_i hlt
    rw [if_pos hlt]
    subst he
    by_cases hi : i = e.idx
    · subst hi
      simp only [TrspQuery.addToQue, Function.update_self, CostHolder.get_set] at hlabel ⊢
      split at hlabel
      · exact absurd hlabel (hlt.trans_le le_top).ne
      · rename_i hs
        simpa only [Function.update_of_ne hs] using hq e.idx slot' hlabel
    · simp only [TrspQuery.addToQue, Function.update_of_ne hi] at hlabel ⊢
      exact hq i slot' hlabel
  · rename_i hge
    rw [if_neg hge]
    exact hq i slot' hlabel

theorem NoParent.explore {rows : List EdgeT} (hg : g.Linked rows) (hq : q.NoParent) {curNode : Int}
    {e : EdgeInfo} {isStart : Bool} (h : explore g curNode e isStart q = some q') :
    q'.NoParent := by
  refine foldlM_invariant (I := NoParent) (fun q index q' _ hq h => ?_) h hq
  simp only [TrspQuery.exploreEdge, Option.bind_eq_bind, Option.bind_eq_some_iff,
    Option.pure_def, Option.some.injEq] at h
  obtain ⟨edge, hedge, extra, _, rfl⟩ := h
  have hidx : edge.idx = index := (TrspGraph.row_of_edge hg.edges hedge).2
  split
  · refine NoParent.relax ?_ hidx
    split
    · exact hq.relax hidx
    · exact hq
  · split
    · exact hq.relax hidx
    · exact hq

/-- In the search of a fresh handler a traversal without a label has no predecessor. -/
theorem SearchState.noParent {rows : List EdgeT} (hg : g.Linked rows) {s t : Int} {f₀ : TrspQuery}
    (hstart : searchStart g s t = some f₀) (hf : SearchState g f₀ f) : f.NoParent := by
  obtain ⟨c, hreach⟩ := hf
  refine hreach.invariant (I := fun x => x.1.NoParent) (fun x y hx hb => ?_) fun i slot _ =>
    searchStart_parent hstart i slot
  obtain ⟨_, _, _, _, _, _, _, hnext⟩ := explorationRound_next hb
  obtain ⟨_, heq⟩ | ⟨_, _, hexp⟩ := hnext
  · rw [heq]
    exact hx
  · exact NoParent.explore (q := x.1.take _ _) hg hx hexp

/-- The walk back from a traversal without a predecessor reads no other predecessor. -/
theorem checkPrecedence_start {i : Nat} {slot : Slot} (he : (q.parent i).eIdx slot = 0)
    (hv : (q.parent i).vPos slot = none) (l : List Int) :
    checkPrecedence g q i (some slot) l = checkPrecedence g {} i (some slot) l := by
  cases l with
  | nil => rfl
  | cons p l =>
    simp only [checkPrecedence, he, hv]
    cases l with
    | nil => rfl
    | cons p' l => rfl

/-- Exploring a traversal without a label relaxes nothing. -/
theorem explore_unlabelled {e : EdgeInfo} {slot : Slot} (hlabel : (q.dCost e.idx).get slot = ⊤)
    (he : (q.parent e.idx).eIdx slot = 0) (hv : (q.parent e.idx).vPos slot = none) (node : Int) :
    explore g node e slot q = (explore g node e slot {}).map fun _ => q := by
  have hslot : (if slot then cEdge else rcEdge) = slot := by cases slot <;> rfl
  -- A total cost of infinity improves nothing.
  have hrelax : ∀ (q : TrspQuery), (q.dCost e.idx).get slot = ⊤ → ∀ index edge slot' cost,
      q.relax e.idx slot index edge slot' cost = q := by
    intro q hlabel index edge slot' cost
    have htotal : q.getTotCost cost e.idx slot = ⊤ := by
      cases slot
      · exact WithTop.add_eq_top.mpr (.inl hlabel)
      · exact WithTop.add_eq_top.mpr (.inl hlabel)
    rw [TrspQuery.relax, htotal, if_neg not_top_lt]
  -- What remains of the state is whether the look at the rules stays within the arrays.
  have hstep : ∀ (q : TrspQuery), (q.dCost e.idx).get slot = ⊤ →
      (q.parent e.idx).eIdx slot = 0 → (q.parent e.idx).vPos slot = none → ∀ index,
      exploreEdge g node e slot q index =
        ((g.edges[index]?).bind fun edge => getRestrictionCost g {} e.idx edge slot).map
          fun _ => q := by
    intro q hlabel he hv index
    simp only [TrspQuery.exploreEdge, hrelax q hlabel, ite_self, getRestrictionCost, hslot,
      checkPrecedence_start he hv]
    cases g.edges[index]? with
    | none => rfl
    | some edge =>
      simp only [Option.bind_eq_bind, Option.bind_some]
      exact Option.map_eq_bind.symm
  have hempty : (({} : TrspQuery).dCost e.idx).get slot = ⊤ := by cases slot <;> rfl
  unfold TrspQuery.explore
  induction e.getIdx slot with
  | nil => rfl
  | cons index l ih =>
    rw [List.foldlM_cons, List.foldlM_cons, hstep q hlabel he hv, hstep {} hempty rfl rfl]
    cases ((g.edges[index]?).bind fun edge => getRestrictionCost g {} e.idx edge slot) with
    | none => rfl
    | some _ => exact ih

/-! ## The simulation -/

theorem explore_frame {node : Int} {e : EdgeInfo} {slot : Slot}
    (h : explore g node e slot q = some q') :
    q'.endVertex = q.endVertex ∧ q'.currentNode = q.currentNode := by
  have hrelax : ∀ (q : TrspQuery) index edge slot' cost,
      (q.relax e.idx slot index edge slot' cost).endVertex = q.endVertex ∧
      (q.relax e.idx slot index edge slot' cost).currentNode = q.currentNode := by
    intro q index edge slot' cost
    unfold relax
    simp only
    split <;> exact ⟨rfl, rfl⟩
  have hif : ∀ (q₁ : TrspQuery) (c : Prop) [Decidable c] index edge slot' cost,
      q₁.endVertex = q.endVertex ∧ q₁.currentNode = q.currentNode →
      (if c then q₁.relax e.idx slot index edge slot' cost else q₁).endVertex = q.endVertex ∧
      (if c then q₁.relax e.idx slot index edge slot' cost else q₁).currentNode =
        q.currentNode := by
    intro q₁ c _ index edge slot' cost hq
    split
    · rw [(hrelax q₁ index edge slot' cost).1, (hrelax q₁ index edge slot' cost).2]
      exact hq
    · exact hq
  refine foldlM_invariant
    (I := fun x => x.endVertex = q.endVertex ∧ x.currentNode = q.currentNode)
    (fun q₁ index q₂ _ hq h => ?_) h ⟨rfl, rfl⟩
  simp only [exploreEdge, Option.bind_eq_bind, Option.bind_eq_some_iff, Option.pure_def,
    Option.some.injEq] at h
  obtain ⟨edge, _, extra, _, rfl⟩ := h
  exact hif _ _ _ _ _ _ (hif _ _ _ _ _ _ hq)

/-- The search keeps its end vertex. -/
theorem SearchState.endVertex {f₀ : TrspQuery} (hf : SearchState g f₀ f) :
    f.endVertex = f₀.endVertex := by
  obtain ⟨c, hreach⟩ := hf
  refine hreach.invariant (I := fun x => x.1.endVertex = f₀.endVertex) (fun x y hx hb => ?_) rfl
  obtain ⟨_, _, _, _, _, _, _, hnext⟩ := explorationRound_next hb
  obtain ⟨_, heq⟩ | ⟨_, _, hexp⟩ := hnext
  · rw [heq]
    exact hx
  · exact (explore_frame hexp).1.trans hx

/-- The searches are at the same node, or at nodes that are not the end vertex. -/
def SameNode (x y : TrspQuery × Option EdgeInfo) : Prop :=
  (y.1.currentNode = x.1.currentNode ∧ y.2 = x.2) ∨
    (x.1.currentNode ≠ x.1.endVertex ∧ y.1.currentNode ≠ y.1.endVertex)

/-- The search `y` on the handler simulates the search `x` of the fresh handler from `f₀`: it has
    the entries `L` in addition, which do not disturb the search. -/
structure Simulates (g : TrspGraph) (f₀ : TrspQuery) (L : List PDP)
    (x y : TrspQuery × Option EdgeInfo) : Prop where
  agrees : Agrees L x.1 y.1
  reached : Reaches (explorationRound g) (f₀, none) x
  disregarded : ∀ pos ∈ L, Disregarded g f₀ pos
  node : (y.1.currentNode = x.1.currentNode ∧ y.2 = x.2) ∨ (y.1.currentNode ≠ y.1.endVertex ∧
    ∀ f, SearchState g f₀ f → f.que = [] → f.currentNode ≠ f.endVertex)

/-- The results of two searches. -/
def SameResult (r r' : Option (TrspQuery × Option EdgeInfo)) : Prop :=
  Option.Rel (fun x y => (∃ L, Agrees L x.1 y.1) ∧ SameNode x y) r r'

/-- Taking an inert entry has no effect. -/
theorem Simulates.inert {rows : List EdgeT} (hg : g.Linked rows) {s t : Int} {f₀ : TrspQuery}
    (hstart : searchStart g s t = some f₀) {x y : TrspQuery × Option EdgeInfo}
    (hsim : Simulates g f₀ L x y) {k : WithTop ℚ} {i : Nat} {slot : Slot}
    (htop : y.1.que.top? = some (toLex (k, toLex (i, !slot))))
    (hmem : toLex (k, toLex (i, !slot)) ∈ L) (hin : Inert g f₀ i slot) :
    ∃ L' y', explorationRound g y = .next y' ∧ Simulates g f₀ L' x y' ∧
      y'.1.que.length < y.1.que.length := by
  obtain ⟨f, c⟩ := x
  obtain ⟨h, c'⟩ := y
  obtain ⟨hA, hreach, hdis, hnode⟩ := hsim
  obtain ⟨e, he, hcost, hexit, hexp⟩ := hin.edge
  have hidx : e.idx = i := (TrspGraph.row_of_edge hg.edges he).2
  have hlabel := hin.unlabelled f ⟨c, hreach⟩
  obtain ⟨hpar, hpos⟩ := SearchState.noParent hg hstart ⟨c, hreach⟩ i slot hlabel
  have hend : h.endVertex = f₀.endVertex := hA.endVertex.trans (SearchState.endVertex ⟨c, hreach⟩)
  have hround : explorationRound g (h, c') = .next (h.take e slot, some e) := by
    rw [explorationRound_eq htop he, if_neg (not_lt.mpr hcost), if_neg (hend ▸ hexit),
      explore_unlabelled (q := h.take e slot)]
    · cases hfresh : explore g (e.edge.exit slot) e slot {} with
      | none => exact absurd hfresh hexp
      | some _ => rfl
    · show (h.dCost e.idx).get slot = ⊤
      rw [hA.dCost, hidx, hlabel]
    · show (h.parent e.idx).eIdx slot = 0
      rw [hA.parent, hidx, hpar]
    · show (h.parent e.idx).vPos slot = none
      rw [hA.parent, hidx, hpos]
  obtain ⟨L', hL', hperm⟩ := PriorityQueue.pop_perm_left hA.que htop hmem
  refine ⟨L', _, hround, ⟨⟨hA.startVertex, hA.endVertex, hA.path, hA.parent, hA.dCost, hperm⟩,
    hreach, fun pos hpos => hdis pos (hL' hpos), .inr ⟨hend ▸ hexit, hin.exhausted⟩⟩, ?_⟩
  exact Nat.lt_of_succ_le (PriorityQueue.length_pop htop).le

/-- Both searches take the same entry. -/
theorem Simulates.round {f₀ : TrspQuery} {x y : TrspQuery × Option EdgeInfo}
    (hsim : Simulates g f₀ L x y) {pos : PDP} (hx : x.1.que.top? = some pos)
    (hy : y.1.que.top? = some pos) :
    (∃ x' y', explorationRound g x = .next x' ∧ explorationRound g y = .next y' ∧
      Simulates g f₀ L x' y') ∨
    ∃ r r', explorationRound g x = .done r ∧ explorationRound g y = .done r' ∧ SameResult r r' := by
  obtain ⟨f, c⟩ := x
  obtain ⟨h, c'⟩ := y
  obtain ⟨hA, hreach, hdis, hnode⟩ := hsim
  obtain ⟨k, i, slot, rfl⟩ := exists_entry pos
  cases he : g.edges[i]? with
  | none =>
    refine .inr ⟨none, none, ?_, ?_, .none⟩
    · simp [explorationRound, hx, he]
    · simp [explorationRound, hy, he]
  | some e =>
    have htake : Agrees L (f.take e slot) (h.take e slot) :=
      ⟨hA.startVertex, hA.endVertex, hA.path, hA.parent, hA.dCost, by
        have := PriorityQueue.pop_perm_right hA.que hy (PriorityQueue.top?_eq_some.mp hx).1
        rwa [← PriorityQueue.pop_eq_erase hx] at this⟩
    -- The entry decides what both rounds do: skip it, end at it, or explore its edge.
    have hfx := explorationRound_eq (c := c) hx he
    have hhy := explorationRound_eq (c := c') hy he
    by_cases hcost : e.edge.slotCost slot < 0
    · rw [if_pos hcost] at hfx hhy
      exact .inl ⟨_, _, hfx, hhy, htake, hreach.tail hfx, hdis, .inl ⟨rfl, rfl⟩⟩
    · rw [if_neg hcost] at hfx hhy
      by_cases hend : e.edge.exit slot = f.endVertex
      · rw [if_pos hend] at hfx
        rw [if_pos (hend.trans hA.endVertex.symm)] at hhy
        exact .inr ⟨_, _, hfx, hhy, .some ⟨⟨L, htake⟩, .inl ⟨rfl, rfl⟩⟩⟩
      · rw [if_neg hend] at hfx
        rw [if_neg (hA.endVertex ▸ hend)] at hhy
        -- Exploring goes on from queues that still agree.
        have hrel := htake.explore (g := g) (e.edge.exit slot) e slot
        cases hfe : explore g (e.edge.exit slot) e slot (f.take e slot) with
        | none =>
          cases hhe : explore g (e.edge.exit slot) e slot (h.take e slot) with
          | none =>
            rw [hfe] at hfx
            rw [hhe] at hhy
            exact .inr ⟨none, none, hfx, hhy, .none⟩
          | some h' =>
            rw [hfe, hhe] at hrel
            cases hrel
        | some f' =>
          cases hhe : explore g (e.edge.exit slot) e slot (h.take e slot) with
          | none =>
            rw [hfe, hhe] at hrel
            cases hrel
          | some h' =>
            rw [hfe, hhe] at hrel
            rw [hfe] at hfx
            rw [hhe] at hhy
            obtain hA' | _ := hrel
            refine .inl ⟨_, _, hfx, hhy, hA', hreach.tail hfx, hdis, .inl ⟨?_, rfl⟩⟩
            exact (explore_frame hhe).2.trans (explore_frame hfe).2.symm

/-- A round of the search on the handler. -/
theorem Simulates.step {rows : List EdgeT} (hg : g.Linked rows) {s t : Int} {f₀ : TrspQuery}
    (hstart : searchStart g s t = some f₀) {x y : TrspQuery × Option EdgeInfo}
    (hsim : Simulates g f₀ L x y) :
    (∃ L' y', explorationRound g y = .next y' ∧ Simulates g f₀ L' x y' ∧
      y'.1.que.length < y.1.que.length) ∨
    (∃ x' y', explorationRound g x = .next x' ∧ explorationRound g y = .next y' ∧
      Simulates g f₀ L x' y') ∨
    ∃ r r', explorationRound g x = .done r ∧ explorationRound g y = .done r' ∧
      SameResult r r' := by
  have hmemy : ∀ pos, pos ∈ y.1.que ↔ pos ∈ L ∨ pos ∈ x.1.que := fun pos => by
    rw [hsim.agrees.que.mem_iff, List.mem_append]
  cases hy : y.1.que.top? with
  | none =>
    -- Both queues are exhausted.
    have hempty : x.1.que = [] := List.eq_nil_iff_forall_not_mem.mpr fun pos hpos => by
      have := (hmemy pos).mpr (.inr hpos)
      rw [PriorityQueue.top?_eq_none.mp hy] at this
      cases this
    refine .inr (.inr ⟨some x, some y, ?_, ?_, .some ⟨⟨L, hsim.agrees⟩, ?_⟩⟩)
    · simp only [explorationRound, PriorityQueue.top?_eq_none.mpr hempty]
    · simp only [explorationRound, hy]
    · exact hsim.node.imp_right fun h => ⟨h.2 _ ⟨_, hsim.reached⟩ hempty, h.1⟩
  | some pos =>
    obtain ⟨hmem, hmin⟩ := PriorityQueue.top?_eq_some.mp hy
    by_cases hx : x.1.que.top? = some pos
    · exact .inr (hsim.round hx hy)
    · -- The entry is one of those that were left.
      have hL : pos ∈ L := ((hmemy pos).mp hmem).resolve_right fun hpos =>
        hx (PriorityQueue.top?_eq_some.mpr ⟨hpos, fun b hb => hmin b ((hmemy b).mpr (.inr hb))⟩)
      obtain hlate | hin := hsim.disregarded pos hL
      · obtain ⟨top, htop, hle⟩ := hlate _ ⟨_, hsim.reached⟩
        have hge := hmin top ((hmemy top).mpr (.inr (PriorityQueue.top?_eq_some.mp htop).1))
        exact absurd (le_antisymm hle hge ▸ htop) hx
      · obtain ⟨k, i, slot, rfl⟩ := exists_entry pos
        simp only [ofLex_toLex, Bool.not_not] at hin
        exact .inl (hsim.inert hg hstart hy hL hin)

/-! ## Queries -/

/-- What `process_trsp` does after the search. -/
def finish (g : TrspGraph) : TrspQuery × Option EdgeInfo → Option (Path × TrspQuery)
  | (q, curEdge) =>
    if q.currentNode ≠ q.endVertex then do
      let result ← (Path.new q.startVertex q.endVertex).renumberVertices g.idxToId
      pure (result, q)
    else do
      let curEdge ← curEdge
      let pos := if q.currentNode = curEdge.startNode then cEdge else rcEdge
      let (_, q) ← constructPath g (2 * g.edges.length + 1) curEdge.idx pos q
      let q := { q with path := q.path.pushBack ⟨q.endVertex, -1, 0, 0⟩ }
      let q := { q with path := q.path.recalculateAggCost }
      let result ← q.path.renumberVertices g.idxToId
      pure (result, { q with path := result })

/-- The search of `process_trsp` and what follows. -/
theorem processTrsp_eq {n : Nat} {f₀ : TrspQuery} (hinit : initializeQue g q = some f₀) :
    processTrsp g n q = (dijkstraExploration g n { f₀ with currentNode := f₀.startVertex }).bind
      (finish g) := by
  rw [processTrsp, hinit]
  rfl

/-- A search that is not at the end vertex gives an empty path. -/
theorem finish_of_ne {c : Option EdgeInfo} (h : q.currentNode ≠ q.endVertex) :
    (finish g (q, c)).map (·.1) =
      (Path.new q.startVertex q.endVertex).renumberVertices g.idxToId := by
  simp only [finish, if_pos h]
  cases (Path.new q.startVertex q.endVertex).renumberVertices g.idxToId with
  | none => rfl
  | some result => rfl

/-- Two searches with the same result give the same path. -/
theorem finish_sameResult {c c' : Option EdgeInfo} (hA : Agrees L f h)
    (hnode : SameNode (f, c) (h, c')) :
    (finish g (f, c)).map (·.1) = (finish g (h, c')).map (·.1) := by
  obtain ⟨hcur, rfl⟩ | ⟨hf, hh⟩ := hnode
  · have hcur : h.currentNode = f.currentNode := hcur
    -- Either both searches have come to the end vertex, where the paths are read back alike, or
    -- neither has and both paths are empty.
    by_cases hend : f.currentNode = f.endVertex
    · have hend' : h.currentNode = h.endVertex := hcur.trans (hend.trans hA.endVertex.symm)
      simp only [finish, hend, hend', ne_eq, not_true, if_false]
      cases c' with
      | none => rfl
      | some e =>
        simp only [Option.bind_eq_bind, Option.bind_some, hA.endVertex]
        have hrel := hA.constructPath (g := g) (2 * g.edges.length + 1) e.idx
          (if f.endVertex = e.startNode then cEdge else rcEdge)
        revert hrel
        rcases constructPath g (2 * g.edges.length + 1) e.idx
            (if f.endVertex = e.startNode then cEdge else rcEdge) f with _ | ⟨a, f'⟩ <;>
          rcases constructPath g (2 * g.edges.length + 1) e.idx
            (if f.endVertex = e.startNode then cEdge else rcEdge) h with _ | ⟨b, h'⟩
        · exact fun _ => rfl
        · intro hrel
          cases hrel
        · intro hrel
          cases hrel
        · rintro (⟨_, hA'⟩ | _)
          have hA' : Agrees L f' h' := hA'
          simp only [Option.bind_some, hA'.path, hA'.endVertex]
          cases ((f'.path.pushBack ⟨f'.endVertex, -1, 0, 0⟩).recalculateAggCost.renumberVertices
            g.idxToId) with
          | none => rfl
          | some result => rfl
    · have hend' : h.currentNode ≠ h.endVertex := fun h' =>
        hend (hcur.symm.trans (h'.trans hA.endVertex))
      rw [finish_of_ne hend, finish_of_ne hend', hA.startVertex, hA.endVertex]
  · rw [finish_of_ne (q := f) hf, finish_of_ne (q := h) hh, hA.startVertex, hA.endVertex]

/-- The answers of `process_trsp`, for some number of rounds. -/
theorem exists_processTrsp_iff {f₀ : TrspQuery} (hinit : initializeQue g q = some f₀) (p : Path) :
    (∃ n q', processTrsp g n q = some (p, q')) ↔
      ∃ n r, runLoop (explorationRound g) n ({ f₀ with currentNode := f₀.startVertex }, none) =
        some r ∧ (r.bind (finish g)).map (·.1) = some p := by
  simp only [processTrsp_eq hinit, dijkstraExploration]
  constructor
  · rintro ⟨n, q', h⟩
    cases hr : runLoop (explorationRound g) n
        ({ f₀ with currentNode := f₀.startVertex }, none) with
    | none =>
      rw [hr] at h
      cases h
    | some r =>
      rw [hr, Option.join_some] at h
      exact ⟨n, r, hr, by rw [h]; rfl⟩
  · rintro ⟨n, r, hr, h⟩
    obtain ⟨⟨p', q'⟩, hfin, rfl⟩ := Option.map_eq_some_iff.mp h
    exact ⟨n, q', by rw [hr, Option.join_some, hfin]⟩

/-- Entries that do not disturb the search from `s` to `t` do not change what `process_trsp`
    returns. -/
theorem processTrsp_agrees {rows : List EdgeT} (hg : g.Linked rows) {s t s' t' : Int}
    (hs : g.idToIdx.lookup s = some s') (ht : g.idToIdx.lookup t = some t')
    (hA : Agrees L { startVertex := s', endVertex := t', path := .new s' t' } h)
    (hL : ∀ f₀, searchStart g s t = some f₀ → ∀ pos ∈ L, Disregarded g f₀ pos) (p : Path) :
    (∃ n q', processTrsp g n h = some (p, q')) ↔
      ∃ n q', processTrsp g n { startVertex := s', endVertex := t', path := .new s' t' } =
        some (p, q') := by
  set f : TrspQuery := { startVertex := s', endVertex := t', path := .new s' t' } with hf
  have hrel := hA.initializeQue (g := g)
  cases hfi : initializeQue g f with
  | none =>
    cases hhi : initializeQue g h with
    | none => simp [processTrsp, hfi, hhi]
    | some h₀ =>
      rw [hfi, hhi] at hrel
      cases hrel
  | some f₀ =>
    cases hhi : initializeQue g h with
    | none =>
      rw [hfi, hhi] at hrel
      cases hrel
    | some h₀ =>
      rw [hfi, hhi] at hrel
      obtain hA₀ | _ := hrel
      have hstart : searchStart g s t = some { f₀ with currentNode := f₀.startVertex } := by
        simp only [searchStart, hs, ht, Option.bind_eq_bind, Option.bind_some, ← hf, hfi]
        rfl
      -- Both searches begin in agreement, with the entries of `L` left over in one of the queues.
      have hstarts : ∃ L, Simulates g { f₀ with currentNode := f₀.startVertex } L
          ({ f₀ with currentNode := f₀.startVertex }, none)
          ({ h₀ with currentNode := h₀.startVertex }, none) :=
        ⟨L, ⟨hA₀.startVertex, hA₀.endVertex, hA₀.path, hA₀.parent, hA₀.dCost, hA₀.que⟩,
          .refl, hL _ hstart, .inl ⟨hA₀.startVertex, rfl⟩⟩
      obtain ⟨hto, hfrom⟩ := runLoop_simulation (explorationRound g)
        (explorationRound g) (Q := SameResult)
        (R := fun x y => ∃ L, Simulates g { f₀ with currentNode := f₀.startVertex } L x y)
        (fun y => y.1.que.length)
        (fun x y hxy => by
          obtain ⟨L, hsim⟩ := hxy
          obtain ⟨L', y', hb, hsim', hlt⟩ | ⟨x', y', hb, hb', hsim'⟩ | hdone :=
            hsim.step hg hstart
          · exact .inl ⟨y', hb, ⟨L', hsim'⟩, hlt⟩
          · exact .inr (.inl ⟨x', y', hb, hb', L, hsim'⟩)
          · exact .inr (.inr hdone))
        hstarts
      -- Results that agree give the same path.
      have hsame : ∀ r r', SameResult r r' →
          (r.bind (finish g)).map (·.1) = (r'.bind (finish g)).map (·.1) := by
        rintro r r' (⟨⟨L, hA⟩, hnode⟩ | _)
        · exact finish_sameResult hA hnode
        · rfl
      rw [exists_processTrsp_iff hfi, exists_processTrsp_iff hhi]
      constructor
      · rintro ⟨n, r', hr', hp⟩
        obtain ⟨m, r, hr, hQ⟩ := hfrom n r' hr'
        exact ⟨m, r, hr, (hsame r r' hQ).trans hp⟩
      · rintro ⟨n, r, hr, hp⟩
        obtain ⟨m, r', hr', hQ⟩ := hto n r hr
        exact ⟨m, r', hr', (hsame r r' hQ).symm.trans hp⟩

/-- A handler whose queue does not disturb the search from `s` to `t` answers like a fresh one. -/
theorem process_undisturbed {rows : List EdgeT} (hg : g.Linked rows) {s t : Int}
    (hq : Undisturbed g q s t) (p : Path) :
    (∃ n q', process g n s t q = some (p, q')) ↔ ∃ n q', process g n s t {} = some (p, q') := by
  unfold process
  cases hs : g.idToIdx.lookup s with
  | none => simp
  | some s' =>
    cases ht : g.idToIdx.lookup t with
    | none => simp
    | some t' =>
      by_cases hadj : (g.adjacency s').isNone
      · simp [hadj]
      by_cases hadj' : (g.adjacency t').isNone
      · simp [hadj']
      simp only [hadj, hadj']
      exact processTrsp_agrees (L := q.que)
        (h := { q.clear with startVertex := s', endVertex := t', path := .new s' t' }) hg hs ht
        ⟨rfl, rfl, rfl, rfl, rfl, by rw [List.append_nil]; rfl⟩ hq p

/-- More rounds do not change the answer. -/
theorem process_mono {n m : Nat} {s t : Int} {r : Path × TrspQuery}
    (h : process g n s t q = some r) (hle : n ≤ m) : process g m s t q = some r := by
  unfold process at h ⊢
  cases hs : g.idToIdx.lookup s with
  | none => simpa [hs] using h
  | some s' =>
    cases ht : g.idToIdx.lookup t with
    | none => simpa [hs, ht] using h
    | some t' =>
      simp only [hs, ht] at h ⊢
      split
      · rwa [if_pos ‹_›] at h
      rw [if_neg ‹_›] at h
      split
      · rwa [if_pos ‹_›] at h
      · rw [if_neg ‹_›] at h
        generalize ({ q.clear with startVertex := s', endVertex := t', path := .new s' t' } :
          TrspQuery) = q₁ at h ⊢
        cases hinit : initializeQue g q₁ with
        | none => simp [processTrsp, hinit] at h
        | some f₀ =>
          rw [processTrsp_eq hinit, dijkstraExploration] at h ⊢
          cases hr : runLoop (explorationRound g) n
              ({ f₀ with currentNode := f₀.startVertex }, none) with
          | none =>
            rw [hr] at h
            cases h
          | some r' =>
            rw [hr] at h
            rwa [runLoop_mono hr hle]

theorem processAll_mono {n m : Nat} {pairs : List (Int × Int)} {r : List Path × TrspQuery}
    (h : processAll g n pairs q = some r) (hle : n ≤ m) : processAll g m pairs q = some r := by
  induction pairs generalizing q r with
  | nil => exact h
  | cons pair pairs ih =>
    simp only [processAll, Option.bind_eq_bind, Option.bind_eq_some_iff] at h ⊢
    obtain ⟨x, hx, y, hy, heq⟩ := h
    exact ⟨x, process_mono hx hle, y, ih hy, heq⟩

/-- The queries are answered one after the other, and none of them is disturbed by what the ones
    before it have left in the queue. -/
def UndisturbedRun (g : TrspGraph) : List (Int × Int) → TrspQuery → Prop
  | [], _ => True
  | (s, t) :: rest, q => Undisturbed g q s t ∧
      ∀ n p q', process g n s t q = some (p, q') → UndisturbedRun g rest q'

/-- In a run of undisturbed queries every query answers like a fresh handler. -/
theorem processAll_iff_fresh (es : List EdgeT) (directed : Bool) (rules : List RestrictionT)
    (pairs : List (Int × Int)) :
    let g := TrspGraph.new es directed (rules.map Rule.new)
    UndisturbedRun g pairs {} → ∀ paths, (∃ n q', processAll g n pairs {} = some (paths, q')) ↔
      List.Forall₂ (fun (pair : Int × Int) p =>
        ∃ n q', process g n pair.1 pair.2 {} = some (p, q')) pairs paths := by
  intro g
  obtain ⟨hg, _⟩ := TrspGraph.new_spec es directed (rules.map Rule.new)
  suffices h : ∀ q, UndisturbedRun g pairs q → ∀ paths,
      (∃ n q', processAll g n pairs q = some (paths, q')) ↔
        List.Forall₂ (fun (pair : Int × Int) p =>
          ∃ n q', process g n pair.1 pair.2 {} = some (p, q')) pairs paths from h {}
  -- Induction on the queries that are left, from the state that the ones before have left.
  induction pairs with
  | nil =>
    intro q _ paths
    rw [List.forall₂_nil_left_iff]
    exact ⟨fun ⟨_, _, h⟩ => (Prod.mk.inj (Option.some.inj h)).1.symm,
      fun h => ⟨0, q, by rw [h]; rfl⟩⟩
  | cons pair pairs ih =>
    obtain ⟨s, t⟩ := pair
    intro q ⟨hq, hrest⟩ paths
    rw [List.forall₂_cons_left_iff]
    constructor
    · rintro ⟨n, q', h⟩
      simp only [processAll, Option.bind_eq_bind, Option.bind_eq_some_iff, Option.pure_def,
        Option.some.injEq, Prod.mk.injEq] at h
      obtain ⟨⟨p, q₁⟩, hp, ⟨ps, q₂⟩, hps, rfl, _⟩ := h
      exact ⟨p, ps, (process_undisturbed hg hq p).mp ⟨n, q₁, hp⟩,
        (ih q₁ (hrest n p q₁ hp) ps).mp ⟨n, q₂, hps⟩, rfl⟩
    · rintro ⟨p, ps, hp, hps, rfl⟩
      obtain ⟨n, q₁, hn⟩ := (process_undisturbed hg hq p).mpr hp
      obtain ⟨m, q₂, hm⟩ := (ih q₁ (hrest n p q₁ hn) ps).mpr hps
      refine ⟨max n m, q₂, ?_⟩
      have hn' : process g (max n m) s t q = some (p, q₁) := process_mono hn (le_max_left n m)
      have hm' : processAll g (max n m) pairs q₁ = some (ps, q₂) :=
        processAll_mono hm (le_max_right n m)
      simp [processAll, hn', hm']

/-- Two queries, the first of which exhausts the queue when it comes to its target. -/
theorem processAll_iff_fresh_two :
    let g := TrspGraph.new [⟨1, 10, 20, 1, -1⟩, ⟨2, 40, 30, 10, -1⟩] true
      (([] : List RestrictionT).map Rule.new)
    ∃ paths, (∃ n q', processAll g n [(10, 20), (40, 30)] {} = some (paths, q')) ∧
      List.Forall₂ (fun (pair : Int × Int) p =>
        ∃ n q', process g n pair.1 pair.2 {} = some (p, q')) [(10, 20), (40, 30)] paths := by
  intro g
  have hrun : UndisturbedRun g [(10, 20), (40, 30)] {} := by
    refine ⟨fun f₀ _ pos hpos => (by cases hpos), fun n p q' h => ⟨?_, fun _ _ _ _ => trivial⟩⟩
    -- The queue after the first query does not depend on the number of rounds.
    have hque : (process g (max n 5) 10 20 {}).map (·.2.que) = some [] := by
      have h₅ : (process g 5 10 20 {}).map (·.2.que) = some [] := by decide +kernel
      obtain ⟨r, hr, hnil⟩ := Option.map_eq_some_iff.mp h₅
      rw [process_mono hr (le_max_right n 5), Option.map_some, hnil]
    rw [process_mono h (le_max_left n 5), Option.map_some, Option.some.injEq] at hque
    intro f₀ _ pos hpos
    rw [hque] at hpos
    cases hpos
  have hsome : ((processAll g 5 [(10, 20), (40, 30)] {}).map (·.1)).isSome := by decide +kernel
  rw [Option.isSome_map] at hsome
  obtain ⟨⟨paths, q'⟩, h⟩ := Option.isSome_iff_exists.mp hsome
  exact ⟨paths, ⟨5, q', h⟩, (processAll_iff_fresh _ _ _ _ hrun paths).mp ⟨5, q', h⟩⟩

/-- The query from 10 to 20 leaves the entry of the edge from 10 to 30 in the queue, and the
    query from 40 to 30 takes it: it answers with the cost of that edge. -/
theorem processAll_disturbed :
    let g := TrspGraph.new [⟨1, 10, 20, 1, -1⟩, ⟨2, 10, 30, 5, -1⟩, ⟨3, 40, 30, 10, -1⟩] true []
    (processAll g 10 [(10, 20), (40, 30)] {}).map (fun r => r.1.map (·.totCost)) =
      some [1, 5] ∧
    (process g 10 40 30 {}).map (·.1.totCost) = some 10 := by
  decide +kernel

end TrspQuery

end PgRouting
