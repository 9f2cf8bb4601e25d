import PgRouting.Spec.TrspQuery

/-!
# Which restrictions a search charges

`getRestrictionCost` compares the edges that precede the last one of a rule with
the edges met on the walk back over the predecessors. A predecessor that has not
been set has the position `ILLEGAL` and the edge index 0. The walk does not stop
there: it compares the next edge of the rule with the edge at index 0, and if they
agree it reads the predecessor of that edge at the position -1.

## Key results

- `checkPrecedence_eq`: the three ways in which the comparison with a rule can end
- `ParentsInRange.explorationRound`: the predecessors stay in range in every round
- `getRestrictionCost_iff`: the exact condition for charging the completed rules
-/

namespace PgRouting

namespace TrspQuery

variable {g : TrspGraph} {q q' : TrspQuery}

/-! ## Walking back -/

/-- The ids of the last `n` edges of the path that ends with a traversal, the last one first.
    There are fewer when the path is shorter. -/
def walkBack (g : TrspGraph) (q : TrspQuery) : Nat → Nat → Position → List Int
  | 0, _, _ => []
  | _ + 1, _, none => []
  | n + 1, i, some slot =>
    match g.edges[i]? with
    | none => []
    | some e => e.edgeID :: walkBack g q n ((q.parent i).eIdx slot) ((q.parent i).vPos slot)

/-- Walking back further adds edges at the end. -/
theorem walkBack_take {n m : Nat} (h : n ≤ m) (i : Nat) (pos : Position) :
    (walkBack g q m i pos).take n = walkBack g q n i pos := by
  induction n generalizing m i pos with
  | zero => simp [walkBack]
  | succ n ih =>
    obtain ⟨k, rfl⟩ : ∃ k, m = k + 1 := ⟨m - 1, by omega⟩
    cases pos with
    | none => simp [walkBack]
    | some slot =>
      simp only [walkBack]
      split
      · simp
      · rw [List.take_succ_cons, ih (by omega)]

/-- The predecessors that have been set are edges of the graph, the others have index 0. -/
structure ParentsInRange (g : TrspGraph) (q : TrspQuery) : Prop where
  unset : ∀ i slot, (q.parent i).vPos slot = none → (q.parent i).eIdx slot = 0
  set : ∀ i slot, (q.parent i).vPos slot ≠ none → (q.parent i).eIdx slot < g.edges.length

/-- The comparison with a rule succeeds when the rule is the end of the path; it reads out of
    bounds when the rule contains the whole path, preceded by the first edge of the graph; and
    it fails otherwise. -/
theorem checkPrecedence_eq {first : EdgeInfo} (hq : q.ParentsInRange g)
    (hfirst : g.edges[0]? = some first) {i : Nat} (hi : i < g.edges.length) (pos : Position)
    (hpos : pos = none → i = 0) (prec : List Int) :
    checkPrecedence g q i pos prec =
      if prec = walkBack g q prec.length i pos then some true
      else if walkBack g q prec.length i pos ++ [first.edgeID] <+: prec then none
      else some false := by
  induction prec generalizing i pos with
  | nil => simp [checkPrecedence, walkBack]
  | cons p rest ih =>
    have he : g.edges[i]? = some g.edges[i] := List.getElem?_eq_getElem hi
    cases pos with
    | none =>
      -- The walk has passed the start of the path.
      obtain rfl := hpos rfl
      obtain rfl : g.edges[0] = first := Option.some.inj (he.symm.trans hfirst)
      simp only [checkPrecedence, he, walkBack, List.length_cons, List.nil_append,
        List.cons_prefix_cons, List.nil_prefix, and_true, reduceCtorEq, if_false]
      by_cases hp : p = g.edges[0].edgeID
      · simp [hp]
      · simp [hp, Ne.symm hp]
    | some slot =>
      simp only [checkPrecedence, he, walkBack, List.length_cons, List.cons_append,
        List.cons_prefix_cons, List.cons.injEq]
      by_cases hp : p = g.edges[i].edgeID
      · have hnext : (q.parent i).eIdx slot < g.edges.length := by
          by_cases hset : (q.parent i).vPos slot = none
          · rw [hq.unset i slot hset]
            omega
          · exact hq.set i slot hset
        rw [ih hnext _ (hq.unset i slot)]
        simp [hp]
      · simp [hp, Ne.symm hp]

/-! ## Completed rules -/

/-- The ids of the last `n` edges of the path that ends with a traversal. -/
def partialPath (g : TrspGraph) (q : TrspQuery) (n i : Nat) (slot : Slot) : List Int :=
  (walkBack g q n i (some slot)).reverse

/-- The edges of the rule are the tail of the path followed by the edge `f`. -/
def Completes (g : TrspGraph) (q : TrspQuery) (i : Nat) (slot : Slot) (f : Int)
    (r : RestrictionT) : Prop :=
  r.via <:+ partialPath g q r.via.length i slot ++ [f]

instance (g : TrspGraph) (q : TrspQuery) (i : Nat) (slot : Slot) (f : Int) :
    DecidablePred (Completes g q i slot f) := fun _ => inferInstanceAs (Decidable (_ <:+ _))

/-- The rule is longer than the path followed by the edge `f`: it ends with the edge at index 0,
    the whole path and `f`. -/
def OverrunsStart (g : TrspGraph) (q : TrspQuery) (i : Nat) (slot : Slot) (f : Int)
    (r : RestrictionT) : Prop :=
  ∃ first, g.edges[0]? = some first ∧
    first.edgeID :: partialPath g q r.via.length i slot ++ [f] <:+ r.via

instance (g : TrspGraph) (q : TrspQuery) (i : Nat) (slot : Slot) (f : Int) :
    DecidablePred (OverrunsStart g q i slot f) := fun r =>
  match h : g.edges[0]? with
  | none => .isFalse (by simp [OverrunsStart, h])
  | some first =>
    decidable_of_iff (first.edgeID :: partialPath g q r.via.length i slot ++ [f] <:+ r.via)
      (by simp [OverrunsStart, h])

/-- A rule, backwards. -/
theorem reverse_via (r : RestrictionT) :
    r.via.reverse = (Rule.new r).destId :: (Rule.new r).precedencelist := by
  conv_lhs => rw [← List.dropLast_append_getLast r.via_ne]
  rw [List.reverse_append]
  rfl

theorem completes_iff (i : Nat) (slot : Slot) (r : RestrictionT) :
    Completes g q i slot (Rule.new r).destId r ↔ (Rule.new r).precedencelist =
      walkBack g q (Rule.new r).precedencelist.length i (some slot) := by
  have hlen := congrArg List.length (reverse_via r)
  rw [List.length_reverse, List.length_cons] at hlen
  rw [Completes, ← List.reverse_prefix, reverse_via, partialPath, List.reverse_append,
    List.reverse_reverse, List.reverse_singleton, List.singleton_append, List.cons_prefix_cons,
    List.prefix_iff_eq_take, walkBack_take (by omega)]
  exact and_iff_right rfl

theorem overrunsStart_iff {first : EdgeInfo} (hfirst : g.edges[0]? = some first) (i : Nat)
    (slot : Slot) (r : RestrictionT) :
    OverrunsStart g q i slot (Rule.new r).destId r ↔
      walkBack g q (Rule.new r).precedencelist.length i (some slot) ++ [first.edgeID] <+:
        (Rule.new r).precedencelist := by
  have hlen := congrArg List.length (reverse_via r)
  rw [List.length_reverse, List.length_cons] at hlen
  have htake := walkBack_take (g := g) (q := q) (n := (Rule.new r).precedencelist.length)
    (m := r.via.length) (by omega) i (some slot)
  simp only [OverrunsStart, hfirst, Option.some.injEq, exists_eq_left']
  rw [← List.reverse_prefix, reverse_via, partialPath, List.cons_append, List.reverse_cons,
    List.reverse_append, List.reverse_reverse, List.reverse_singleton, List.singleton_append,
    List.cons_append, List.cons_prefix_cons, and_iff_right rfl]
  -- A walk that ends early is not cut off.
  have hshort : ∀ n, (walkBack g q r.via.length i (some slot)).length < n →
      (walkBack g q r.via.length i (some slot)).take n = walkBack g q r.via.length i (some slot) :=
    fun n h => List.take_of_length_le h.le
  constructor
  · intro h
    have := h.length_le
    rw [List.length_append, List.length_singleton] at this
    rwa [← htake, hshort _ (by omega)]
  · intro h
    have := h.length_le
    rw [List.length_append, List.length_singleton, ← htake, List.length_take] at this
    rwa [← htake, hshort _ (by omega)] at h

/-- What the comparison finds out about a rule that ends with the edge `f`. -/
theorem checkPrecedence_rule (hq : q.ParentsInRange g) {i : Nat} (hi : i < g.edges.length)
    (slot : Slot) (r : RestrictionT) :
    (OverrunsStart g q i slot (Rule.new r).destId r →
      checkPrecedence g q i (some slot) (Rule.new r).precedencelist = none) ∧
    (¬ OverrunsStart g q i slot (Rule.new r).destId r →
      checkPrecedence g q i (some slot) (Rule.new r).precedencelist =
        some (decide (Completes g q i slot (Rule.new r).destId r))) := by
  have hfirst : g.edges[0]? = some g.edges[0] := List.getElem?_eq_getElem (by omega)
  rw [overrunsStart_iff hfirst, checkPrecedence_eq hq hfirst hi (some slot) (by simp)]
  constructor
  · intro hover
    have hne : (Rule.new r).precedencelist ≠
        walkBack g q (Rule.new r).precedencelist.length i (some slot) := by
      intro heq
      have := hover.length_le
      rw [List.length_append, ← heq, List.length_singleton] at this
      omega
    rw [if_neg hne, if_pos hover]
  · intro hnot
    split
    next heq => rw [decide_eq_true ((completes_iff i slot r).mpr heq)]
    next hne => rw [decide_eq_false (fun h => hne ((completes_iff i slot r).mp h))]

/-- The sum of the costs of the rules of a list for which the comparison succeeds. -/
theorem foldlM_ruleCosts {check : Rule → Option Bool} (rules : List Rule) (c : ℚ) :
    rules.foldlM (fun cost rule => do
      let flag ← check rule
      pure (cost + if flag then rule.cost else 0)) c =
    if ∀ r ∈ rules, (check r).isSome then
      some (c + ((rules.filter fun r => check r = some true).map (·.cost)).sum)
    else none := by
  induction rules generalizing c with
  | nil => simp
  | cons r rules ih =>
    rw [List.foldlM_cons]
    cases hr : check r with
    | none => simp [hr]
    | some flag =>
      refine (ih (c + if flag then r.cost else 0)).trans ?_
      cases flag <;> simp [hr, add_assoc]

/-- A rule that the path followed by `f` completes or overruns ends with `f`. -/
theorem destId_of_suffix {l : List Int} {f : Int} {r : RestrictionT}
    (h : r.via <:+ l ++ [f] ∨ l ++ [f] <:+ r.via) : (Rule.new r).destId = f := by
  have hrev : r.via.reverse <+: f :: l.reverse ∨ f :: l.reverse <+: r.via.reverse := by
    refine h.imp (fun h => ?_) fun h => ?_
    · simpa using List.reverse_prefix.mpr h
    · simpa using List.reverse_prefix.mpr h
  rw [reverse_via, List.cons_prefix_cons, List.cons_prefix_cons] at hrev
  exact hrev.elim (fun h => h.1) fun h => h.1.symm

/-- The extra cost of an edge `f` is the sum of the costs of the rules that the path followed
    by `f` completes, unless some rule overruns the start of the path. -/
theorem getRestrictionCost_eq {rules : List RestrictionT} (hq : q.ParentsInRange g)
    (hrules : ∀ id, g.ruleTable id = (rules.map Rule.new).filter (·.destId = id)) {i : Nat}
    (hi : i < g.edges.length) (isStart : Bool) (f : EdgeInfo) :
    ((∃ r ∈ rules, OverrunsStart g q i isStart f.edgeID r) →
      getRestrictionCost g q i f isStart = none) ∧
    ((¬ ∃ r ∈ rules, OverrunsStart g q i isStart f.edgeID r) →
      getRestrictionCost g q i f isStart =
        some ((rules.filter (Completes g q i isStart f.edgeID)).map (·.cost)).sum) := by
  have hslot : (if isStart then cEdge else rcEdge) = isStart := by cases isStart <;> rfl
  simp only [getRestrictionCost, hslot, foldlM_ruleCosts, hrules, zero_add]
  constructor
  · rintro ⟨r, hr, hover⟩
    have hdest : (Rule.new r).destId = f.edgeID := by
      obtain ⟨first, _, hsuf⟩ := hover
      exact destId_of_suffix (.inr hsuf)
    rw [if_neg]
    intro hall
    have hmem : Rule.new r ∈ (rules.map Rule.new).filter (·.destId = f.edgeID) := by
      simp only [List.mem_filter, List.mem_map, decide_eq_true_eq]
      exact ⟨⟨r, hr, rfl⟩, hdest⟩
    have hsome := hall _ hmem
    rw [(checkPrecedence_rule hq hi isStart r).1 (hdest.symm ▸ hover)] at hsome
    cases hsome
  · intro hnot
    -- Every rule that ends with `f` is either completed or not.
    have hcheck : ∀ r ∈ rules, (Rule.new r).destId = f.edgeID →
        checkPrecedence g q i (some isStart) (Rule.new r).precedencelist =
          some (decide (Completes g q i isStart f.edgeID r)) := by
      intro r hr hdest
      have := (checkPrecedence_rule hq hi isStart r).2 (hdest.symm ▸ fun h => hnot ⟨r, hr, h⟩)
      simpa only [hdest] using this
    rw [if_pos]
    · congr 1
      rw [List.filter_filter, List.filter_map, List.map_map]
      refine congrArg List.sum (congrArg (List.map _) (List.filter_congr fun r hr => ?_))
      by_cases hdest : (Rule.new r).destId = f.edgeID
      · simp [hcheck r hr hdest, hdest]
      · have hno : ¬ Completes g q i isStart f.edgeID r :=
          fun h => hdest (destId_of_suffix (.inl h))
        simp [hdest, hno]
    · intro r hr
      simp only [List.mem_filter, List.mem_map, decide_eq_true_eq] at hr
      obtain ⟨⟨r', hr', rfl⟩, hdest⟩ := hr
      rw [hcheck r' hr' hdest]
      rfl

/-! ## The predecessors stay in range -/

theorem ParentsInRange.relax (hq : q.ParentsInRange g) {curIdx index : Nat} {isStart : Bool}
    {edge : EdgeInfo} {slot : Slot} {cost : ℚ} (hcur : curIdx < g.edges.length) :
    (q.relax curIdx isStart index edge slot cost).ParentsInRange g := by
  constructor
  · intro i slot' hnone
    obtain ⟨he, hv⟩ | ⟨_, _, _, hv⟩ :=
      relax_parent q curIdx index isStart edge slot cost i slot'
    · rw [he]
      exact hq.unset i slot' (hv ▸ hnone)
    · rw [hv] at hnone
      cases hnone
  · intro i slot' hset
    obtain ⟨he, hv⟩ | ⟨_, _, he, _⟩ :=
      relax_parent q curIdx index isStart edge slot cost i slot'
    · rw [he]
      exact hq.set i slot' (hv ▸ hset)
    · rwa [he]

theorem ParentsInRange.exploreEdge {curNode : Int} {curEdge : EdgeInfo} {isStart : Bool}
    {index : Nat} (hq : q.ParentsInRange g) (hcur : curEdge.idx < g.edges.length)
    (h : q.exploreEdge g curNode curEdge isStart index = some q') : q'.ParentsInRange g := by
  simp only [TrspQuery.exploreEdge, Option.bind_eq_bind, Option.bind_eq_some_iff,
    Option.pure_def, Option.some.injEq] at h
  obtain ⟨edge, _, extraCost, _, rfl⟩ := h
  split
  · refine ParentsInRange.relax ?_ hcur
    split
    · exact hq.relax hcur
    · exact hq
  · split
    · exact hq.relax hcur
    · exact hq

theorem ParentsInRange.explore {curNode : Int} {curEdge : EdgeInfo} {isStart : Bool}
    {l : List Nat} (hq : q.ParentsInRange g) (hcur : curEdge.idx < g.edges.length)
    (h : l.foldlM (TrspQuery.exploreEdge g curNode curEdge isStart) q = some q') :
    q'.ParentsInRange g :=
  foldlM_invariant (I := ParentsInRange g) (fun _ _ _ _ hs hstep => hs.exploreEdge hcur hstep)
    h hq

/-- Before the search no predecessor is set. -/
theorem searchStart_parent {s t : Int} (h : searchStart g s t = some q) (i : Nat) (slot : Slot) :
    (q.parent i).eIdx slot = 0 ∧ (q.parent i).vPos slot = none := by
  simp only [searchStart, Option.bind_eq_bind, Option.bind_eq_some_iff, Option.pure_def,
    Option.some.injEq] at h
  obtain ⟨s', _, t', _, q₀, hinit, rfl⟩ := h
  -- A start clears the position and leaves the index.
  have hstart : ∀ (q : TrspQuery) (e : EdgeInfo) (slot' : Slot) (cost : ℚ),
      (∀ i slot, (q.parent i).eIdx slot = 0 ∧ (q.parent i).vPos slot = none) →
      ∀ i slot, ((q.startWith e slot' cost).parent i).eIdx slot = 0 ∧
        ((q.startWith e slot' cost).parent i).vPos slot = none := by
    intro q e slot' cost hq i slot
    simp only [startWith, addToQue]
    by_cases hi : i = e.idx
    · subst hi
      by_cases hs : slot = slot'
      · simp [hs, hq]
      · simp [hs, hq]
    · simp [hi, hq]
  refine foldlM_invariant
    (I := fun q => ∀ i slot, (q.parent i).eIdx slot = 0 ∧ (q.parent i).vPos slot = none)
    (fun q source q' _ hq h => ?_) hinit (fun _ _ => ⟨rfl, rfl⟩) i slot
  simp only [initializeEdge, Option.bind_eq_bind, Option.bind_eq_some_iff, Option.pure_def,
    Option.some.injEq] at h
  obtain ⟨e, _, rfl⟩ := h
  have hq₁ : ∀ i slot,
      ((if e.startNode = q.startVertex ∧ 0 ≤ e.cost then q.startWith e rcEdge e.cost
        else q).parent i).eIdx slot = 0 ∧
      ((if e.startNode = q.startVertex ∧ 0 ≤ e.cost then q.startWith e rcEdge e.cost
        else q).parent i).vPos slot = none := by
    split
    · exact hstart _ _ _ _ hq
    · exact hq
  generalize (if e.startNode = q.startVertex ∧ 0 ≤ e.cost then q.startWith e rcEdge e.cost
    else q) = q₁ at *
  split
  · exact hstart _ _ _ _ hq₁
  · exact hq₁

/-- A round of the search keeps the predecessors in range. -/
theorem ParentsInRange.explorationRound {rows : List EdgeT} (hg : g.Linked rows)
    {c c' : Option EdgeInfo} (hq : q.ParentsInRange g)
    (h : TrspQuery.explorationRound g (q, c) = .next (q', c')) : q'.ParentsInRange g := by
  obtain ⟨k, i, slot, e, _, he, _, hnext⟩ := explorationRound_next h
  have hcur : e.idx < g.edges.length := by
    rw [EdgeInfo.idx, (TrspGraph.row_of_edge hg.edges he).2]
    exact (List.getElem?_eq_some_iff.mp he).1
  obtain ⟨_, rfl⟩ | ⟨_, _, hexp⟩ := hnext
  · exact ⟨hq.unset, hq.set⟩
  · exact ParentsInRange.explore (q := q.take e slot) ⟨hq.unset, hq.set⟩ hcur hexp

/-! ## The moments of a search -/

/-- A moment of the search from `s` to `t` on a fresh handler: `explore` is about to relax the
    edge `f` out of the traversal `isStart` of the edge `e`. -/
def Relaxes (g : TrspGraph) (s t : Int) (q : TrspQuery) (e : EdgeInfo) (isStart : Bool)
    (f : EdgeInfo) : Prop :=
  ∃ q₀ q₁ c k, searchStart g s t = some q₀ ∧
    Reaches (TrspQuery.explorationRound g) (q₀, none) (q₁, c) ∧
    q₁.que.top? = some (toLex (k, toLex (e.idx, !isStart))) ∧ g.edges[e.idx]? = some e ∧
    0 ≤ e.edge.slotCost isStart ∧ e.edge.exit isStart ≠ q₁.endVertex ∧
    ∃ pre index post, e.getIdx isStart = pre ++ index :: post ∧
      pre.foldlM (TrspQuery.exploreEdge g (e.edge.exit isStart) e isStart) (q₁.take e isStart) =
        some q ∧
      g.edges[index]? = some f

theorem Relaxes.parentsInRange {rows : List EdgeT} (hg : g.Linked rows) {s t : Int} {e f : EdgeInfo}
    {isStart : Bool} (h : Relaxes g s t q e isStart f) :
    q.ParentsInRange g ∧ e.idx < g.edges.length := by
  obtain ⟨q₀, q₁, c, k, hstart, hreach, _, he, _, _, pre, index, post, _, hpre, _⟩ := h
  have hcur : e.idx < g.edges.length := (List.getElem?_eq_some_iff.mp he).1
  have hq₀ : q₀.ParentsInRange g :=
    ⟨fun i slot _ => (searchStart_parent hstart i slot).1,
      fun i slot hset => absurd (searchStart_parent hstart i slot).2 hset⟩
  have hq₁ : q₁.ParentsInRange g :=
    hreach.invariant (I := fun s => ParentsInRange g s.1)
      (fun s s' hs hb => ParentsInRange.explorationRound hg hs hb) hq₀
  exact ⟨ParentsInRange.explore (q := q₁.take e isStart) ⟨hq₁.unset, hq₁.set⟩ hcur hpre, hcur⟩

/-- **Restriction costs.** Whenever the search on a fresh handler relaxes an edge `f`, the extra
    cost is defined and is the sum of the costs of the rules whose edges are the tail of the
    partial path followed by `f`, if and only if no rule ends with the edge at index 0, the
    whole partial path and `f`. -/
theorem getRestrictionCost_iff (es : List EdgeT) (directed : Bool) (rules : List RestrictionT)
    {s t : Int} {e f : EdgeInfo} {isStart : Bool}
    (h : Relaxes (TrspGraph.new es directed (rules.map Rule.new)) s t q e isStart f) :
    let g := TrspGraph.new es directed (rules.map Rule.new)
    getRestrictionCost g q e.idx f isStart =
        some ((rules.filter (Completes g q e.idx isStart f.edgeID)).map (·.cost)).sum ↔
      ¬ ∃ r ∈ rules, OverrunsStart g q e.idx isStart f.edgeID r := by
  intro g
  obtain ⟨hlinked, _, _, _, hrules⟩ := TrspGraph.new_spec es directed (rules.map Rule.new)
  obtain ⟨hq, hcur⟩ := h.parentsInRange hlinked
  obtain ⟨hover, hok⟩ := getRestrictionCost_eq hq hrules hcur isStart f
  constructor
  · intro heq hex
    rw [hover hex] at heq
    cases heq
  · exact hok

/-- Two edges in a row and a rule that forbids to go from one to the other. -/
theorem getRestrictionCost_iff_twoEdges :
    let g := TrspGraph.new [⟨1, 1, 2, 1, -1⟩, ⟨2, 2, 3, 1, -1⟩] true
      ([⟨5, [1, 2], by decide⟩].map Rule.new)
    ∃ q e f, Relaxes g 1 3 q e false f ∧ getRestrictionCost g q e.idx f false = some 5 := by
  intro g
  have hrel : Relaxes g 1 3
      (((searchStart g 1 3).get (by decide +kernel)).take
        (g.edges.get ⟨0, by decide +kernel⟩) false)
      (g.edges.get ⟨0, by decide +kernel⟩) false (g.edges.get ⟨1, by decide +kernel⟩) :=
    ⟨_, _, none, (1 : ℚ), (Option.some_get _).symm, .refl, by decide +kernel, by decide +kernel,
      by decide +kernel, by decide +kernel, [], 1, [], by decide +kernel, rfl, by decide +kernel⟩
  refine ⟨_, _, _, hrel, ?_⟩
  have hcost := (getRestrictionCost_iff [⟨1, 1, 2, 1, -1⟩, ⟨2, 2, 3, 1, -1⟩] true
    [⟨5, [1, 2], by decide⟩] hrel).mpr (by decide +kernel)
  rw [hcost]
  decide +kernel

/-- The rule [1, 2, 3] while the path consists of edge 2 only: the walk back compares edge 1,
    which is stored at index 0, and reads out of bounds. -/
theorem getRestrictionCost_outOfBounds :
    let rules : List RestrictionT := [⟨5, [1, 2, 3], by decide⟩]
    let g := TrspGraph.new [⟨1, 1, 2, 1, -1⟩, ⟨2, 3, 4, 1, -1⟩, ⟨3, 4, 5, 1, -1⟩] true
      (rules.map Rule.new)
    ∃ q e f, Relaxes g 3 5 q e false f ∧ getRestrictionCost g q e.idx f false ≠
      some ((rules.filter (Completes g q e.idx false f.edgeID)).map (·.cost)).sum := by
  intro rules g
  have hrel : Relaxes g 3 5
      (((searchStart g 3 5).get (by decide +kernel)).take
        (g.edges.get ⟨1, by decide +kernel⟩) false)
      (g.edges.get ⟨1, by decide +kernel⟩) false (g.edges.get ⟨2, by decide +kernel⟩) :=
    ⟨_, _, none, (1 : ℚ), (Option.some_get _).symm, .refl, by decide +kernel, by decide +kernel,
      by decide +kernel, by decide +kernel, [], 2, [], by decide +kernel, rfl, by decide +kernel⟩
  exact ⟨_, _, _, hrel, by decide +kernel⟩

end TrspQuery

end PgRouting
