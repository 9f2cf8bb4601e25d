import PgRouting.Spec.TrspRestriction
import PgRouting.Lib.LabelSetting
import Mathlib.Algebra.BigOperators.Group.List.Basic
import Mathlib.Algebra.Order.BigOperators.Group.List

/-!
# The search over traversals

With rules of two edges the extra cost of an edge depends only on the edge before
it, and the search of `TrspHandler` is a label-setting search whose states are the
traversals: the label of a traversal is its cost in `m_dCost`, its parent the one
in `m_parent`. The search has no set of settled states; the traversals that have
been explored are listed in the proofs, the last one first.

## Key results

- `explore_relaxes`: `explore` relaxes the arcs that leave a traversal
- `SearchInv.round`: a round keeps the invariant of the search
- `search_spec`: the search ends, and how
-/

namespace PgRouting

/-! ## Arcs between traversals -/

/-- A traversal: the index of an edge and a slot. -/
abbrev TravState := Nat × Slot

/-- The costs of the rules that forbid to go from edge `a` to edge `b`. -/
def turnCost (rules : List RestrictionT) (a b : Int) : ℚ :=
  ((rules.filter (·.via = [a, b])).map (·.cost)).sum

theorem turnCost_nonneg {rules : List RestrictionT} (h : ∀ r ∈ rules, 0 ≤ r.cost) (a b : Int) :
    0 ≤ turnCost rules a b := by
  refine List.sum_nonneg fun c hc => ?_
  obtain ⟨r, hr, rfl⟩ := List.mem_map.mp hc
  exact h r (List.mem_of_mem_filter hr)

/-- A traversal of one edge can be followed by a traversal of another one. -/
def TurnArc (rows : List EdgeT) (rules : List RestrictionT) (u v : TravState) (w : WithTop ℚ) :
    Prop :=
  v.1 ≠ u.1 ∧ ∃ e f, rows[u.1]? = some e ∧ rows[v.1]? = some f ∧ 0 ≤ e.slotCost u.2 ∧
    f.entry v.2 = e.exit u.2 ∧ 0 ≤ f.slotCost v.2 ∧
    w = ((f.slotCost v.2 + turnCost rules e.id f.id : ℚ) : WithTop ℚ)

/-- The traversals that leave the start vertex. -/
def TurnSource (rows : List EdgeT) (s : Int) (v : TravState) (c : WithTop ℚ) : Prop :=
  ∃ f, rows[v.1]? = some f ∧ f.entry v.2 = s ∧ 0 ≤ f.slotCost v.2 ∧ c = (f.slotCost v.2 : ℚ)

theorem TurnArc.nonneg {rows : List EdgeT} {rules : List RestrictionT}
    (h : ∀ r ∈ rules, 0 ≤ r.cost) {u v : TravState} {w : WithTop ℚ}
    (harc : TurnArc rows rules u v w) : 0 ≤ w := by
  obtain ⟨_, e, f, _, _, _, _, hc, rfl⟩ := harc
  exact_mod_cast add_nonneg hc (turnCost_nonneg h e.id f.id)

/-- What the search knows about its graph: the rows of the table, the renumbering of their
    ends, and rules of two edges. -/
structure TwoEdgeRules (g : TrspGraph) (rows : List EdgeT) (ρ : Int → Int)
    (rules : List RestrictionT) : Prop where
  linked : g.Linked (rows.map (EdgeT.rename ρ))
  inj : ∀ e ∈ rows, ∀ f ∈ rows, ∀ x y, e.Meets x → f.Meets y → ρ x = ρ y → x = y
  ruleTable : ∀ id, g.ruleTable id = (rules.map Rule.new).filter (·.destId = id)
  two : ∀ r ∈ rules, r.via.length = 2
  nonneg : ∀ r ∈ rules, 0 ≤ r.cost

namespace TwoEdgeRules

variable {g : TrspGraph} {rows : List EdgeT} {ρ : Int → Int} {rules : List RestrictionT}

/-- An edge of the graph is a row with its ends renumbered. -/
theorem row (h : TwoEdgeRules g rows ρ rules) {i : Nat} {e : EdgeInfo}
    (he : g.edges[i]? = some e) :
    ∃ r, rows[i]? = some r ∧ e.edge = r.rename ρ ∧ e.edgeIndex = i := by
  obtain ⟨hr, hi⟩ := TrspGraph.row_of_edge h.linked.edges he
  rw [List.getElem?_map] at hr
  obtain ⟨r, hr, heq⟩ := Option.map_eq_some_iff.mp hr
  exact ⟨r, hr, heq.symm, hi⟩

theorem edge (h : TwoEdgeRules g rows ρ rules) {i : Nat} {r : EdgeT} (hr : rows[i]? = some r) :
    ∃ e, g.edges[i]? = some e ∧ e.edge = r.rename ρ ∧ e.edgeIndex = i :=
  TrspGraph.exists_edge h.linked.edges (by rw [List.getElem?_map, hr]; rfl)

/-- The extra cost of an edge depends on the edge before it only. -/
theorem getRestrictionCost (h : TwoEdgeRules g rows ρ rules) (q : TrspQuery) {i : Nat}
    {e : EdgeInfo} (he : g.edges[i]? = some e) (f : EdgeInfo) (isStart : Bool) :
    TrspQuery.getRestrictionCost g q i f isStart = some (turnCost rules e.edgeID f.edgeID) := by
  have hslot : (if isStart then cEdge else rcEdge) = isStart := by cases isStart <;> rfl
  have hcheck : ∀ r ∈ rules, TrspQuery.checkPrecedence g q i (some isStart)
      (Rule.new r).precedencelist =
      some (decide ((Rule.new r).precedencelist = [e.edgeID])) := by
    intro r hr
    obtain ⟨a, b, hvia⟩ : ∃ a b, r.via = [a, b] := List.length_eq_two.mp (h.two r hr)
    have hprec : (Rule.new r).precedencelist = [a] := by simp [Rule.new, hvia]
    rw [hprec]
    simp only [TrspQuery.checkPrecedence, he]
    by_cases ha : a = e.edgeID
    · simp [ha]
    · simp [ha]
  rw [TrspQuery.getRestrictionCost, hslot, TrspQuery.foldlM_ruleCosts, h.ruleTable, zero_add,
    if_pos]
  · congr 1
    rw [List.filter_filter, List.filter_map, List.map_map, turnCost]
    refine congrArg List.sum (congrArg (List.map _) (List.filter_congr fun r hr => ?_))
    obtain ⟨a, b, hvia⟩ : ∃ a b, r.via = [a, b] := List.length_eq_two.mp (h.two r hr)
    have hprec : (Rule.new r).precedencelist = [a] := by simp [Rule.new, hvia]
    have hdest : (Rule.new r).destId = b := by simp [Rule.new, hvia]
    have hc := hcheck r hr
    rw [hprec] at hc
    simp [hc, hprec, hdest, hvia]
  · intro rule hrule
    simp only [List.mem_filter, List.mem_map] at hrule
    obtain ⟨⟨r, hr, rfl⟩, _⟩ := hrule
    rw [hcheck r hr]
    rfl

end TwoEdgeRules

namespace TrspQuery

variable {g : TrspGraph} {q q' q'' : TrspQuery}

/-! ## The query as a labelling of the traversals -/

/-- The label of a traversal. -/
def label (q : TrspQuery) (v : TravState) : WithTop ℚ := (q.dCost v.1).get v.2

/-- The traversal before a traversal. -/
def parentOf (q : TrspQuery) (v : TravState) : Option TravState :=
  ((q.parent v.1).vPos v.2).map fun slot => ((q.parent v.1).eIdx v.2, slot)

/-- The entries of the queue. -/
def entries (q : TrspQuery) (k : WithTop ℚ) (v : TravState) : Prop :=
  toLex (k, toLex (v.1, !v.2)) ∈ q.que

@[simp] theorem mem_que_addToQue {k k' : WithTop ℚ} {i : Nat} {slot : Slot} {v : TravState} :
    (q.addToQue k' i (!slot)).entries k v ↔ (k = k' ∧ v = (i, slot)) ∨ q.entries k v := by
  simp [entries, addToQue, Prod.ext_iff]

/-- `q'` arises from `q` by relaxing arcs that leave the traversal `v`. -/
structure RelaxedFrom (v : TravState) (arcs : TravState → WithTop ℚ → Prop) (n : Nat)
    (q q' : TrspQuery) : Prop where
  relaxing : Relaxing (q.label v) arcs q.label q'.label q.entries q'.entries
  parents : ∀ u, q'.label u = q.label u ∧ q'.parentOf u = q.parentOf u ∨
    q'.label u ≠ q.label u ∧ q'.parentOf u = some v
  keys : ∀ k u, q'.entries k u → q.entries k u ∨ k ≠ ⊤
  frame : q'.startVertex = q.startVertex ∧ q'.endVertex = q.endVertex ∧
    q'.currentNode = q.currentNode ∧ q'.path = q.path
  pushes : q'.que.length ≤ q.que.length + n
  quiet : q'.label = q.label → q'.que.length ≤ q.que.length

theorem RelaxedFrom.refl (v : TravState) (q : TrspQuery) :
    RelaxedFrom v (fun _ _ => False) 0 q q where
  relaxing := .skip fun _ _ h => h.elim
  parents _ := .inl ⟨rfl, rfl⟩
  keys _ _ h := .inl h
  frame := ⟨rfl, rfl, rfl, rfl⟩
  pushes := le_refl _
  quiet _ := le_refl _

theorem RelaxedFrom.mono {v : TravState} {arcs arcs' : TravState → WithTop ℚ → Prop} {n m : Nat}
    (h : RelaxedFrom v arcs n q q') (harcs : ∀ u w, arcs u w ↔ arcs' u w) (hle : n ≤ m) :
    RelaxedFrom v arcs' m q q' :=
  ⟨h.relaxing.congr harcs, h.parents, h.keys, h.frame, h.pushes.trans (by omega), h.quiet⟩

/-- Relaxing the arcs of `v` in two steps, of which the first one leaves the label of `v` alone. -/
theorem RelaxedFrom.trans {v : TravState} {arcs arcs' : TravState → WithTop ℚ → Prop} {n m : Nat}
    (h : RelaxedFrom v arcs n q q') (h' : RelaxedFrom v arcs' m q' q'')
    (hv : q'.label v = q.label v) :
    RelaxedFrom v (fun u w => arcs u w ∨ arcs' u w) (n + m) q q'' where
  relaxing := h.relaxing.trans (hv ▸ h'.relaxing)
  parents u := by
    have hle := h.relaxing.decrease u
    have hle' := h'.relaxing.decrease u
    obtain ⟨hl', hp'⟩ | ⟨hl', hp'⟩ := h'.parents u
    · obtain ⟨hl, hp⟩ | ⟨hl, hp⟩ := h.parents u
      · exact .inl ⟨hl'.trans hl, hp'.trans hp⟩
      · exact .inr ⟨hl' ▸ hl, hp'.trans hp⟩
    · exact .inr ⟨((lt_of_le_of_ne hle' hl').trans_le hle).ne, hp'⟩
  keys k u hq := (h'.keys k u hq).elim (h.keys k u) .inr
  frame := ⟨h'.frame.1.trans h.frame.1, h'.frame.2.1.trans h.frame.2.1,
    h'.frame.2.2.1.trans h.frame.2.2.1, h'.frame.2.2.2.trans h.frame.2.2.2⟩
  pushes := by
    have := h.pushes
    have := h'.pushes
    omega
  quiet heq := by
    have hmid : q'.label = q.label := funext fun u =>
      le_antisymm (h.relaxing.decrease u) (congrFun heq u ▸ h'.relaxing.decrease u)
    exact (h'.quiet (heq.trans hmid.symm)).trans (h.quiet hmid)

/-- `relax` relaxes one arc. -/
theorem relax_relaxedFrom (q : TrspQuery) {i index : Nat} {slot slot' : Slot} {f : EdgeInfo}
    (hf : f.edgeIndex = index) (cost : ℚ) :
    RelaxedFrom (i, slot) (fun u w => u = (index, slot') ∧ w = cost) 1 q
      (q.relax i slot index f slot' cost) := by
  have htotal : q.getTotCost cost i slot = q.label (i, slot) + (cost : WithTop ℚ) := by
    cases slot <;> rfl
  have hlabel : q.label (index, slot') = (q.dCost index).get slot' := rfl
  have hslot : (if slot then cEdge else rcEdge) = slot := by cases slot <;> rfl
  unfold relax
  simp only [htotal, ← hlabel, hslot, EdgeInfo.idx, hf]
  split
  next hlt =>
    set k₀ := q.label (i, slot) + (cost : WithTop ℚ) with hk₀
    -- Only the label of the slot that is entered changes.
    have hlab : (addToQue { q with
        dCost := Function.update q.dCost index ((q.dCost index).set k₀ slot')
        parent := Function.update q.parent index
          { vPos := Function.update (q.parent index).vPos slot' (some slot)
            eIdx := Function.update (q.parent index).eIdx slot' i } } k₀ index (!slot')).label =
        Function.update q.label (index, slot') k₀ := by
      funext u
      obtain ⟨j, d⟩ := u
      by_cases hj : j = index
      · subst hj
        by_cases hd : d = slot'
        · simp [hd, label, addToQue]
        · simp [hd, label, addToQue]
      · simp [hj, label, addToQue]
    refine ⟨?_, fun u => ?_, fun k u hq => ?_, ⟨rfl, rfl, rfl, rfl⟩, ?_, fun heq => ?_⟩
    · rw [hlab]
      exact Relaxing.improve hlt fun k u => mem_que_addToQue
    · rw [hlab]
      by_cases hu : u = (index, slot')
      · subst hu
        refine .inr ⟨by simpa using hlt.ne, ?_⟩
        simp [parentOf, addToQue]
      · refine .inl ⟨Function.update_of_ne hu _ _, ?_⟩
        obtain ⟨j, d⟩ := u
        by_cases hj : j = index
        · subst hj
          have hd : d ≠ slot' := fun hd => hu (by rw [hd])
          simp [parentOf, addToQue, hd]
        · simp [parentOf, addToQue, hj]
    · obtain ⟨rfl, rfl⟩ | hq := mem_que_addToQue.mp hq
      · exact .inr (hlt.trans_le le_top).ne
      · exact .inl hq
    · simp [addToQue]
    · rw [hlab] at heq
      have := congrFun heq (index, slot')
      rw [Function.update_self] at this
      exact absurd this hlt.ne
  -- The traversal has a label that is no dearer.
  next hge =>
    refine ⟨.skip ?_, fun u => .inl ⟨rfl, rfl⟩, fun _ _ h => .inl h, ⟨rfl, rfl, rfl, rfl⟩,
      by omega, fun _ => le_refl _⟩
    rintro u w ⟨rfl, rfl⟩
    exact not_lt.mp hge

/-! ## Exploring a traversal -/

section Explore

variable {rows : List EdgeT} {ρ : Int → Int} {rules : List RestrictionT}

/-- An arc that is relaxed under a condition. -/
theorem relax_relaxedFrom_if (q : TrspQuery) {i index : Nat} (slot slot' : Slot) {f : EdgeInfo}
    (hf : f.edgeIndex = index) (cost : ℚ) (c : Prop) [Decidable c] :
    RelaxedFrom (i, slot) (fun u w => c ∧ u = (index, slot') ∧ w = cost) 1 q
      (if c then q.relax i slot index f slot' cost else q) := by
  split
  · rename_i hc
    exact (relax_relaxedFrom q hf cost).mono (fun u w => by simp [hc]) (le_refl _)
  · rename_i hc
    exact (RelaxedFrom.refl (i, slot) q).mono (fun u w => by simp [hc]) (by omega)

/-- Relaxing arcs to other edges leaves the label of the traversal alone. -/
theorem RelaxedFrom.label_eq {v : TravState} {arcs : TravState → WithTop ℚ → Prop} {n : Nat}
    (h : RelaxedFrom v arcs n q q') (harcs : ∀ u w, arcs u w → u.1 ≠ v.1) :
    q'.label v = q.label v := by
  obtain heq | ⟨w, harc, _⟩ := h.relaxing.change v
  · exact heq
  · exact absurd rfl (harcs v w harc)

/-- `explore` relaxes the arcs from the current traversal to the traversals of one edge. -/
theorem exploreEdge_relaxes (hg : TwoEdgeRules g rows ρ rules) (q : TrspQuery) {i j : Nat}
    {slot : Slot} {e : EdgeInfo} {r rf : EdgeT} (he : g.edges[i]? = some e)
    (hr : rows[i]? = some r) (hrf : rows[j]? = some rf) (hne : j ≠ i)
    (hcost : 0 ≤ r.slotCost slot) :
    ∃ q', exploreEdge g (e.edge.exit slot) e slot q j = some q' ∧
      RelaxedFrom (i, slot) (fun u w => u.1 = j ∧ TurnArc rows rules (i, slot) u w) 2 q q' := by
  obtain ⟨r', hr', hedge, hidx⟩ := hg.row he
  obtain rfl : r' = r := Option.some.inj (hr'.symm.trans hr)
  obtain ⟨f, hf, hfedge, hfidx⟩ := hg.edge hrf
  have hextra := hg.getRestrictionCost q he f slot
  -- The renumbered nodes agree exactly when the nodes of the table do.
  have hnode : ∀ d, f.edge.entry d = e.edge.exit slot ↔ rf.entry d = r'.exit slot := by
    intro d
    rw [hfedge, hedge, EdgeT.entry_rename, EdgeT.exit_rename]
    exact ⟨hg.inj _ (List.mem_of_getElem? hrf) _ (List.mem_of_getElem? hr) _ _
      (rf.meets_entry d) (r'.meets_exit slot), fun h => by rw [h]⟩
  have hid : e.edgeID = r'.id ∧ f.edgeID = rf.id := by
    rw [EdgeInfo.edgeID, EdgeInfo.edgeID, hedge, hfedge]
    exact ⟨rfl, rfl⟩
  have hfcost : ∀ d, f.edge.slotCost d = rf.slotCost d := fun d => by
    rw [hfedge, EdgeT.slotCost_rename]
  rw [hid.1, hid.2] at hextra
  simp only [exploreEdge, hf, EdgeInfo.idx, hidx, hextra, Option.bind_eq_bind, Option.bind_some,
    Option.pure_def, Option.some.injEq, exists_eq_left']
  have h₁ := relax_relaxedFrom_if q (i := i) slot rcEdge hfidx
    (f.cost + turnCost rules r'.id rf.id) (f.startNode = e.edge.exit slot ∧ 0 ≤ f.cost)
  generalize (if f.startNode = e.edge.exit slot ∧ 0 ≤ f.cost then
    q.relax i slot j f rcEdge (f.cost + turnCost rules r'.id rf.id) else q) = q₁ at *
  have h₂ := relax_relaxedFrom_if q₁ (i := i) slot cEdge hfidx
    (f.rCost + turnCost rules r'.id rf.id) (f.endNode = e.edge.exit slot ∧ 0 ≤ f.rCost)
  refine (h₁.trans h₂ (h₁.label_eq ?_)).mono (fun u w => ?_) (le_refl _)
  · rintro u w ⟨_, rfl, _⟩
    exact hne
  · obtain ⟨k, d⟩ := u
    have hn₁ : f.edge.source = e.edge.exit slot ↔ rf.source = r'.exit slot := hnode rcEdge
    have hn₂ : f.edge.target = e.edge.exit slot ↔ rf.target = r'.exit slot := hnode cEdge
    have hc₁ : f.edge.cost = rf.cost := hfcost rcEdge
    have hc₂ : f.edge.reverseCost = rf.reverseCost := hfcost cEdge
    simp only [EdgeInfo.startNode, EdgeInfo.endNode, EdgeInfo.cost, EdgeInfo.rCost, TurnArc, hr',
      Prod.mk.injEq, hc₁, hc₂, hn₁, hn₂]
    by_cases hk : k = j
    · subst hk
      cases d <;> simp [hrf, hne, hcost, and_assoc]
    · simp [hk]

/-- `explore` relaxes the arcs that leave a traversal. -/
theorem explore_relaxes (hg : TwoEdgeRules g rows ρ rules) (q : TrspQuery) {i : Nat}
    {slot : Slot} {e : EdgeInfo} {r : EdgeT} (he : g.edges[i]? = some e) (hr : rows[i]? = some r)
    (hcost : 0 ≤ r.slotCost slot) :
    ∃ q', explore g (e.edge.exit slot) e slot q = some q' ∧
      RelaxedFrom (i, slot) (TurnArc rows rules (i, slot)) (2 * (e.getIdx slot).length) q q' := by
  have hlink : ∀ j, j ∈ e.getIdx slot ↔ TrspGraph.Link g.edges i slot j := fun j =>
    ⟨fun hj => ⟨e, he, hj⟩, fun ⟨e', he', hj⟩ => Option.some.inj (he.symm.trans he') ▸ hj⟩
  have hmem : ∀ j ∈ e.getIdx slot, j ≠ i ∧ ∃ rf, rows[j]? = some rf := by
    intro j hj
    obtain ⟨hne, _, f, _, hf, _⟩ := (hg.linked.links i slot j).mp ((hlink j).mp hj)
    rw [List.getElem?_map] at hf
    obtain ⟨rf, hrf, _⟩ := Option.map_eq_some_iff.mp hf
    exact ⟨hne, rf, hrf⟩
  -- The list of an edge contains every edge with a traversal that can follow.
  have harc : ∀ u w, TurnArc rows rules (i, slot) u w → u.1 ∈ e.getIdx slot := by
    rintro ⟨j, d⟩ w ⟨hne, r', rf, hr', hrf, hc, hnode, _⟩
    rw [hlink, hg.linked.links]
    refine ⟨hne, r'.rename ρ, rf.rename ρ, ?_, ?_, ?_, ?_⟩
    · simpa using ⟨r', hr', rfl⟩
    · simpa using ⟨rf, hrf, rfl⟩
    · simpa using hc
    · have hmeets := (rf.rename ρ).meets_entry d
      rwa [EdgeT.entry_rename, hnode, ← r'.exit_rename ρ slot] at hmeets
  suffices h : ∀ (l : List Nat) (q : TrspQuery), (∀ j ∈ l, j ≠ i ∧ ∃ rf, rows[j]? = some rf) →
      ∃ q', l.foldlM (exploreEdge g (e.edge.exit slot) e slot) q = some q' ∧
        RelaxedFrom (i, slot) (fun u w => u.1 ∈ l ∧ TurnArc rows rules (i, slot) u w)
          (2 * l.length) q q' by
    obtain ⟨q', hq', hrel⟩ := h _ q hmem
    exact ⟨q', hq', hrel.mono (fun u w => ⟨And.right, fun h => ⟨harc u w h, h⟩⟩) (le_refl _)⟩
  intro l
  induction l with
  | nil => exact fun q _ => ⟨q, rfl, (RelaxedFrom.refl _ q).mono (fun u w => by simp) (le_refl _)⟩
  | cons j l ih =>
    intro q hl
    obtain ⟨hne, rf, hrf⟩ := hl j List.mem_cons_self
    obtain ⟨q₁, hq₁, h₁⟩ := exploreEdge_relaxes hg q he hr hrf hne hcost
    obtain ⟨q', hq', h'⟩ := ih q₁ fun k hk => hl k (List.mem_cons_of_mem _ hk)
    refine ⟨q', by rw [List.foldlM_cons, hq₁]; exact hq', (h₁.trans h' (h₁.label_eq ?_)).mono
      (fun u w => ?_) ?_⟩
    · rintro u w ⟨rfl, _⟩
      exact hne
    · rw [List.mem_cons, or_and_right]
    · rw [List.length_cons]
      omega

end Explore

/-! ## Starting the search -/

section Start

variable {rows : List EdgeT} {ρ : Int → Int} {rules : List RestrictionT} {s : Int}

theorem TurnSource.unique {v : TravState} {c c' : WithTop ℚ} (h : TurnSource rows s v c)
    (h' : TurnSource rows s v c') : c = c' := by
  obtain ⟨f, hf, _, _, rfl⟩ := h
  obtain ⟨f', hf', _, _, rfl⟩ := h'
  obtain rfl := Option.some.inj (hf.symm.trans hf')
  rfl

/-- The traversals in `S`, which leave the start vertex, have been entered into the queue. -/
structure Seeded (rows : List EdgeT) (s : Int) (S : TravState → Prop) (q₀ q : TrspQuery) :
    Prop where
  label : ∀ v, S v ∧ TurnSource rows s v (q.label v) ∨ ¬ S v ∧ q.label v = ⊤
  entries : ∀ k v, q.entries k v ↔ S v ∧ TurnSource rows s v k
  parents : ∀ v, q.parentOf v = none
  frame : q.startVertex = q₀.startVertex ∧ q.endVertex = q₀.endVertex ∧ q.path = q₀.path

theorem Seeded.congr {S S' : TravState → Prop} {q₀ : TrspQuery} (h : Seeded rows s S q₀ q)
    (hS : ∀ v, S v ↔ S' v) : Seeded rows s S' q₀ q := by
  obtain rfl : S = S' := funext fun v => propext (hS v)
  exact h

/-- `startWith` enters one traversal. -/
theorem Seeded.startWith {S : TravState → Prop} {q₀ : TrspQuery} (h : Seeded rows s S q₀ q)
    {e : EdgeInfo} {j : Nat} (hj : e.edgeIndex = j) {slot : Slot} {cost : ℚ}
    (hsrc : TurnSource rows s (j, slot) cost) :
    Seeded rows s (fun v => S v ∨ v = (j, slot)) q₀ (q.startWith e slot cost) := by
  subst hj
  have hlab : (q.startWith e slot cost).label =
      Function.update q.label (e.edgeIndex, slot) (cost : WithTop ℚ) := by
    funext v
    obtain ⟨i, d⟩ := v
    by_cases hi : i = e.edgeIndex
    · subst hi
      by_cases hd : d = slot
      · simp [hd, TrspQuery.label, TrspQuery.startWith, addToQue, EdgeInfo.idx]
      · simp [hd, TrspQuery.label, TrspQuery.startWith, addToQue, EdgeInfo.idx]
    · simp [hi, TrspQuery.label, TrspQuery.startWith, addToQue, EdgeInfo.idx]
  constructor
  case label =>
    intro v
    rw [hlab]
    by_cases hv : v = (e.edgeIndex, slot)
    · subst hv
      rw [Function.update_self]
      exact .inl ⟨.inr rfl, hsrc⟩
    · rw [Function.update_of_ne hv]
      simpa [hv] using h.label v
  case entries =>
    intro k v
    refine mem_que_addToQue.trans ?_
    have hold := h.entries k v
    constructor
    · rintro (⟨rfl, rfl⟩ | hq)
      · exact ⟨.inr rfl, hsrc⟩
      · exact ⟨.inl (hold.mp hq).1, (hold.mp hq).2⟩
    · rintro ⟨hS | rfl, hk⟩
      · exact .inr (hold.mpr ⟨hS, hk⟩)
      · exact .inl ⟨TurnSource.unique hk hsrc, rfl⟩
  -- The traversal becomes its own parent; no other parent changes.
  case parents =>
    intro v
    obtain ⟨i, d⟩ := v
    have hold := h.parents (i, d)
    by_cases hi : i = e.edgeIndex
    · subst hi
      by_cases hd : d = slot
      · simp [hd, parentOf, TrspQuery.startWith, addToQue, EdgeInfo.idx]
      · simpa [hd, parentOf, TrspQuery.startWith, addToQue, EdgeInfo.idx] using hold
    · simpa [hi, parentOf, TrspQuery.startWith, addToQue, EdgeInfo.idx] using hold
  case frame => exact h.frame

/-- `initialize_que` enters the traversals of one edge. -/
theorem Seeded.initializeEdge (hg : TwoEdgeRules g rows ρ rules) {S : TravState → Prop}
    {q₀ : TrspQuery} (h : Seeded rows s S q₀ q) (hs : ∃ r ∈ rows, r.Meets s)
    (hstart : q₀.startVertex = ρ s) {j : Nat} {rf : EdgeT} (hrf : rows[j]? = some rf) :
    ∃ q', TrspQuery.initializeEdge g q j = some q' ∧
      Seeded rows s (fun v => S v ∨ v.1 = j ∧ ∃ c, TurnSource rows s v c) q₀ q' := by
  obtain ⟨f, hf, hfedge, hfidx⟩ := hg.edge hrf
  obtain ⟨r₀, hr₀, hmeets⟩ := hs
  have hnode : ∀ d, f.edge.entry d = ρ s ↔ rf.entry d = s := by
    intro d
    rw [hfedge, EdgeT.entry_rename]
    exact ⟨hg.inj _ (List.mem_of_getElem? hrf) _ hr₀ _ _ (rf.meets_entry d) hmeets,
      fun h => by rw [h]⟩
  have hcost : ∀ d, f.edge.slotCost d = rf.slotCost d := fun d => by
    rw [hfedge, EdgeT.slotCost_rename]
  have hsrc : ∀ d, (∃ c, TurnSource rows s (j, d) c) ↔
      f.edge.entry d = ρ s ∧ 0 ≤ f.edge.slotCost d := by
    intro d
    rw [hnode, hcost]
    exact ⟨fun ⟨_, f', hf', h₁, h₂, _⟩ => Option.some.inj (hrf.symm.trans hf') ▸ ⟨h₁, h₂⟩,
      fun ⟨h₁, h₂⟩ => ⟨_, rf, hrf, h₁, h₂, rfl⟩⟩
  -- One traversal, entered under its condition.
  have hone : ∀ (S : TravState → Prop) (q : TrspQuery) (d : Slot) (c : Prop) [Decidable c],
      (c ↔ f.edge.entry d = ρ s ∧ 0 ≤ f.edge.slotCost d) → Seeded rows s S q₀ q →
      Seeded rows s (fun v => S v ∨ v = (j, d) ∧ ∃ c, TurnSource rows s v c) q₀
        (if c then q.startWith f d (f.edge.slotCost d) else q) := by
    intro S q d c _ hc h
    split
    · rename_i hyes
      have hn := hc.mp hyes
      refine (h.startWith hfidx ⟨rf, hrf, (hnode d).mp hn.1, (hcost d) ▸ hn.2,
        by rw [hcost]⟩).congr fun v => or_congr_right ?_
      constructor
      · rintro rfl
        exact ⟨rfl, (hsrc d).mpr hn⟩
      · exact And.left
    · rename_i hno
      refine h.congr fun v => ⟨.inl, ?_⟩
      rintro (hS | ⟨rfl, hex⟩)
      · exact hS
      · exact absurd (hc.mpr ((hsrc d).mp hex)) hno
  have hsv : ∀ {S q}, Seeded rows s S q₀ q → q.startVertex = ρ s :=
    fun h => h.frame.1.trans hstart
  simp only [TrspQuery.initializeEdge, hf, Option.bind_eq_bind, Option.bind_some, Option.pure_def,
    Option.some.injEq, exists_eq_left']
  have h₁ := hone S q rcEdge (f.startNode = q.startVertex ∧ 0 ≤ f.cost) (by rw [hsv h]; rfl) h
  simp only [EdgeT.slotCost_rcEdge] at h₁
  generalize hq₁ : (if f.startNode = q.startVertex ∧ 0 ≤ f.cost then
    q.startWith f rcEdge f.edge.cost else q) = q₁ at h₁
  have h₂ := hone _ q₁ cEdge (f.endNode = q₁.startVertex ∧ 0 ≤ f.rCost) (by rw [hsv h₁]; rfl) h₁
  have hfc : f.cost = f.edge.cost := rfl
  rw [hfc] at hq₁ ⊢
  rw [hq₁]
  refine h₂.congr fun v => ?_
  obtain ⟨i, d⟩ := v
  cases d <;> simp

end Start

/-! ## The loop -/

section Search

variable {rows : List EdgeT} {ρ : Int → Int} {rules : List RestrictionT} {s : Int}

/-- The invariant of the search. The traversals in `order` have been explored, the last one
    first; none of them ends at the end vertex. -/
structure SearchInv (g : TrspGraph) (rows : List EdgeT) (rules : List RestrictionT) (s : Int)
    (order : List TravState) (q : TrspQuery) : Prop where
  search : LabelSetting (TurnArc rows rules) (TurnSource rows s) q.label (· ∈ order) q.entries
  ancestry : Ancestry (TurnArc rows rules) (TurnSource rows s) q.label q.parentOf order
  keys : ∀ k v, q.entries k v → k ≠ ⊤
  labelled : ∀ v ∈ order, q.label v ≠ ⊤
  nodup : order.Nodup
  open_ : ∀ v ∈ order, ∀ e, g.edges[v.1]? = some e → e.edge.exit v.2 ≠ q.endVertex

/-- A labelled traversal is possible. -/
theorem SearchInv.exists_row {order : List TravState} (inv : SearchInv g rows rules s order q)
    {v : TravState} (hv : q.label v ≠ ⊤) : ∃ r, rows[v.1]? = some r ∧ 0 ≤ r.slotCost v.2 := by
  obtain ⟨u, a, b, hsrc, hwalk, _⟩ := inv.search.sound v hv
  refine hwalk.snoc_induction
    (motive := fun v _ => ∃ r, rows[v.1]? = some r ∧ 0 ≤ r.slotCost v.2) ?_ ?_
  · obtain ⟨f, hf, _, hc, _⟩ := hsrc
    exact ⟨f, hf, hc⟩
  · rintro _ _ _ _ _ _ ⟨_, _, f, _, hf, _, _, hc, _⟩
    exact ⟨f, hf, hc⟩

/-- The rounds that the search can still do. -/
def work (g : TrspGraph) (rows : List EdgeT) (order : List TravState) (q : TrspQuery) : Nat :=
  q.que.length + pending (Finset.range rows.length ×ˢ Finset.univ)
    (fun v : TravState => 2 * ((g.edges[v.1]?.map fun e => (e.getIdx v.2).length).getD 0))
    fun v => decide (v ∈ order)

/-- The traversal of the top entry, and what it costs to get there. -/
theorem SearchInv.top (hg : TwoEdgeRules g rows ρ rules) {order : List TravState}
    (inv : SearchInv g rows rules s order q) {k : WithTop ℚ} {i : Nat} {slot : Slot} {e : EdgeInfo}
    (htop : q.que.top? = some (toLex (k, toLex (i, !slot)))) (he : g.edges[i]? = some e) :
    q.entries k (i, slot) ∧ (∀ k' v, q.entries k' v → k ≤ k') ∧ q.label (i, slot) ≠ ⊤ ∧
    ∃ r, rows[i]? = some r ∧ e.edge = r.rename ρ ∧ 0 ≤ r.slotCost slot := by
  obtain ⟨hmem, hmin⟩ := PriorityQueue.top?_eq_some.mp htop
  have hlabel : q.label (i, slot) ≠ ⊤ := fun h =>
    inv.keys k (i, slot) hmem (top_le_iff.mp (h ▸ inv.search.above k (i, slot) hmem))
  obtain ⟨r, hr, hc⟩ := inv.exists_row hlabel
  obtain ⟨r', hr', hedge, _⟩ := hg.row he
  obtain rfl : r' = r := Option.some.inj (hr'.symm.trans hr)
  exact ⟨hmem, fun k' v hq => Prod.Lex.monotone_fst _ _ (hmin _ hq), hlabel, r', hr, hedge, hc⟩

/-- A round that explores a traversal keeps the invariant and leaves fewer rounds to do. -/
theorem SearchInv.round (hg : TwoEdgeRules g rows ρ rules) {order : List TravState}
    (inv : SearchInv g rows rules s order q) {k : WithTop ℚ} {i : Nat} {slot : Slot} {e : EdgeInfo}
    (htop : q.que.top? = some (toLex (k, toLex (i, !slot)))) (he : g.edges[i]? = some e)
    (hend : e.edge.exit slot ≠ q.endVertex) :
    ∃ q' order', explore g (e.edge.exit slot) e slot (q.take e slot) = some q' ∧
      SearchInv g rows rules s order' q' ∧ work g rows order' q' < work g rows order q ∧
      q'.startVertex = q.startVertex ∧ q'.endVertex = q.endVertex ∧
      q'.currentNode = e.edge.exit slot ∧ q'.path = q.path := by
  obtain ⟨hmem, hmin, hlabel, r, hr, hedge, hc⟩ := inv.top hg htop he
  obtain ⟨q', hq', hrel⟩ := explore_relaxes hg (q.take e slot) he hr hc
  have hpop := PriorityQueue.length_pop htop
  have hpushes := hrel.pushes
  have hlen : (q.take e slot).que.length = q.que.pop.length := rfl
  -- Taking the entry leaves all others, so the round is a relaxing step from a popped entry.
  have hstep : Relaxed (TurnArc rows rules) k (i, slot) q.label q'.label q.entries q'.entries := by
    refine hrel.relaxing.relaxed (fun k' v hq hne => ?_) fun k' v hq =>
      PriorityQueue.mem_of_mem_pop hq
    refine PriorityQueue.mem_pop_of_ne htop hq fun heq => ?_
    obtain ⟨hk, htrav⟩ := Prod.mk.inj (toLex.injective heq)
    obtain ⟨hi, hs⟩ := Prod.mk.inj (toLex.injective htrav)
    exact hne hk (Prod.ext hi (by simpa using hs))
  have hkeys : ∀ k v, q'.entries k v → k ≠ ⊤ := fun k' v hq =>
    (hrel.keys k' v hq).elim (fun h => inv.keys k' v (PriorityQueue.mem_of_mem_pop h)) id
  -- A parent is set only together with a label.
  have hparents : ∀ u, q'.label u = q.label u ∧ q'.parentOf u = q.parentOf u ∨
      q'.label u ≠ q.label u ∧ q'.parentOf u = some (i, slot) := hrel.parents
  have hA : ∀ u v w, TurnArc rows rules u v w → 0 ≤ w := fun _ _ _ h => h.nonneg hg.nonneg
  obtain ⟨hfs, hfe, hfc, hfp⟩ := hrel.frame
  by_cases hx : (i, slot) ∈ order
  · -- The entry has been overtaken: nothing changes but the queue.
    have hsame : q'.label = q.label := inv.search.stale_label hx hstep
    have hpar : q'.parentOf = q.parentOf := funext fun u =>
      (hparents u).elim And.right fun h => absurd (congrFun hsame u) h.1
    refine ⟨q', order, hq', ⟨?_, ?_, hkeys, ?_, inv.nodup, ?_⟩, ?_, hfs, hfe, hfc, hfp⟩
    · exact inv.search.stale hx hstep
    · rw [hsame, hpar]
      exact inv.ancestry
    · rw [hsame]
      exact inv.labelled
    · rw [hfe]
      exact inv.open_
    · -- The arcs have been relaxed before, so nothing is pushed.
      have := hrel.quiet hsame
      simp only [work]
      omega
  · -- The traversal is explored for the first time: it is settled, and its label is final.
    have hsettle := inv.search.settle hmem hmin hx hA hstep
    have hlab : ∀ u, u ∈ order ∨ u = (i, slot) → q'.label u = q.label u := fun u hu =>
      inv.search.settled_label hmem hmin hx hA hstep hu
    refine ⟨q', (i, slot) :: order, hq', ⟨?_, ?_, hkeys, ?_, ?_, ?_⟩, ?_, hfs, hfe, hfc, hfp⟩
    · simpa only [List.mem_cons, or_comm] using hsettle
    · refine inv.ancestry.settle hlabel hlab fun v => ?_
      obtain h | ⟨hne, hp⟩ := hparents v
      · exact .inl h
      · exact .inr ⟨hne, hp, (hstep.change v).resolve_left hne⟩
    · intro v hv
      rw [hlab v ((List.mem_cons.mp hv).symm)]
      obtain rfl | hv := List.mem_cons.mp hv
      · exact hlabel
      · exact inv.labelled v hv
    · exact List.nodup_cons.mpr ⟨hx, inv.nodup⟩
    · intro v hv e' he'
      rw [hfe]
      obtain rfl | hv := List.mem_cons.mp hv
      · obtain rfl := Option.some.inj (he.symm.trans he')
        exact hend
      · exact inv.open_ v hv e' he'
    · -- What it may push has been counted as pending twice over.
      have hpend := pending_settle (Finset.range rows.length ×ˢ Finset.univ)
        (fun v : TravState => 2 * ((g.edges[v.1]?.map fun e => (e.getIdx v.2).length).getD 0))
        (fun v => decide (v ∈ order)) (fun v => decide (v ∈ (i, slot) :: order))
        (x := (i, slot)) (by simpa using (List.getElem?_eq_some_iff.mp hr).1) (by simpa using hx)
        (fun v => by simp [or_comm])
      simp only [he, Option.map_some, Option.getD_some] at hpend
      simp only [work]
      omega

/-- The invariant of the loop that starts in `q₀`: before the first round nothing has changed,
    later on the current node is not the end vertex. -/
def LoopInv (g : TrspGraph) (rows : List EdgeT) (rules : List RestrictionT) (s : Int)
    (q₀ : TrspQuery) (order : List TravState) : TrspQuery × Option EdgeInfo → Prop
  | (q, c) => SearchInv g rows rules s order q ∧ q.startVertex = q₀.startVertex ∧
      q.endVertex = q₀.endVertex ∧ q.path = q₀.path ∧
      (c = none ∧ q = q₀ ∨ q.currentNode ≠ q₀.endVertex)

/-- A round keeps the invariant of the loop. -/
theorem LoopInv.next (hg : TwoEdgeRules g rows ρ rules) {q₀ : TrspQuery} {order : List TravState}
    {x y : TrspQuery × Option EdgeInfo} (h : LoopInv g rows rules s q₀ order x)
    (hb : explorationRound g x = .next y) :
    ∃ order', LoopInv g rows rules s q₀ order' y ∧
      work g rows order' y.1 < work g rows order x.1 := by
  obtain ⟨q, c⟩ := x
  obtain ⟨q', c'⟩ := y
  obtain ⟨inv, hsv, hev, hpath, _⟩ := h
  obtain ⟨k, i, slot, e, htop, he, _, hnext⟩ := explorationRound_next hb
  obtain ⟨_, _, _, r, _, hedge, hc⟩ := inv.top hg htop he
  have hcost : ¬ e.edge.slotCost slot < 0 := by
    rw [hedge, EdgeT.slotCost_rename]
    exact not_lt.mpr hc
  obtain ⟨hneg, _⟩ | ⟨_, hend, hexp⟩ := hnext
  · exact absurd hneg hcost
  · obtain ⟨q'', order', hq'', inv', hwork, hs', he', hn', hp'⟩ := inv.round hg htop he hend
    obtain rfl : q' = q'' := Option.some.inj (hexp.symm.trans hq'')
    exact ⟨order', ⟨inv', hs'.trans hsv, he'.trans hev, hp'.trans hpath,
      .inr (by rw [hn', ← hev]; exact hend)⟩, hwork⟩

end Search

end TrspQuery

end PgRouting
