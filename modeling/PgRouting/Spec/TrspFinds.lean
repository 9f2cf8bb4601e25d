import PgRouting.Spec.TrspDijkstra

/-!
# Which queries find a path

Whatever the rules are and whatever former queries have left in the queue, the search
gives a label to every traversal that traversals without a negative cost lead to from
the start vertex, and to no other. Entries without a label change no label. So a query
that a fresh handler answers with a path is answered with a path by any handler.

## Key results

- `explore_labels`: what exploring labels
- `Searching.next`: the invariant of the search
- `process_leading`, `process_spec`: a path is found when the end can be reached
-/

namespace PgRouting

namespace TrspQuery

variable {g : TrspGraph} {q q' q'' : TrspQuery} {on : Prop} {back : Option TravState}
variable {succ succ' : TravState → Prop}

/-! ## Labels -/

/-- When `on` holds the traversals `succ` get labels, and no others do. A traversal whose label has
    changed has the predecessor `back`. -/
structure Labels (on : Prop) (back : Option TravState) (succ : TravState → Prop)
    (q q' : TrspQuery) : Prop where
  keep : ∀ u, q.label u ≠ ⊤ → q'.label u ≠ ⊤
  mem : ∀ k u, q.entries k u → q'.entries k u
  new : ∀ u, q'.label u ≠ ⊤ → q.label u ≠ ⊤ ∨ on ∧ succ u ∧ ∃ k, q'.entries k u
  all : on → ∀ u, succ u → q'.label u ≠ ⊤
  only : ∀ k u, q'.entries k u → q.entries k u ∨ on ∧ succ u
  parents : ∀ u, (q'.label u ≠ ⊤ ↔ q.label u ≠ ⊤) ∧ q'.parentOf u = q.parentOf u ∨
    on ∧ succ u ∧ q'.parentOf u = back
  frame : q'.startVertex = q.startVertex ∧ q'.endVertex = q.endVertex ∧
    q'.currentNode = q.currentNode ∧ q'.path = q.path

theorem Labels.refl (h : ∀ u, ¬ succ u) (q : TrspQuery) : Labels on back succ q q where
  keep _ hu := hu
  mem _ _ hu := hu
  new _ hu := .inl hu
  all _ u hu := absurd hu (h u)
  only _ _ hu := .inl hu
  parents _ := .inl ⟨Iff.rfl, rfl⟩
  frame := ⟨rfl, rfl, rfl, rfl⟩

theorem Labels.trans (h : Labels on back succ q q') (h' : Labels on back succ' q' q'') :
    Labels on back (fun u => succ u ∨ succ' u) q q'' where
  keep u hu := h'.keep u (h.keep u hu)
  mem k u hu := h'.mem k u (h.mem k u hu)
  new u hu := by
    obtain hu | ⟨hon, hsucc, hk⟩ := h'.new u hu
    · obtain hu | ⟨hon, hsucc, k, hk⟩ := h.new u hu
      · exact .inl hu
      · exact .inr ⟨hon, .inl hsucc, k, h'.mem k u hk⟩
    · exact .inr ⟨hon, .inr hsucc, hk⟩
  all hon u hu := hu.elim (fun hu => h'.keep u (h.all hon u hu)) fun hu => h'.all hon u hu
  only k u hu := by
    obtain hu | ⟨hon, hsucc⟩ := h'.only k u hu
    · exact (h.only k u hu).imp_right fun ⟨hon, hsucc⟩ => ⟨hon, .inl hsucc⟩
    · exact .inr ⟨hon, .inr hsucc⟩
  parents u := by
    obtain ⟨hl', hp'⟩ | ⟨hon, hsucc, hp'⟩ := h'.parents u
    · obtain ⟨hl, hp⟩ | ⟨hon, hsucc, hp⟩ := h.parents u
      · exact .inl ⟨hl'.trans hl, hp'.trans hp⟩
      · exact .inr ⟨hon, .inl hsucc, hp'.trans hp⟩
    · exact .inr ⟨hon, .inr hsucc, hp'⟩
  frame := ⟨h'.frame.1.trans h.frame.1, h'.frame.2.1.trans h.frame.2.1,
    h'.frame.2.2.1.trans h.frame.2.2.1, h'.frame.2.2.2.trans h.frame.2.2.2⟩

theorem Labels.congr {on' : Prop} (h : Labels on back succ q q') (hon : on ↔ on')
    (hsucc : ∀ u, succ u ↔ succ' u) : Labels on' back succ' q q' := by
  obtain rfl : on = on' := propext hon
  obtain rfl : succ = succ' := funext fun u => propext (hsucc u)
  exact h

/-- A traversal that has a label keeps it, and gets one only when `on` holds. -/
theorem Labels.iff {v : TravState} (h : Labels (q.label v ≠ ⊤) back succ q q') :
    q'.label v ≠ ⊤ ↔ q.label v ≠ ⊤ :=
  ⟨fun hv => (h.new v hv).elim id And.left, h.keep v⟩

/-- The labels of a loop over a list whose rounds label what `succ` says. -/
theorem Labels.foldlM {f : TrspQuery → Nat → Option TrspQuery} (on : Prop)
    (back : Option TravState) (succ : Nat → TravState → Prop) (I : TrspQuery → Prop) (l : List Nat)
    (hstep : ∀ q j q', j ∈ l → I q → f q j = some q' → Labels on back (succ j) q q' ∧ I q')
    (hI : I q) (h : l.foldlM f q = some q') : Labels on back (fun u => ∃ j ∈ l, succ j u) q q' := by
  induction l generalizing q with
  | nil =>
    obtain rfl := Option.some.inj h
    exact .refl (fun u ⟨_, hj, _⟩ => by cases hj) q
  | cons j l ih =>
    rw [List.foldlM_cons] at h
    obtain ⟨q₁, hq₁, h⟩ := Option.bind_eq_some_iff.mp h
    obtain ⟨h₁, hI₁⟩ := hstep q j q₁ List.mem_cons_self hI hq₁
    have hrest := ih (fun q j q' hj => hstep q j q' (List.mem_cons_of_mem _ hj)) hI₁ h
    exact (h₁.trans hrest).congr Iff.rfl fun u => by simp

/-- Relaxing an arc labels its end. -/
theorem RelaxedFrom.labels {v : TravState} {arcs : TravState → WithTop ℚ → Prop} {n : Nat}
    (h : RelaxedFrom v arcs n q q') (harcs : ∀ u w, arcs u w → w ≠ ⊤) :
    Labels (q.label v ≠ ⊤) (some v) (fun u => ∃ w, arcs u w) q q' := by
  -- A label that changes is the one of `v` and a cost.
  have hchange : ∀ u, q'.label u ≠ q.label u → q'.label u ≠ ⊤ ∧ q.label v ≠ ⊤ := by
    intro u hu
    have hfin : q'.label u ≠ ⊤ := ((lt_of_le_of_ne (h.relaxing.decrease u) hu).trans_le le_top).ne
    obtain ⟨w, _, hw⟩ := (h.relaxing.change u).resolve_left hu
    rw [hw, WithTop.add_ne_top] at hfin
    exact ⟨hw ▸ WithTop.add_ne_top.mpr hfin, hfin.1⟩
  constructor
  case keep => exact fun u hu => ((h.relaxing.decrease u).trans_lt (lt_top_iff_ne_top.mpr hu)).ne
  case mem => exact h.relaxing.kept
  case new =>
    intro u hu
    by_cases heq : q'.label u = q.label u
    · exact .inl (heq ▸ hu)
    · obtain ⟨w, hw, _⟩ := (h.relaxing.change u).resolve_left heq
      exact .inr ⟨(hchange u heq).2, ⟨w, hw⟩, _, h.relaxing.pushed u heq⟩
  case all =>
    rintro hv u ⟨w, hw⟩
    have hle := h.relaxing.done u w hw
    exact (hle.trans_lt (lt_top_iff_ne_top.mpr (WithTop.add_ne_top.mpr ⟨hv, harcs u w hw⟩))).ne
  case only =>
    intro k u hu
    obtain hu | ⟨hne, _, w, hw, _⟩ := h.relaxing.only k u hu
    · exact .inl hu
    · exact .inr ⟨(hchange u hne).2, w, hw⟩
  case parents =>
    intro u
    obtain ⟨hl, hp⟩ | ⟨hne, hp⟩ := h.parents u
    · exact .inl ⟨by rw [hl], hp⟩
    · obtain ⟨w, hw, _⟩ := (h.relaxing.change u).resolve_left hne
      exact .inr ⟨(hchange u hne).2, ⟨w, hw⟩, hp⟩
  case frame => exact h.frame

/-! ## Exploring -/

/-- Every edge knows its index. -/
def Indexed (g : TrspGraph) : Prop :=
  ∀ (i : Nat) (e : EdgeInfo), g.edges[i]? = some e → e.edgeIndex = i

/-- A traversal can follow another one, as `explore` sees it. -/
def Follows (g : TrspGraph) (u v : TravState) : Prop :=
  ∃ e f, g.edges[u.1]? = some e ∧ v.1 ∈ e.getIdx u.2 ∧ g.edges[v.1]? = some f ∧
    f.edge.entry v.2 = e.edge.exit u.2 ∧ 0 ≤ f.edge.slotCost v.2

theorem exploreEdge_labels {e : EdgeInfo} {slot : Slot} {node : Int} {j : Nat}
    (hidx : Indexed g)
    (h : exploreEdge g node e slot q j = some q') :
    Labels (q.label (e.idx, slot) ≠ ⊤) (some (e.idx, slot)) (fun u => u.1 = j ∧
      ∃ f, g.edges[j]? = some f ∧ f.edge.entry u.2 = node ∧ 0 ≤ f.edge.slotCost u.2) q q' := by
  simp only [exploreEdge, Option.bind_eq_bind, Option.bind_eq_some_iff, Option.pure_def,
    Option.some.injEq] at h
  obtain ⟨f, hf, extra, _, rfl⟩ := h
  -- One relaxation, whether it takes place or not.
  have hif : ∀ (q : TrspQuery) (slot' : Slot) (cost : ℚ) (c : Prop) [Decidable c],
      Labels (q.label (e.idx, slot) ≠ ⊤) (some (e.idx, slot)) (fun u => c ∧ u = (j, slot')) q
        (if c then q.relax e.idx slot j f slot' cost else q) := by
    intro q slot' cost c _
    refine ((relax_relaxedFrom_if q slot slot' (hidx j f hf) cost c).labels ?_).congr Iff.rfl ?_
    · rintro u w ⟨_, _, rfl⟩
      exact WithTop.coe_ne_top
    · intro u
      constructor
      · intro h
        obtain ⟨_, hc, hu, _⟩ := h
        exact ⟨hc, hu⟩
      · exact fun h => ⟨_, h.1, h.2, rfl⟩
  have h₁ := hif q rcEdge (f.cost + extra) (f.startNode = node ∧ 0 ≤ f.cost)
  generalize (if f.startNode = node ∧ 0 ≤ f.cost then
    q.relax e.idx slot j f rcEdge (f.cost + extra) else q) = q₁ at *
  -- The first relaxation does not change whether the edge that is left has a label.
  have h₂ := hif q₁ cEdge (f.rCost + extra) (f.endNode = node ∧ 0 ≤ f.rCost)
  refine (h₁.trans (h₂.congr h₁.iff fun _ => Iff.rfl)).congr Iff.rfl fun u => ?_
  obtain ⟨k, d⟩ := u
  constructor
  · rintro (⟨⟨hn, hc⟩, hu⟩ | ⟨⟨hn, hc⟩, hu⟩)
    · obtain ⟨rfl, rfl⟩ := Prod.mk.inj hu
      exact ⟨rfl, f, hf, hn, hc⟩
    · obtain ⟨rfl, rfl⟩ := Prod.mk.inj hu
      exact ⟨rfl, f, hf, hn, hc⟩
  · rintro ⟨hk, f', hf', hn, hc⟩
    obtain rfl : k = j := hk
    obtain rfl := Option.some.inj (hf.symm.trans hf')
    cases d with
    | false => exact .inl ⟨⟨hn, hc⟩, rfl⟩
    | true => exact .inr ⟨⟨hn, hc⟩, rfl⟩

/-- Exploring a traversal labels those that can follow it, if it has a label itself. -/
theorem explore_labels {i : Nat} {e : EdgeInfo} {slot : Slot}
    (hidx : Indexed g) (he : g.edges[i]? = some e)
    (h : explore g (e.edge.exit slot) e slot q = some q') :
    Labels (q.label (i, slot) ≠ ⊤) (some (i, slot)) (Follows g (i, slot)) q q' := by
  have hei : e.idx = i := hidx i e he
  have hall := Labels.foldlM (q.label (i, slot) ≠ ⊤) (some (i, slot))
    (fun j u => u.1 = j ∧ ∃ f, g.edges[j]? = some f ∧
      f.edge.entry u.2 = e.edge.exit slot ∧ 0 ≤ f.edge.slotCost u.2)
    (fun q₁ => q₁.label (i, slot) ≠ ⊤ ↔ q.label (i, slot) ≠ ⊤)
    (e.getIdx slot) (fun q₁ j q₂ _ hI hq₂ => ?_) Iff.rfl h
  · refine hall.congr Iff.rfl fun u => ⟨?_, ?_⟩
    · rintro ⟨j, hj, rfl, f, hf, hn, hc⟩
      exact ⟨e, f, he, hj, hf, hn, hc⟩
    · rintro ⟨e', f, he', hj, hf, hn, hc⟩
      obtain rfl := Option.some.inj (he.symm.trans he')
      exact ⟨u.1, hj, rfl, f, hf, hn, hc⟩
  · have hone := exploreEdge_labels hidx hq₂
    rw [hei] at hone
    exact ⟨hone.congr hI fun _ => Iff.rfl, hone.iff.trans hI⟩

/-! ## The search -/

/-- A traversal that leaves the start vertex, as `initialize_que` sees it. -/
def Starts (g : TrspGraph) (startVertex : Int) (v : TravState) : Prop :=
  v.1 ∈ (g.adjacency startVertex).getD [] ∧ ∃ e, g.edges[v.1]? = some e ∧
    e.edge.entry v.2 = startVertex ∧ 0 ≤ e.edge.slotCost v.2

/-- Traversals lead from the start vertex to the traversal. -/
inductive Leads (g : TrspGraph) (startVertex : Int) : TravState → Prop
  | start {v : TravState} : Starts g startVertex v → Leads g startVertex v
  | next {u v : TravState} : Leads g startVertex u → Follows g u v → Leads g startVertex v

/-- The traversals that leave the start vertex get labels, and the queue gets entries for them. -/
theorem initializeQue_labels (hidx : Indexed g) (h : initializeQue g q = some q') :
    Labels True none (Starts g q.startVertex) q q' := by
  -- One traversal is started under a condition; this is what it does to labels, queue and parents.
  have hseed : ∀ (q : TrspQuery) (e : EdgeInfo) (slot : Slot) (c : Prop) [Decidable c],
      Labels True none (fun u => c ∧ u = (e.idx, slot)) q
        (if c then q.startWith e slot (e.edge.slotCost slot) else q) := by
    intro q e slot c _
    split
    · rename_i hc
      have hlab : (q.startWith e slot (e.edge.slotCost slot)).label =
          Function.update q.label (e.idx, slot) ((e.edge.slotCost slot : ℚ) : WithTop ℚ) := by
        funext ⟨i, d⟩
        by_cases hi : i = e.idx
        · subst hi
          by_cases hd : d = slot
          · simp [hd, label, startWith, addToQue]
          · simp [hd, label, startWith, addToQue]
        · simp [hi, label, startWith, addToQue]
      have hent : ∀ k u, (q.startWith e slot (e.edge.slotCost slot)).entries k u ↔
          k = ((e.edge.slotCost slot : ℚ) : WithTop ℚ) ∧ u = (e.idx, slot) ∨ q.entries k u :=
        fun k u => mem_que_addToQue
      constructor
      case keep =>
        intro u hu
        rw [hlab, Function.update_apply]
        split
        · exact WithTop.coe_ne_top
        · exact hu
      case mem => exact fun k u hu => (hent k u).mpr (.inr hu)
      case new =>
        intro u hu
        rw [hlab, Function.update_apply] at hu
        split at hu
        · rename_i heq
          exact .inr ⟨trivial, ⟨hc, heq⟩, _, (hent _ u).mpr (.inl ⟨rfl, heq⟩)⟩
        · exact .inl hu
      case all =>
        rintro _ u ⟨_, rfl⟩
        rw [hlab, Function.update_self]
        exact WithTop.coe_ne_top
      case only =>
        intro k u hu
        obtain ⟨_, heq⟩ | hu := (hent k u).mp hu
        · exact .inr ⟨trivial, hc, heq⟩
        · exact .inl hu
      case parents =>
        rintro ⟨i, d⟩
        by_cases hu : (i, d) = (e.idx, slot)
        · refine .inr ⟨trivial, ⟨hc, hu⟩, ?_⟩
          obtain ⟨rfl, rfl⟩ := Prod.mk.inj hu
          simp [parentOf, startWith, addToQue]
        · refine .inl ⟨by rw [hlab, Function.update_of_ne hu], ?_⟩
          by_cases hi : i = e.idx
          · have hd : d ≠ slot := fun hd => hu (by rw [hi, hd])
            simp [parentOf, startWith, addToQue, hi, hd]
          · simp [parentOf, startWith, addToQue, hi]
      case frame => exact ⟨rfl, rfl, rfl, rfl⟩
    · rename_i hc
      exact .refl (fun u hu => hc hu.1) q
  -- The loop over the edges at the start vertex: what they start adds up.
  have hall := Labels.foldlM True none (fun j u => u.1 = j ∧ ∃ e, g.edges[j]? = some e ∧
      e.edge.entry u.2 = q.startVertex ∧ 0 ≤ e.edge.slotCost u.2)
    (fun q₁ => q₁.startVertex = q.startVertex) ((g.adjacency q.startVertex).getD [])
    (fun q₁ j q₂ _ hI hq₂ => ?_) rfl h
  · refine hall.congr Iff.rfl fun u => ⟨?_, ?_⟩
    · rintro ⟨j, hj, rfl, e, he, hn, hc⟩
      exact ⟨hj, e, he, hn, hc⟩
    · rintro ⟨hj, e, he, hn, hc⟩
      exact ⟨u.1, hj, rfl, e, he, hn, hc⟩
  · simp only [initializeEdge, Option.bind_eq_bind, Option.bind_eq_some_iff, Option.pure_def,
      Option.some.injEq] at hq₂
    obtain ⟨e, he, rfl⟩ := hq₂
    -- One edge may be left at both of its ends, so there are two starts one after the other.
    have hei : e.idx = j := hidx j e he
    have h₁ := hseed q₁ e rcEdge (e.startNode = q₁.startVertex ∧ 0 ≤ e.cost)
    have hrc : e.edge.slotCost rcEdge = e.cost := rfl
    rw [hrc, hI] at h₁
    rw [hI]
    generalize (if e.startNode = q.startVertex ∧ 0 ≤ e.cost then
      q₁.startWith e rcEdge e.cost else q₁) = q₃ at *
    have hsv : q₃.startVertex = q.startVertex := h₁.frame.1.trans hI
    have h₂ := hseed q₃ e cEdge (e.endNode = q₃.startVertex ∧ 0 ≤ e.rCost)
    have hboth := h₁.trans h₂
    refine ⟨hboth.congr Iff.rfl fun u => ?_, hboth.frame.1.trans hI⟩
    rw [hsv]
    obtain ⟨k, d⟩ := u
    constructor
    · rintro (⟨⟨hn, hc⟩, hu⟩ | ⟨⟨hn, hc⟩, hu⟩)
      · obtain ⟨rfl, rfl⟩ := Prod.mk.inj hu
        exact ⟨hei, e, he, hn, hc⟩
      · obtain ⟨rfl, rfl⟩ := Prod.mk.inj hu
        exact ⟨hei, e, he, hn, hc⟩
    · rintro ⟨hk, e', he', hn, hc⟩
      obtain rfl : k = j := hk
      obtain rfl := Option.some.inj (he.symm.trans he')
      cases d with
      | false => exact .inl ⟨⟨hn, hc⟩, Prod.ext hei.symm rfl⟩
      | true => exact .inr ⟨⟨hn, hc⟩, Prod.ext hei.symm rfl⟩

/-- The search can go on from the traversal `u` to `v`: `v` can follow it, and it does not end at
    the end vertex. -/
structure Precedes (g : TrspGraph) (endVertex : Int) (u v : TravState) : Prop where
  follows : Follows g u v
  goesOn : ∀ e, g.edges[u.1]? = some e → e.edge.exit u.2 ≠ endVertex

/-- The invariant of a search that starts in `q₀`: the labelled traversals are those to which others
    lead, those without an entry have been explored, and the predecessors are those from which
    the labels come. -/
structure Searching (g : TrspGraph) (q₀ q : TrspQuery) : Prop where
  starts : ∀ v, Starts g q₀.startVertex v → q.label v ≠ ⊤
  leads : ∀ v, q.label v ≠ ⊤ → Leads g q₀.startVertex v
  explored : ∀ v, q.label v ≠ ⊤ → (∃ k, q.entries k v) ∨
    (∀ e, g.edges[v.1]? = some e → e.edge.exit v.2 ≠ q₀.endVertex) ∧
      ∀ u, Follows g v u → q.label u ≠ ⊤
  entered : ∀ k v, q.entries k v → q₀.entries k v ∨ Leads g q₀.startVertex v
  origin : ∀ v, q.parentOf v = none → q.label v ≠ ⊤ → Starts g q₀.startVertex v
  precedes : ∀ u v, q.parentOf v = some u →
    q.label u ≠ ⊤ ∧ q.label v ≠ ⊤ ∧ Precedes g q₀.endVertex u v
  frame : q.startVertex = q₀.startVertex ∧ q.endVertex = q₀.endVertex ∧ q.path = q₀.path

/-- A traversal to which others lead is possible. -/
theorem Leads.cost {s : Int} {v : TravState} (h : Leads g s v) {e : EdgeInfo}
    (he : g.edges[v.1]? = some e) : 0 ≤ e.edge.slotCost v.2 := by
  cases h with
  | start h =>
    obtain ⟨_, e', he', _, hc⟩ := h
    obtain rfl := Option.some.inj (he.symm.trans he')
    exact hc
  | next _ h =>
    obtain ⟨_, e', _, _, he', _, hc⟩ := h
    obtain rfl := Option.some.inj (he.symm.trans he')
    exact hc

/-- The entries of the queue belong to traversals that are possible. -/
def Passable (g : TrspGraph) (q : TrspQuery) : Prop :=
  ∀ k v, q.entries k v → ∀ e, g.edges[v.1]? = some e → 0 ≤ e.edge.slotCost v.2

theorem passable_fresh : Passable g {} := fun _ _ hv => by cases hv

theorem Searching.passable {q₀ : TrspQuery} (inv : Searching g q₀ q) (h : Passable g q₀) :
    Passable g q := by
  intro k v hv e he
  obtain hv | hv := inv.entered k v hv
  · exact h k v hv e he
  · exact hv.cost he

/-- A round keeps the invariant, and when only possible traversals have entries the search goes on
    from no traversal that ends at the end vertex. -/
theorem Searching.next {q₀ : TrspQuery} (hidx : Indexed g) (hpass : Passable g q₀)
    (inv : Searching g q₀ q) {c c' : Option EdgeInfo}
    (h : explorationRound g (q, c) = .next (q', c')) :
    Searching g q₀ q' ∧ q'.currentNode ≠ q₀.endVertex := by
  obtain ⟨k, i, slot, e, htop, he, _, hnext⟩ := explorationRound_next h
  obtain ⟨hmem, _⟩ := PriorityQueue.top?_eq_some.mp htop
  -- Taking the entry leaves the others in the queue.
  have htake : ∀ k' v, q.entries k' v → v = (i, slot) ∨ (q.take e slot).entries k' v := by
    intro k' v hv
    by_cases hvi : v = (i, slot)
    · exact .inl hvi
    · refine .inr (PriorityQueue.mem_pop_of_ne htop hv fun heq => hvi ?_)
      have hpair := toLex.injective (Prod.mk.inj (toLex.injective heq)).2
      obtain ⟨h1, h2⟩ := Prod.mk.inj hpair
      exact Prod.ext h1 (Bool.not_inj h2)
  have hpop : ∀ k' v, (q.take e slot).entries k' v → q.entries k' v :=
    fun k' v hv => PriorityQueue.mem_of_mem_pop hv
  obtain ⟨hcost, _⟩ | ⟨_, hexit, hexp⟩ := hnext
  · exact absurd hcost (not_lt.mpr (inv.passable hpass k (i, slot) hmem e he))
  · rw [inv.frame.2.1] at hexit
    have hlab := explore_labels hidx he hexp
    constructor
    · constructor
      case starts => exact fun v hv => hlab.keep v (inv.starts v hv)
      case leads =>
        intro v hv
        obtain hv | ⟨hon, hfollows, _⟩ := hlab.new v hv
        · exact inv.leads v hv
        · exact .next (inv.leads _ hon) hfollows
      case explored =>
        intro v hv
        -- The traversal that was taken is explored now; the others still have their entries.
        obtain hold | ⟨_, _, hk⟩ := hlab.new v hv
        · obtain ⟨k', hk'⟩ | ⟨hend, hclosed⟩ := inv.explored v hold
          · obtain rfl | hk' := htake k' v hk'
            · refine .inr ⟨fun e' he' => ?_, hlab.all hold⟩
              obtain rfl := Option.some.inj (he.symm.trans he')
              exact hexit
            · exact .inl ⟨k', hlab.mem k' v hk'⟩
          · exact .inr ⟨hend, fun u hu => hlab.keep u (hclosed u hu)⟩
        · exact .inl hk
      case entered =>
        intro k' v hv
        obtain hv | ⟨hon, hfollows⟩ := hlab.only k' v hv
        · exact inv.entered k' v (hpop k' v hv)
        · exact .inr (.next (inv.leads _ hon) hfollows)
      case origin =>
        intro v hp hv
        obtain ⟨hsame, hpar⟩ | ⟨_, _, hpar⟩ := hlab.parents v
        · exact inv.origin v (hpar.symm.trans hp) (hsame.mp hv)
        · rw [hp] at hpar
          cases hpar
      case precedes =>
        intro u v hp
        obtain ⟨_, hpar⟩ | ⟨hon, hfollows, hpar⟩ := hlab.parents v
        · obtain ⟨hu, hv, hold⟩ := inv.precedes u v (hpar.symm.trans hp)
          exact ⟨hlab.keep u hu, hlab.keep v hv, hold⟩
        · obtain rfl := Option.some.inj (hp.symm.trans hpar)
          refine ⟨hlab.keep _ hon, hlab.all hon v hfollows, hfollows, fun e' he' => ?_⟩
          obtain rfl := Option.some.inj (he.symm.trans he')
          exact hexit
      case frame =>
        exact ⟨hlab.frame.1.trans inv.frame.1, hlab.frame.2.1.trans inv.frame.2.1,
          hlab.frame.2.2.2.trans inv.frame.2.2⟩
    · rw [hlab.frame.2.2.1]
      exact hexit

/-- Before the first round the labelled traversals are those that leave the start vertex. -/
theorem searching_start {q₀ : TrspQuery} (hidx : Indexed g) (hempty : ∀ v, q₀.label v = ⊤)
    (hparent : ∀ v, q₀.parentOf v = none) (h : initializeQue g q₀ = some q) :
    Searching g q₀ { q with currentNode := q.startVertex } := by
  have hlab := initializeQue_labels hidx h
  have hnew : ∀ v, q.label v ≠ ⊤ → Starts g q₀.startVertex v ∧ ∃ k, q.entries k v := fun v hv =>
    ((hlab.new v hv).resolve_left fun hno => hno (hempty v)).2
  constructor
  case starts => exact fun v hv => hlab.all trivial v hv
  case leads => exact fun v hv => .start (hnew v hv).1
  case explored => exact fun v hv => .inl (hnew v hv).2
  case entered => exact fun k v hv => (hlab.only k v hv).imp_right fun hv => .start hv.2
  case origin => exact fun v _ hv => (hnew v hv).1
  case precedes =>
    intro u v hp
    have hp : q.parentOf v = some u := hp
    obtain ⟨_, hpar⟩ | ⟨_, _, hpar⟩ := hlab.parents v
    · rw [hpar, hparent v] at hp
      cases hp
    · rw [hpar] at hp
      cases hp
  case frame => exact ⟨hlab.frame.1, hlab.frame.2.1, hlab.frame.2.2.2⟩

/-- Traversals lead from one vertex to another. -/
def Leading (g : TrspGraph) (startVertex endVertex : Int) : Prop :=
  ∃ v e, Leads g startVertex v ∧ g.edges[v.1]? = some e ∧ e.edge.exit v.2 = endVertex

/-- The next entry is a traversal that ends at the end vertex. -/
structure TakesEnd (g : TrspGraph) (q : TrspQuery) (i : Nat) (slot : Slot) (e : EdgeInfo) :
    Prop where
  top : ∃ k, q.que.top? = some (toLex (k, toLex (i, !slot)))
  edge : g.edges[i]? = some e
  cost : 0 ≤ e.edge.slotCost slot
  exit : e.edge.exit slot = q.endVertex

/-- The result of the search. -/
theorem search_result {q₀ f₀ : TrspQuery} {c : Option EdgeInfo} {n : Nat} (hidx : Indexed g)
    (hempty : ∀ v, q₀.label v = ⊤) (hparent : ∀ v, q₀.parentOf v = none) (hpass : Passable g q₀)
    (hinit : initializeQue g q₀ = some f₀)
    (hrun : runLoop (explorationRound g) n ({ f₀ with currentNode := f₀.startVertex }, none) =
      some (some (q, c))) :
    (q.startVertex = q₀.startVertex ∧ q.endVertex = q₀.endVertex ∧ q.path = q₀.path) ∧
    Passable g q ∧ (Leading g q₀.startVertex q₀.endVertex → q.currentNode = q.endVertex) ∧
    (c ≠ none → q.currentNode = q.endVertex → ∃ x i slot e,
      Reaches (explorationRound g) ({ f₀ with currentNode := f₀.startVertex }, none) x ∧
      Searching g q₀ x.1 ∧ TakesEnd g x.1 i slot e ∧ q = x.1.take e slot ∧ c = some e) := by
  have inv₀ := searching_start hidx hempty hparent hinit
  obtain ⟨⟨q₁, c₁⟩, hreach, hdone⟩ := runLoop_exit hrun
  obtain ⟨inv, hnode⟩ := hreach.invariant
    (I := fun x => Searching g q₀ x.1 ∧ (x.2 ≠ none → x.1.currentNode ≠ q₀.endVertex))
    (fun x y hx hb => by
      obtain ⟨inv, hnode⟩ := hx.1.next hidx hpass hb
      exact ⟨inv, fun _ => hnode⟩)
    ⟨inv₀, fun h => absurd rfl h⟩
  obtain ⟨htop, heq⟩ | ⟨k, i, slot, htop, hcase⟩ := explorationRound_done hdone
  · -- The queue is exhausted, and everything that can be reached has been explored.
    obtain ⟨rfl, rfl⟩ := Prod.mk.inj (Option.some.inj heq)
    have hque := PriorityQueue.top?_eq_none.mp htop
    have hno : ∀ {k v}, ¬ q.entries k v := by
      intro k v hv
      rw [entries, hque] at hv
      cases hv
    refine ⟨inv.frame, inv.passable hpass, fun hleading => ?_, fun hc hend => ?_⟩
    · obtain ⟨v, e, hleads, he, hexit⟩ := hleading
      -- By induction on the way there: what is explored has labelled all that follows it.
      have hlabel : ∀ {u}, Leads g q₀.startVertex u → q.label u ≠ ⊤ := by
        intro u hu
        induction hu with
        | start hu => exact inv.starts _ hu
        | next _ hfollows ih =>
          obtain ⟨_, hk⟩ | ⟨_, hclosed⟩ := inv.explored _ ih
          · exact absurd hk hno
          · exact hclosed _ hfollows
      obtain ⟨_, hk⟩ | ⟨hend, _⟩ := inv.explored v (hlabel hleads)
      · exact absurd hk hno
      · exact absurd hexit (hend e he)
    · exact absurd (hend.trans inv.frame.2.1) (hnode hc)
  · obtain ⟨_, hnone⟩ | ⟨e, he, hcost, ⟨hexit, heq⟩ | ⟨_, _, hnone⟩⟩ := hcase
    · cases hnone
    · obtain ⟨rfl, rfl⟩ := Prod.mk.inj (Option.some.inj heq)
      refine ⟨inv.frame, fun k' v hv => ?_, fun _ => hexit, fun _ _ => ?_⟩
      · exact inv.passable hpass k' v (PriorityQueue.mem_of_mem_pop hv)
      · exact ⟨_, i, slot, e, hreach, inv, ⟨⟨k, htop⟩, he, hcost, hexit⟩, rfl, rfl⟩
    · cases hnone

/-! ## Queries -/

/-- A fresh handler finds a path. -/
def Finds (g : TrspGraph) (s t : Int) : Prop :=
  ∃ n p q, process g n s t {} = some (p, q) ∧ p.path ≠ []

theorem renumberVertices_ids {m : List (Int × Int)} {p p' : Path}
    (h : p.renumberVertices m = some p') :
    m.lookup p.startId = some p'.startId ∧ m.lookup p.endId = some p'.endId := by
  simp only [Path.renumberVertices, Option.bind_eq_bind, Option.bind_eq_some_iff, Option.pure_def,
    Option.some.injEq] at h
  obtain ⟨_, _, _, hs, _, ht, rfl⟩ := h
  exact ⟨hs, ht⟩

/-- `construct_path` keeps the ids of the ends, and the rest of the handler. -/
theorem constructPath_ids {n i : Nat} {slot : Slot} {ret : WithTop ℚ}
    (h : constructPath g n i slot q = some (ret, q')) :
    (q'.path.startId = q.path.startId ∧ q'.path.endId = q.path.endId) ∧
      q'.que = q.que ∧ q'.endVertex = q.endVertex := by
  induction n generalizing i slot ret q' with
  | zero => cases h
  | succ n ih =>
    rw [constructPath] at h
    cases he : g.edges[i]? with
    | none =>
      rw [he] at h
      cases h
    | some e =>
      simp only [he] at h
      cases hp : (q.parent i).vPos slot with
      | none =>
        simp only [hp] at h
        obtain ⟨_, rfl⟩ := Prod.mk.inj (Option.some.inj h)
        exact ⟨⟨rfl, rfl⟩, rfl, rfl⟩
      | some slot' =>
        simp only [hp] at h
        cases hrec : constructPath g n ((q.parent i).eIdx slot) slot' q with
        | none =>
          rw [hrec] at h
          cases h
        | some r =>
          obtain ⟨ret', q₁⟩ := r
          simp only [hrec] at h
          obtain ⟨_, rfl⟩ := Prod.mk.inj (Option.some.inj h)
          have hids := ih hrec
          exact hids

/-- The path that is returned has the ids of the query, and rows exactly when the search has come to
    the end vertex. -/
theorem finish_spec {c : Option EdgeInfo} {p : Path} (hpath : q.path.startId = q.startVertex)
    (hpath' : q.path.endId = q.endVertex) (h : finish g (q, c) = some (p, q')) :
    (g.idxToId.lookup q.startVertex = some p.startId ∧
      g.idxToId.lookup q.endVertex = some p.endId) ∧
    (p.path ≠ [] ↔ q.currentNode = q.endVertex) ∧ (p.path ≠ [] → c ≠ none) ∧
    q'.que = q.que := by
  by_cases hend : q.currentNode = q.endVertex
  · have hne := finish_ne_nil hend h
    simp only [finish, hend, ne_eq, not_true, if_false, Option.bind_eq_bind,
      Option.bind_eq_some_iff, Option.pure_def, Option.some.injEq, Prod.mk.injEq] at h
    obtain ⟨e, rfl, ⟨_, q₁⟩, hconstruct, result, hresult, rfl, rfl⟩ := h
    obtain ⟨⟨hs, ht⟩, hque, _⟩ := constructPath_ids hconstruct
    obtain ⟨hs', ht'⟩ := renumberVertices_ids hresult
    refine ⟨⟨?_, ?_⟩, iff_of_true hne hend, fun _ => Option.some_ne_none e, hque⟩
    · rw [← hs', ← hpath, ← hs]
      rfl
    · rw [← ht', ← hpath', ← ht]
      rfl
  · simp only [finish, ne_eq, hend, not_false_eq_true, if_true, Option.bind_eq_bind,
      Option.bind_eq_some_iff, Option.pure_def, Option.some.injEq, Prod.mk.injEq] at h
    obtain ⟨result, hresult, rfl, rfl⟩ := h
    have hnil : result.path = [] := by
      have hlen := renumberVertices_length hresult
      exact List.length_eq_zero_iff.mp hlen
    exact ⟨renumberVertices_ids hresult, iff_of_false (fun hne => hne hnil) hend,
      fun hne => absurd hnil hne, rfl⟩

/-- The state in which the handler `q` starts the search for a query. -/
def queryStart (q : TrspQuery) (startVertex endVertex : Int) : TrspQuery :=
  { q.clear with
    startVertex := startVertex, endVertex := endVertex, path := .new startVertex endVertex }

/-- A query for two vertices that the handler knows is a search and what follows. -/
theorem process_known {n : Nat} {s t s' t' : Int} {p : Path}
    (hs : g.idToIdx.lookup s = some s') (ht : g.idToIdx.lookup t = some t')
    (hs' : (g.adjacency s').isSome) (ht' : (g.adjacency t').isSome)
    (h : process g n s t q = some (p, q')) :
    ∃ f₀ q₁ c, initializeQue g (queryStart q s' t') = some f₀ ∧
      runLoop (explorationRound g) n ({ f₀ with currentNode := f₀.startVertex }, none) =
        some (some (q₁, c)) ∧ finish g (q₁, c) = some (p, q') := by
  simp only [process, hs, ht] at h
  have hno : ∀ {x}, (g.adjacency x).isSome → ¬ (g.adjacency x).isNone := fun hx hn =>
    Option.isSome_iff_ne_none.mp hx (Option.isNone_iff_eq_none.mp hn)
  rw [if_neg (hno hs'), if_neg (hno ht')] at h
  change processTrsp g n (queryStart q s' t') = _ at h
  cases hinit : initializeQue g (queryStart q s' t') with
  | none => simp [processTrsp, hinit] at h
  | some f₀ =>
    rw [processTrsp_eq hinit, dijkstraExploration] at h
    obtain ⟨⟨q₁, c⟩, hjoin, hfin⟩ := Option.bind_eq_some_iff.mp h
    exact ⟨f₀, q₁, c, rfl, Option.join_eq_some_iff.mp hjoin, hfin⟩

theorem queryStart_label (q : TrspQuery) (s t : Int) (v : TravState) :
    (queryStart q s t).label v = ⊤ := by
  obtain ⟨i, d⟩ := v
  cases d <;> rfl

/-- What a query for two vertices that the handler knows returns. -/
theorem process_leading (hidx : Indexed g) (hpass : Passable g q) {n : Nat} {s t s' t' : Int}
    {p : Path} (hs : g.idToIdx.lookup s = some s') (ht : g.idToIdx.lookup t = some t')
    (hs' : (g.adjacency s').isSome) (ht' : (g.adjacency t').isSome)
    (h : process g n s t q = some (p, q')) :
    (g.idxToId.lookup s' = some p.startId ∧ g.idxToId.lookup t' = some p.endId) ∧
    (Leading g s' t' → p.path ≠ []) ∧ (q.que = [] → p.path ≠ [] → Leading g s' t') ∧
    Passable g q' := by
  obtain ⟨f₀, q₁, c, hinit, hrun, hfin⟩ := process_known hs ht hs' ht' h
  obtain ⟨⟨hsv, hev, hpath⟩, hpass', hfound, hends⟩ := search_result hidx
    (queryStart_label q s' t') (fun _ => rfl) hpass hinit hrun
  obtain ⟨hids, hiff, hc, hque'⟩ :=
    finish_spec (by rw [hpath, hsv]; rfl) (by rw [hpath, hev]; rfl) hfin
  rw [hsv, hev] at hids
  refine ⟨hids, fun hleading => hiff.mpr (hfound hleading), fun hque hne => ?_, fun k v hv => ?_⟩
  case refine_2 =>
    rw [entries, hque'] at hv
    exact hpass' k v hv
  obtain ⟨x, i, slot, e, _, inv, ⟨⟨k, htop⟩, he, _, hexit⟩, _, _⟩ := hends (hc hne) (hiff.mp hne)
  have hmem : x.1.entries k (i, slot) := (PriorityQueue.top?_eq_some.mp htop).1
  obtain hold | hleads := inv.entered k _ hmem
  · have hold : toLex (k, toLex (i, !slot)) ∈ q.que := hold
    rw [hque] at hold
    cases hold
  · exact ⟨(i, slot), e, hleads, he, hexit.trans inv.frame.2.1⟩

/-- A query for a vertex that the handler does not know returns an empty path. -/
theorem process_unknown {n : Nat} {s t : Int} {p : Path}
    (hst : g.idToIdx.lookup s = none ∨ g.idToIdx.lookup t = none)
    (h : process g n s t q = some (p, q')) : p = {} ∧ q' = q := by
  have hmiss : process g n s t q = some ({}, q) := by
    rw [process]
    split
    · simp_all
    · rfl
  exact Prod.mk.inj (Option.some.inj (h.symm.trans hmiss))

/-- The handler knows the vertices of the table. -/
theorem new_known (es : List EdgeT) (directed : Bool) (rules : List Rule) {x : Int} :
    let g := TrspGraph.new es directed rules
    (∃ e ∈ es, e.Meets x) → ∃ i, g.idToIdx.lookup x = some i ∧ g.idxToId.lookup i = some x ∧
      (g.adjacency i).isSome := by
  intro g
  rintro ⟨e, he, hmeets⟩
  obtain ⟨hlinked, ⟨idx, hnum⟩, hknown, hback, _⟩ := TrspGraph.new_spec es directed rules
  obtain ⟨i, hi⟩ := Option.isSome_iff_exists.mp ((hknown x).mpr ⟨e, he, hmeets⟩)
  refine ⟨i, hi, by rw [hback]; exact (hnum.inverse x i).mp hi, ?_⟩
  rw [hlinked.known]
  have hρ : TrspGraph.renumbering g.idToIdx x = i := by
    rw [TrspGraph.renumbering, hi]
    rfl
  refine ⟨_, List.mem_map_of_mem (List.mem_map_of_mem he), ?_⟩
  rw [← hρ]
  exact ((TrspGraph.readEdge_meets directed e x).mpr hmeets).rename _

section Table

variable {es : List EdgeT} {directed : Bool} {rules : List Rule} {s t : Int}

/-- The edges of the handler are rows of the table, with their ends renumbered. -/
theorem new_row {i : Nat} {e : EdgeInfo} :
    let g := TrspGraph.new es directed rules
    g.edges[i]? = some e → ∃ r ∈ es.map (TrspGraph.readEdge directed),
      e.edge = r.rename (TrspGraph.renumbering g.idToIdx) := by
  intro g he
  obtain ⟨hlinked, _⟩ := TrspGraph.new_spec es directed rules
  obtain ⟨hr, _⟩ := TrspGraph.row_of_edge hlinked.edges he
  rw [List.getElem?_map] at hr
  obtain ⟨r, hr, heq⟩ := Option.map_eq_some_iff.mp hr
  exact ⟨r, List.mem_of_getElem? hr, heq.symm⟩

/-- The renumbering tells the vertices of the table apart. -/
theorem new_inj {x y : Int} :
    let g := TrspGraph.new es directed rules
    (∃ e ∈ es, e.Meets x) → (∃ e ∈ es, e.Meets y) →
      TrspGraph.renumbering g.idToIdx x = TrspGraph.renumbering g.idToIdx y → x = y := by
  intro g hx hy heq
  obtain ⟨i, hi, hiback, _⟩ := new_known es directed rules hx
  obtain ⟨j, hj, hjback, _⟩ := new_known es directed rules hy
  have hij : i = j := by
    rw [TrspGraph.renumbering, TrspGraph.renumbering, hi, hj] at heq
    exact heq
  exact Option.some.inj (hiback.symm.trans (hij ▸ hjback))

theorem meets_of_readEdge {r : EdgeT} {x : Int} (hr : r ∈ es.map (TrspGraph.readEdge directed))
    (hx : r.Meets x) : ∃ e ∈ es, e.Meets x := by
  obtain ⟨e, he, rfl⟩ := List.mem_map.mp hr
  exact ⟨e, he, (TrspGraph.readEdge_meets directed e x).mp hx⟩

/-- Traversals that lead from a vertex of the table are a walk of the table. -/
theorem Leads.reachable {v : TravState} (hs : ∃ e ∈ es, e.Meets s) :
    let g := TrspGraph.new es directed rules
    Leads g (TrspGraph.renumbering g.idToIdx s) v → ∀ e, g.edges[v.1]? = some e →
      ∃ x, e.edge.exit v.2 = TrspGraph.renumbering g.idToIdx x ∧ (∃ e ∈ es, e.Meets x) ∧
        Reachable (TravArc (es.map (TrspGraph.readEdge directed))) s x := by
  intro g h
  have hstep : ∀ {x : Int} {u : TravState} {e : EdgeInfo}, (∃ e ∈ es, e.Meets x) →
      Reachable (TravArc (es.map (TrspGraph.readEdge directed))) s x →
      g.edges[u.1]? = some e → e.edge.entry u.2 = TrspGraph.renumbering g.idToIdx x →
      0 ≤ e.edge.slotCost u.2 → ∃ y, e.edge.exit u.2 = TrspGraph.renumbering g.idToIdx y ∧
        (∃ e ∈ es, e.Meets y) ∧
        Reachable (TravArc (es.map (TrspGraph.readEdge directed))) s y := by
    rintro x u e hx ⟨c, hc⟩ he hentry hcost
    obtain ⟨r, hr, hrow⟩ := new_row he
    rw [hrow, EdgeT.entry_rename] at hentry
    rw [hrow, EdgeT.slotCost_rename] at hcost
    have hrx := new_inj (meets_of_readEdge hr (r.meets_entry u.2)) hx hentry
    have harc : TravArc (es.map (TrspGraph.readEdge directed)) x (r.exit u.2) (r.slotCost u.2) :=
      ⟨⟨r, u.2⟩, hr, hcost, hrx, rfl, rfl⟩
    exact ⟨r.exit u.2, by rw [hrow, EdgeT.exit_rename],
      meets_of_readEdge hr (r.meets_exit u.2), _, hc.snoc harc⟩
  induction h with
  | start h =>
    intro e he
    obtain ⟨_, e', he', hentry, hcost⟩ := h
    obtain rfl := Option.some.inj (he.symm.trans he')
    exact hstep hs ⟨0, .nil s⟩ he hentry hcost
  | next _ h ih =>
    intro e he
    obtain ⟨e₁, e', he₁, _, he', hentry, hcost⟩ := h
    obtain rfl := Option.some.inj (he.symm.trans he')
    obtain ⟨x, hx, hmeets, hreach⟩ := ih e₁ he₁
    exact hstep hmeets hreach he (hentry.trans hx) hcost

/-- Where a fresh handler finds a path there is a walk of the table. -/
theorem Finds.reachable (h : Finds (TrspGraph.new es directed rules) s t) :
    (∃ e ∈ es, e.Meets s) ∧ (∃ e ∈ es, e.Meets t) ∧
      Reachable (TravArc (es.map (TrspGraph.readEdge directed))) s t := by
  obtain ⟨n, p, q, hrun, hne⟩ := h
  obtain ⟨hlinked, _, hknown, _⟩ := TrspGraph.new_spec es directed rules
  have hidx : Indexed (TrspGraph.new es directed rules) := fun i e he =>
    (TrspGraph.row_of_edge hlinked.edges he).2
  have hst : (∃ e ∈ es, e.Meets s) ∧ ∃ e ∈ es, e.Meets t := by
    by_contra hst
    rw [not_and_or, ← hknown, ← hknown] at hst
    have hmiss := hst.imp Option.not_isSome_iff_eq_none.mp Option.not_isSome_iff_eq_none.mp
    rw [(process_unknown hmiss hrun).1] at hne
    exact absurd rfl hne
  obtain ⟨s', hs, _, hsadj⟩ := new_known es directed rules hst.1
  obtain ⟨t', ht, _, htadj⟩ := new_known es directed rules hst.2
  obtain ⟨v, e, hleads, he, hexit⟩ :=
    (process_leading hidx passable_fresh hs ht hsadj htadj hrun).2.2.1 rfl hne
  have hs' : TrspGraph.renumbering (TrspGraph.new es directed rules).idToIdx s = s' := by
    rw [TrspGraph.renumbering, hs]
    rfl
  have ht' : TrspGraph.renumbering (TrspGraph.new es directed rules).idToIdx t = t' := by
    rw [TrspGraph.renumbering, ht]
    rfl
  obtain ⟨x, hx, hmeets, hreach⟩ := Leads.reachable hst.1 (hs' ▸ hleads) e he
  obtain rfl := new_inj hmeets hst.2 (hx.symm.trans (hexit.trans ht'.symm))
  exact ⟨hst.1, hst.2, hreach⟩

end Table

end TrspQuery

end PgRouting
