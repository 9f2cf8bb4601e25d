import PgRouting.Native.Bidirectional
import PgRouting.Spec.Dijkstra
import PgRouting.Spec.BaseGraph
import PgRouting.Lib.Reduced
import Mathlib.Data.Rat.Cast.Order

/-!
# One side of a search from both ends

A side of the search is a label-setting search over reduced weights as long as every
vertex is explored from its own cost. Its queue holds costs with the estimates added,
except for the first entry, which is pushed as it is and is alone in the queue until it
is taken.

## Key results

- `HalfSearch.relaxEdges_change`, `HalfSearch.relaxEdges_done`: what relaxing edges does
- `HalfSearch.take_spec`: exploring vertices from their costs keeps the invariant
- `HalfSearch.take_work`: the search ends, also when it explores from other costs
- `HalfSearch.Inv.isDist`: the cost of a finished vertex is its distance
- `HalfSearch.Inv.recordsPaths`: costs are the costs of the recorded paths
-/

namespace PgRouting

variable {K E : Type} [Field K] [LinearOrder K] [IsStrictOrderedRing K] [TEdge E]

/-! ## Recorded paths -/

/-- The predecessors record a path from `v₀` to the vertex, over cheapest arcs between its
    vertices, of this cost. -/
inductive Recorded (A : Nat → Nat → K → Prop) (v₀ : Nat) (pred : Nat → Nat) : Nat → K → Prop
  | origin : Recorded A v₀ pred v₀ 0
  | step {v : Nat} {c w : K} (hne : v ≠ v₀) (rest : Recorded A v₀ pred (pred v) c)
      (arc : IsLeast {w | A (pred v) v w} w) : Recorded A v₀ pred v (c + w)

namespace Recorded

variable {A B : Nat → Nat → K → Prop} {v₀ v : Nat} {pred : Nat → Nat} {c d : K}

omit [IsStrictOrderedRing K] in
/-- Only one cost is recorded for a vertex. -/
theorem unique (h : Recorded A v₀ pred v c) (h' : Recorded A v₀ pred v d) : c = d := by
  induction h generalizing d with
  | origin =>
    cases h' with
    | origin => rfl
    | step hne => exact absurd rfl hne
  | step hne rest arc ih =>
    cases h' with
    | origin => exact absurd rfl hne
    | step _ rest' arc' => rw [ih rest', arc.unique arc']

omit [IsStrictOrderedRing K] in
/-- The cheapest arcs may be taken from fewer arcs, when all arcs that leave a vertex are kept or
    none is. -/
theorem mono (hB : ∀ u v w, B u v w → ∀ w', A u v w' ↔ B u v w') (h : Recorded B v₀ pred v c) :
    Recorded A v₀ pred v c := by
  induction h with
  | origin => exact .origin
  | @step v c w hne _ arc ih =>
    refine .step hne ih ?_
    have heq : {w | A (pred v) v w} = {w | B (pred v) v w} :=
      Set.ext fun w' => hB _ _ w arc.1 w'
    rwa [heq]

end Recorded

/-- `l` is the path from `root` to a vertex that the predecessors record. -/
inductive PathTo (predecessor : Nat → Nat) (root : Nat) : List Nat → Nat → Prop
  | root : PathTo predecessor root [root] root
  | step {l : List Nat} {v : Nat} (hne : v ≠ root)
    (rest : PathTo predecessor root l (predecessor v)) :
    PathTo predecessor root (l ++ [v]) v

namespace PathTo

variable {predecessor predecessor' : Nat → Nat} {root v : Nat} {l l' : List Nat}

/-- One path is recorded for a vertex. -/
theorem unique (h : PathTo predecessor root l v) (h' : PathTo predecessor root l' v) : l = l' := by
  induction h generalizing l' with
  | root =>
    cases h' with
    | root => rfl
    | step hne => exact absurd rfl hne
  | step hne _ ih =>
    cases h' with
    | root => exact absurd rfl hne
    | step _ rest' => rw [ih rest']

theorem mem (h : PathTo predecessor root l v) : v ∈ l := by
  cases h with
  | root => exact List.mem_singleton.mpr rfl
  | step => simp

theorem head?_eq (h : PathTo predecessor root l v) : l.head? = some root := by
  induction h with
  | root => rfl
  | step _ rest ih => rw [List.head?_append_of_ne_nil _ (List.ne_nil_of_mem rest.mem), ih]

/-- Other predecessors record the same path when they agree along it. -/
theorem congr (h : PathTo predecessor root l v) (heq : ∀ u ∈ l, predecessor' u = predecessor u) :
    PathTo predecessor' root l v := by
  induction h with
  | root => exact .root
  | @step l v hne rest ih =>
    have hv := heq v (by simp)
    refine .step hne ?_
    rw [hv]
    exact ih fun u hu => heq u (List.mem_append_left _ hu)

end PathTo

namespace HalfSearch

variable {A : Nat → Nat → K → Prop} {h : Nat → K} {v₀ x : Nat} {s : HalfSearch K}
variable {b k : WithTop K} {e : BoostEdge E}

/-- Every finite cost is the cost of the recorded path. -/
def RecordsPaths (A : Nat → Nat → K → Prop) (v₀ : Nat) (s : HalfSearch K) : Prop :=
  ∀ v, s.cost v ≠ ⊤ → ∃ c : K, Recorded A v₀ s.predecessor v c ∧ s.cost v = c

/-- The cost of an edge, in the field of the estimates. -/
def edgeCost (e : BoostEdge E) : K := (TEdge.cost e.bundle : ℚ)

omit [IsStrictOrderedRing K] in
/-- Relaxing an edge changes nothing, or it lowers the cost of the next node. -/
theorem relaxEdge_cases (h : Nat → K) (b : WithTop K) (x : Nat) (s : HalfSearch K)
    (e : BoostEdge E) :
    let y := PgrBaseGraph.adjacent x e
    let c : WithTop K := (edgeCost e : K)
    (s.relaxEdge h b x e = s ∧ (s.finished y = true ∨ s.cost y ≤ c + b)) ∨
    (s.finished y = false ∧ c + b < s.cost y ∧ s.relaxEdge h b x e =
      { s with
        cost := Function.update s.cost y (c + b)
        predecessor := Function.update s.predecessor y x
        edge := Function.update s.edge y (TEdge.id e.bundle)
        queue := s.queue.push (toLex (c + b + (h y : WithTop K), y)) }) := by
  intro y c
  simp only [relaxEdge]
  split
  · rename_i hf
    exact .inl ⟨rfl, .inl hf⟩
  · rename_i hf
    split
    · rename_i hlt
      exact .inr ⟨by simpa using hf, hlt, rfl⟩
    · rename_i hge
      exact .inl ⟨rfl, .inr (not_lt.mp hge)⟩

omit [IsStrictOrderedRing K] in
@[simp] theorem relaxEdge_finished : (s.relaxEdge h b x e).finished = s.finished := by
  obtain ⟨heq, _⟩ | ⟨_, _, heq⟩ := relaxEdge_cases h b x s e
  · rw [heq]
  · rw [heq]

omit [IsStrictOrderedRing K] in
theorem relaxEdge_length : (s.relaxEdge h b x e).queue.length ≤ s.queue.length + 1 := by
  obtain ⟨heq, _⟩ | ⟨_, _, heq⟩ := relaxEdge_cases h b x s e
  · rw [heq]
    omega
  · rw [heq, PriorityQueue.length_push]

omit [IsStrictOrderedRing K] in
theorem relaxEdges_finished (es : List (BoostEdge E)) :
    (es.foldl (relaxEdge h b x) s).finished = s.finished := by
  induction es generalizing s with
  | nil => rfl
  | cons e es ih => rw [List.foldl_cons, ih, relaxEdge_finished]

omit [IsStrictOrderedRing K] in
theorem relaxEdges_length (es : List (BoostEdge E)) :
    (es.foldl (relaxEdge h b x) s).queue.length ≤ s.queue.length + es.length := by
  induction es generalizing s with
  | nil => exact le_refl _
  | cons e es ih =>
    have hone := relaxEdge_length (s := s) (h := h) (b := b) (x := x) (e := e)
    have hrest := ih (s := s.relaxEdge h b x e)
    simp only [List.foldl_cons, List.length_cons]
    omega

omit [IsStrictOrderedRing K] in
/-- What relaxing a list of edges does to the cost and to the predecessor of a vertex. -/
theorem relaxEdges_change (es : List (BoostEdge E)) (v : Nat) :
    let s' := es.foldl (relaxEdge h b x) s
    s'.cost v = s.cost v ∧ s'.predecessor v = s.predecessor v ∨
    s'.cost v < s.cost v ∧ s.finished v = false ∧ s'.predecessor v = x ∧
      ∃ e ∈ es, PgrBaseGraph.adjacent x e = v ∧ s'.cost v = ((edgeCost e : K) : WithTop K) + b := by
  induction es generalizing s with
  | nil => exact .inl ⟨rfl, rfl⟩
  | cons e es ih =>
    -- One edge; the vertex that is looked at may be another one than its end.
    have hone : (s.relaxEdge h b x e).cost v = s.cost v ∧
          (s.relaxEdge h b x e).predecessor v = s.predecessor v ∨
        (s.relaxEdge h b x e).cost v < s.cost v ∧ s.finished v = false ∧
          (s.relaxEdge h b x e).predecessor v = x ∧ PgrBaseGraph.adjacent x e = v ∧
          (s.relaxEdge h b x e).cost v = ((edgeCost e : K) : WithTop K) + b := by
      obtain ⟨heq, _⟩ | ⟨hf, hlt, heq⟩ := relaxEdge_cases h b x s e
      · exact .inl ⟨by rw [heq], by rw [heq]⟩
      · by_cases hv : PgrBaseGraph.adjacent x e = v
        · subst hv
          rw [heq]
          simp only [Function.update_self]
          exact .inr ⟨hlt, hf, trivial, trivial, trivial⟩
        · rw [heq]
          simp only [Function.update_of_ne (Ne.symm hv)]
          exact .inl ⟨trivial, trivial⟩
    obtain ⟨hc, hp⟩ | ⟨hlt, hf, hp, e', he', hadj, hc⟩ := ih (s := s.relaxEdge h b x e)
    · simp only [List.foldl_cons]
      obtain ⟨hc₁, hp₁⟩ | ⟨hlt₁, hf₁, hp₁, hadj, hc₁⟩ := hone
      · exact .inl ⟨hc.trans hc₁, hp.trans hp₁⟩
      · exact .inr ⟨hc ▸ hlt₁, hf₁, hp.trans hp₁, e, List.mem_cons_self, hadj, hc.trans hc₁⟩
    · simp only [List.foldl_cons]
      rw [relaxEdge_finished] at hf
      refine .inr ⟨?_, hf, hp, e', List.mem_cons_of_mem _ he', hadj, hc⟩
      obtain ⟨hc₁, _⟩ | ⟨hlt₁, _⟩ := hone
      · exact hc₁ ▸ hlt
      · exact hlt.trans hlt₁

omit [IsStrictOrderedRing K] in
/-- Exploring a node finishes it. -/
theorem explore_finished {es : List (BoostEdge E)} {v : Nat} :
    (s.explore h es b x).finished v = true ↔ s.finished v = true ∨ v = x := by
  simp only [explore, relaxEdges_finished]
  by_cases hv : v = x
  · simp [hv]
  · simp [hv]

omit [IsStrictOrderedRing K] in
/-- Exploring a node keeps the predecessors of the vertices that are finished. -/
theorem explore_predecessor {es : List (BoostEdge E)} {v : Nat} (hv : s.finished v = true) :
    (s.explore h es b x).predecessor v = s.predecessor v := by
  obtain ⟨_, hp⟩ | ⟨_, hf, _⟩ := relaxEdges_change (s := s) (h := h) (b := b) (x := x) es v
  · exact hp
  · rw [hv] at hf
    cases hf

omit [IsStrictOrderedRing K] in
/-- The entries that relaxing edges adds are those of their next nodes. -/
theorem relaxEdges_queue (es : List (BoostEdge E)) {v : Nat}
    (hq : toLex (k, v) ∈ (es.foldl (relaxEdge h b x) s).queue) :
    toLex (k, v) ∈ s.queue ∨ ∃ e ∈ es, PgrBaseGraph.adjacent x e = v := by
  induction es generalizing s with
  | nil => exact .inl hq
  | cons e es ih =>
    obtain hq | ⟨e', he', hadj⟩ := ih hq
    · obtain ⟨heq, _⟩ | ⟨_, _, heq⟩ := relaxEdge_cases h b x s e
      · rw [heq] at hq
        exact .inl hq
      · rw [heq, PriorityQueue.mem_push] at hq
        obtain hnew | hq := hq
        · obtain ⟨_, rfl⟩ := Prod.mk.inj (toLex.injective hnew)
          exact .inr ⟨e, List.mem_cons_self, rfl⟩
        · exact .inl hq
    · exact .inr ⟨e', List.mem_cons_of_mem _ he', hadj⟩

/-- Taking the least entry. -/
def popped (s : HalfSearch K) : HalfSearch K := { s with queue := s.queue.pop }

/-- The rounds that one side still has to do: the entries in its queue and those that
    unfinished vertices will push. -/
def work (univ : Finset Nat) (deg : Nat → Nat) (s : HalfSearch K) : Nat :=
  s.queue.length + pending univ deg s.finished

/-- The function explores a node over these edges, from whatever cost. -/
def ExploresOver (f : CostVertexPair K → HalfSearch K → HalfSearch K) (h : Nat → K)
    (edges : Nat → List (BoostEdge E)) : Prop :=
  ∀ s k x, ∃ b, f (toLex (k, x)) s = s.explore h (edges x) b x

omit [IsStrictOrderedRing K] in
/-- Taking an entry lowers the work, whatever the cost its vertex is explored from. -/
theorem take_work {f : CostVertexPair K → HalfSearch K → HalfSearch K} {univ : Finset Nat}
    {edges : Nat → List (BoostEdge E)} (hf : ExploresOver f h edges)
    (hqueue : ∀ k v, toLex (k, v) ∈ s.queue → v ∈ univ)
    (hedges : ∀ u, ∀ e ∈ edges u, PgrBaseGraph.adjacent u e ∈ univ)
    (htop : s.queue.top? = some (toLex (k, x))) :
    let s' := if !s.popped.finished x then f (toLex (k, x)) s.popped else s.popped
    (∀ k v, toLex (k, v) ∈ s'.queue → v ∈ univ) ∧
      s'.work univ (fun u => (edges u).length) < s.work univ fun u => (edges u).length := by
  intro s'
  have hlen : s.popped.queue.length + 1 = s.queue.length := PriorityQueue.length_pop htop
  have hpop : ∀ k v, toLex (k, v) ∈ s.popped.queue → v ∈ univ :=
    fun k v hq => hqueue k v (PriorityQueue.mem_of_mem_pop hq)
  cases hx : s.finished x with
  | true =>
    have hs' : s' = s.popped := if_neg (by simp [popped, hx])
    have hkeep : s.popped.finished = s.finished := rfl
    rw [hs']
    refine ⟨hpop, ?_⟩
    simp only [work, hkeep]
    omega
  | false =>
    obtain ⟨b, hb⟩ := hf s.popped k x
    have hs' : s' = s.popped.explore h (edges x) b x := (if_pos (by simp [popped, hx])).trans hb
    have hmem : x ∈ univ := hqueue k x (PriorityQueue.top?_eq_some.mp htop).1
    -- The out edges of the vertex are worked off, and no more entries than these come in.
    have hpend := pending_settle univ (fun u => (edges u).length) s.finished
      (s.popped.explore h (edges x) b x).finished hmem hx fun v => explore_finished
    have hgrow : (s.popped.explore h (edges x) b x).queue.length ≤
        s.popped.queue.length + (edges x).length := relaxEdges_length (edges x)
    rw [hs']
    refine ⟨fun k' v hq => ?_, ?_⟩
    · obtain hq | ⟨e, he, rfl⟩ := relaxEdges_queue (edges x) hq
      · exact hpop k' v hq
      · exact hedges x e he
    · simp only [work]
      omega

/-- The label of a vertex: its cost plus its estimate. -/
def label (h : Nat → K) (s : HalfSearch K) (v : Nat) : WithTop K := s.cost v + (h v : WithTop K)

/-- The entries of the queue. The first one carries no estimate and is read as if it did. -/
def entries (h : Nat → K) (v₀ : Nat) (s : HalfSearch K) (k : WithTop K) (v : Nat) : Prop :=
  if v = v₀ then k = (h v₀ : WithTop K) ∧ toLex (0, v₀) ∈ s.queue else toLex (k, v) ∈ s.queue

/-- The parent of a vertex in the tree of recorded paths. -/
def parent (v₀ : Nat) (s : HalfSearch K) (v : Nat) : Option Nat :=
  if v = v₀ then none else some (s.predecessor v)

omit [LinearOrder K] [IsStrictOrderedRing K] in
theorem label_eq_iff {c : K} {v : Nat} :
    s.label h v = ((c + h v : K) : WithTop K) ↔ s.cost v = c := by
  unfold label
  cases s.cost v with
  | top =>
    rw [WithTop.top_add]
    exact iff_of_false WithTop.top_ne_coe WithTop.top_ne_coe
  | coe d => rw [← WithTop.coe_add, WithTop.coe_inj, WithTop.coe_inj, add_left_inj]

omit [LinearOrder K] [IsStrictOrderedRing K] in
theorem label_eq_top {v : Nat} : s.label h v = ⊤ ↔ s.cost v = ⊤ := by
  simp [label]

omit [LinearOrder K] [IsStrictOrderedRing K] in
/-- Adding a reduced weight to a label is adding the weight to the cost. -/
theorem add_reduced (b : WithTop K) (a a' c : K) :
    b + (a : WithTop K) + ((c + a' - a : K) : WithTop K) =
      (c : WithTop K) + b + (a' : WithTop K) := by
  cases b with
  | top => simp
  | coe b =>
    simp only [← WithTop.coe_add]
    congr 1
    abel

/-- Relaxing one edge from the cost `b` of `x`. The next node of the edge is not `v₀`, whose
    cost is 0, when the edge lowers its cost. -/
theorem relaxEdge_relaxing (hcost : 0 ≤ (edgeCost e : K)) (hb : 0 ≤ b) (horigin : s.cost v₀ = 0)
    (hred : h x ≤ edgeCost e + h (PgrBaseGraph.adjacent x e))
    (hfin : ∀ v, s.finished v = true → s.label h v ≤ b + (h x : WithTop K)) :
    Relaxing (b + (h x : WithTop K))
      (fun v w => PgrBaseGraph.adjacent x e = v ∧
        w = ((edgeCost e + h v - h x : K) : WithTop K))
      (s.label h) ((s.relaxEdge h b x e).label h) (s.entries h v₀)
      ((s.relaxEdge h b x e).entries h v₀) ∧ (s.relaxEdge h b x e).cost v₀ = 0 ∧
    ∀ k, toLex (k, v₀) ∈ (s.relaxEdge h b x e).queue → toLex (k, v₀) ∈ s.queue := by
  obtain ⟨heq, hskip⟩ | ⟨hf, hlt, heq⟩ := relaxEdge_cases h b x s e
  · rw [heq]
    refine ⟨Relaxing.skip ?_, horigin, fun _ hq => hq⟩
    intro v w harc
    obtain ⟨rfl, rfl⟩ := harc
    obtain hfinished | hle := hskip
    · have hw : (0 : WithTop K) ≤
          ((edgeCost e + h (PgrBaseGraph.adjacent x e) - h x : K) : WithTop K) := by
        exact_mod_cast sub_nonneg.mpr hred
      exact (hfin _ hfinished).trans (le_add_of_nonneg_right hw)
    · rw [add_reduced]
      exact add_le_add hle (le_refl _)
  · have hne : PgrBaseGraph.adjacent x e ≠ v₀ := by
      intro hy
      rw [hy, horigin] at hlt
      have hsum : (0 : WithTop K) ≤ ((edgeCost e : K) : WithTop K) + b :=
        add_nonneg (by exact_mod_cast hcost) hb
      exact absurd hlt (not_lt.mpr hsum)
    -- A lower cost is a lower label: the estimate of the next node is added on both sides.
    have hlt' : b + (h x : WithTop K) +
        ((edgeCost e + h (PgrBaseGraph.adjacent x e) - h x : K) : WithTop K) <
          s.label h (PgrBaseGraph.adjacent x e) := by
      rw [add_reduced]
      exact WithTop.add_lt_add_right WithTop.coe_ne_top hlt
    have hlabel : (s.relaxEdge h b x e).label h = Function.update (s.label h)
        (PgrBaseGraph.adjacent x e) (b + (h x : WithTop K) +
          ((edgeCost e + h (PgrBaseGraph.adjacent x e) - h x : K) : WithTop K)) := by
      funext v
      rw [heq, add_reduced]
      by_cases hv : v = PgrBaseGraph.adjacent x e
      · subst hv
        simp [label]
      · simp [label, Function.update_of_ne hv]
    -- One entry is pushed, which is not one of the origin.
    have hqueue : ∀ k v, (s.relaxEdge h b x e).entries h v₀ k v ↔
        (k = b + (h x : WithTop K) +
            ((edgeCost e + h (PgrBaseGraph.adjacent x e) - h x : K) : WithTop K) ∧
          v = PgrBaseGraph.adjacent x e) ∨ s.entries h v₀ k v := by
      intro k v
      rw [heq, add_reduced]
      by_cases hv : v = v₀
      · subst hv
        simp [entries, Ne.symm hne]
      · simp [entries, hv]
    rw [hlabel]
    refine ⟨(Relaxing.improve hlt' hqueue).congr fun v w => ?_, ?_, ?_⟩
    · constructor
      · intro harc
        obtain ⟨rfl, rfl⟩ := harc
        exact ⟨rfl, rfl⟩
      · intro harc
        obtain ⟨rfl, rfl⟩ := harc
        exact ⟨rfl, rfl⟩
    · rw [heq]
      simp [Function.update_of_ne (Ne.symm hne), horigin]
    · intro k hq
      rw [heq] at hq
      simpa [Ne.symm hne] using hq

/-- Relaxing a list of edges. -/
theorem relaxEdges_relaxing (es : List (BoostEdge E)) (hb : 0 ≤ b)
    (hcost : ∀ e ∈ es, 0 ≤ (edgeCost e : K)) (horigin : s.cost v₀ = 0)
    (hred : ∀ e ∈ es, h x ≤ edgeCost e + h (PgrBaseGraph.adjacent x e))
    (hfin : ∀ v, s.finished v = true → s.label h v ≤ b + (h x : WithTop K)) :
    let s' := es.foldl (relaxEdge h b x) s
    Relaxing (b + (h x : WithTop K))
      (fun v w => ∃ e ∈ es, PgrBaseGraph.adjacent x e = v ∧
        w = ((edgeCost e + h v - h x : K) : WithTop K))
      (s.label h) (s'.label h) (s.entries h v₀) (s'.entries h v₀) ∧ s'.cost v₀ = 0 ∧
    ∀ k, toLex (k, v₀) ∈ s'.queue → toLex (k, v₀) ∈ s.queue := by
  induction es generalizing s with
  | nil =>
    refine ⟨Relaxing.skip ?_, horigin, fun _ hq => hq⟩
    intro v w harc
    obtain ⟨e, he, _⟩ := harc
    cases he
  | cons e es ih =>
    obtain ⟨hone, horigin', hfirst⟩ := relaxEdge_relaxing (s := s) (hcost e List.mem_cons_self) hb
      horigin (hred e List.mem_cons_self) hfin
    obtain ⟨hrest, hlast, hfirst'⟩ := ih (s := s.relaxEdge h b x e)
      (fun e' he' => hcost e' (List.mem_cons_of_mem _ he')) horigin'
      (fun e' he' => hred e' (List.mem_cons_of_mem _ he'))
      (fun v hv => (hone.decrease v).trans (hfin v (by rwa [relaxEdge_finished] at hv)))
    refine ⟨(hone.trans hrest).congr fun v w => ?_, hlast, fun k hq => hfirst k (hfirst' k hq)⟩
    simp

/-- The invariant of one side: a label-setting search over the reduced arcs from `v₀`, which
    records the parents of the vertices. The first entry is the only one until it is taken. -/
structure Inv (A : Nat → Nat → K → Prop) (h : Nat → K) (v₀ : Nat) (s : HalfSearch K) : Prop where
  search : LabelSetting (Reduced A h) (fun v c => v = v₀ ∧ c = (h v₀ : WithTop K)) (s.label h)
    (fun v => s.finished v = true) (s.entries h v₀)
  reached : ∀ v, s.finished v = true → s.cost v ≠ ⊤
  origin : s.cost v₀ = 0
  self : s.predecessor v₀ = v₀
  first : s.finished v₀ = false ∧ s.queue = [toLex (0, v₀)] ∨
    s.finished v₀ = true ∧ ∀ k, toLex (k, v₀) ∉ s.queue
  parents : ∃ order, (∀ v, v ∈ order ↔ s.finished v = true) ∧
    Ancestry (Reduced A h) (fun v c => v = v₀ ∧ c = (h v₀ : WithTop K)) (s.label h) (s.parent v₀)
      order

omit [IsStrictOrderedRing K] in
theorem initializeAt_inv (A : Nat → Nat → K → Prop) (h : Nat → K) (v₀ : Nat) :
    (initializeAt v₀ : HalfSearch K).Inv A h v₀ := by
  -- Only the origin has a label, and the queue holds its only entry.
  have hlabel : ∀ v, (initializeAt v₀ : HalfSearch K).label h v ≠ ⊤ → v = v₀ := by
    intro v hv
    by_contra hne
    simp [label, initializeAt, Function.update_of_ne hne] at hv
  have hself : (initializeAt v₀ : HalfSearch K).label h v₀ = (h v₀ : WithTop K) := by
    simp [label, initializeAt]
  have hentry : ∀ k v, (initializeAt v₀ : HalfSearch K).entries h v₀ k v ↔
      k = (h v₀ : WithTop K) ∧ v = v₀ := by
    intro k v
    by_cases hv : v = v₀
    · simp [entries, hv, initializeAt, PriorityQueue.push]
    · simp [entries, hv, initializeAt, PriorityQueue.push]
  constructor
  case search =>
    constructor
    case sound =>
      intro v hv
      obtain rfl := hlabel v hv
      exact ⟨v, h v, 0, ⟨rfl, rfl⟩, .nil v, by rw [hself, add_zero]⟩
    case source =>
      intro v c hsrc
      obtain ⟨rfl, rfl⟩ := hsrc
      exact hself.le
    case closed => exact fun u v w hu => nomatch hu
    case queued =>
      intro v hv _
      obtain rfl := hlabel v hv
      exact (hentry _ _).mpr ⟨hself, rfl⟩
    case above =>
      intro k v hq
      obtain ⟨rfl, rfl⟩ := (hentry k v).mp hq
      exact hself.le
    case later => exact fun u k v hu => nomatch hu
  case reached => exact fun v hv => nomatch hv
  case origin => simp [initializeAt]
  case self => rfl
  case first => exact .inl ⟨rfl, rfl⟩
  case parents =>
    refine ⟨[], fun v => by simp [initializeAt], ?_, ?_, trivial⟩
    · intro v hv _
      obtain rfl := hlabel v hv
      exact ⟨rfl, hself⟩
    · intro v u hv hp
      obtain rfl := hlabel v hv
      simp [parent] at hp

omit [IsStrictOrderedRing K] in
/-- The least entry is a least one also for the search over reduced arcs. -/
theorem Inv.top_spec (inv : s.Inv A h v₀) (htop : s.queue.top? = some (toLex (k, x))) :
    ∃ k₀, s.entries h v₀ k₀ x ∧ (∀ k' v, s.entries h v₀ k' v → k₀ ≤ k') ∧
      (x = v₀ ∧ k = 0 ∧ s.popped.queue = [] ∨
        x ≠ v₀ ∧ k = k₀ ∧ s.finished v₀ = true ∧ ∀ k, toLex (k, v₀) ∉ s.popped.queue) ∧
      (∀ k' v, s.entries h v₀ k' v → (k' = k₀ → v ≠ x) → s.popped.entries h v₀ k' v) ∧
      ∀ k' v, s.popped.entries h v₀ k' v → s.entries h v₀ k' v := by
  obtain ⟨hmem, hmin⟩ := PriorityQueue.top?_eq_some.mp htop
  obtain ⟨hf, hq⟩ | ⟨hf, hq⟩ := inv.first
  · -- The first entry is the only one.
    rw [hq, List.mem_singleton] at hmem
    obtain ⟨rfl, rfl⟩ := Prod.mk.inj (toLex.injective hmem)
    have hpop : s.popped.queue = [] := by
      show s.queue.pop = []
      rw [PriorityQueue.pop_eq_erase htop, hq]
      simp
    have hentry : ∀ k' v, s.entries h x k' v ↔ k' = (h x : WithTop K) ∧ v = x := by
      intro k' v
      by_cases hv : v = x
      · simp [entries, hv, hq]
      · simp [entries, hv, hq]
    refine ⟨h x, (hentry _ _).mpr ⟨rfl, rfl⟩, ?_, .inl ⟨rfl, rfl, hpop⟩, ?_, ?_⟩
    · intro k' v hk'
      rw [((hentry k' v).mp hk').1]
    · intro k' v hk' hne
      obtain ⟨rfl, rfl⟩ := (hentry k' v).mp hk'
      exact absurd rfl (hne rfl)
    · intro k' v hk'
      simp [entries, hpop] at hk'
  · -- The origin has been taken before, so the queue holds only labels of other vertices.
    have hne : x ≠ v₀ := by
      intro heq
      subst heq
      exact hq k hmem
    have hentry : ∀ k' v, s.entries h v₀ k' v ↔ toLex (k', v) ∈ s.queue := by
      intro k' v
      by_cases hv : v = v₀
      · subst hv
        simp [entries, hq]
      · simp [entries, hv]
    have hsub : ∀ k' v, toLex (k', v) ∈ s.popped.queue → toLex (k', v) ∈ s.queue :=
      fun k' v hk' => PriorityQueue.mem_of_mem_pop hk'
    have hq' : ∀ k', toLex (k', v₀) ∉ s.popped.queue := fun k' hk' => hq k' (hsub k' v₀ hk')
    refine ⟨k, (hentry _ _).mpr hmem, ?_, .inr ⟨hne, rfl, hf, hq'⟩, ?_, ?_⟩
    · intro k' v hk'
      exact Prod.Lex.monotone_fst _ _ (hmin _ ((hentry k' v).mp hk'))
    · intro k' v hk' hdiff
      have hv : v ≠ v₀ := by
        intro heq
        subst heq
        exact hq _ ((hentry k' v).mp hk')
      simp only [entries, hv, if_false]
      apply PriorityQueue.mem_pop_of_ne htop ((hentry k' v).mp hk')
      intro heq
      obtain ⟨rfl, rfl⟩ := Prod.mk.inj (toLex.injective heq)
      exact hdiff rfl rfl
    · intro k' v hk'
      by_cases hv : v = v₀
      · subst hv
        simp [entries, hq'] at hk'
      · simp only [entries, hv, if_false] at hk' ⊢
        exact hsub k' v hk'

omit [IsStrictOrderedRing K] in
/-- The key of the entry of an unfinished vertex: its cost plus its estimate, and without the
    estimate for `v₀`. -/
theorem Inv.key_eq (inv : s.Inv A h v₀) (htop : s.queue.top? = some (toLex (k, x)))
    (hx : s.finished x = false) :
    x = v₀ ∧ k = 0 ∨ x ≠ v₀ ∧ s.finished v₀ = true ∧ k = s.label h x := by
  obtain ⟨k₀, hmem, hmin, hfirst | ⟨hne, rfl, hf, _⟩, _⟩ := inv.top_spec htop
  · exact .inl ⟨hfirst.1, hfirst.2.1⟩
  · exact .inr ⟨hne, hf, (inv.search.key_eq hmem hmin (by simp [hx])).symm⟩

/-- Costs are not negative. -/
theorem Inv.cost_nonneg (inv : s.Inv A h v₀) (hA : ∀ u v c, A u v c → 0 ≤ c) (v : Nat) :
    0 ≤ s.cost v := by
  by_cases hv : s.cost v = ⊤
  · rw [hv]
    exact le_top
  · obtain ⟨c, hwalk, hc⟩ := labelled_reduced.mp
      (inv.search.sound v fun htop => hv (label_eq_top.mp htop))
    rw [label_eq_iff.mp hc]
    exact_mod_cast hwalk.nonneg hA

/-- Exploring the vertex of the least entry from its own cost settles it. -/
theorem explore_spec {es : List (BoostEdge E)} (inv : s.Inv A h v₀)
    (hA : ∀ u v c, A u v c → 0 ≤ c) (hcons : ∀ u v c, A u v c → h u ≤ c + h v)
    (htop : s.queue.top? = some (toLex (k, x))) (hk : k ≠ ⊤) (hx : s.finished x = false)
    (hes : ∀ v c, (∃ e ∈ es, PgrBaseGraph.adjacent x e = v ∧ c = edgeCost e) ↔ A x v c) :
    let s' := explore h es (s.cost x) x s.popped
    s'.Inv A h v₀ ∧ ∀ v, s'.finished v = true ↔ s.finished v = true ∨ v = x := by
  intro s'
  obtain ⟨k₀, hmem, hmin, hfirst, hkept, hold⟩ := inv.top_spec htop
  have hunsettled : ¬ s.finished x = true := by simp [hx]
  have hlabel : s.label h x = k₀ := inv.search.key_eq hmem hmin hunsettled
  have harc : ∀ e ∈ es, A x (PgrBaseGraph.adjacent x e) (edgeCost e) :=
    fun e he => (hes _ _).mp ⟨e, he, rfl, rfl⟩
  -- The vertex is settled at its label, and its edges are relaxed from its cost.
  obtain ⟨hrelax, horigin, hsub⟩ := relaxEdges_relaxing (s := s.popped) (h := h) (x := x) es
    (inv.cost_nonneg hA x) (fun e he => hA _ _ _ (harc e he)) inv.origin
    (fun e he => hcons _ _ _ (harc e he)) fun v hv => by
      show s.label h v ≤ s.label h x
      rw [hlabel]
      exact inv.search.later v k₀ x hv hmem
  have hfin' : ∀ v, s'.finished v = true ↔ s.finished v = true ∨ v = x :=
    fun v => explore_finished
  -- The round as a `Relaxed` step.
  have hstep : Relaxed (Reduced A h) k₀ x (s.label h) (s'.label h) (s.entries h v₀)
      (s'.entries h v₀) := by
    refine (hrelax.congr fun v w => ?_).relaxed hkept hold
    constructor
    · intro hw
      obtain ⟨e, he, rfl, rfl⟩ := hw
      exact ⟨_, harc e he, rfl⟩
    · intro hw
      obtain ⟨c, hc, rfl⟩ := hw
      obtain ⟨e, he, rfl, rfl⟩ := (hes v c).mpr hc
      exact ⟨e, he, rfl, rfl⟩
  have hnonneg : ∀ u v w, Reduced A h u v w → 0 ≤ w := fun u v w hw => reduced_nonneg hcons hw
  -- No label of a settled vertex changes any more.
  have hsame : ∀ u, s.finished u = true ∨ u = x → s'.label h u = s.label h u :=
    fun u hu => inv.search.settled_label hmem hmin hunsettled hnonneg hstep hu
  have hreached : s.label h x ≠ ⊤ := by
    rw [hlabel]
    obtain ⟨rfl, rfl, _⟩ | ⟨_, rfl, _⟩ := hfirst
    · have hk₀ : k₀ = (h x : WithTop K) ∧ toLex (0, x) ∈ s.queue := by simpa [entries] using hmem
      rw [hk₀.1]
      exact WithTop.coe_ne_top
    · exact hk
  refine ⟨?_, hfin'⟩
  · constructor
    case search =>
      have hset := inv.search.settle hmem hmin hunsettled hnonneg hstep
      rwa [show (fun v => s'.finished v = true) = fun v => s.finished v = true ∨ v = x from
        funext fun v => propext (hfin' v)]
    case reached =>
      intro v hv htopv
      have heq := hsame v ((hfin' v).mp hv)
      rw [label_eq_top.mpr htopv] at heq
      obtain hv | rfl := (hfin' v).mp hv
      · exact inv.reached v hv (label_eq_top.mp heq.symm)
      · exact hreached heq.symm
    case origin => exact horigin
    case self =>
      obtain ⟨_, hp⟩ | ⟨hlt, _⟩ := relaxEdges_change (s := s.popped) (h := h) (b := s.cost x)
        (x := x) es v₀
      · exact hp.trans inv.self
      · have hzero : s.popped.cost v₀ = 0 := inv.origin
        rw [hzero] at hlt
        exact absurd horigin hlt.ne
    case first =>
      -- Either this is the first round, and `x` is the vertex at which the search starts, or that
      -- one was settled before.
      obtain ⟨rfl, _, hnil⟩ | ⟨_, _, hf, hno⟩ := hfirst
      · refine .inr ⟨(hfin' x).mpr (.inr rfl), fun k' hq => ?_⟩
        have hq' := hsub k' hq
        rw [hnil] at hq'
        cases hq'
      · exact .inr ⟨(hfin' v₀).mpr (.inl hf), fun k' hq => hno k' (hsub k' hq)⟩
    case parents =>
      -- `x` is the latest vertex to be settled; what has been relaxed points to it.
      obtain ⟨order, horder, hanc⟩ := inv.parents
      refine ⟨x :: order, fun v => ?_, hanc.settle hreached (fun u hu => ?_) fun v => ?_⟩
      · rw [List.mem_cons, horder, hfin', or_comm]
      · exact hsame u (hu.imp_left (horder u).mp)
      · obtain ⟨hc, hp⟩ | ⟨hlt, _, hp, e, he, hadj, hc⟩ := relaxEdges_change (s := s.popped)
          (h := h) (b := s.cost x) (x := x) es v
        · have hc' : s'.cost v = s.cost v := hc
          have hp' : s'.predecessor v = s.predecessor v := hp
          exact .inl ⟨by rw [label, label, hc'], by rw [parent, parent, hp']⟩
        · have hc' : s'.cost v = ((edgeCost e : K) : WithTop K) + s.cost x := hc
          have hp' : s'.predecessor v = x := hp
          have hlt' : s'.cost v < s.cost v := hlt
          have hne : v ≠ v₀ := by
            intro heq
            have hzero : s'.cost v₀ = 0 := horigin
            rw [heq, inv.origin, hzero] at hlt'
            exact absurd hlt' (lt_irrefl _)
          refine .inr ⟨fun heq => ?_, by simp [parent, hne, hp'], _,
            ⟨edgeCost e, hadj ▸ harc e he, rfl⟩, ?_⟩
          · exact hlt'.ne (WithTop.add_right_cancel WithTop.coe_ne_top heq)
          · rw [label, label, add_reduced, hc']

/-- The function explores a node over the arcs `A`, from the cost of the node. -/
def Explores (E : Type) [TEdge E] (f : CostVertexPair K → HalfSearch K → HalfSearch K)
    (A : Nat → Nat → K → Prop) (h : Nat → K) (v₀ : Nat) : Prop :=
  ∀ (s : HalfSearch K) k x, s.Inv A h v₀ → s.queue.top? = some (toLex (k, x)) →
    s.finished x = false → ∃ es : List (BoostEdge E),
      f (toLex (k, x)) s.popped = s.popped.explore h es (s.cost x) x ∧
      ∀ v c, (∃ e ∈ es, PgrBaseGraph.adjacent x e = v ∧ c = edgeCost e) ↔ A x v c

/-- Taking the least entry, and exploring its vertex from its own cost unless that is finished. -/
theorem take_spec {f : CostVertexPair K → HalfSearch K → HalfSearch K} (inv : s.Inv A h v₀)
    (hf : Explores E f A h v₀) (hA : ∀ u v c, A u v c → 0 ≤ c)
    (hcons : ∀ u v c, A u v c → h u ≤ c + h v)
    (htop : s.queue.top? = some (toLex (k, x))) (hk : k ≠ ⊤) :
    let s' := if !s.popped.finished x then f (toLex (k, x)) s.popped else s.popped
    s'.Inv A h v₀ ∧ (∀ v, s'.finished v = true ↔ s.finished v = true ∨ v = x) ∧
      ∀ v, s.finished v = true → s'.predecessor v = s.predecessor v := by
  intro s'
  cases hx : s.finished x with
  | true =>
    have hs' : s' = s.popped := if_neg (by simp [popped, hx])
    obtain ⟨k₀, hmem, hmin, hfirst, hkept, hold⟩ := inv.top_spec htop
    rw [hs']
    refine ⟨⟨inv.search.drop hx (fun k' v hq hne => hkept k' v hq fun _ => hne) hold, inv.reached,
      inv.origin, inv.self, ?_, inv.parents⟩, fun v => ⟨.inl, ?_⟩, fun _ _ => rfl⟩
    · obtain ⟨rfl, _, hnil⟩ | ⟨_, _, hf, hno⟩ := hfirst
      · exact .inr ⟨hx, fun k' hq => by rw [hnil] at hq; cases hq⟩
      · exact .inr ⟨hf, hno⟩
    · intro hv
      obtain hv | rfl := hv
      · exact hv
      · exact hx
  | false =>
    obtain ⟨es, hexplore, hes⟩ := hf s k x inv htop hx
    have hs' : s' = s.popped.explore h es (s.cost x) x :=
      (if_pos (by simp [popped, hx])).trans hexplore
    obtain ⟨hinv, hfin⟩ := explore_spec inv hA hcons htop hk hx hes
    rw [hs']
    exact ⟨hinv, hfin, fun v hv => explore_predecessor hv⟩

/-- The cost of a finished vertex is its distance. -/
theorem Inv.isDist (inv : s.Inv A h v₀) (hcons : ∀ u v c, A u v c → h u ≤ c + h v)
    (hx : s.finished x = true) : ∃ c : K, s.cost x = c ∧ IsDist A v₀ x c := by
  have hleast := inv.search.exact (fun u v w hw => reduced_nonneg hcons hw) hx
    fun htop => inv.reached x hx (label_eq_top.mp htop)
  obtain ⟨c, hc, hlabel⟩ := isDist_of_isLeast_reduced hleast
  exact ⟨c, label_eq_iff.mp hlabel, hc⟩

/-! ## The recorded paths -/

/-- The predecessor of a labelled vertex is finished, and the cost grows by the cheapest arc from
    it. -/
theorem Inv.pred_spec (inv : s.Inv A h v₀) {v : Nat} (hv : s.cost v ≠ ⊤) (hne : v ≠ v₀) :
    s.finished (s.predecessor v) = true ∧ ∃ a : K, IsLeast {w | A (s.predecessor v) v w} a ∧
      s.cost v = s.cost (s.predecessor v) + a := by
  obtain ⟨order, horder, hanc⟩ := inv.parents
  obtain ⟨hmem, w, ⟨a, harc, rfl⟩, hsum⟩ := hanc.step v (s.predecessor v)
    (fun htop => hv (label_eq_top.mp htop)) (by simp [parent, hne])
  have hfin := (horder _).mp hmem
  obtain ⟨c, hc⟩ := WithTop.ne_top_iff_exists.mp (inv.reached _ hfin)
  have hpred : s.label h (s.predecessor v) =
      (c : WithTop K) + (h (s.predecessor v) : WithTop K) := by
    rw [label, ← hc]
  rw [hpred, add_reduced] at hsum
  have hcost : s.cost v = ((c + a : K) : WithTop K) := by
    rw [← label_eq_iff (h := h), hsum]
    simp only [← WithTop.coe_add]
    congr 1
    abel
  refine ⟨hfin, a, ⟨harc, fun a' ha' => ?_⟩, by rw [hcost, ← hc, WithTop.coe_add]⟩
  -- All arcs that leave the predecessor have been relaxed.
  have hle := inv.search.closed _ v _ hfin ⟨a', ha', rfl⟩
  rw [label, label, add_reduced, hcost, ← hc] at hle
  have hle' : c + a + h v ≤ a' + c + h v := by exact_mod_cast hle
  have hle'' : c + a ≤ c + a' := by
    rw [add_comm a' c] at hle'
    exact le_of_add_le_add_right hle'
  exact le_of_add_le_add_left hle''

omit [IsStrictOrderedRing K] in
/-- Induction along the predecessors. -/
theorem Inv.pred_induction (inv : s.Inv A h v₀) {motive : Nat → Prop} (origin : motive v₀)
    (step : ∀ v, s.cost v ≠ ⊤ → v ≠ v₀ → motive (s.predecessor v) → motive v) {v : Nat}
    (hv : s.cost v ≠ ⊤) : motive v := by
  obtain ⟨order, horder, hanc⟩ := inv.parents
  have hlabel : ∀ u ∈ order, s.label h u ≠ ⊤ :=
    fun u hu htop => inv.reached u ((horder u).mp hu) (label_eq_top.mp htop)
  refine (hanc.trace hlabel (motive := fun _ v => motive v) ?_ ?_
    fun htop => hv (label_eq_top.mp htop)).elim fun _ hn => hn.2
  · intro v hv hnone
    obtain ⟨rfl, _⟩ := hanc.origin v hv hnone
    exact origin
  · intro n u v hv hsome ih
    have hne : v ≠ v₀ := by
      intro heq
      simp [parent, heq] at hsome
    have hpred : s.predecessor v = u := by simpa [parent, hne] using hsome
    exact step v (fun htop => hv (label_eq_top.mpr htop)) hne (hpred ▸ ih)

/-- The recorded path of a labelled vertex is one in the tree of the cheapest arcs, and the vertices
    before its end are finished. -/
theorem Inv.treePath (inv : s.Inv A h v₀) {v : Nat} (hv : s.cost v ≠ ⊤) :
    ∃ l, TreePath (fun u v c => IsLeast {w | A u v w} c) s.predecessor s.cost v₀ l v ∧
      ∀ u ∈ l, u = v ∨ s.finished u = true := by
  refine inv.pred_induction (motive := fun v => ∃ l, TreePath (fun u v c => IsLeast {w | A u v w} c)
    s.predecessor s.cost v₀ l v ∧ ∀ u ∈ l, u = v ∨ s.finished u = true)
    ⟨[v₀], .source inv.origin, by simp⟩ (fun v hv hne ih => ?_) hv
  obtain ⟨l, htree, hfin⟩ := ih
  obtain ⟨hpred, a, harc, hcost⟩ := inv.pred_spec hv hne
  refine ⟨l ++ [v], .step htree (htree.not_mem_of_pred hne) rfl harc hcost, fun u hu => ?_⟩
  obtain hu | hu := List.mem_append.mp hu
  · refine .inr ((hfin u hu).elim (fun heq => ?_) id)
    rw [heq]
    exact hpred
  · exact .inl (List.mem_singleton.mp hu)

end HalfSearch

end PgRouting
