import PgRouting.Spec.PathTotal
import PgRouting.Spec.QueueSearch

/-!
# The path of two half searches

A search from both ends meets at a vertex. The path that the forward half has built to it is
followed by the reverse of the one that the backward half has built. In the backward half the
edge of a row leads from the next row's node to its own, and reversing moves it to the other
row. The last row of a half is dropped where the next one begins.

`m_tot_cost` is not set before the constructor adds to it, so that the total cost of the joined
path is off by what the memory holds.

## Key results

- `reverse_linked`: the reverse of a path leads back
- `reverse_reverse`: reversing twice
- `completePath_half`: the path that one half builds
- `join_spec`, `joinsAndReverses_iff`: the joined path
-/

namespace PgRouting

/-- The vertices on a path in a tree are below a bound that holds of the ends of its arcs. -/
theorem TreePath.forall_lt {K : Type} [AddMonoid K] {A : Nat → Nat → K → Prop}
    {predecessors : Nat → Nat} {distances : Nat → WithTop K} {s v n : Nat} {l : List Nat}
    (h : TreePath A predecessors distances s l v) (hA : ∀ u v w, A u v w → v < n) (hs : s < n) :
    ∀ u ∈ l, u < n := by
  induction h with
  | source => exact fun u hu => List.mem_singleton.mp hu ▸ hs
  | step _ _ _ harc _ ih =>
    intro u hu
    obtain hu | hu := List.mem_append.mp hu
    · exact ih u hu
    · exact List.mem_singleton.mp hu ▸ hA _ _ _ harc

namespace Path

open QueueSearch

variable {V E : Type} [TVertex V] [TEdge E] {g : PgrBaseGraph V E}
variable {S : Int → Int → Int → ℚ → Prop} {s t i m : Int} {agg : ℚ} {rows rows' : List PathT}

/-! ## Rows of walks -/

/-- The rows of a walk to `t` along the steps `S`, whatever their aggregate costs are. -/
inductive Linked (S : Int → Int → Int → ℚ → Prop) (t : Int) : Int → List PathT → Prop
  | last (agg : ℚ) : Linked S t t [⟨t, -1, 0, agg⟩]
  | step {i j id : Int} {cost : ℚ} (agg : ℚ) {rows : List PathT} (h : S i j id cost)
    (rest : Linked S t j rows) : Linked S t i (⟨i, id, cost, agg⟩ :: rows)

/-- The aggregate costs are the running sum of the costs, from `agg` on. -/
def Running : ℚ → List PathT → Prop
  | _, [] => True
  | agg, r :: rest => r.aggCost = agg ∧ Running (agg + r.cost) rest

theorem walkRows_iff :
    WalkRows g t i agg rows ↔ Linked (IdJoins g) t i rows ∧ Running agg rows := by
  constructor
  · intro h
    induction h with
    | last agg => exact ⟨.last agg, rfl, trivial⟩
    | step h _ ih => exact ⟨.step _ h ih.1, rfl, ih.2⟩
  · intro h
    obtain ⟨hlinked, hrun⟩ := h
    induction hlinked generalizing agg with
    | last agg' =>
      obtain ⟨rfl, _⟩ := hrun
      exact .last _
    | step agg' h _ ih =>
      obtain ⟨rfl, hrest⟩ := hrun
      exact .step h (ih hrest)

theorem recalculateLoop_running (agg : ℚ) (rows : List PathT) :
    Running agg (recalculateLoop agg rows).1 := by
  induction rows generalizing agg with
  | nil => exact trivial
  | cons r rest ih => exact ⟨rfl, ih (agg + r.cost)⟩

theorem recalculateLoop_linked (h : Linked S t i rows) (agg : ℚ) :
    Linked S t i (recalculateLoop agg rows).1 := by
  induction h generalizing agg with
  | last agg' => exact .last agg
  | step agg' h _ ih => exact .step agg h (ih _)

theorem Linked.ne_nil (h : Linked S t i rows) : rows ≠ [] := by
  cases h with
  | last agg => exact List.cons_ne_nil _ []
  | step agg h rest => exact List.cons_ne_nil _ _

/-! ## Reversing -/

/-- The edge and the cost of a row. -/
def label (r : PathT) : Int × ℚ := (r.edge, r.cost)

theorem reverse_ends {K : Type} [AddCommGroup K] (p : Path K) :
    p.reverse.startId = p.endId ∧ p.reverse.endId = p.startId := by
  simp only [reverse]
  split <;> exact ⟨rfl, rfl⟩

theorem reverse_path (p : Path) (h : 1 < p.path.length) :
    p.reverse.path = (recalculateLoop 0 (reverseLoop (-1) 0 p.path [])).1 := by
  simp only [reverse, if_neg (Nat.not_le.mpr h)]

theorem recalculateLoop_nodes (agg : ℚ) (rows : List PathT) :
    (recalculateLoop agg rows).1.map (·.node) = rows.map (·.node) := by
  induction rows generalizing agg with
  | nil => rfl
  | cons r rest ih => simp [recalculateLoop, ih]

theorem recalculateLoop_labels (agg : ℚ) (rows : List PathT) :
    (recalculateLoop agg rows).1.map label = rows.map label := by
  induction rows generalizing agg with
  | nil => rfl
  | cons r rest ih => simp [recalculateLoop, ih, label]

theorem reverseLoop_nodes (edge : Int) (cost : ℚ) (rows newpath : List PathT) :
    (reverseLoop edge cost rows newpath).map (·.node) =
      (rows.map (·.node)).reverse ++ newpath.map (·.node) := by
  induction rows generalizing edge cost newpath with
  | nil => rfl
  | cons r rest ih => simp [reverseLoop, ih]

theorem reverseLoop_labels (edge : Int) (cost : ℚ) (rows newpath : List PathT) :
    (reverseLoop edge cost rows newpath).map label =
      (((edge, cost) :: rows.map label).dropLast).reverse ++ newpath.map label := by
  induction rows generalizing edge cost newpath with
  | nil => rfl
  | cons r rest ih => simp [reverseLoop, ih, label]

/-- The nodes of the reverse are those of the path, from the last one to the first one. -/
theorem reverse_nodes (p : Path) : p.reverse.path.map (·.node) = (p.path.map (·.node)).reverse := by
  by_cases h : 1 < p.path.length
  · rw [reverse_path p h, recalculateLoop_nodes, reverseLoop_nodes]
    simp
  · match hp : p.path with
    | [] => simp [reverse, hp]
    | [r] => simp [reverse, hp]
    | r :: r' :: rest =>
      rw [hp] at h
      exact absurd (Nat.le_add_left 2 rest.length) h

theorem reverse_labels (p : Path) (h : 1 < p.path.length) :
    p.reverse.path.map label = ((p.path.map label).dropLast).reverse ++ [(-1, 0)] := by
  obtain ⟨r, rest, hrows⟩ := List.exists_cons_of_length_pos (Nat.zero_lt_of_lt h)
  rw [reverse_path p h, recalculateLoop_labels, reverseLoop_labels, hrows]
  simp

/-- Rows are determined by their nodes, their edges and costs, and the running sum. -/
theorem eq_of_running (agg : ℚ) (hnodes : rows.map (·.node) = rows'.map (·.node))
    (hlabels : rows.map label = rows'.map label) (h : Running agg rows) (h' : Running agg rows') :
    rows = rows' := by
  induction rows generalizing agg rows' with
  | nil => exact (List.map_eq_nil_iff.mp hnodes.symm).symm
  | cons r rest ih =>
    obtain ⟨r', rest', rfl⟩ : ∃ r' rest', rows' = r' :: rest' := by
      apply List.exists_cons_of_ne_nil
      intro hnil
      rw [hnil] at hnodes
      cases hnodes
    obtain ⟨hnode, hnodes⟩ := List.cons.inj hnodes
    obtain ⟨hlabel, hlabels⟩ := List.cons.inj hlabels
    obtain ⟨hedge, hcost⟩ := Prod.mk.inj hlabel
    obtain ⟨hagg, hrun⟩ := h
    obtain ⟨hagg', hrun'⟩ := h'
    rw [← hcost] at hrun'
    have hr : r = r' := by
      cases r
      cases r'
      simp_all
    rw [hr, ih _ hnodes hlabels hrun hrun']

/-- **Reversing twice** gives back the path, when its last row has the edge -1 and the cost 0 and
    its aggregate costs are the running sum. -/
theorem reverse_reverse (p : Path) (hlast : ∀ r ∈ p.path.getLast?, r.edge = -1 ∧ r.cost = 0)
    (hrun : Running 0 p.path) : p.reverse.reverse = p := by
  have hends : p.reverse.reverse.startId = p.startId ∧ p.reverse.reverse.endId = p.endId :=
    ⟨(reverse_ends _).1.trans (reverse_ends p).2, (reverse_ends _).2.trans (reverse_ends p).1⟩
  have htot : p.reverse.reverse.totCost = p.totCost := by
    rw [reverse_totCost, reverse_totCost]
  have hrows : p.reverse.reverse.path = p.path := by
    by_cases h : 1 < p.path.length
    · have hrev : 1 < p.reverse.path.length := by rwa [reverse_length]
      have hlabels : p.path.map label = (p.path.map label).dropLast ++ [(-1, 0)] := by
        have hne : p.path ≠ [] := List.ne_nil_of_length_pos (Nat.zero_lt_of_lt h)
        have hget := List.getLast?_eq_getLast_of_ne_nil hne
        obtain ⟨hedge, hcost⟩ := hlast _ hget
        conv_lhs => rw [← List.dropLast_concat_getLast hne]
        rw [List.map_append, List.map_dropLast, List.map_singleton, label, hedge, hcost]
      apply eq_of_running 0
      case hnodes => rw [reverse_nodes, reverse_nodes, List.reverse_reverse]
      case hlabels =>
        rw [reverse_labels _ hrev, reverse_labels p h, List.dropLast_concat, List.reverse_reverse,
          ← hlabels]
      case h =>
        rw [reverse_path _ hrev]
        exact recalculateLoop_running 0 _
      case h' => exact hrun
    · have hshort := Nat.not_lt.mp h
      simp [reverse, hshort]
  show (⟨p.reverse.reverse.path, p.reverse.reverse.startId, p.reverse.reverse.endId,
    p.reverse.reverse.totCost⟩ : Path) = p
  rw [hrows, hends.1, hends.2, htot]

theorem reverseLoop_linked {edge : Int} {cost a : ℚ} {newpath : List PathT}
    (h : Linked (fun i j id w => S j i id w) t i rows)
    (hnew : Linked S s i (⟨i, edge, cost, a⟩ :: newpath)) :
    Linked S s t (reverseLoop edge cost rows newpath) := by
  induction h generalizing edge cost a newpath with
  | last agg =>
    cases hnew with
    | last => exact .last 0
    | step _ h rest => exact .step 0 h rest
  | @step i j id w agg rows h rest ih =>
    rw [reverseLoop]
    have hold : Linked S s i (⟨i, edge, cost, 0⟩ :: newpath) := by
      cases hnew with
      | last => exact .last 0
      | step _ h rest => exact .step 0 h rest
    exact ih (a := 0) (.step 0 h hold)

/-- The reverse of a path whose edges lead from the next node to the own one is a walk. -/
theorem reverse_linked (p : Path) (h : Linked (fun i j id w => S j i id w) t s p.path) :
    Linked S s t p.reverse.path := by
  by_cases hlen : 1 < p.path.length
  · rw [reverse_path p hlen]
    exact recalculateLoop_linked (reverseLoop_linked h (.last 0)) 0
  · have hrows : p.reverse.path = p.path := by simp [reverse, Nat.not_lt.mp hlen]
    rw [hrows]
    generalize p.path = rows at h hlen
    cases h with
    | last agg => exact .last agg
    | step agg h rest =>
      exact absurd (Nat.succ_lt_succ (List.length_pos_of_ne_nil rest.ne_nil)) hlen

/-- Its aggregate costs are the running sum. -/
theorem reverse_running (p : Path) (h : Running 0 p.path) : Running 0 p.reverse.path := by
  by_cases hlen : 1 < p.path.length
  · rw [reverse_path p hlen]
    exact recalculateLoop_running 0 _
  · have hrows : p.reverse.path = p.path := by simp [reverse, Nat.not_lt.mp hlen]
    rwa [hrows]

/-! ## Appending -/

theorem walkRows_add (a : ℚ) (h : WalkRows g t i agg rows) :
    WalkRows g t i (agg + a) (rows.map fun r => { r with aggCost := r.aggCost + a }) := by
  induction h with
  | last agg => exact .last _
  | @step i j id cost agg rows h _ ih =>
    rw [add_right_comm] at ih
    exact .step h ih

/-- The rows of one walk up to its end, and those of a second one from there on. -/
theorem walkRows_append (h : WalkRows g m s agg rows) (h' : WalkRows g t m 0 rows') :
    ∃ init a, rows = init ++ [⟨m, -1, 0, a⟩] ∧
      WalkRows g t s agg (init ++ rows'.map fun r => { r with aggCost := r.aggCost + a }) := by
  induction h with
  | last agg =>
    have hadd := walkRows_add agg h'
    rw [zero_add] at hadd
    exact ⟨[], agg, rfl, hadd⟩
  | step h _ ih =>
    obtain ⟨init, a, hrows, hwalk⟩ := ih
    exact ⟨_ :: init, a, by rw [hrows]; rfl, .step h hwalk⟩

/-- `append` joins two walks where the first one ends. -/
theorem append_walkRows {p q : Path} (hp : WalkRows g m s 0 p.path) (hq : WalkRows g t m 0 q.path)
    (hpq : p.startId ≠ p.endId) (hqq : q.startId ≠ q.endId) :
    ∃ r, p.append q = some r ∧ r.startId = p.startId ∧ r.endId = q.endId ∧
      WalkRows g t s 0 r.path ∧
      r.path.map (·.node) = (p.path.map (·.node)).dropLast ++ q.path.map (·.node) ∧
      r.totCost = p.totCost + q.rowsCost := by
  obtain ⟨init, a, hrows, hwalk⟩ := walkRows_append hp hq
  have hlast : p.path.getLast? = some ⟨m, -1, 0, a⟩ := by simp [hrows]
  have hrun := foldl_pushBack (fun item => { item with aggCost := item.aggCost + a }) q.path
    { p with endId := q.endId, path := p.path.dropLast }
  rw [append, if_neg hqq, if_neg hpq, hlast, Option.map_some]
  refine ⟨_, rfl, ?_⟩
  rw [hrun]
  refine ⟨rfl, rfl, ?_, ?_, ?_⟩
  · simpa [hrows] using hwalk
  · simp [hrows]
  · simp [rowsCost, Function.comp_def]

/-! ## The two halves -/

/-- The arcs along which the tree of a half grows: `normal` is the forward half. -/
def arcs (g : AdjacencyList V E) (normal : Bool) (u v : Nat) (w : ℚ) : Prop :=
  if normal then g.Arc u v w else g.Arc v u w

/-- The steps of the rows that a half builds. -/
def joins (g : PgrBaseGraph V E) (normal : Bool) (i j id : Int) (w : ℚ) : Prop :=
  if normal then IdJoins g i j id w else IdJoins g j i id w

/-- In the tree of a half the predecessors lead from the vertex back to the root. -/
structure LeadsBack (g : AdjacencyList V E) (normal : Bool) (root : Nat) (predecessors : Nat → Nat)
    (distances : Nat → WithTop ℚ) (v : Nat) : Prop where
  self : predecessors root = root
  path : ∃ l, TreePath (arcs g normal) predecessors distances root l v

theorem arcs_lt (hg : g.Consistent) {normal : Bool} :
    ∀ u v w, arcs g.graph normal u v w → v < g.graph.numVertices := by
  intro u v w harc
  cases normal with
  | true => exact (hg.arc_lt harc).2
  | false => exact (hg.arc_lt harc).1

theorem LeadsBack.lt (hg : g.Consistent) {normal : Bool} {root v : Nat} {predecessors : Nat → Nat}
    {distances : Nat → WithTop ℚ} (h : LeadsBack g.graph normal root predecessors distances v)
    (hroot : root < g.graph.numVertices) : v < g.graph.numVertices := by
  obtain ⟨_, l, htree⟩ := h
  exact htree.forall_lt (arcs_lt hg) hroot v htree.mem

/-- The edge that `complete_path` looks up for an arc of the tree. -/
theorem getEdgeId_arcs {normal : Bool} {u v : Nat} {w : ℚ} (h : arcs g.graph normal u v w) :
    ∃ id, (if normal then g.getEdgeId u v w else g.getEdgeId v u w) = (id, w) ∧
      joins g normal (g.vertexId u) (g.vertexId v) id w := by
  cases normal with
  | true =>
    obtain ⟨e, he, rfl, rfl, hid⟩ := PgrBaseGraph.getEdgeId_arc h
    refine ⟨TEdge.id e.bundle, hid, ?_⟩
    have hjoins := idJoins_of_mem_outEdges he
    rwa [AdjacencyList.source_of_mem_outEdges he] at hjoins
  | false =>
    obtain ⟨e, he, rfl, rfl, hid⟩ := PgrBaseGraph.getEdgeId_arc h
    refine ⟨TEdge.id e.bundle, hid, ?_⟩
    have hjoins := idJoins_of_mem_outEdges he
    rwa [AdjacencyList.source_of_mem_outEdges he] at hjoins

/-- The loop of `complete_path` pushes the rows of the path in the tree in front. -/
theorem completePathLoop_half {normal : Bool} {root v n : Nat} {l : List Nat}
    {predecessors : Nat → Nat} {distances : Nat → WithTop ℚ}
    (h : TreePath (arcs g.graph normal) predecessors distances root l v) (hn : l.length ≤ n)
    (p : Path) (hp : Linked (joins g normal) t (g.vertexId v) p.path)
    (hrun : Running ((distances v).untopD 0) p.path) :
    ∃ q, completePathLoop g root predecessors distances normal n v p = some q ∧
      Linked (joins g normal) t (g.vertexId root) q.path ∧ Running 0 q.path ∧
      q.path.map (·.node) = l.dropLast.map g.vertexId ++ p.path.map (·.node) ∧
      q.startId = p.startId ∧ q.endId = p.endId ∧
      q.totCost = p.totCost + (distances v).untopD 0 ∧
      q.rowsCost = p.rowsCost + (distances v).untopD 0 := by
  induction h generalizing n p with
  | source hzero =>
    obtain ⟨n, rfl⟩ : ∃ k, n = k + 1 := ⟨n - 1, by simp only [List.length_singleton] at hn; omega⟩
    rw [hzero] at hrun ⊢
    refine ⟨p, ?_, hp, hrun, rfl, rfl, rfl, (add_zero _).symm, (add_zero _).symm⟩
    rw [completePathLoop, if_pos rfl]
  | @step l u v w htree hv hpred harc hd ih =>
    obtain ⟨n, rfl⟩ : ∃ k, n = k + 1 := ⟨n - 1, by simp at hn; omega⟩
    have hvs : v ≠ root := fun h => hv (h ▸ htree.source_mem)
    have hvu : v ≠ u := fun h => hv (h ▸ htree.mem)
    obtain ⟨du, hdu, _⟩ := htree.walk
    have hdv : (distances v).untopD 0 = du + w := by
      rw [hd, hdu, ← WithTop.coe_add, WithTop.untopD_coe]
    obtain ⟨id, hid, hjoins⟩ := getEdgeId_arcs harc
    have hcost : (distances v).untopD 0 - (distances u).untopD 0 = w := by
      rw [hdv, hdu, WithTop.untopD_coe, add_sub_cancel_left]
    have hback : (distances v).untopD 0 - w = du := by rw [hdv, add_sub_cancel_right]
    -- The round takes the cost of the arc for that of the row.
    have hround : completePathLoop g root predecessors distances normal (n + 1) v p =
        completePathLoop g root predecessors distances normal n u
          (p.pushFront ⟨g.vertexId u, id, w, du⟩) := by
      rw [completePathLoop, if_neg hvs, hpred, if_neg hvu]
      simp only [hcost, hid, hback]
    have hrun' : Running ((distances u).untopD 0) (p.pushFront ⟨g.vertexId u, id, w, du⟩).path := by
      rw [hdu, WithTop.untopD_coe]
      refine ⟨rfl, ?_⟩
      rwa [← hdv]
    obtain ⟨q, hq, hlinked, hrunning, hnodes, hstart, hend, htot, hrows⟩ :=
      ih (n := n) (by simp at hn; omega) _ (.step du hjoins hp) hrun'
    obtain ⟨l', hl'⟩ := htree.eq_snoc
    rw [hround]
    refine ⟨q, hq, hlinked, hrunning, ?_, hstart, hend, ?_, ?_⟩
    · rw [hnodes, hl']
      simp [pushFront]
    · rw [htot, hdv, hdu, WithTop.untopD_coe, pushFront]
      ring
    · rw [hrows, hdv, hdu, WithTop.untopD_coe, pushFront_rowsCost]
      ring

/-- **One half.** Its path is empty when the vertex is the root, and else the rows lead along the
    tree. -/
theorem completePath_half (hg : g.Consistent) {normal : Bool} {root v : Nat}
    {predecessors : Nat → Nat} {distances : Nat → WithTop ℚ} (hroot : root < g.graph.numVertices)
    (h : LeadsBack g.graph normal root predecessors distances v) (unset : ℚ) :
    ∃ p, newOfPredecessors unset g root v predecessors distances false normal = some p ∧
      p.startId = g.vertexId root ∧ p.endId = g.vertexId v ∧ p.totCost = unset + p.rowsCost ∧
      (v = root ∧ p.path = [] ∨
        v ≠ root ∧ Linked (joins g normal) (g.vertexId v) (g.vertexId root) p.path ∧
          Running 0 p.path ∧ ∃ nodes, p.path.map (·.node) = nodes ++ [g.vertexId v] ∧
            g.vertexId v ∉ nodes) := by
  obtain ⟨hself, l, htree⟩ := h
  by_cases hv : v = root
  · subst hv
    refine ⟨⟨[], g.vertexId v, g.vertexId v, unset + 0⟩, ?_, rfl, rfl, by simp [rowsCost],
      .inl ⟨rfl, rfl⟩⟩
    simp [newOfPredecessors, ofPredecessors, completePath, hself, Path.new]
  · have hlen : l.length ≤ g.graph.numVertices + 1 := by
      have hsub : l ⊆ List.range g.graph.numVertices := fun u hu =>
        List.mem_range.mpr (htree.forall_lt (arcs_lt hg) hroot u hu)
      have hle := (htree.nodup.subperm hsub).length_le
      rw [List.length_range] at hle
      exact hle.trans (Nat.le_succ _)
    -- A vertex other than the root has been reached from another one.
    have hfar : v ≠ predecessors v := by
      cases htree with
      | source => exact absurd rfl hv
      | step htree hmem hp _ _ => exact fun h => hmem (h ▸ hp ▸ htree.mem)
    obtain ⟨l', hl'⟩ := htree.eq_snoc
    obtain ⟨q, hq, hlinked, hrun, hnodes, hstart, hend, htot, hrows⟩ :=
      completePathLoop_half (t := g.vertexId v) htree hlen
        ((Path.new (g.vertexId root) (g.vertexId v)).pushFront
          ⟨g.vertexId v, -1, 0, (distances v).untopD 0⟩) (.last _) ⟨rfl, trivial⟩
    refine ⟨{ q with totCost := unset + q.totCost }, ?_, hstart, hend, ?_, .inr ⟨hv, hlinked, hrun,
      l'.map g.vertexId, ?_, ?_⟩⟩
    · simp [newOfPredecessors, ofPredecessors, completePath, hfar, hq]
    · show unset + q.totCost = unset + q.rowsCost
      rw [htot, hrows]
      simp [pushFront, Path.new, rowsCost]
    · rw [hnodes, hl']
      simp [pushFront, Path.new]
    · intro hmem
      obtain ⟨u, hu, heq⟩ := List.mem_map.mp hmem
      have hnodup := htree.nodup
      rw [hl', List.nodup_append] at hnodup
      have huv : u = v := hg.vertexId_inj
        (htree.forall_lt (arcs_lt hg) hroot u (hl' ▸ List.mem_append_left _ hu))
        (htree.forall_lt (arcs_lt hg) hroot v htree.mem) heq
      exact hnodup.2.2 u hu v List.mem_cons_self huv

/-! ## The joined path -/

theorem Linked.rowsCost_reverse {p : Path} (h : Linked S t i p.path) :
    p.reverse.rowsCost = p.rowsCost := by
  have hshape : ∃ init last, p.path = init ++ [last] ∧ last.cost = 0 := by
    generalize p.path = rows at h
    induction h with
    | last agg => exact ⟨[], _, rfl, rfl⟩
    | step agg _ _ ih =>
      obtain ⟨init, last, hrows, hcost⟩ := ih
      exact ⟨_ :: init, last, by rw [hrows]; rfl, hcost⟩
  exact reverse_sum p (.inr hshape)

/-- The path of the two halves: a walk in which the joint appears once, with the cost of both. -/
structure JoinsHalves (g : PgrBaseGraph V E) (s t m : Int) (forward backward q : Path) : Prop where
  startId : q.startId = s
  endId : q.endId = t
  rows : WalkRows g t s 0 q.path
  once : (q.path.map (·.node)).count m = 1
  total : q.totCost = forward.rowsCost + backward.rowsCost

section Join

variable {a b x : Nat} {forwardPredecessor backwardPredecessor : Nat → Nat}
variable {forwardCost backwardCost : Nat → WithTop ℚ}

/-- **The join.** Its rows are a walk with the joint once; its total cost is that of the halves and
    what the memory held when the half was built whose total it keeps. -/
theorem join_spec (hg : g.Consistent) (ha : a < g.graph.numVertices) (hb : b < g.graph.numVertices)
    (hab : a ≠ b) (hforward : LeadsBack g.graph true a forwardPredecessor forwardCost x)
    (hbackward : LeadsBack g.graph false b backwardPredecessor backwardCost x)
    (unsetForward unsetBackward : ℚ) :
    ∃ forward backward q,
      newOfPredecessors unsetForward g a x forwardPredecessor forwardCost false true =
        some forward ∧
      newOfPredecessors unsetBackward g b x backwardPredecessor backwardCost false false =
        some backward ∧
      forward.append backward.reverse = some q ∧ q.startId = g.vertexId a ∧
      q.endId = g.vertexId b ∧ WalkRows g (g.vertexId b) (g.vertexId a) 0 q.path ∧
      (q.path.map (·.node)).count (g.vertexId x) = 1 ∧
      q.totCost = (if x = a then unsetBackward else unsetForward) +
        (forward.rowsCost + backward.rowsCost) := by
  obtain ⟨p, hp, hps, hpt, hptot, hpcase⟩ := completePath_half hg ha hforward unsetForward
  obtain ⟨r, hr, hrs, hrt, hrtot, hrcase⟩ := completePath_half hg hb hbackward unsetBackward
  refine ⟨p, r, ?_⟩
  -- Reversing keeps the sum of the costs only because the last row costs nothing.
  have hback : x ≠ b → WalkRows g (g.vertexId b) (g.vertexId x) 0 r.reverse.path ∧
      (r.reverse.path.map (·.node)).count (g.vertexId x) = 1 ∧
      r.reverse.rowsCost = r.rowsCost ∧ r.reverse.startId ≠ r.reverse.endId := by
    intro hxb
    obtain ⟨hxb', _⟩ | ⟨_, hlinked, hrun, nodes, hnodes, hnot⟩ := hrcase
    · exact absurd hxb' hxb
    · refine ⟨walkRows_iff.mpr ⟨reverse_linked r hlinked, reverse_running r hrun⟩, ?_,
        hlinked.rowsCost_reverse, ?_⟩
      · rw [reverse_nodes, hnodes, List.count_reverse, List.count_append,
          List.count_eq_zero_of_not_mem hnot]
        simp
      · rw [(reverse_ends r).1, (reverse_ends r).2, hrs, hrt]
        exact fun heq => hxb (hg.vertexId_inj (hbackward.lt hg hb) hb heq)
  by_cases hxa : x = a
  · -- The joined path is the backward half.
    have hxb : x ≠ b := fun hxb => hab (hxa.symm.trans hxb)
    -- Both halves have rows: `append` drops the last row of the first, which is the joint.
    obtain ⟨hrows, honce, hcost, hne⟩ := hback hxb
    have hpath : p.path = [] := by
      obtain ⟨_, hpath⟩ | ⟨hxa', _⟩ := hpcase
      · exact hpath
      · exact absurd hxa hxa'
    have hloop : p.startId = p.endId := by rw [hps, hpt, hxa]
    refine ⟨r.reverse, hp, hr, ?_, ?_, ?_, ?_, honce, ?_⟩
    · rw [append, if_neg hne, if_pos hloop]
    · rw [(reverse_ends r).1, hrt, hxa]
    · rw [(reverse_ends r).2, hrs]
    · rwa [← hxa]
    · have hzero : p.rowsCost = 0 := by rw [rowsCost, hpath]; rfl
      rw [if_pos hxa, reverse_totCost, hrtot, hzero, zero_add]
  · obtain ⟨hxa', _⟩ | ⟨_, hlinked, hrun, nodes, hnodes, hnot⟩ := hpcase
    · exact absurd hxa' hxa
    · have hwalk : WalkRows g (g.vertexId x) (g.vertexId a) 0 p.path :=
        walkRows_iff.mpr ⟨hlinked, hrun⟩
      by_cases hxb : x = b
      · -- The joined path is the forward half.
        have hloop : r.reverse.startId = r.reverse.endId := by
          rw [(reverse_ends r).1, (reverse_ends r).2, hrs, hrt, hxb]
        have hpath : r.path = [] := by
          obtain ⟨_, hpath⟩ | ⟨hxb', _⟩ := hrcase
          · exact hpath
          · exact absurd hxb hxb'
        refine ⟨p, hp, hr, ?_, hps, ?_, ?_, ?_, ?_⟩
        · rw [append, if_pos hloop]
        · rw [hpt, hxb]
        · rwa [← hxb]
        · rw [hnodes, List.count_append, List.count_eq_zero_of_not_mem hnot]
          simp
        · have hzero : r.rowsCost = 0 := by rw [rowsCost, hpath]; rfl
          rw [if_neg hxa, hptot, hzero, add_zero]
      · obtain ⟨hrows, honce, hcost, hne⟩ := hback hxb
        have hpne : p.startId ≠ p.endId := by
          rw [hps, hpt]
          exact fun heq => hxa (hg.vertexId_inj ha (hforward.lt hg ha) heq).symm
        obtain ⟨q, hq, hqs, hqt, hqrows, hqnodes, hqtot⟩ := append_walkRows hwalk hrows hpne hne
        refine ⟨q, hp, hr, hq, hqs.trans hps, ?_, hqrows, ?_, ?_⟩
        · rw [hqt, (reverse_ends r).2, hrs]
        · rw [hqnodes, hnodes, List.dropLast_concat, List.count_append,
            List.count_eq_zero_of_not_mem hnot, honce]
        · rw [if_neg hxa, hqtot, hptot, hcost, add_assoc]

/-- What is claimed of the join of two halves, and of reversing twice. -/
def JoinsAndReverses (g : PgrBaseGraph V E) (a b x : Nat)
    (forwardPredecessor backwardPredecessor : Nat → Nat)
    (forwardCost backwardCost : Nat → WithTop ℚ) (unsetForward unsetBackward : ℚ) : Prop :=
  (∃ forward backward q,
    newOfPredecessors unsetForward g a x forwardPredecessor forwardCost false true =
      some forward ∧
    newOfPredecessors unsetBackward g b x backwardPredecessor backwardCost false false =
      some backward ∧
    forward.append backward.reverse = some q ∧
    JoinsHalves g (g.vertexId a) (g.vertexId b) (g.vertexId x) forward backward q) ∧
  ∀ p : Path, (∀ r ∈ p.path.getLast?, r.edge = -1 ∧ r.cost = 0) → Running 0 p.path →
    p.reverse.reverse = p

/-- **Joining two halves.** The joined path is what it should be exactly when the half whose total
    cost it keeps, the forward one unless that is empty, found the memory of its total at 0. -/
theorem joinsAndReverses_iff (hg : g.Consistent) (ha : a < g.graph.numVertices)
    (hb : b < g.graph.numVertices) (hab : a ≠ b)
    (hforward : LeadsBack g.graph true a forwardPredecessor forwardCost x)
    (hbackward : LeadsBack g.graph false b backwardPredecessor backwardCost x)
    (unsetForward unsetBackward : ℚ) :
    JoinsAndReverses g a b x forwardPredecessor backwardPredecessor forwardCost backwardCost
        unsetForward unsetBackward ↔
      (if x = a then unsetBackward else unsetForward) = 0 := by
  obtain ⟨forward, backward, q, hp, hr, hq, hqs, hqt, hrows, honce, htot⟩ :=
    join_spec hg ha hb hab hforward hbackward unsetForward unsetBackward
  constructor
  · intro h
    obtain ⟨⟨forward', backward', q', hp', hr', hq', hjoins⟩, _⟩ := h
    obtain rfl := Option.some.inj (hp.symm.trans hp')
    obtain rfl := Option.some.inj (hr.symm.trans hr')
    obtain rfl := Option.some.inj (hq.symm.trans hq')
    have htotal := hjoins.total
    rw [htot] at htotal
    exact add_eq_right.mp htotal
  · intro hzero
    rw [hzero, zero_add] at htot
    exact ⟨⟨forward, backward, q, hp, hr, hq, hqs, hqt, hrows, honce, htot⟩, reverse_reverse⟩

end Join

/-- Two arcs, from 10 to 20 at the cost 3 and from there to 30 at the cost 4. -/
def twoArcs : PgrBaseGraph BasicVertex BasicEdge :=
  .ofTable true [⟨7, 10, 20, 3, -1⟩, ⟨8, 20, 30, 4, -1⟩]

theorem twoArcs_arc : twoArcs.graph.Arc 0 1 3 ∧ twoArcs.graph.Arc 1 2 4 :=
  ⟨⟨⟨0, 1, TEdge.ofIdCost 7 3⟩, by decide +kernel, rfl, rfl⟩,
    ⟨⟨1, 2, TEdge.ofIdCost 8 4⟩, by decide +kernel, rfl, rfl⟩⟩

/-- The forward half leads back from 20 to 10. -/
theorem twoArcs_forward :
    LeadsBack twoArcs.graph true 0 (fun _ => 0) (fun v => if v = 0 then 0 else 3) 1 where
  self := rfl
  path := ⟨[0] ++ [1], .step (.source rfl) (by decide) rfl twoArcs_arc.1 (zero_add _).symm⟩

/-- The backward half leads back from 20 to 30. -/
theorem twoArcs_backward :
    LeadsBack twoArcs.graph false 2 (fun _ => 2) (fun v => if v = 2 then 0 else 4) 1 where
  self := rfl
  path := ⟨[2] ++ [1], .step (.source rfl) (by decide) rfl twoArcs_arc.2 (zero_add _).symm⟩

theorem joinsAndReverses_iff_twoArcs :
    JoinsAndReverses twoArcs 0 2 1 (fun _ => 0) (fun _ => 2) (fun v => if v = 0 then 0 else 3)
        (fun v => if v = 2 then 0 else 4) 0 0 ↔
      (if 1 = 0 then (0 : ℚ) else 0) = 0 :=
  joinsAndReverses_iff (PgrBaseGraph.ofTable_consistent true _) (by decide +kernel)
    (by decide +kernel) (by decide) twoArcs_forward twoArcs_backward 0 0

/-- The forward half finds 5 in the memory of its total. -/
theorem not_joinsAndReverses :
    ¬ JoinsAndReverses twoArcs 0 2 1 (fun _ => 0) (fun _ => 2) (fun v => if v = 0 then 0 else 3)
      (fun v => if v = 2 then 0 else 4) 5 0 := by
  obtain ⟨forward, backward, q, hp, hr, hq, _, _, _, _, htot⟩ :=
    join_spec (PgrBaseGraph.ofTable_consistent true _) (by decide +kernel) (by decide +kernel)
      (by decide) twoArcs_forward twoArcs_backward 5 0
  intro h
  obtain ⟨⟨forward', backward', q', hp', hr', hq', hjoins⟩, _⟩ := h
  obtain rfl := Option.some.inj (hp.symm.trans hp')
  obtain rfl := Option.some.inj (hr.symm.trans hr')
  obtain rfl := Option.some.inj (hq.symm.trans hq')
  have htotal := hjoins.total
  rw [htot, if_neg (by decide)] at htotal
  exact absurd (add_eq_right.mp htotal) (by decide)

end Path

end PgRouting
