import PgRouting.Spec.TreeRows

/-!
# The rows of several trees

`dfs_forest` makes the rows of all trees in one go, `dfs_ordering` and `bfs_ordering` those of one
root after the other. Without roots `bfs_ordering` takes for each component the number that
`calculate_component` gives it, which is the id of one of its vertices, though not always of the
least.

A vertex without an edge in the forest has no row at all. So the rows are those of the trees when
each root in the graph has such an edge or, without roots, each vertex.

## Key results

- `calculateComponent_spec`: the numbers of the components
- `consistentTrees_iff`: when the rows of `mstBFS`, `mstDFS` and `mstDD` are those of the trees
- `not_consistentTrees`: the row that is missing
-/

namespace PgRouting

open PgrBaseGraph

variable {g : PgrBaseGraph BasicVertex BasicEdge} {T : Finset Nat} {r u v x y i : Nat}
variable {m : PgrMst} {s : MstResults} {rows : List MstRt}

/-! ## Several trees -/

/-- The rows of the tree of a vertex, none when it has no edge. -/
def TreeBlock (g : PgrBaseGraph BasicVertex BasicEdge) (T : Finset Nat) (within : Int → ℚ → Prop)
    (v : Nat) (rows : List MstRt) : Prop :=
  (¬ HasEdge g.graph T v ∧ rows = []) ∨
  HasEdge g.graph T v ∧ ∃ r, Joined (edgeEnds g.graph) T v r ∧ TreeRows g T within r rows

variable {within : Int → ℚ → Prop}

/-- The root of a tree has an edge when another vertex of the tree does. -/
theorem HasEdge.of_joined {g : AdjacencyList BasicVertex BasicEdge} (hv : HasEdge g T v)
    (h : Joined (edgeEnds g) T v r) : HasEdge g T r := by
  by_contra hr
  exact hr (eq_of_joined hr h ▸ hv)

/-- All rows of a tree have its root. -/
theorem TreeRows.fromV (h : TreeRows g T within r rows) {row : MstRt} (hrow : row ∈ rows) :
    row.fromV = g.vertexId r := by
  obtain ⟨below, rfl, hbelow⟩ := h
  obtain rfl | hrow := List.mem_cons.mp hrow
  · rfl
  · obtain ⟨⟨y, _, _, _, _, _, _, _, _, _, _, rfl⟩, _⟩ := hbelow.row row hrow
    rfl

/-- A row is that of a vertex with an edge. -/
theorem TreeBlock.hasEdge (hg : g.Consistent) (h : TreeBlock g T within v rows)
    (hlt : ∀ r, Joined (edgeEnds g.graph) T v r → r < g.graph.numVertices) {row : MstRt}
    (hrow : row ∈ rows) :
    ∃ x < g.graph.numVertices, HasEdge g.graph T x ∧ row.node = g.vertexId x := by
  obtain ⟨_, rfl⟩ | ⟨hv, r, hvr, below, rfl, hbelow⟩ := h
  · cases hrow
  · obtain rfl | hrow := List.mem_cons.mp hrow
    · exact ⟨r, hlt r hvr, hv.of_joined hvr, rfl⟩
    · obtain ⟨⟨y, x, _, _, i, e, _, hi, he, hends, _, rfl⟩, _⟩ := hbelow.row row hrow
      have hbound := hg.ends e (List.mem_of_getElem? he)
      have hends' := edgeEnds_of_getElem? he
      obtain ⟨_, hy⟩ | ⟨hy, _⟩ := hends.mem
      · exact ⟨y, hy ▸ hbound.2, ⟨i, hi, .inr (by rw [hends']; exact hy)⟩, rfl⟩
      · exact ⟨y, hy ▸ hbound.1, ⟨i, hi, .inl (by rw [hends']; exact hy)⟩, rfl⟩

/-- Without roots, the rows are those of all trees when every vertex has an edge. -/
theorem consistentTrees_nil_iff (hg : g.Consistent)
    (hT : SpanningForest (edgeEnds g.graph) (allEdges g.graph) T) {starts : List Nat}
    {blocks : List (List MstRt)} (hlt : ∀ v ∈ starts, v < g.graph.numVertices)
    (hblocks : List.Forall₂ (TreeBlock g T within) starts blocks)
    (hapart : starts.Pairwise fun u v => ¬ Connected g.graph u v)
    (hall : ∀ v < g.graph.numVertices, ∃ r ∈ starts, Connected g.graph r v) :
    ConsistentTrees g T within [] blocks.flatten ↔
      ∀ v < g.graph.numVertices, HasEdge g.graph T v := by
  rw [ConsistentTrees, if_pos rfl]
  constructor
  · intro h v hv
    obtain ⟨rs, blocks', _, hcover, hrows, hflat⟩ := h
    by_contra hno
    obtain ⟨r, hr, hrv⟩ := hcover v hv
    obtain rfl := eq_of_joined hno (hT.joined_iff.mpr hrv)
    -- Its row would be that of a vertex with an edge.
    obtain ⟨k, hk, hkr⟩ := List.getElem_of_mem hr
    have hk' : k < blocks'.length := hrows.length_eq ▸ hk
    obtain ⟨below, hbelow, _⟩ := hrows.get hk hk'
    have hmem : PgrMst.rootRow (g.vertexId r) ∈ blocks.flatten := by
      rw [hflat]
      refine List.mem_flatten.mpr ⟨_, List.getElem_mem hk', ?_⟩
      rw [List.get_eq_getElem, List.get_eq_getElem, hkr] at hbelow
      rw [hbelow]
      exact List.mem_cons_self
    obtain ⟨block, hblock, hmem⟩ := List.mem_flatten.mp hmem
    obtain ⟨j, hj, rfl⟩ := List.getElem_of_mem hblock
    have hj' : j < starts.length := hblocks.length_eq ▸ hj
    have hstart := hlt _ (List.getElem_mem hj')
    obtain ⟨x, hx, hedge, hnode⟩ := (hblocks.get hj' hj).hasEdge hg
      (fun r hr => joined_lt hg (fun i hi => hT.subset hi) hstart hr) hmem
    exact hno (hg.vertexId_inj hv hx hnode ▸ hedge)
  · intro h
    have hroots : ∃ rs, List.Forall₂ (TreeRows g T within) rs blocks ∧
        List.Forall₂ (fun v r => Connected g.graph v r) starts rs := by
      clear hapart hall
      induction hblocks with
      | nil => exact ⟨[], .nil, .nil⟩
      | cons hblock _ ih =>
        obtain ⟨rs, hrows, hconn⟩ := ih fun v hv => hlt v (List.mem_cons_of_mem _ hv)
        obtain ⟨hno, _⟩ | ⟨_, r, hvr, hr⟩ := hblock
        · exact absurd (h _ (hlt _ List.mem_cons_self)) hno
        · exact ⟨r :: rs, .cons hr hrows, .cons (hT.joined_iff.mp hvr) hconn⟩
    obtain ⟨rs, hrows, hconn⟩ := hroots
    refine ⟨rs, blocks, ?_, fun v hv => ?_, hrows, rfl⟩
    · rw [List.pairwise_iff_getElem] at hapart ⊢
      intro j k hj hk hjk huv
      have hj' : j < starts.length := hconn.length_eq ▸ hj
      have hk' : k < starts.length := hconn.length_eq ▸ hk
      have hcj : Connected g.graph starts[j] rs[j] := hconn.get hj' hj
      have hck : Connected g.graph starts[k] rs[k] := hconn.get hk' hk
      exact hapart j k hj' hk' hjk (hcj.trans _ _ _ (huv.trans _ _ _ hck.symm))
    · obtain ⟨w, hw, hwv⟩ := hall v hv
      obtain ⟨j, hj, rfl⟩ := List.getElem_of_mem hw
      have hj' : j < rs.length := hconn.length_eq ▸ hj
      have hcj : Connected g.graph starts[j] rs[j] := hconn.get hj hj'
      exact ⟨rs[j], List.getElem_mem hj', hcj.symm.trans _ _ _ hwv⟩

/-- The rows for one root. -/
theorem getResults_tree (pRoot : Int) (hg : g.Consistent)
    (hcost : ∀ e ∈ g.graph.edges, 0 ≤ e.bundle.cost)
    (hT : SpanningForest (edgeEnds g.graph) (allEdges g.graph) T) (hm : m.suffix ≠ .none)
    (hv : v < g.graph.numVertices) {order : List (BoostEdge BasicEdge)}
    (hvisit : IsVisit g.graph T v order)
    (hroot : pRoot ≠ 0 → pRoot = g.vertexId v ∧
      (m.roots = [] → (if m.getComponent then m.treeId.getD (m.components v) 0 else 0) =
        pRoot)) :
    (¬ HasEdge g.graph T v ∧ m.getResults g order pRoot = []) ∨
    HasEdge g.graph T v ∧ ∃ r, Joined (edgeEnds g.graph) T v r ∧ (pRoot ≠ 0 → r = v) ∧
      TreeRows g T m.withinLimit r (m.getResults g order pRoot) := by
  obtain ⟨_, ⟨hno, heq⟩ | ⟨hedge, r, rows, hvr, hr, heq, hrows⟩⟩ :=
    addResult_tree (s := { root := pRoot }) pRoot hg hcost hT hm hv hvisit
      (fun x _ => ⟨rfl, rfl⟩) fun hp => ⟨(hroot hp).1, fun _ => rfl, (hroot hp).2⟩
  · exact .inl ⟨hno, heq⟩
  · rw [List.nil_append] at heq
    rw [PgrMst.getResults, heq]
    exact .inr ⟨hedge, r, hvr, hr, hrows⟩

/-- With roots, the rows are those of their trees when the roots in the graph have an edge. -/
theorem consistentTrees_roots_iff (hg : g.Consistent)
    (hcost : ∀ e ∈ g.graph.edges, 0 ≤ e.bundle.cost)
    (hT : SpanningForest (edgeEnds g.graph) (allEdges g.graph) T) (hm : m.suffix ≠ .none)
    (hroots : m.roots ≠ []) (hzero : ∀ root ∈ m.roots, root ≠ 0)
    {order : Nat → List (BoostEdge BasicEdge)}
    (hvisit : ∀ v < g.graph.numVertices, IsVisit g.graph T v (order v)) :
    ConsistentTrees g T m.withinLimit m.roots (m.roots.flatMap (m.rootResults g order)) ↔
      ∀ root ∈ m.roots, ∀ v, g.verticesMap root = some v → HasEdge g.graph T v := by
  -- A root in the graph has the rows of its tree, or none at all when it has no edge.
  have hresults : ∀ root ∈ m.roots, ∀ v, g.verticesMap root = some v →
      (¬ HasEdge g.graph T v ∧ m.rootResults g order root = []) ∨
      HasEdge g.graph T v ∧ TreeRows g T m.withinLimit v (m.rootResults g order root) := by
    intro root hroot v hv
    have hrows : m.rootResults g order root = m.getResults g (order v) root := by
      rw [PgrMst.rootResults, hv]
    rw [hrows]
    have hvlt := hg.lt hv
    obtain hno | ⟨hedge, r, _, hr, hrows⟩ := getResults_tree root hg hcost hT hm hvlt
      (hvisit v hvlt) fun _ => ⟨(hg.vertexId_eq hv).symm, fun hnil => absurd hnil hroots⟩
    · exact .inl hno
    · exact .inr ⟨hedge, hr (hzero root hroot) ▸ hrows⟩
  rw [ConsistentTrees, if_neg hroots]
  constructor
  · intro h root hroot v hv
    obtain ⟨blocks, hblocks, hflat⟩ := h
    obtain ⟨_, hnil⟩ | ⟨hedge, _⟩ := hresults root hroot v hv
    · exfalso
      -- The row of the root would be among the rows for some root, which can only be itself.
      obtain ⟨k, hk, hkr⟩ := List.getElem_of_mem hroot
      have hk' : k < blocks.length := hblocks.length_eq ▸ hk
      have hblock : RootRows g T m.withinLimit m.roots[k] blocks[k] := hblocks.get hk hk'
      rw [hkr] at hblock
      have hmem : PgrMst.rootRow root ∈ blocks.flatten := by
        refine List.mem_flatten.mpr ⟨_, List.getElem_mem hk', ?_⟩
        obtain ⟨r, hr, below, hbelow, _⟩ | ⟨_, hblock⟩ := hblock
        · rw [hbelow, hg.vertexId_eq hr]
          exact List.mem_cons_self
        · rw [hblock]
          exact List.mem_singleton_self _
      rw [← hflat] at hmem
      obtain ⟨root', hroot', hmem⟩ := List.mem_flatMap.mp hmem
      have heq : root = root' := by
        cases hv' : g.verticesMap root' with
        | none =>
          rw [PgrMst.rootResults, hv'] at hmem
          exact congrArg MstRt.fromV (List.mem_singleton.mp hmem)
        | some v' =>
          obtain ⟨_, hnil'⟩ | ⟨_, hrows⟩ := hresults root' hroot' v' hv'
          · rw [hnil'] at hmem
            cases hmem
          · exact (hrows.fromV hmem).trans (hg.vertexId_eq hv')
      rw [← heq, hnil] at hmem
      cases hmem
    · exact hedge
  · intro h
    refine ⟨m.roots.map (m.rootResults g order), ?_, (List.flatMap_def).symm ▸ rfl⟩
    rw [List.forall₂_map_right_iff, List.forall₂_same]
    intro root hroot
    cases hv : g.verticesMap root with
    | none => exact .inr ⟨hv, by rw [PgrMst.rootResults, hv]⟩
    | some v =>
      obtain ⟨hno, _⟩ | ⟨_, hrows⟩ := hresults root hroot v hv
      · exact absurd (h root hroot v hv) hno
      · exact .inl ⟨v, hv, hrows⟩

/-- The rows of the trees that `dfs_forest` visits one after the other. -/
theorem foldl_calls (hg : g.Consistent) (hcost : ∀ e ∈ g.graph.edges, 0 ≤ e.bundle.cost)
    (hT : SpanningForest (edgeEnds g.graph) (allEdges g.graph) T) (hm : m.suffix ≠ .none)
    {calls : List (Nat × List (BoostEdge BasicEdge))}
    (hvisit : ∀ c ∈ calls, c.1 < g.graph.numVertices ∧ IsVisit g.graph T c.1 c.2)
    (hapart : calls.Pairwise fun a b => ¬ Joined (edgeEnds g.graph) T a.1 b.1)
    (hzero : ∀ c ∈ calls, ∀ x, Joined (edgeEnds g.graph) T c.1 x →
      s.depth x = 0 ∧ s.aggCost x = 0) :
    ∃ blocks, List.Forall₂ (TreeBlock g T m.withinLimit) (calls.map (·.1)) blocks ∧
      ((calls.flatMap (·.2)).foldl (m.addResult g 0) s).results = s.results ++ blocks.flatten := by
  induction calls generalizing s with
  | nil => exact ⟨[], .nil, (List.append_nil _).symm⟩
  | cons c calls ih =>
    obtain ⟨hfirst, hrest⟩ := List.pairwise_cons.mp hapart
    obtain ⟨hlt, hvisit_c⟩ := hvisit c List.mem_cons_self
    obtain ⟨hsame, hblock⟩ := addResult_tree 0 hg hcost hT hm hlt hvisit_c
      (hzero c List.mem_cons_self) fun hne => absurd rfl hne
    have hzero' : ∀ c' ∈ calls, ∀ x, Joined (edgeEnds g.graph) T c'.1 x →
        (c.2.foldl (m.addResult g 0) s).depth x = 0 ∧
        (c.2.foldl (m.addResult g 0) s).aggCost x = 0 := by
      intro c' hc' x hx
      have hnot : ¬ Joined (edgeEnds g.graph) T c.1 x := fun hcx =>
        hfirst c' hc' (hcx.trans _ _ _ hx.symm)
      rw [(hsame x hnot).1, (hsame x hnot).2]
      exact hzero c' (List.mem_cons_of_mem _ hc') x hx
    obtain ⟨blocks, hblocks, hresults⟩ :=
      ih (fun c' hc' => hvisit c' (List.mem_cons_of_mem _ hc')) hrest hzero'
    rw [List.flatMap_cons, List.foldl_append, hresults]
    obtain ⟨hno, heq⟩ | ⟨hedge, r, rows, hvr, _, heq, hrows⟩ := hblock
    · exact ⟨[] :: blocks, .cons (.inl ⟨hno, rfl⟩) hblocks, by rw [heq]; rfl⟩
    · refine ⟨rows :: blocks, .cons (.inr ⟨hedge, r, hvr, hrows⟩) hblocks, ?_⟩
      rw [heq, List.flatten_cons, List.append_assoc]

/-! ## The numbers of the components -/

/-- The number stands for the id of a vertex of the component. -/
def Numbered (g : PgrBaseGraph BasicVertex BasicEdge) (components : Nat → Nat) (treeId : List Int)
    (c : Nat) : Prop :=
  ∃ v < g.graph.numVertices, components v = c ∧ treeId.getD c 0 = g.vertexId v

/-- One vertex numbers its component, whether or not that had a number. -/
theorem addTreeId_spec {components : Nat → Nat} {treeId : List Int}
    (hv : v < g.graph.numVertices) (hlt : components v < treeId.length)
    (hsome : ∀ c, treeId.getD c 0 = 0 ∨ Numbered g components treeId c) :
    (PgrMst.addTreeId g components treeId v).length = treeId.length ∧
    (∀ c, (PgrMst.addTreeId g components treeId v).getD c 0 = 0 ∨
      Numbered g components (PgrMst.addTreeId g components treeId v) c) ∧
    (∀ c, Numbered g components treeId c ∨ c = components v →
      Numbered g components (PgrMst.addTreeId g components treeId v) c) := by
  have hother : ∀ c, c ≠ components v →
      (PgrMst.addTreeId g components treeId v).getD c 0 = treeId.getD c 0 := by
    intro c hc
    rw [PgrMst.addTreeId, List.getD_eq_getElem?_getD, List.getElem?_set_ne hc.symm,
      List.getD_eq_getElem?_getD]
  -- A number is given only where there is none or a greater one.
  have hself : Numbered g components (PgrMst.addTreeId g components treeId v) (components v) := by
    rw [Numbered, PgrMst.addTreeId, List.getD_eq_getElem?_getD, List.getElem?_set_self hlt,
      Option.getD_some]
    split
    · exact ⟨v, hv, rfl, rfl⟩
    · rename_i hnot
      obtain hzero | ⟨w, hw, hcomp, hid⟩ := hsome (components v)
      · exact absurd (.inl hzero) hnot
      · exact ⟨w, hw, hcomp, hid⟩
  have hkeep : ∀ c, Numbered g components treeId c ∨ c = components v →
      Numbered g components (PgrMst.addTreeId g components treeId v) c := by
    intro c hc
    by_cases heq : c = components v
    · rw [heq]
      exact hself
    · obtain ⟨w, hw, hcomp, hid⟩ := hc.resolve_right heq
      exact ⟨w, hw, hcomp, (hother c heq).trans hid⟩
  refine ⟨List.length_set, fun c => ?_, hkeep⟩
  by_cases heq : c = components v
  · exact .inr (hkeep c (.inr heq))
  · obtain hzero | hnum := hsome c
    · exact .inl ((hother c heq).trans hzero)
    · exact .inr (hkeep c (.inl hnum))

/-- The vertices one after the other. -/
theorem foldl_addTreeId (components : Nat → Nat) {treeId : List Int} {vs : List Nat}
    (hvs : ∀ v ∈ vs, v < g.graph.numVertices ∧ components v < treeId.length)
    (hsome : ∀ c, treeId.getD c 0 = 0 ∨ Numbered g components treeId c) :
    (vs.foldl (PgrMst.addTreeId g components) treeId).length = treeId.length ∧
    ∀ c, (Numbered g components treeId c ∨ ∃ v ∈ vs, c = components v) →
      Numbered g components (vs.foldl (PgrMst.addTreeId g components) treeId) c := by
  induction vs generalizing treeId with
  | nil =>
    refine ⟨rfl, fun c hc => hc.resolve_right fun h => ?_⟩
    obtain ⟨v, hv, _⟩ := h
    cases hv
  | cons v vs ih =>
    obtain ⟨hv, hlt⟩ := hvs v List.mem_cons_self
    obtain ⟨hlen, hsome', hkeep⟩ := addTreeId_spec hv hlt hsome
    have hvs' : ∀ w ∈ vs, w < g.graph.numVertices ∧
        components w < (PgrMst.addTreeId g components treeId v).length := by
      intro w hw
      rw [hlen]
      exact hvs w (List.mem_cons_of_mem _ hw)
    obtain ⟨hlen', hall⟩ := ih hvs' hsome'
    refine ⟨hlen'.trans hlen, fun c hc => hall c ?_⟩
    obtain hnum | ⟨w, hw, rfl⟩ := hc
    · exact .inl (hkeep c (.inl hnum))
    · obtain rfl | hw := List.mem_cons.mp hw
      · exact .inl (hkeep _ (.inr rfl))
      · exact .inr ⟨w, hw, rfl⟩

/-- `calculate_component` gives every component the id of one of its vertices. -/
theorem calculateComponent_spec {components : BoostComponents} (hget : m.getComponent = true)
    (hnew : m.treeId = [])
    (hcomp : ComponentsDocumented g.graph (components g.graph).1 (components g.graph).2) :
    (m.calculateComponent g components).treeId.length = (components g.graph).2 ∧
    ∀ c < (components g.graph).2, Numbered g (components g.graph).1
      (m.calculateComponent g components).treeId c := by
  have hinit : (m.treeId ++ List.replicate ((components g.graph).2 - m.treeId.length) 0).take
      (components g.graph).2 = List.replicate (components g.graph).2 0 := by
    simp [hnew]
  have hvs : ∀ v ∈ List.range g.graph.numVertices, v < g.graph.numVertices ∧
      (components g.graph).1 v < (List.replicate (components g.graph).2 (0 : Int)).length := by
    intro v hv
    rw [List.mem_range] at hv
    rw [List.length_replicate]
    exact ⟨hv, hcomp.lt v hv⟩
  obtain ⟨hlen, hall⟩ := foldl_addTreeId (g := g) (components g.graph).1 hvs
    fun c => by
      rw [List.getD_eq_getElem?_getD, List.getElem?_replicate]
      split
      · exact .inl rfl
      · exact .inl rfl
  rw [PgrMst.calculateComponent, hget]
  simp only [Bool.not_true, Bool.false_eq_true, if_false, hinit]
  refine ⟨hlen.trans List.length_replicate, fun c hc => hall c (.inr ?_)⟩
  obtain ⟨v, hv, hvc⟩ := hcomp.used c hc
  exact ⟨v, List.mem_range.mpr hv, hvc.symm⟩

/-! ## The functions -/

/-- One of the functions, with its limit. -/
inductive TreeFunction
  | bfs (maxDepth : Int)
  | dfs (maxDepth : Int)
  | dd (distance : ℚ)

namespace TreeFunction

/-- The rows that the function produces. -/
def run (graph : PgrBaseGraph BasicVertex BasicEdge) (spanningTree : Finset Nat)
    (components : BoostComponents) (bfs : BoostBfs) (dfs : BoostDfs) (roots : List Int) :
    TreeFunction → List MstRt
  | .bfs maxDepth => mstBFS graph spanningTree components bfs roots maxDepth
  | .dfs maxDepth => mstDFS graph spanningTree dfs roots maxDepth
  | .dd distance => mstDD graph spanningTree dfs roots distance

/-- A vertex at this depth and with this cost is within the limit. -/
def Within : TreeFunction → Int → ℚ → Prop
  | .bfs maxDepth, depth, _ => depth ≤ maxDepth
  | .dfs maxDepth, depth, _ => depth ≤ maxDepth
  | .dd distance, _, aggCost => aggCost ≤ distance

end TreeFunction

theorem ne_zero_of_mem_cleanVids {roots : List Int} {root : Int} (h : root ∈ cleanVids roots) :
    root ≠ 0 := by
  simpa using (List.mem_filter.mp h).2

/-- The visitor with a root collects the visit from that root. -/
theorem isVisit_withRoot {calls : List (Nat × List (BoostEdge BasicEdge))}
    (h : DfsDocumented g.graph T (some v) calls) :
    IsVisit g.graph T v (PgrMst.visitWithRoot v calls) := by
  obtain ⟨order, rest, rfl⟩ := h.first v rfl
  have hvisit := (h.visit _ List.mem_cons_self).2
  obtain ⟨hfirst, _⟩ := List.pairwise_cons.mp h.apart
  have hstop : PgrMst.visitWithRoot v ((v, order) :: rest) = order := by
    rw [PgrMst.visitWithRoot, List.takeWhile_cons_of_pos (by simp)]
    cases rest with
    | nil => simp
    | cons c rest =>
      have hne : c.1 ≠ v := by
        rintro rfl
        exact hfirst c List.mem_cons_self (.refl _)
      rw [List.takeWhile_cons_of_neg (by simpa using hne)]
      simp
  rw [hstop]
  exact hvisit

section Functions

variable {components : BoostComponents} {bfs : BoostBfs} {dfs : BoostDfs}

/-- `dfs_ordering` -/
theorem dfsOrdering_iff (hg : g.Consistent) (hcost : ∀ e ∈ g.graph.edges, 0 ≤ e.bundle.cost)
    (hT : SpanningForest (edgeEnds g.graph) (allEdges g.graph) T)
    (hdfs : ∀ root : Option Nat, (∀ r, root = some r → r < g.graph.numVertices) →
      DfsDocumented g.graph T root (dfs g.graph T root))
    (hm : m.suffix ≠ .none) (htree : m.spanningTree = T) (hzero : ∀ root ∈ m.roots, root ≠ 0) :
    ConsistentTrees g T m.withinLimit m.roots (m.dfsOrdering g dfs) ↔
      if m.roots = [] then ∀ v < g.graph.numVertices, HasEdge g.graph T v
      else ∀ root ∈ m.roots, ∀ v, g.verticesMap root = some v → HasEdge g.graph T v := by
  subst htree
  rw [PgrMst.dfsOrdering]
  by_cases hroots : m.roots = []
  · have hdoc := hdfs none fun r hr => nomatch hr
    obtain ⟨blocks, hblocks, hresults⟩ := foldl_calls (s := { root := 0 }) hg hcost hT hm
      hdoc.visit hdoc.apart fun c _ x _ => ⟨rfl, rfl⟩
    have hforest : m.dfsForest g dfs = blocks.flatten := hresults
    rw [if_pos hroots, if_pos hroots, hroots, hforest]
    refine consistentTrees_nil_iff hg hT (fun v hv => ?_) hblocks ?_ fun v hv => ?_
    · obtain ⟨c, hc, rfl⟩ := List.mem_map.mp hv
      exact (hdoc.visit c hc).1
    · exact List.pairwise_map.mpr (hdoc.apart.imp fun hnot huv => hnot (hT.joined_iff.mpr huv))
    · obtain ⟨c, hc, hcv⟩ := hdoc.all v hv
      exact ⟨c.1, List.mem_map_of_mem hc, hT.joined_iff.mp hcv⟩
  · rw [if_neg hroots, if_neg hroots]
    refine consistentTrees_roots_iff hg hcost hT hm hroots hzero fun v hv => ?_
    refine isVisit_withRoot (hdfs (some v) fun r hr => ?_)
    rw [← Option.some.inj hr]
    exact hv

/-- `bfs_ordering` -/
theorem bfsOrdering_iff (hg : g.Consistent) (hcost : ∀ e ∈ g.graph.edges, 0 ≤ e.bundle.cost)
    (hT : SpanningForest (edgeEnds g.graph) (allEdges g.graph) T)
    (hcomp : ComponentsDocumented g.graph (components g.graph).1 (components g.graph).2)
    (hbfs : ∀ v < g.graph.numVertices, IsVisit g.graph T v (bfs g.graph T v))
    (hm : m.suffix ≠ .none) (htree : m.spanningTree = T) (hget : m.getComponent = true)
    (hnew : m.treeId = []) (hzero : ∀ root ∈ m.roots, root ≠ 0) :
    ConsistentTrees g T m.withinLimit m.roots (m.bfsOrdering g components bfs) ↔
      if m.roots = [] then ∀ v < g.graph.numVertices, HasEdge g.graph T v
      else ∀ root ∈ m.roots, ∀ v, g.verticesMap root = some v → HasEdge g.graph T v := by
  subst htree
  obtain ⟨hlen, hnum⟩ := calculateComponent_spec hget hnew hcomp
  -- Calculating the components changes nothing else of the object.
  have hsame : (m.calculateComponent g components).suffix = m.suffix ∧
      (m.calculateComponent g components).roots = m.roots ∧
      (m.calculateComponent g components).getComponent = true ∧
      (m.calculateComponent g components).spanningTree = m.spanningTree ∧
      (m.calculateComponent g components).withinLimit = m.withinLimit ∧
      (m.calculateComponent g components).components = (components g.graph).1 := by
    rw [PgrMst.calculateComponent, hget]
    exact ⟨rfl, rfl, rfl, rfl, rfl, rfl⟩
  rw [PgrMst.bfsOrdering]
  generalize m.calculateComponent g components = m' at *
  obtain ⟨hsuffix, hroots', hget', htree', hwithin, hcomponents⟩ := hsame
  have hm' : m'.suffix ≠ .none := hsuffix ▸ hm
  rw [hroots', htree', ← hwithin]
  by_cases hroots : m.roots = []
  · rw [if_neg (not_not.mpr hroots), if_pos hroots, hroots]
    -- The vertices that the numbers of the components stand for.
    choose! start hstart using hnum
    -- `m_tree_id` holds the vertices that the components are named after.
    have hids : m'.treeId = ((List.range (components g.graph).2).map start).map g.vertexId := by
      refine List.ext_getElem (by simp [hlen]) fun c hc hc' => ?_
      have hcomp_c := (hstart c (hlen ▸ hc)).2.2
      rw [List.getD_eq_getElem?_getD, List.getElem?_eq_getElem hc] at hcomp_c
      simpa using hcomp_c
    -- One visit per component: its block, or nothing for a vertex without edges.
    have hrow : ∀ v ∈ (List.range (components g.graph).2).map start,
        v < g.graph.numVertices ∧ TreeBlock g m.spanningTree m'.withinLimit v
          (m'.rootResults g (bfs g.graph m.spanningTree) (g.vertexId v)) := by
      intro v hv
      obtain ⟨c, hc, rfl⟩ := List.mem_map.mp hv
      obtain ⟨hlt, hcomp_c, hid⟩ := hstart c (List.mem_range.mp hc)
      refine ⟨hlt, ?_⟩
      rw [PgrMst.rootResults, hg.map_vertexId hlt]
      obtain hno | ⟨hedge, r, hvr, _, hrows⟩ := getResults_tree (g.vertexId (start c))
        hg hcost hT hm' hlt (hbfs _ hlt) fun _ => ⟨rfl, fun _ => by
          rw [if_pos hget', hcomponents, hcomp_c]
          exact hid⟩
      · exact .inl hno
      · exact .inr ⟨hedge, r, hvr, hrows⟩
    rw [hids, List.flatMap_map, List.flatMap_def]
    refine consistentTrees_nil_iff hg hT (fun v hv => (hrow v hv).1) ?_ ?_ fun v hv => ?_
    · rw [List.forall₂_map_right_iff, List.forall₂_same]
      exact fun v hv => (hrow v hv).2
    · rw [List.pairwise_map]
      refine List.Pairwise.imp_of_mem ?_ (List.nodup_range (n := (components g.graph).2))
      intro c c' hc hc' hne hconn
      obtain ⟨hlt, hcomp_c, _⟩ := hstart c (List.mem_range.mp hc)
      obtain ⟨hlt', hcomp_c', _⟩ := hstart c' (List.mem_range.mp hc')
      have heq := (hcomp.same _ _ hlt hlt').mpr hconn
      rw [hcomp_c, hcomp_c'] at heq
      exact hne heq
    · have hc := hcomp.lt v hv
      obtain ⟨hlt, hcomp_c, _⟩ := hstart _ hc
      exact ⟨_, List.mem_map_of_mem (List.mem_range.mpr hc),
        (hcomp.same _ _ hlt hv).mp hcomp_c⟩
  · -- With roots it does as the depth first search does.
    rw [if_pos hroots, if_neg hroots, ← hroots']
    refine consistentTrees_roots_iff hg hcost hT hm' (hroots'.symm ▸ hroots) ?_ hbfs
    rw [hroots']
    exact hzero

/-- The rows that `mstBFS`, `mstDFS` and `mstDD` produce are those of the trees if and only if each
    root that the graph has is the end of an edge of the forest or, without roots, each vertex. -/
theorem consistentTrees_iff (hg : g.Consistent) (hcost : ∀ e ∈ g.graph.edges, 0 ≤ e.bundle.cost)
    (hT : SpanningForest (edgeEnds g.graph) (allEdges g.graph) T)
    (hcomp : ComponentsDocumented g.graph (components g.graph).1 (components g.graph).2)
    (hbfs : ∀ v < g.graph.numVertices, IsVisit g.graph T v (bfs g.graph T v))
    (hdfs : ∀ root : Option Nat, (∀ r, root = some r → r < g.graph.numVertices) →
      DfsDocumented g.graph T root (dfs g.graph T root))
    (f : TreeFunction) (roots : List Int) :
    ConsistentTrees g T f.Within (cleanVids roots) (f.run g T components bfs dfs roots) ↔
      if cleanVids roots = [] then ∀ v < g.graph.numVertices, HasEdge g.graph T v
      else ∀ root ∈ cleanVids roots, ∀ v, g.verticesMap root = some v →
        HasEdge g.graph T v := by
  have hzero : ∀ root ∈ cleanVids roots, root ≠ 0 := fun root h => ne_zero_of_mem_cleanVids h
  cases f with
  | bfs maxDepth =>
    have hwithin : (TreeFunction.bfs maxDepth).Within = PgrMst.withinLimit
        { suffix := .bfs, getComponent := true, distance := -1, maxDepth := maxDepth
          roots := cleanVids roots, spanningTree := T } := by
      ext depth aggCost
      simp [TreeFunction.Within, PgrMst.withinLimit]
    rw [hwithin]
    refine bfsOrdering_iff hg hcost hT hcomp hbfs ?_ rfl rfl rfl hzero
    exact MstSuffix.noConfusion
  | dfs maxDepth =>
    have hwithin : (TreeFunction.dfs maxDepth).Within = PgrMst.withinLimit
        { suffix := .dfs, getComponent := false, distance := -1, maxDepth := maxDepth
          roots := cleanVids roots, spanningTree := T } := by
      ext depth aggCost
      simp [TreeFunction.Within, PgrMst.withinLimit]
    rw [hwithin]
    refine dfsOrdering_iff hg hcost hT hdfs ?_ rfl hzero
    exact MstSuffix.noConfusion
  | dd distance =>
    have hwithin : (TreeFunction.dd distance).Within = PgrMst.withinLimit
        { suffix := .dd, getComponent := false, distance := distance, maxDepth := -1
          roots := cleanVids roots, spanningTree := T } := by
      ext depth aggCost
      simp [TreeFunction.Within, PgrMst.withinLimit]
    rw [hwithin]
    refine dfsOrdering_iff hg hcost hT hdfs ?_ rfl hzero
    exact MstSuffix.noConfusion

end Functions

/-! ## Two trees in a table with more edges -/

/-- The vertices that have been seen after the edges, if each leads to a new one. -/
def visitedBy (g : AdjacencyList BasicVertex BasicEdge) (T : Finset Nat) :
    List Nat → List (BoostEdge BasicEdge) → Option (List Nat)
  | seen, [] => some seen
  | seen, o :: order =>
    if (∃ i ∈ T, ∃ e ∈ g.edges[i]?, o = e ∨ o = e.flip) ∧ o.source ∈ seen ∧ o.target ∉ seen then
      visitedBy g T (o.target :: seen) order
    else none

theorem visits_of_visitedBy {g : AdjacencyList BasicVertex BasicEdge} {seen seen' : List Nat}
    {order : List (BoostEdge BasicEdge)} (h : visitedBy g T seen order = some seen') :
    Visits g T {v | v ∈ seen} order {v | v ∈ seen'} := by
  induction order generalizing seen with
  | nil =>
    obtain rfl := Option.some.inj h
    exact .nil
  | cons o order ih =>
    rw [visitedBy] at h
    split_ifs at h with hstep
    obtain ⟨⟨i, hi, e, he, ho⟩, hs, ht⟩ := hstep
    refine .cons hi he ho hs ht ?_
    have hinsert : insert o.target {v | v ∈ seen} = {v | v ∈ o.target :: seen} := by
      ext v
      rw [Set.mem_insert_iff, Set.mem_ofPred_eq, Set.mem_ofPred_eq, List.mem_cons]
    rw [hinsert]
    exact ih h

/-- The edges `e` or, turned round, `e.flip` of the given numbers. -/
def visitAlong (g : AdjacencyList BasicVertex BasicEdge) (steps : List (Nat × Bool)) :
    List (BoostEdge BasicEdge) :=
  steps.filterMap fun s => (g.edges[s.1]?).map fun e => if s.2 then e else e.flip

/-- The visit of a vertex of the forest of the path 3, 2, 1 and the edge between 4 and 5. -/
def forestVisit (g : AdjacencyList BasicVertex BasicEdge) : Nat → List (BoostEdge BasicEdge)
  | 0 => visitAlong g [(1, false), (2, true)]
  | 1 => visitAlong g [(1, true), (2, true)]
  | 2 => visitAlong g [(2, false), (1, true)]
  | 3 => visitAlong g [(4, true)]
  | _ => visitAlong g [(4, false)]

/-- Both trees, first that of the root. -/
def forestDfs : BoostDfs := fun g _ root =>
  let r := root.getD 0
  let r' := if r < 3 then 3 else 0
  [(r, forestVisit g r), (r', forestVisit g r')]

/-- The graph of the table with a triangle and an edge. -/
def triangleGraph : PgrBaseGraph BasicVertex BasicEdge := .ofTable false triangleAndEdge

theorem isVisit_forestVisit {v : Nat} (hv : v < triangleGraph.graph.numVertices) :
    IsVisit triangleGraph.graph {1, 2, 4} v (forestVisit triangleGraph.graph v) := by
  have hseen : ∀ v < triangleGraph.graph.numVertices,
      ∃ seen ∈ visitedBy triangleGraph.graph {1, 2, 4} [v] (forestVisit triangleGraph.graph v),
        ∀ w < triangleGraph.graph.numVertices,
          Joined (edgeEnds triangleGraph.graph) {1, 2, 4} v w → w ∈ seen := by
    decide +kernel
  have hsub : ∀ i ∈ ({1, 2, 4} : Finset Nat), i ∈ allEdges triangleGraph.graph := by
    decide +kernel
  obtain ⟨seen, hvisit, hall⟩ := hseen v hv
  refine ⟨{w | w ∈ seen}, ?_, fun w hw => hall w ?_ hw⟩
  · have hstart : ({v} : Set Nat) = {w | w ∈ [v]} := by
      ext w
      rw [Set.mem_singleton_iff, Set.mem_ofPred_eq, List.mem_singleton]
    rw [hstart]
    exact visits_of_visitedBy hvisit
  · exact joined_lt (ofTable_consistent false triangleAndEdge) hsub hv hw

theorem forestDfs_documented {root : Option Nat}
    (hroot : ∀ r, root = some r → r < triangleGraph.graph.numVertices) :
    DfsDocumented triangleGraph.graph {1, 2, 4} root
      (forestDfs triangleGraph.graph {1, 2, 4} root) := by
  have hr : root.getD 0 < triangleGraph.graph.numVertices := by
    cases root with
    | none => decide +kernel
    | some r => exact hroot r rfl
  have hother : ∀ r < triangleGraph.graph.numVertices,
      (if r < 3 then 3 else 0) < triangleGraph.graph.numVertices ∧
      ¬ Joined (edgeEnds triangleGraph.graph) {1, 2, 4} r (if r < 3 then 3 else 0) ∧
      ∀ v < triangleGraph.graph.numVertices,
        Joined (edgeEnds triangleGraph.graph) {1, 2, 4} r v ∨
          Joined (edgeEnds triangleGraph.graph) {1, 2, 4} (if r < 3 then 3 else 0) v := by
    decide +kernel
  obtain ⟨hlt, hapart, hcover⟩ := hother _ hr
  constructor
  case visit =>
    intro c hc
    obtain rfl | hc := List.mem_cons.mp hc
    · exact ⟨hr, isVisit_forestVisit hr⟩
    · obtain rfl := List.mem_singleton.mp hc
      exact ⟨hlt, isVisit_forestVisit hlt⟩
  case apart => exact List.pairwise_pair.mpr hapart
  case all =>
    intro v hv
    obtain hjoined | hjoined := hcover v hv
    · exact ⟨_, List.mem_cons_self, hjoined⟩
    · exact ⟨_, List.mem_cons_of_mem _ List.mem_cons_self, hjoined⟩
  case first =>
    intro r hr
    obtain rfl := hr
    exact ⟨_, _, rfl⟩

/-- The vertices within a distance of 2 of 3 and of 5, and a root that is not in the graph. -/
theorem consistentTrees_triangle :
    ConsistentTrees triangleGraph {1, 2, 4} (TreeFunction.dd 2).Within (cleanVids [3, 5, 9])
      ((TreeFunction.dd 2).run triangleGraph {1, 2, 4}
        (fun _ => (fun v => if v < 3 then 0 else 1, 2)) (fun g _ v => forestVisit g v) forestDfs
        [3, 5, 9]) := by
  have hg : triangleGraph.Consistent := ofTable_consistent false triangleAndEdge
  have hcost : ∀ e ∈ triangleGraph.graph.edges, 0 ≤ e.bundle.cost := by decide +kernel
  have hforest : SpanningForest (edgeEnds triangleGraph.graph) (allEdges triangleGraph.graph)
      {1, 2, 4} := by decide +kernel
  refine (consistentTrees_iff hg hcost hforest ?_ (fun v hv => isVisit_forestVisit hv)
    (fun root hroot => forestDfs_documented hroot) (.dd 2) [3, 5, 9]).mpr ?_
  · constructor
    case same =>
      have hsame : ∀ u < triangleGraph.graph.numVertices, ∀ v < triangleGraph.graph.numVertices,
          ((if u < 3 then 0 else 1) = (if v < 3 then 0 else 1) ↔
            Connected triangleGraph.graph u v) := by decide +kernel
      exact fun u v hu hv => hsame u hu v hv
    case lt => decide +kernel
    case used => decide +kernel
  · have hroots : cleanVids [3, 5, 9] = [3, 5, 9] := by
      rw [cleanVids, List.mergeSort_of_pairwise (by decide)]
      decide +kernel
    rw [hroots, if_neg (List.cons_ne_nil _ _)]
    have hedge : ∀ root ∈ [3, 5, 9], ∀ v ∈ triangleGraph.verticesMap root,
        ∃ i ∈ ({1, 2, 4} : Finset Nat), (edgeEnds triangleGraph.graph i).1 = v ∨
          (edgeEnds triangleGraph.graph i).2 = v := by decide +kernel
    exact fun root hroot v hv => hedge root hroot v hv

/-! ## A root that only has a loop -/

/-- The graph of a table with one loop, at the vertex 5. -/
def loopGraph : PgrBaseGraph BasicVertex BasicEdge := .ofTable false [⟨1, 5, 5, 1, 1⟩]

/-- The visit of a vertex that has no edge in the forest. -/
def loopDfs : BoostDfs := fun _ _ _ => [(0, [])]

theorem loopDfs_documented {root : Option Nat}
    (hroot : ∀ r, root = some r → r < loopGraph.graph.numVertices) :
    DfsDocumented loopGraph.graph ∅ root (loopDfs loopGraph.graph ∅ root) where
  visit := by
    intro c hc
    obtain rfl := List.mem_singleton.mp hc
    exact ⟨by decide +kernel, {0}, .nil, fun v hv => (joined_empty hv).symm⟩
  apart := List.pairwise_singleton _ _
  all := by
    intro v hv
    obtain rfl : v = 0 := Nat.lt_one_iff.mp hv
    exact ⟨(0, []), List.mem_singleton_self _, .refl _⟩
  first := by
    intro r hr
    obtain rfl : r = 0 := Nat.lt_one_iff.mp (hroot r hr)
    exact ⟨[], [], rfl⟩

/-- The root has no row. -/
theorem not_consistentTrees :
    SpanningForest (edgeEnds loopGraph.graph) (allEdges loopGraph.graph) ∅ ∧
    (∀ root : Option Nat, (∀ r, root = some r → r < loopGraph.graph.numVertices) →
      DfsDocumented loopGraph.graph ∅ root (loopDfs loopGraph.graph ∅ root)) ∧
    loopGraph.verticesMap 5 = some 0 ∧ mstDFS loopGraph ∅ loopDfs [5] 3 = [] ∧
    ¬ ConsistentTrees loopGraph ∅ (TreeFunction.dfs 3).Within (cleanVids [5])
      (mstDFS loopGraph ∅ loopDfs [5] 3) := by
  have hrows : mstDFS loopGraph ∅ loopDfs [5] 3 = [] := by decide +kernel
  have hroots : cleanVids [5] = [5] := by decide +kernel
  refine ⟨?_, fun root hroot => loopDfs_documented hroot, by decide +kernel, hrows, ?_⟩
  · refine ⟨Finset.empty_subset _, fun i hi => absurd hi (Finset.notMem_empty i), ?_⟩
    intro i hi
    have hloop : ∀ i < loopGraph.graph.edges.length,
        (edgeEnds loopGraph.graph i).1 = (edgeEnds loopGraph.graph i).2 := by decide +kernel
    rw [hloop i (Finset.mem_range.mp hi)]
    exact .refl _
  · rw [hrows, hroots, ConsistentTrees, if_neg (List.cons_ne_nil _ _)]
    intro h
    obtain ⟨blocks, hblocks, hflat⟩ := h
    cases hblocks with
    | @cons _ block _ _ hblock _ =>
      have hnil : block = [] := (List.append_eq_nil_iff.mp hflat.symm).1
      obtain ⟨r, _, below, hbelow, _⟩ | ⟨_, hrow⟩ := hblock
      · rw [hnil] at hbelow
        cases hbelow
      · rw [hnil] at hrow
        cases hrow

end PgRouting
