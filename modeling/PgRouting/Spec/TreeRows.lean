import PgRouting.Spec.Prim
import PgRouting.Native.Mst

/-!
# Trees as rows

The rows of a tree are the one of its root and, for the other vertices within the limit, one each,
which has the length and the cost of the path from the root and comes after the row of the vertex
before it on that path. The tables of `get_results` give these rows for the edges of a visit, also
when the first edge is turned round and so the tree gets another root. There are none when the
tree has no edge.

## Key results

- `TreeState.addEdge`: one edge of a visit
- `addResult_tree`: the rows of one tree
-/

namespace PgRouting

open PgrBaseGraph

variable {g : PgrBaseGraph BasicVertex BasicEdge} {T : Finset Nat} {r u v x y i : Nat}

/-! ## What the rows say -/

/-- A path of the forest from the vertex `r`, as its vertices from the last to the first and its
    cost. -/
abbrev ForestPath (g : AdjacencyList BasicVertex BasicEdge) (T : Finset Nat) (r : Nat) :
    Nat → List Nat → ℚ → Prop :=
  SimplePath (edgeEnds g) (edgeCost g) T r

/-- The row of the vertex `y` below the root `r`. -/
def IsTreeRow (g : PgrBaseGraph BasicVertex BasicEdge) (T : Finset Nat) (r y : Nat)
    (row : MstRt) : Prop :=
  ∃ x vs c i e, ForestPath g.graph T r x (x :: vs) c ∧ i ∈ T ∧ g.graph.edges[i]? = some e ∧
    SameEnds (e.source, e.target) (x, y) ∧ y ∉ x :: vs ∧
    row = { fromV := g.vertexId r, depth := vs.length + 1, pred := g.vertexId x,
            node := g.vertexId y, edge := e.bundle.id, cost := e.bundle.cost,
            aggCost := c + e.bundle.cost }

/-- The rows of the vertices below the root. -/
structure RowsBelow (g : PgrBaseGraph BasicVertex BasicEdge) (T : Finset Nat)
    (within : Int → ℚ → Prop) (r : Nat) (rows : List MstRt) : Prop where
  row : ∀ row ∈ rows, (∃ y, IsTreeRow g T r y row) ∧ within row.depth row.aggCost
  once : (rows.map (·.node)).Nodup
  all : ∀ y vs c, ForestPath g.graph T r y (y :: vs) c → y ≠ r → within vs.length c →
    ∃ row ∈ rows, row.node = g.vertexId y
  parent : ∀ before row after, rows = before ++ row :: after →
    row.pred = g.vertexId r ∨ ∃ p ∈ before, p.node = row.pred

/-- The rows of the tree with the root `r`. -/
def TreeRows (g : PgrBaseGraph BasicVertex BasicEdge) (T : Finset Nat) (within : Int → ℚ → Prop)
    (r : Nat) (rows : List MstRt) : Prop :=
  ∃ below, rows = PgrMst.rootRow (g.vertexId r) :: below ∧ RowsBelow g T within r below

/-- The rows for a root, which need not be in the graph. -/
def RootRows (g : PgrBaseGraph BasicVertex BasicEdge) (T : Finset Nat) (within : Int → ℚ → Prop)
    (root : Int) (rows : List MstRt) : Prop :=
  (∃ r, g.verticesMap root = some r ∧ TreeRows g T within r rows) ∨
  (g.verticesMap root = none ∧ rows = [PgrMst.rootRow root])

/-- The rows are those of one tree after the other, of the trees with the given roots or, without
    any, of all trees. -/
def ConsistentTrees (g : PgrBaseGraph BasicVertex BasicEdge) (T : Finset Nat)
    (within : Int → ℚ → Prop) (roots : List Int) (rows : List MstRt) : Prop :=
  if roots = [] then
    ∃ rs blocks, rs.Pairwise (fun u v => ¬ Connected g.graph u v) ∧
      (∀ v < g.graph.numVertices, ∃ r ∈ rs, Connected g.graph r v) ∧
      List.Forall₂ (TreeRows g T within) rs blocks ∧ rows = blocks.flatten
  else
    ∃ blocks, List.Forall₂ (RootRows g T within) roots blocks ∧ rows = blocks.flatten

/-! ## What Boost visits -/

/-- The edges lead, one after the other, from a vertex that has been seen to a new one. -/
inductive Visits (g : AdjacencyList BasicVertex BasicEdge) (T : Finset Nat) :
    Set Nat → List (BoostEdge BasicEdge) → Set Nat → Prop
  | nil {seen : Set Nat} : Visits g T seen [] seen
  | cons {seen seen' : Set Nat} {i : Nat} {e o : BoostEdge BasicEdge}
      {order : List (BoostEdge BasicEdge)} : i ∈ T → g.edges[i]? = some e →
      o = e ∨ o = e.flip → o.source ∈ seen → o.target ∉ seen →
      Visits g T (insert o.target seen) order seen' → Visits g T seen (o :: order) seen'

/-- The edges visit what the forest connects with the vertex. -/
def IsVisit (g : AdjacencyList BasicVertex BasicEdge) (T : Finset Nat) (start : Nat)
    (order : List (BoostEdge BasicEdge)) : Prop :=
  ∃ seen, Visits g T {start} order seen ∧ ∀ v, Joined (edgeEnds g) T start v → v ∈ seen

/-- The documented calls of `boost::depth_first_search`: it visits one tree after the other, and
    that of the given root first. -/
structure DfsDocumented (g : AdjacencyList BasicVertex BasicEdge) (T : Finset Nat)
    (root : Option Nat) (calls : List (Nat × List (BoostEdge BasicEdge))) : Prop where
  visit : ∀ c ∈ calls, c.1 < g.numVertices ∧ IsVisit g T c.1 c.2
  apart : calls.Pairwise fun a b => ¬ Joined (edgeEnds g) T a.1 b.1
  all : ∀ v < g.numVertices, ∃ c ∈ calls, Joined (edgeEnds g) T c.1 v
  first : ∀ r, root = some r → ∃ order rest, calls = (r, order) :: rest

/-- The documented result of `boost::connected_components`. -/
structure ComponentsDocumented (g : AdjacencyList BasicVertex BasicEdge) (components : Nat → Nat)
    (numComps : Nat) : Prop where
  same : ∀ u v, u < g.numVertices → v < g.numVertices →
    (components u = components v ↔ Connected g u v)
  lt : ∀ v < g.numVertices, components v < numComps
  used : ∀ c < numComps, ∃ v < g.numVertices, components v = c

/-! ## The tables -/

/-- The tables and the rows when the vertices `seen` of the tree with the root `r` have been
    visited. -/
structure TreeState (g : PgrBaseGraph BasicVertex BasicEdge) (T : Finset Nat) (m : PgrMst)
    (r : Nat) (s₀ s : MstResults) (seen : Set Nat) (rows : List MstRt) : Prop where
  root : s.root = g.vertexId r
  results : s.results = s₀.results ++ PgrMst.rootRow (g.vertexId r) :: rows
  start : r ∈ seen ∧ s.depth r = -1
  path : ∀ x ∈ seen, x < g.graph.numVertices ∧ ∃ vs, ForestPath g.graph T r x (x :: vs)
    (s.aggCost x) ∧ (∀ y ∈ x :: vs, y ∈ seen) ∧ (x ≠ r → s.depth x = vs.length)
  unseen : ∀ x ∉ seen, s.depth x = s₀.depth x ∧ s.aggCost x = s₀.aggCost x
  row : ∀ row ∈ rows, (∃ y ∈ seen, IsTreeRow g T r y row) ∧ m.withinLimit row.depth row.aggCost
  once : (rows.map (·.node)).Nodup
  all : ∀ x ∈ seen, x ≠ r → m.withinLimit (s.depth x) (s.aggCost x) →
    ∃ row ∈ rows, row.node = g.vertexId x
  parent : ∀ before row after, rows = before ++ row :: after →
    row.pred = g.vertexId r ∨ ∃ p ∈ before, p.node = row.pred

variable {m : PgrMst} {s₀ s : MstResults} {seen seen' : Set Nat} {rows : List MstRt}
variable {o e : BoostEdge BasicEdge} {pRoot : Int}

/-- What is nearer to the root is within the limit as well. -/
theorem withinLimit_mono {d d' : Int} {c c' : ℚ} (h : m.withinLimit d c) (hd : d' ≤ d)
    (hc : c' ≤ c) : m.withinLimit d' c' := by
  obtain hnone | ⟨hbfs, hle⟩ | ⟨hdfs, hle⟩ | ⟨hdd, hle⟩ := h
  · exact .inl hnone
  · exact .inr (.inl ⟨hbfs, le_trans hd hle⟩)
  · exact .inr (.inr (.inl ⟨hdfs, le_trans hd hle⟩))
  · exact .inr (.inr (.inr ⟨hdd, le_trans hc hle⟩))

/-- The depth of a vertex of the tree is not 0. -/
theorem TreeState.depth_ne (h : TreeState g T m r s₀ s seen rows) (hx : x ∈ seen) :
    s.depth x ≠ 0 := by
  by_cases hr : x = r
  · rw [hr, h.start.2]
    decide
  · obtain ⟨_, vs, hpath, _, hdepth⟩ := h.path x hx
    rw [hdepth hr]
    have hlen := List.length_pos_iff.mpr (mt hpath.eq_start_iff.mpr hr)
    omega

/-- What holds of each element of a list and those before it, also of one more. -/
theorem forall_before_concat {β : Type*} {P : List β → β → Prop} {l : List β} {b : β}
    (h : ∀ before x after, l = before ++ x :: after → P before x) (hb : P l b) :
    ∀ before x after, l ++ [b] = before ++ x :: after → P before x := by
  intro before x after heq
  obtain rfl | ⟨after, y, rfl⟩ := after.eq_nil_or_concat
  · obtain ⟨hl, hx⟩ := List.append_inj' heq rfl
    rw [← hl, ← List.singleton_inj.mp hx]
    exact hb
  · have heq' : l ++ [b] = (before ++ x :: after) ++ [y] := by
      rw [heq, List.concat_eq_append, List.append_assoc, List.cons_append]
    obtain ⟨heq', _⟩ := List.append_inj' heq' rfl
    exact h before x after heq'

/-- One edge of a visit. -/
theorem TreeState.addEdge (hg : g.Consistent) (hcost : ∀ e ∈ g.graph.edges, 0 ≤ e.bundle.cost)
    (hm : m.suffix ≠ .none) (h : TreeState g T m r s₀ s seen rows) (hi : i ∈ T)
    (he : g.graph.edges[i]? = some e) (hends : SameEnds (e.source, e.target) (u, v))
    (hu : u ∈ seen) (hv : v ∉ seen) :
    ∃ rows', TreeState g T m r s₀ (m.addEdge g e.bundle u v s) (insert v seen) rows' := by
  obtain ⟨hlt, vs, hpath, hsub, hdepth⟩ := h.path u hu
  have hvr : v ≠ r := fun heq => hv (heq ▸ h.start.1)
  have hnot : v ∉ u :: vs := fun hmem => hv (hsub v hmem)
  have hends' : SameEnds (edgeEnds g.graph i) (u, v) := by
    rw [edgeEnds_of_getElem? he]
    exact hends
  have hvlt : v < g.graph.numVertices := by
    have hbound := hg.ends e (List.mem_of_getElem? he)
    obtain ⟨_, ht⟩ | ⟨hs, _⟩ := hends.mem
    · exact ht ▸ hbound.2
    · exact hs ▸ hbound.1
  -- The new vertex is one deeper than the vertex it is met from, also when that is the root.
  have hnew : (if s.depth u = -1 then 1 else s.depth u + 1) = (vs.length : Int) + 1 := by
    by_cases hur : u = r
    · subst hur
      rw [h.start.2, if_pos rfl, hpath.eq_start_iff.mp rfl]
      rfl
    · rw [hdepth hur, if_neg (by omega)]
  have hstep : ForestPath g.graph T r v (v :: u :: vs) (s.aggCost u + e.bundle.cost) := by
    have hstep := hpath.step hi hends' hnot
    rwa [edgeCost_of_getElem? he] at hstep
  -- The row that may be written, and what has been written before stays as it is.
  have htree : IsTreeRow g T r v
      { fromV := g.vertexId r, depth := vs.length + 1, pred := g.vertexId u, node := g.vertexId v,
        edge := e.bundle.id, cost := e.bundle.cost, aggCost := s.aggCost u + e.bundle.cost } :=
    ⟨u, vs, s.aggCost u, i, e, hpath, hi, he, hends, hnot, rfl⟩
  have hnodes : ∀ row ∈ rows, ∃ y ∈ seen, row.node = g.vertexId y := by
    intro row hrow
    obtain ⟨⟨y, hy, _, _, _, _, _, _, _, _, _, _, rfl⟩, _⟩ := h.row row hrow
    exact ⟨y, hy, rfl⟩
  have hkeep : ∀ x ∈ seen, (m.addEdge g e.bundle u v s).depth x = s.depth x ∧
      (m.addEdge g e.bundle u v s).aggCost x = s.aggCost x := by
    intro x hx
    have hne : x ≠ v := fun heq => hv (heq ▸ hx)
    exact ⟨Function.update_of_ne hne _ _, Function.update_of_ne hne _ _⟩
  have hdepth_v : (m.addEdge g e.bundle u v s).depth v = vs.length + 1 :=
    (Function.update_self _ _ _).trans hnew
  have hagg_v : (m.addEdge g e.bundle u v s).aggCost v = s.aggCost u + e.bundle.cost :=
    Function.update_self _ _ _
  have hresults : (m.addEdge g e.bundle u v s).results = s.results ++
      (if m.withinLimit ((m.addEdge g e.bundle u v s).depth v)
          ((m.addEdge g e.bundle u v s).aggCost v) then
        [{ fromV := g.vertexId r, depth := vs.length + 1, pred := g.vertexId u,
           node := g.vertexId v, edge := e.bundle.id, cost := e.bundle.cost,
           aggCost := s.aggCost u + e.bundle.cost }] else []) := by
    simp only [PgrMst.addEdge, Function.update_self, if_pos hm, hnew, h.root]
  -- The invariant for the vertices seen, of which `v` is the last one.
  have hpath' : ∀ x ∈ insert v seen, x < g.graph.numVertices ∧
      ∃ vs, ForestPath g.graph T r x (x :: vs) ((m.addEdge g e.bundle u v s).aggCost x) ∧
        (∀ y ∈ x :: vs, y ∈ insert v seen) ∧
        (x ≠ r → (m.addEdge g e.bundle u v s).depth x = vs.length) := by
    intro x hx
    obtain rfl | hx := hx
    · refine ⟨hvlt, u :: vs, hagg_v ▸ hstep, fun y hy => ?_, fun _ => ?_⟩
      · obtain rfl | hy := List.mem_cons.mp hy
        · exact Set.mem_insert _ _
        · exact Set.mem_insert_of_mem _ (hsub y hy)
      · rw [hdepth_v, List.length_cons, Nat.cast_add_one]
    · obtain ⟨hxlt, ws, hws, hin, hdepth_x⟩ := h.path x hx
      rw [(hkeep x hx).1, (hkeep x hx).2]
      exact ⟨hxlt, ws, hws, fun y hy => Set.mem_insert_of_mem _ (hin y hy), hdepth_x⟩
  -- The tables of a vertex that has not been seen are those at the start of the visit.
  have hunseen : ∀ x ∉ insert v seen, (m.addEdge g e.bundle u v s).depth x = s₀.depth x ∧
      (m.addEdge g e.bundle u v s).aggCost x = s₀.aggCost x := by
    intro x hx
    obtain ⟨hxv, hx⟩ := not_or.mp hx
    rw [← (h.unseen x hx).1, ← (h.unseen x hx).2]
    exact ⟨Function.update_of_ne hxv _ _, Function.update_of_ne hxv _ _⟩
  have hstart : r ∈ insert v seen ∧ (m.addEdge g e.bundle u v s).depth r = -1 :=
    ⟨Set.mem_insert_of_mem _ h.start.1, (hkeep r h.start.1).1.trans h.start.2⟩
  rw [hdepth_v, hagg_v] at hresults
  -- The row is written if the limit allows it.
  by_cases hlim : m.withinLimit (vs.length + 1) (s.aggCost u + e.bundle.cost)
  · rw [if_pos hlim, h.results, List.append_assoc, List.cons_append] at hresults
    refine ⟨_, h.root, hresults, hstart, hpath', hunseen, ?_, ?_, ?_, ?_⟩
    · intro row hrow
      obtain hrow | hrow := List.mem_append.mp hrow
      · obtain ⟨⟨y, hy, hrow⟩, hlim⟩ := h.row row hrow
        exact ⟨⟨y, Set.mem_insert_of_mem _ hy, hrow⟩, hlim⟩
      · rw [List.mem_singleton.mp hrow]
        exact ⟨⟨v, Set.mem_insert _ _, htree⟩, hlim⟩
    · rw [List.map_append, List.nodup_append]
      refine ⟨h.once, List.nodup_singleton _, fun a ha b hb => ?_⟩
      obtain ⟨row, hrow, rfl⟩ := List.mem_map.mp ha
      obtain ⟨y, hy, hnode⟩ := hnodes row hrow
      rw [hnode, List.mem_singleton.mp hb]
      intro heq
      exact hv (hg.vertexId_inj (h.path y hy).1 hvlt heq ▸ hy)
    · intro x hx hxr hlim_x
      obtain rfl | hx := hx
      · exact ⟨_, List.mem_append_right _ (List.mem_singleton_self _), rfl⟩
      · rw [(hkeep x hx).1, (hkeep x hx).2] at hlim_x
        obtain ⟨row, hrow, hnode⟩ := h.all x hx hxr hlim_x
        exact ⟨row, List.mem_append_left _ hrow, hnode⟩
    · -- The vertex above `v` is the root or has a row before: its depth and its cost are no
      -- greater.
      refine forall_before_concat h.parent ?_
      by_cases hur : u = r
      · exact .inl (congrArg g.vertexId hur)
      · have hle : s.aggCost u ≤ s.aggCost u + e.bundle.cost :=
          le_add_of_nonneg_right (hcost e (List.mem_of_getElem? he))
        refine .inr (h.all u hu hur (withinLimit_mono hlim ?_ hle))
        rw [hdepth hur]
        omega
  · rw [if_neg hlim, List.append_nil, h.results] at hresults
    refine ⟨_, h.root, hresults, hstart, hpath', hunseen, ?_, h.once, ?_, h.parent⟩
    · intro row hrow
      obtain ⟨⟨y, hy, hrow⟩, hlim⟩ := h.row row hrow
      exact ⟨⟨y, Set.mem_insert_of_mem _ hy, hrow⟩, hlim⟩
    · intro x hx hxr hlim_x
      obtain rfl | hx := hx
      · rw [hdepth_v, hagg_v] at hlim_x
        exact absurd hlim_x hlim
      · rw [(hkeep x hx).1, (hkeep x hx).2] at hlim_x
        exact h.all x hx hxr hlim_x

/-! ## The rows of one tree -/

/-- An edge to a vertex that has not been seen. -/
theorem addResult_next (hs : s.depth o.source ≠ 0) :
    m.addResult g pRoot s o = m.addEdge g o.bundle o.source o.target s := by
  rw [PgrMst.addResult, if_neg fun h => hs h.1]
  simp only
  rw [if_neg fun h => hs h.2.1]

/-- The ends of an edge after they may have been swapped. -/
theorem swap_cases (c : Prop) [Decidable c] (u v : Nat) :
    ∃ a b, (a = u ∧ b = v ∨ a = v ∧ b = u) ∧ (if c then (v, u) else (u, v)) = (a, b) := by
  by_cases hc : c
  · exact ⟨v, u, .inr ⟨rfl, rfl⟩, if_pos hc⟩
  · exact ⟨u, v, .inl ⟨rfl, rfl⟩, if_neg hc⟩

/-- The first edge of a tree, of which either end becomes the root when none is given. -/
theorem addResult_first (hm : m.suffix ≠ .none) (hs : s.depth o.source = 0)
    (ht : s.depth o.target = 0)
    (hroot : pRoot ≠ 0 → pRoot = g.vertexId o.source ∧ (m.roots ≠ [] → s.root = pRoot) ∧
      (m.roots = [] → (if m.getComponent then m.treeId.getD (m.components o.source) 0 else 0) =
        pRoot)) :
    ∃ r v, (r = o.source ∧ v = o.target ∨ pRoot = 0 ∧ r = o.target ∧ v = o.source) ∧
      m.addResult g pRoot s o = m.addEdge g o.bundle r v
        { s with root := g.vertexId r, depth := Function.update s.depth r (-1),
                 results := s.results ++ [PgrMst.rootRow (g.vertexId r)] } := by
  rw [PgrMst.addResult, if_neg fun h => h.2 ht]
  simp only
  rw [if_pos ⟨hm, hs, ht⟩, PgrMst.startTree]
  -- Without a root each of the three tests may swap the ends; with one the row keeps its order.
  by_cases hp : pRoot = 0
  · obtain ⟨u₁, v₁, h₁, heq₁⟩ :=
      swap_cases (m.roots ≠ [] ∧ g.vertexId o.source ≠ s.root) o.source o.target
    rw [heq₁]
    simp only
    obtain ⟨u₂, v₂, h₂, heq₂⟩ := swap_cases (m.roots = [] ∧ g.vertexId u₁ ≠
      (if m.getComponent then m.treeId.getD (m.components o.source) 0 else 0)) u₁ v₁
    rw [heq₂]
    simp only
    obtain ⟨r, v, h₃, heq₃⟩ :=
      swap_cases (pRoot = 0 ∧ g.vertexId u₂ > g.vertexId v₂) u₂ v₂
    rw [heq₃]
    refine ⟨r, v, ?_, by simp only [hp, ne_eq, not_true_eq_false, if_false, PgrMst.rootRow]⟩
    -- Three swaps of two ends leave them in one of the two orders.
    have hends : r = o.source ∧ v = o.target ∨ r = o.target ∧ v = o.source := by grind
    exact hends.imp id fun h => ⟨hp, h⟩
  · obtain ⟨hid, hnone, hcomp⟩ := hroot hp
    refine ⟨o.source, o.target, .inl ⟨rfl, rfl⟩, ?_⟩
    have h₁ : ¬ (m.roots ≠ [] ∧ g.vertexId o.source ≠ s.root) :=
      fun h => h.2 (hid.symm.trans (hnone h.1).symm)
    have h₂ : ¬ (m.roots = [] ∧ g.vertexId o.source ≠
        (if m.getComponent then m.treeId.getD (m.components o.source) 0 else 0)) :=
      fun h => h.2 (hid.symm.trans (hcomp h.1).symm)
    have h₃ : ¬ (pRoot = 0 ∧ g.vertexId o.source > g.vertexId o.target) := fun h => hp h.1
    rw [if_neg h₁]
    simp only
    rw [if_neg h₂]
    simp only
    rw [if_neg h₃]
    simp only [hid, ite_self, PgrMst.rootRow]

/-- The root of a tree before its first edge. -/
theorem TreeState.start_root (hr : r < g.graph.numVertices) (hagg : s₀.aggCost r = 0) :
    TreeState g T m r s₀
      { s₀ with root := g.vertexId r, depth := Function.update s₀.depth r (-1),
                results := s₀.results ++ [PgrMst.rootRow (g.vertexId r)] } {r} [] where
  root := rfl
  results := rfl
  start := ⟨rfl, Function.update_self _ _ _⟩
  path := by
    rintro x rfl
    refine ⟨hr, [], ?_, fun y hy => List.mem_singleton.mp hy, fun hne => absurd rfl hne⟩
    rw [hagg]
    exact .start
  unseen := fun x hx => ⟨Function.update_of_ne hx _ _, rfl⟩
  row := fun row hrow => nomatch hrow
  once := List.nodup_nil
  all := fun x hx hxr => absurd hx hxr
  parent := fun before row after heq => absurd heq (by simp)

/-- An edge seen from either end has its ends and its properties. -/
theorem either_way {e o : BoostEdge BasicEdge} (h : o = e ∨ o = e.flip) :
    SameEnds (e.source, e.target) (o.source, o.target) ∧ o.bundle = e.bundle := by
  obtain rfl | rfl := h
  · exact ⟨.inl rfl, rfl⟩
  · exact ⟨.inr rfl, rfl⟩

/-- The edges of a visit after the first one. -/
theorem TreeState.visit (pRoot : Int) (hg : g.Consistent)
    (hcost : ∀ e ∈ g.graph.edges, 0 ≤ e.bundle.cost) (hm : m.suffix ≠ .none)
    {order : List (BoostEdge BasicEdge)} (hvisit : Visits g.graph T seen order seen')
    (h : TreeState g T m r s₀ s seen rows) :
    ∃ rows', TreeState g T m r s₀ (order.foldl (m.addResult g pRoot) s) seen' rows' := by
  induction hvisit generalizing s rows with
  | nil => exact ⟨rows, h⟩
  | @cons seen seen' i e o order hi he ho hs ht _ ih =>
    obtain ⟨hends, hbundle⟩ := either_way ho
    obtain ⟨rows', h'⟩ := h.addEdge hg hcost hm hi he hends hs ht
    rw [List.foldl_cons, addResult_next (h.depth_ne hs), hbundle]
    exact ih h'

/-- When all vertices of the tree have been visited the rows are those of the tree. -/
theorem TreeState.treeRows (hT : IsForest (edgeEnds g.graph) T)
    (h : TreeState g T m r s₀ s seen rows)
    (hall : ∀ v, Joined (edgeEnds g.graph) T r v → v ∈ seen) :
    TreeRows g T m.withinLimit r (PgrMst.rootRow (g.vertexId r) :: rows) := by
  refine ⟨rows, rfl, fun row hrow => ?_, h.once, fun y vs c hpath hyr hlim => ?_, h.parent⟩
  · obtain ⟨⟨y, _, hy⟩, hlim⟩ := h.row row hrow
    exact ⟨⟨y, hy⟩, hlim⟩
  · have hy := hall y hpath.joined
    obtain ⟨_, ws, hpath', _, hdepth⟩ := h.path y hy
    obtain ⟨hvs, hc⟩ := hpath'.unique hT hpath
    refine h.all y hy hyr ?_
    rw [hdepth hyr, ← hc, ← (List.cons.inj hvs).2]
    exact hlim

/-- The vertex is an end of an edge of the forest. -/
def HasEdge (g : AdjacencyList BasicVertex BasicEdge) (T : Finset Nat) (v : Nat) : Prop :=
  ∃ i ∈ T, (edgeEnds g i).1 = v ∨ (edgeEnds g i).2 = v

/-- A vertex with no edge in the forest is connected with no other. -/
theorem eq_of_joined {g : AdjacencyList BasicVertex BasicEdge} (hv : ¬ HasEdge g T v)
    (h : Joined (edgeEnds g) T u v) : u = v := by
  have hne : ∀ x y, Joined (edgeEnds g) T x y → (x = v ↔ y = v) := by
    intro x y hxy
    induction hxy with
    | rel x y hxy =>
      obtain ⟨i, hi, hends⟩ := hxy
      refine iff_of_false ?_ ?_
      · rintro rfl
        exact hv ⟨i, hi, .inl (congrArg Prod.fst hends)⟩
      · rintro rfl
        exact hv ⟨i, hi, .inr (congrArg Prod.snd hends)⟩
    | refl => rfl
    | symm _ _ _ ih => exact ih.symm
    | trans _ _ _ _ _ ih₁ ih₂ => exact ih₁.trans ih₂
  exact (hne u v h).mpr rfl

/-- A visit has an edge when its start has one. -/
theorem IsVisit.eq_nil_iff {order : List (BoostEdge BasicEdge)}
    (hT : SpanningForest (edgeEnds g.graph) (allEdges g.graph) T)
    (h : IsVisit g.graph T v order) : order = [] ↔ ¬ HasEdge g.graph T v := by
  obtain ⟨seen, hvisit, hall⟩ := h
  constructor
  · rintro rfl ⟨i, hi, hv⟩
    have hseen : seen = {v} := by
      cases hvisit
      rfl
    have hjoined : Joined (edgeEnds g.graph) T (edgeEnds g.graph i).1 (edgeEnds g.graph i).2 :=
      joined_of_mem hi
    have heq : (edgeEnds g.graph i).1 = (edgeEnds g.graph i).2 := by
      obtain hv | hv := hv
      · have hmem := hall _ (hv ▸ hjoined)
        rw [hseen] at hmem
        exact hv.trans (Set.mem_singleton_iff.mp hmem).symm
      · have hmem := hall _ (hv ▸ hjoined.symm)
        rw [hseen] at hmem
        exact (Set.mem_singleton_iff.mp hmem).trans hv.symm
    refine hT.forest i hi ?_
    rw [heq]
    exact .refl _
  · intro hv
    cases hvisit with
    | nil => rfl
    | @cons _ _ i e o order hi he ho hs ht _ =>
      refine absurd ⟨i, hi, ?_⟩ hv
      rw [edgeEnds_of_getElem? he, ← Set.mem_singleton_iff.mp hs]
      obtain rfl | rfl := ho
      · exact .inl rfl
      · exact .inr rfl

/-- The rows of one tree. -/
theorem addResult_tree (pRoot : Int) (hg : g.Consistent)
    (hcost : ∀ e ∈ g.graph.edges, 0 ≤ e.bundle.cost)
    (hT : SpanningForest (edgeEnds g.graph) (allEdges g.graph) T) (hm : m.suffix ≠ .none)
    (hv : v < g.graph.numVertices) {order : List (BoostEdge BasicEdge)}
    (hvisit : IsVisit g.graph T v order)
    (hzero : ∀ x, Joined (edgeEnds g.graph) T v x → s.depth x = 0 ∧ s.aggCost x = 0)
    (hroot : pRoot ≠ 0 → pRoot = g.vertexId v ∧ (m.roots ≠ [] → s.root = pRoot) ∧
      (m.roots = [] → (if m.getComponent then m.treeId.getD (m.components v) 0 else 0) =
        pRoot)) :
    (∀ x, ¬ Joined (edgeEnds g.graph) T v x →
      (order.foldl (m.addResult g pRoot) s).depth x = s.depth x ∧
      (order.foldl (m.addResult g pRoot) s).aggCost x = s.aggCost x) ∧
    ((¬ HasEdge g.graph T v ∧ (order.foldl (m.addResult g pRoot) s).results = s.results) ∨
      HasEdge g.graph T v ∧ ∃ r rows, Joined (edgeEnds g.graph) T v r ∧ (pRoot ≠ 0 → r = v) ∧
        (order.foldl (m.addResult g pRoot) s).results = s.results ++ rows ∧
        TreeRows g T m.withinLimit r rows) := by
  have hnil := hvisit.eq_nil_iff hT
  obtain ⟨seen, hvisit, hall⟩ := hvisit
  cases hvisit with
  | nil => exact ⟨fun x _ => ⟨rfl, rfl⟩, .inl ⟨hnil.mp rfl, rfl⟩⟩
  | @cons _ _ i e o order hi he ho hs ht hrest =>
    obtain rfl := Set.mem_singleton_iff.mp hs
    obtain ⟨hends, hbundle⟩ := either_way ho
    have hjoined : Joined (edgeEnds g.graph) T o.source o.target :=
      Joined.of_sameEnds (a := (o.source, o.target))
        (hends.symm.trans (.inl (edgeEnds_of_getElem? he).symm)) (joined_of_mem hi)
    have htlt : o.target < g.graph.numVertices := by
      have hbound := hg.ends e (List.mem_of_getElem? he)
      obtain ⟨_, h₂⟩ | ⟨h₁, _⟩ := hends.mem
      · exact h₂ ▸ hbound.2
      · exact h₁ ▸ hbound.1
    have hedge : HasEdge g.graph T o.source := by
      by_contra hno
      exact absurd (hnil.mpr hno) (List.cons_ne_nil _ _)
    -- The first edge fixes the root, which may be its target when no root is asked for.
    obtain ⟨r, w, hrw, hfirst⟩ := addResult_first (m := m) (g := g) (s := s) hm
      (hzero _ (.refl _)).1 (hzero _ hjoined).1 hroot
    have hr : Joined (edgeEnds g.graph) T o.source r ∧ r < g.graph.numVertices ∧
        (pRoot ≠ 0 → r = o.source) ∧ SameEnds (e.source, e.target) (r, w) ∧ w ∉ ({r} : Set Nat) ∧
        insert w {r} = (insert o.target {o.source} : Set Nat) := by
      obtain ⟨rfl, rfl⟩ | ⟨hp, rfl, rfl⟩ := hrw
      · exact ⟨.refl _, hv, fun _ => rfl, hends, ht, rfl⟩
      · refine ⟨hjoined, htlt, fun hne => absurd hp hne, hends.trans (.inr rfl), ?_, ?_⟩
        · exact fun hmem => ht (Set.mem_singleton_iff.mpr (Set.mem_singleton_iff.mp hmem).symm)
        · exact Set.pair_comm _ _
    obtain ⟨hvr, hrlt, hpr, hends', hwr, hpair⟩ := hr
    -- From there on every edge adds one vertex to the tree.
    have hstart : TreeState g T m r s _ {r} [] := TreeState.start_root hrlt (hzero r hvr).2
    obtain ⟨rows₁, h₁⟩ := hstart.addEdge hg hcost hm hi he hends' rfl hwr
    rw [hpair] at h₁
    obtain ⟨rows₂, h₂⟩ := h₁.visit pRoot hg hcost hm hrest
    rw [← hbundle, ← hfirst] at h₂
    refine ⟨fun x hx => ?_, .inr ⟨hedge, r, _, hvr, hpr, h₂.results, ?_⟩⟩
    · refine h₂.unseen x fun hmem => hx ?_
      obtain ⟨_, vs, hpath, _⟩ := h₂.path x hmem
      exact hvr.trans _ _ _ hpath.joined
    · exact h₂.treeRows hT.forest fun y hy => hall y (hvr.trans _ _ _ hy)

end PgRouting
