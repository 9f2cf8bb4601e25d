import PgRouting.Native.Yen
import PgRouting.Spec.Route
import Mathlib.Data.List.Lex
import Mathlib.Data.Prod.Lex

/-!
# Parts of routes

A route is cut at one of its nodes into a root and the rest, and a root is continued by another
rest. Roots with the same nodes can be exchanged, so the root of a route that is the cheapest
with its nodes is the cheapest root with these.

The order of `compPathsLess` is that of the total costs, the sizes and the nodes, as long as
different total costs are far enough apart.

## Key results

- `IsRoute.drop`, `IsRoute.append`: the rest of a route, and a root with another rest
- `IsRoute.root_le`: the root of a cheapest route
- `compPathsLess_iff`: the order of the keys
-/

namespace PgRouting

namespace Path

variable {S S' : Int → Int → Int → ℚ → Prop} {s t : Int} {p q r : Path} {i : Nat} {row : PathT}

/-- The nodes of a path. -/
def nodes (p : Path) : List Int := p.path.map (·.node)

/-! ## Aggregate costs do not matter -/

/-- A row without its aggregate cost. -/
def bare (x : PathT) : PathT := { x with aggCost := 0 }

theorem recalculateLoop_bare (totCost : ℚ) (rows : List PathT) :
    (recalculateLoop totCost rows).1.map bare = rows.map bare := by
  induction rows generalizing totCost with
  | nil => rfl
  | cons x rest ih => simp [recalculateLoop, ih, bare]

theorem recalculateAggCost_bare (p : Path) :
    p.recalculateAggCost.path.map bare = p.path.map bare :=
  recalculateLoop_bare 0 p.path

/-- What does not depend on the aggregate costs is the same for rows that agree otherwise. -/
theorem map_eq_of_bare {α : Type} {f : PathT → α} (hf : ∀ x, f (bare x) = f x)
    {rows rows' : List PathT} (h : rows'.map bare = rows.map bare) : rows'.map f = rows.map f := by
  have hmap : ∀ l : List PathT, l.map f = (l.map bare).map f := by
    intro l
    rw [List.map_map]
    exact List.map_congr_left fun x _ => (hf x).symm
  rw [hmap rows', hmap rows, h]

/-- A route stays a route when aggregate costs change. -/
theorem IsRoute.of_bare (h : IsRoute S s t p) (hs : q.startId = s) (ht : q.endId = t)
    (hrows : q.path.map bare = p.path.map bare) : IsRoute S s t q := by
  obtain ⟨rows, agg, hne, hp⟩ := h.shape
  constructor
  case startId => exact hs
  case endId => exact ht
  case shape =>
    rw [hp, List.map_append] at hrows
    obtain ⟨rows', last, hq, hrows', hlast⟩ := List.map_eq_append_iff.mp hrows
    obtain ⟨x, rest, rfl, hx, hrest⟩ := List.map_eq_cons_iff.mp hlast
    obtain rfl : rest = [] := List.map_eq_nil_iff.mp hrest
    refine ⟨rows', x.aggCost, fun hnil => hne ?_, ?_⟩
    · rw [hnil] at hrows'
      exact List.map_eq_nil_iff.mp hrows'.symm
    · have hx' : x = ⟨t, -1, 0, x.aggCost⟩ := by
        obtain ⟨node, edge, cost, aggCost⟩ := x
        simp only [bare, PathT.mk.injEq] at hx
        simp [hx]
      rw [hq, ← hx']
  case head =>
    rw [← List.head?_map, map_eq_of_bare (fun _ => rfl) hrows, List.head?_map, h.head]
  case joined =>
    have hbare : ∀ l : List PathT, (l.map bare).IsChain (fun x y => S x.node x.edge y.node x.cost) ↔
        l.IsChain fun x y => S x.node x.edge y.node x.cost := fun l => List.isChain_map bare
    rw [← hbare, hrows, hbare]
    exact h.joined
  case nodup =>
    rw [map_eq_of_bare (fun _ => rfl) hrows]
    exact h.nodup

/-- Recalculating its costs gives a route its total cost. -/
theorem IsRoute.recalculate (h : IsRoute S s t p) : IsRoute S s t p.recalculateAggCost :=
  h.of_bare h.startId h.endId (recalculateAggCost_bare p)

theorem recalculateAggCost_nodes (p : Path) : p.recalculateAggCost.nodes = p.nodes :=
  map_eq_of_bare (fun _ => rfl) (recalculateAggCost_bare p)

/-! ## Cutting and joining -/

theorem getSubpath_path (p : Path) (i : Nat) : (p.getSubpath i).path = p.path.take i := by
  have hfold := foldl_pushBack id (p.path.take i) (.new p.startId p.endId)
  simp only [id_eq, List.map_id] at hfold
  rw [getSubpath, hfold]
  rfl

theorem getSubpath_ends (p : Path) (i : Nat) :
    (p.getSubpath i).startId = p.startId ∧ (p.getSubpath i).endId = p.endId := by
  have hfold := foldl_pushBack id (p.path.take i) (.new p.startId p.endId)
  simp only [id_eq, List.map_id] at hfold
  rw [getSubpath, hfold]
  exact ⟨rfl, rfl⟩

/-- The rest of a path from a row on. -/
def rest (p : Path) (i : Nat) (row : PathT) : Path := ⟨p.path.drop i, row.node, p.endId, 0⟩

/-- The rest of a route from a node before its end is a route. -/
theorem IsRoute.drop (h : IsRoute S s t p) (hi : p.path[i]? = some row)
    (hlt : i + 1 < p.path.length) : IsRoute S row.node t (p.rest i row) := by
  obtain ⟨rows, agg, hne, hp⟩ := h.shape
  constructor
  case startId => rfl
  case endId => exact h.endId
  case shape =>
    have hlen : i < rows.length := by
      rw [hp, List.length_append, List.length_singleton] at hlt
      omega
    refine ⟨rows.drop i, agg, ?_, ?_⟩
    · intro hnil
      have hzero := List.drop_eq_nil_iff.mp hnil
      omega
    · rw [rest, hp, List.drop_append_of_le_length hlen.le]
  case head => rw [rest, List.head?_drop, hi, Option.map_some]
  case joined => exact h.joined.drop i
  case nodup =>
    rw [rest, List.map_drop]
    exact (List.drop_sublist i _).nodup h.nodup

/-- The row before another one leads to its node. -/
theorem IsRoute.step_getElem (h : IsRoute S s t p) {x y : PathT} (hx : p.path[i]? = some x)
    (hy : p.path[i + 1]? = some y) : S x.node x.edge y.node x.cost := by
  obtain ⟨hi, rfl⟩ := List.getElem?_eq_some_iff.mp hy
  obtain ⟨_, rfl⟩ := List.getElem?_eq_some_iff.mp hx
  exact List.isChain_iff_getElem.mp h.joined i hi

/-- The root of a route continued by a route from its next node, when they have no node in
    common. -/
theorem IsRoute.append (h : IsRoute S s t p) (hi : p.path[i]? = some row)
    (hr : IsRoute S row.node t r) (hdisj : ∀ x ∈ p.path.take i, x.node ∉ r.nodes) (c : ℚ) :
    IsRoute S s t ⟨p.path.take i ++ r.path, s, t, c⟩ := by
  obtain ⟨rows, agg, hne, hpath⟩ := hr.shape
  constructor
  case startId => rfl
  case endId => rfl
  case shape =>
    refine ⟨p.path.take i ++ rows, agg, ?_, ?_⟩
    · exact fun hnil => hne (List.append_eq_nil_iff.mp hnil).2
    · rw [hpath, List.append_assoc]
  case head =>
    cases i with
    | zero =>
      have hhead := h.head
      rw [List.head?_eq_getElem?, hi, Option.map_some] at hhead
      rw [List.take_zero, List.nil_append, hr.head, hhead]
    | succ i =>
      have hhead := h.head
      obtain ⟨x, xs, hxs⟩ := List.exists_cons_of_ne_nil h.ne_nil
      rw [hxs] at hhead ⊢
      exact hhead
  case joined =>
    apply List.isChain_append.mpr ⟨h.joined.take i, hr.joined, ?_⟩
    intro x hx y hy
    -- The last row of the root is joined to the row where it is left.
    have hlast : ∃ j, i = j + 1 ∧ p.path[j]? = some x := by
      cases i with
      | zero => simp at hx
      | succ j =>
        have hlt : j + 1 < p.path.length := (List.getElem?_eq_some_iff.mp hi).1
        rw [List.getLast?_take, if_neg (by omega), Option.mem_def] at hx
        simp only [Nat.add_sub_cancel] at hx
        rw [List.getElem?_eq_getElem (by omega), Option.some_or] at hx
        exact ⟨j, rfl, by rw [List.getElem?_eq_getElem (by omega), hx]⟩
    obtain ⟨j, rfl, hj⟩ := hlast
    have hnode : y.node = row.node := by
      have hhead := hr.head
      rw [Option.mem_def.mp hy] at hhead
      exact Option.some.inj hhead
    rw [hnode]
    exact h.step_getElem hj hi
  case nodup =>
    rw [List.map_append]
    refine List.nodup_append.mpr ⟨?_, hr.nodup, ?_⟩
    · rw [List.map_take]
      exact (List.take_sublist i _).nodup h.nodup
    · intro a ha b hb hab
      obtain ⟨x, hx, rfl⟩ := List.mem_map.mp ha
      exact hdisj x hx (hab ▸ hb)

/-- So is what `append_path` makes of them. -/
theorem IsRoute.appendPath (h : IsRoute S s t p) (hi : p.path[i]? = some row)
    (hr : IsRoute S row.node t r) (hdisj : ∀ x ∈ p.path.take i, x.node ∉ r.nodes) :
    IsRoute S s t ((p.getSubpath i).appendPath r) := by
  obtain ⟨hstart, hend⟩ := p.getSubpath_ends i
  refine (h.append hi hr hdisj 0).of_bare (hstart.trans h.startId) (hend.trans h.endId) ?_
  rw [Path.appendPath, recalculateAggCost_bare, getSubpath_path]

theorem appendPath_nodes (p r : Path) (i : Nat) :
    ((p.getSubpath i).appendPath r).nodes = p.nodes.take i ++ r.nodes := by
  rw [Path.appendPath, recalculateAggCost_nodes]
  simp [nodes, getSubpath_path]

/-- The total cost of a continued root is the sum of the costs of its rows. -/
theorem appendPath_cost (p r : Path) (i : Nat) :
    ((p.getSubpath i).appendPath r).totCost =
        ((p.path.take i).map (·.cost)).sum + r.rowsCost ∧
      ((p.getSubpath i).appendPath r).rowsCost =
        ((p.path.take i).map (·.cost)).sum + r.rowsCost := by
  have hsum : rowsCost { p.getSubpath i with path := (p.getSubpath i).path ++ r.path } =
      ((p.path.take i).map (·.cost)).sum + r.rowsCost := by
    simp [rowsCost, getSubpath_path]
  obtain ⟨htot, hrows⟩ :=
    recalculateAggCost_spec { p.getSubpath i with path := (p.getSubpath i).path ++ r.path }
  exact ⟨htot.trans hsum, hrows.trans hsum⟩

/-- The cost of a path is that of its root and that of the rest. -/
theorem rowsCost_split (p : Path) (i : Nat) (row : PathT) :
    p.rowsCost = ((p.path.take i).map (·.cost)).sum + (p.rest i row).rowsCost := by
  rw [rowsCost, rowsCost, rest, ← List.sum_append, ← List.map_append, List.take_append_drop]

/-! ## Routes by their nodes -/

theorem IsRoute.nodes_eq (h : IsRoute S s t p) : ∃ l, p.nodes = l ++ [t] ∧ t ∉ l ∧ l ≠ [] := by
  obtain ⟨rows, agg, hne, hp⟩ := h.shape
  have hnodup := h.nodup
  rw [hp, List.map_append] at hnodup
  refine ⟨rows.map (·.node), by rw [nodes, hp, List.map_append]; rfl, fun hmem => ?_, ?_⟩
  · have hdisj := (List.nodup_append.mp hnodup).2.2 t hmem t (by simp)
    exact hdisj rfl
  · exact fun hnil => hne (List.map_eq_nil_iff.mp hnil)

/-- All routes start with the same node. -/
theorem IsRoute.start_prefix (h : IsRoute S s t p) : [s] <+: p.nodes := by
  obtain ⟨x, xs, hxs⟩ := List.exists_cons_of_ne_nil h.ne_nil
  have hhead := h.head
  rw [hxs] at hhead
  rw [nodes, hxs]
  exact ⟨xs.map (·.node), by rw [← Option.some.inj hhead]; rfl⟩

/-- No route is a proper prefix of another one. -/
theorem IsRoute.nodes_eq_of_prefix (h : IsRoute S s t p) (h' : IsRoute S' s t q)
    (hpre : p.nodes <+: q.nodes) : p.nodes = q.nodes := by
  obtain ⟨l, hl, _, _⟩ := h.nodes_eq
  obtain ⟨l', hl', ht', _⟩ := h'.nodes_eq
  obtain ⟨m, hm⟩ := hpre
  rw [hl, hl'] at hm
  by_cases hnil : m = []
  · rw [hl, hl', ← hm, hnil, List.append_nil]
  · -- The end would be met before the last node.
    obtain ⟨m', x, rfl⟩ := (List.eq_nil_or_concat m).resolve_left hnil
    rw [List.concat_eq_append, ← List.append_assoc] at hm
    obtain ⟨hinit, _⟩ := List.append_inj' hm rfl
    exact absurd (hinit ▸ (by simp : t ∈ l ++ [t] ++ m')) ht'

/-- The route is as cheap as all routes with its nodes. -/
def Cheapest (S : Int → Int → Int → ℚ → Prop) (s t : Int) (p : Path) : Prop :=
  ∀ q, IsRoute S s t q → q.nodes = p.nodes → p.rowsCost ≤ q.rowsCost

/-- The root of a cheapest route is as cheap as every root with the same nodes. -/
theorem IsRoute.root_le (h : IsRoute S s t p) (hcheap : Cheapest S s t p)
    (hq : IsRoute S s t q) (hi : i + 1 < p.path.length)
    (hroot : p.nodes.take (i + 1) = q.nodes.take (i + 1)) :
    ((p.path.take i).map (·.cost)).sum ≤ ((q.path.take i).map (·.cost)).sum := by
  obtain ⟨x, hx⟩ : ∃ x, p.path[i]? = some x := ⟨_, List.getElem?_eq_getElem (by omega)⟩
  have hnode : ∀ j ≤ i, q.nodes[j]? = p.nodes[j]? := by
    intro j hj
    have hget := congrArg (·[j]?) hroot
    simpa [List.getElem?_take, Nat.lt_succ_of_le hj] using hget.symm
  obtain ⟨y, hy, hxy⟩ : ∃ y, q.path[i]? = some y ∧ y.node = x.node := by
    have hget := hnode i (le_refl i)
    rw [nodes, nodes, List.getElem?_map, List.getElem?_map, hx, Option.map_some] at hget
    obtain ⟨y, hy, hxy⟩ := Option.map_eq_some_iff.mp hget
    exact ⟨y, hy, hxy⟩
  -- The root of `q` is continued by the rest of `p`.
  have hrest : IsRoute S y.node t (p.rest i x) := hxy.symm ▸ h.drop hx hi
  have htake : (q.path.take i).map (·.node) = p.nodes.take i := by
    have heq := congrArg (List.take i) hroot
    rw [List.take_take, List.take_take, Nat.min_eq_left (Nat.le_succ i)] at heq
    rw [List.map_take]
    exact heq.symm
  have hdisj : ∀ z ∈ q.path.take i, z.node ∉ (p.rest i x).nodes := by
    intro z hz hmem
    have hz' : z.node ∈ p.nodes.take i := htake ▸ List.mem_map_of_mem hz
    have hnodup : (p.nodes.take i ++ p.nodes.drop i).Nodup := by
      rw [List.take_append_drop]
      exact h.nodup
    rw [nodes, rest, List.map_drop] at hmem
    exact (List.nodup_append.mp hnodup).2.2 z.node hz' z.node hmem rfl
  have hroute := hq.append hy hrest hdisj 0
  have hnodes : nodes ⟨q.path.take i ++ (p.rest i x).path, s, t, 0⟩ = p.nodes := by
    rw [nodes, List.map_append, htake, rest, List.map_drop]
    exact List.take_append_drop i p.nodes
  have hle := hcheap _ hroute hnodes
  have hcost : rowsCost ⟨q.path.take i ++ (p.rest i x).path, s, t, 0⟩ =
      ((q.path.take i).map (·.cost)).sum + (p.rest i x).rowsCost := by
    simp [rowsCost]
  rw [hcost, p.rowsCost_split i x] at hle
  exact le_of_add_le_add_right hle

/-! ## The order of paths -/

/-- What `compPathsLess` compares: the total cost, the size and the nodes. -/
def key (p : Path) : ℚ ×ₗ Nat ×ₗ List Int :=
  toLex (p.totCost, toLex (p.path.length, p.nodes))

/-- The comparison can tell the total costs apart when they are different. -/
def Apart (p q : Path) : Prop :=
  p.totCost = q.totCost ∨ epsilon ≤ |q.totCost - p.totCost|

theorem nodesLess_iff (rows rows' : List PathT) (hlen : rows.length = rows'.length) :
    nodesLess rows rows' = true ↔ rows.map (·.node) < rows'.map (·.node) := by
  induction rows generalizing rows' with
  | nil =>
    obtain rfl := List.length_eq_zero_iff.mp hlen.symm
    simp [nodesLess]
  | cons x rows ih =>
    cases rows' with
    | nil => cases hlen
    | cons y rows' =>
      rw [nodesLess, List.map_cons, List.map_cons, List.cons_lt_cons_iff,
        ← ih rows' (Nat.succ.inj hlen)]
      obtain hlt | heq | hgt := lt_trichotomy x.node y.node
      · simp [hlt, hlt.not_gt]
      · simp [heq]
      · simp [hgt, hgt.not_gt, hgt.ne']

/-- `compPathsLess` is the order of the keys, when the total costs are far enough apart. -/
theorem compPathsLess_iff (h : Apart p q) : ComparesKeys compPathsLess key p q := by
  rw [ComparesKeys, key, key, Prod.Lex.toLex_lt_toLex, Prod.Lex.toLex_lt_toLex]
  by_cases heq : p.totCost = q.totCost
  · simp only [compPathsLess, heq, lt_irrefl]
    obtain hlt | hlen | hgt := lt_trichotomy p.path.length q.path.length
    · simp [hlt, hlt.not_gt]
    · simp [hlen, nodesLess_iff _ _ hlen, nodes]
    · simp [hgt, hgt.not_gt, hgt.ne']
  · have hfar : ¬ |q.totCost - p.totCost| < epsilon := not_lt.mpr (h.resolve_left heq)
    simp only [compPathsLess, hfar, heq]
    obtain hlt | hgt := lt_or_gt_of_ne heq
    · simp [hlt, hlt.not_gt]
    · simp [hgt, hgt.not_gt]

theorem totCost_le_of_key_lt (h : key p < key q) : p.totCost ≤ q.totCost := by
  rw [key, key, Prod.Lex.toLex_lt_toLex] at h
  obtain hlt | ⟨heq, _⟩ := h
  · exact hlt.le
  · exact heq.le

theorem nodes_eq_of_key_eq (h : key p = key q) : p.nodes = q.nodes := by
  have hpair := congrArg (fun k => (ofLex (ofLex k).2).2) h
  exact hpair

end Path

end PgRouting
