import PgRouting.Spec.Disconnected
import PgRouting.Spec.RouteParts
import PgRouting.Lib.Deviations

/-!
# The spurs of a cycle

At each node of the last path the cycle disconnects the edges by which the paths found so far
leave the common root, and the vertices of the root. The routes that are left from that node to
the end are the rests of the routes that deviate there from all paths found.

## Key results

- `StandsFor.exists_route`: the routes of a graph that keeps a cheapest step between any nodes
- `graph_spur`: the graph of a spur, by the calls that disconnect it
- `spur_route`, `spur_rest`: the routes of that graph
-/

namespace PgRouting

open PgrBaseGraph Path

namespace Path

variable {S S' : Int → Int → Int → ℚ → Prop} {s t : Int} {r : Path} {x : PathT}

/-- The rows of a route are ends of its steps. -/
theorem IsRoute.exists_step (hr : IsRoute S s t r)
    (hx : x ∈ r.path) :
    ∃ y z : PathT, S y.node y.edge z.node y.cost ∧ (x = y ∨ x = z) := by
  obtain ⟨k, hk, rfl⟩ := List.getElem_of_mem hx
  obtain ⟨rows, agg, hne, hp⟩ := hr.shape
  have hlen : 2 ≤ r.path.length := by
    have hpos := List.length_pos_iff.mpr hne
    rw [hp, List.length_append, List.length_singleton]
    omega
  by_cases hlast : k + 1 < r.path.length
  · exact ⟨_, _, hr.step_getElem (List.getElem?_eq_getElem hk) (List.getElem?_eq_getElem hlast),
      .inl rfl⟩
  · obtain ⟨j, rfl⟩ : ∃ j, k = j + 1 := ⟨k - 1, by omega⟩
    exact ⟨_, _, hr.step_getElem (List.getElem?_eq_getElem (by omega))
      (List.getElem?_eq_getElem hk), .inr rfl⟩

/-- A route goes along other steps when its own ones are among them. -/
theorem IsRoute.of_steps (hr : IsRoute S s t r)
    (hS : ∀ k x y, r.path[k]? = some x → r.path[k + 1]? = some y →
      S x.node x.edge y.node x.cost → S' x.node x.edge y.node x.cost) : IsRoute S' s t r where
  startId := hr.startId
  endId := hr.endId
  shape := hr.shape
  head := hr.head
  joined := by
    rw [List.isChain_iff_getElem]
    intro k hk
    have hx : r.path[k]? = some r.path[k] := List.getElem?_eq_getElem (by omega)
    have hy : r.path[k + 1]? = some r.path[k + 1] := List.getElem?_eq_getElem hk
    exact hS k _ _ hx hy (hr.step_getElem hx hy)
  nodup := hr.nodup

/-- Where each step can be replaced by one that costs no more, so can all rows. -/
theorem exists_cheaper_rows (hS : ∀ i id j c, i ≠ j → S i id j c → ∃ id' c', S' i id' j c' ∧ c' ≤ c)
    (rows : List PathT) (last : PathT)
    (hjoined : (rows ++ [last]).IsChain fun x y => S x.node x.edge y.node x.cost)
    (hnodup : ((rows ++ [last]).map (·.node)).Nodup) :
    ∃ rows', (rows' ++ [last]).IsChain (fun x y => S' x.node x.edge y.node x.cost) ∧
      rows'.map (·.node) = rows.map (·.node) ∧
      (rows'.map (·.cost)).sum ≤ (rows.map (·.cost)).sum := by
  induction rows with
  | nil => exact ⟨[], List.isChain_singleton _, rfl, le_refl _⟩
  | cons x rows ih =>
    rw [List.cons_append, List.isChain_cons] at hjoined
    rw [List.cons_append, List.map_cons, List.nodup_cons] at hnodup
    obtain ⟨rows', hjoined', hnodes, hsum⟩ := ih hjoined.2 hnodup.2
    obtain ⟨y, rest, hy⟩ : ∃ y rest, rows ++ [last] = y :: rest :=
      List.exists_cons_of_ne_nil (List.append_ne_nil_of_right_ne_nil _ (List.cons_ne_nil _ _))
    have hne : x.node ≠ y.node := by
      intro hxy
      refine hnodup.1 ?_
      rw [hy, hxy]
      exact List.mem_cons_self
    obtain ⟨id', c', hstep, hle⟩ := hS _ _ _ _ hne (hjoined.1 y (by rw [hy]; rfl))
    refine ⟨{ x with edge := id', cost := c' } :: rows', ?_, ?_, ?_⟩
    · rw [List.cons_append, List.isChain_cons]
      refine ⟨fun z hz => ?_, hjoined'⟩
      -- The row that follows has the node that followed before, so the step is one of `S'`.
      have hmap := congrArg (fun l => (l ++ [last.node]).head?) hnodes
      have hz' : ((rows' ++ [last]).map (·.node)).head? = some z.node := by
        rw [List.head?_map, hz]
        rfl
      have hy' : ((rows ++ [last]).map (·.node)).head? = some y.node := by
        rw [hy]
        rfl
      rw [List.map_append] at hz' hy'
      have hnode : z.node = y.node := Option.some.inj (hz'.symm.trans (hmap.trans hy'))
      rw [hnode]
      exact hstep
    · rw [List.map_cons, List.map_cons, hnodes]
    · rw [List.map_cons, List.map_cons, List.sum_cons, List.sum_cons]
      exact add_le_add hle hsum

end Path

namespace PgrBaseGraph

variable {g h : PgrBaseGraph BasicVertex BasicEdge} {s t : Int} {r : Path}

/-- A graph whose steps are some of those of `g`, a cheapest one from each node to each other. -/
structure StandsFor (g h : PgrBaseGraph BasicVertex BasicEdge) : Prop where
  map : h.verticesMap = g.verticesMap
  step : ∀ i id j c, h.Step i id j c → g.Step i id j c
  cheaper : ∀ i id j c, i ≠ j → g.Step i id j c → ∃ id' c', h.Step i id' j c' ∧ c' ≤ c

theorem Same.standsFor (hsame : Same g h) :
    StandsFor g h where
  map := hsame.map
  step _ _ _ _ hstep := hsame.step ▸ hstep
  cheaper _ id _ c _ hstep := ⟨id, c, hsame.step ▸ hstep, le_refl c⟩

theorem StandsFor.route_of (hstands : StandsFor g h) (hr : Path.IsRoute h.Step s t r) :
    Path.IsRoute g.Step s t r :=
  hr.of_steps fun _ _ _ _ _ hstep => hstands.step _ _ _ _ hstep

/-- Some route of the graph has the nodes of the given one, and costs no more. -/
theorem StandsFor.exists_route (hstands : StandsFor g h) (hr : Path.IsRoute g.Step s t r) :
    ∃ r', Path.IsRoute h.Step s t r' ∧ r'.nodes = r.nodes ∧ r'.rowsCost ≤ r.rowsCost := by
  obtain ⟨rows, agg, hne, hshape⟩ := hr.shape
  have hjoined := hr.joined
  have hnodup := hr.nodup
  have hhead := hr.head
  rw [hshape] at hjoined hnodup hhead
  obtain ⟨rows', hjoined', hnodes, hsum⟩ :=
    exists_cheaper_rows hstands.cheaper rows _ hjoined hnodup
  have hmap : (rows' ++ [(⟨t, -1, 0, agg⟩ : PathT)]).map (·.node) =
      (rows ++ [(⟨t, -1, 0, agg⟩ : PathT)]).map (·.node) := by
    rw [List.map_append, List.map_append, hnodes]
  have hne' : rows' ≠ [] := by
    rintro rfl
    exact hne (List.map_eq_nil_iff.mp hnodes.symm)
  refine ⟨⟨rows' ++ [⟨t, -1, 0, agg⟩], s, t, 0⟩,
    ⟨rfl, rfl, ⟨rows', agg, hne', rfl⟩, ?_, hjoined', hmap ▸ hnodup⟩, ?_, ?_⟩
  · rw [← List.head?_map] at hhead ⊢
    rw [hmap]
    exact hhead
  · rw [nodes, nodes, hshape]
    exact hmap
  · rw [rowsCost, rowsCost, hshape, List.map_append, List.map_append, List.sum_append,
      List.sum_append]
    exact add_le_add hsum (le_refl _)

end PgrBaseGraph

namespace Ksp

variable {σ : Type} {g h : PgrBaseGraph BasicVertex BasicEdge} {s t : Int} {i : Nat}
variable {curr p q r : Path} {R : List Path} {x y : PathT} {st : Ksp σ}

/-- The node that follows the root in a path that starts with it. -/
def spurNode (π : List Int) (p : Path) : Option Int :=
  if π.isPrefixOf p.nodes then p.nodes[π.length]? else none

/-- The nodes that follow the root in paths that start with it. -/
def spurNodes (π : List Int) (R : List Path) : List Int := R.filterMap (spurNode π)

/-- The calls that a cycle makes for the spur at a position. -/
def spurOps (curr : Path) (R : List Path) (i : Nat) : List Disconnect :=
  (spurNodes (curr.nodes.take (i + 1)) R).map (.edge ((curr.nodes[i]?).getD 0)) ++
    (curr.nodes.take i).map .vertex

theorem mem_spurNodes {π : List Int} {a : Int} :
    a ∈ spurNodes π R ↔ ∃ p ∈ R, π ++ [a] <+: p.nodes := by
  have hiff : ∀ p : Path, spurNode π p = some a ↔ π ++ [a] <+: p.nodes := by
    intro p
    rw [spurNode]
    constructor
    · intro h
      split at h
      · rename_i hpre
        obtain ⟨l, hl⟩ := List.isPrefixOf_iff_prefix.mp hpre
        rw [← hl, List.getElem?_append_right (le_refl _), Nat.sub_self] at h
        cases l with
        | nil => cases h
        | cons b l =>
          rw [← hl, ← Option.some.inj h]
          exact ⟨l, by simp⟩
      · cases h
    · intro h
      rw [if_pos (List.isPrefixOf_iff_prefix.mpr ((List.prefix_append π [a]).trans h))]
      obtain ⟨l, hl⟩ := h
      rw [← hl, List.append_assoc, List.getElem?_append_right (le_refl _), Nat.sub_self]
      rfl
  rw [spurNodes, List.mem_filterMap]
  exact exists_congr fun p => and_congr_right fun _ => hiff p

/-- The nodes of a path up to a row. -/
theorem nodes_take_succ (hx : p.path[i]? = some x) :
    p.nodes.take (i + 1) = p.nodes.take i ++ [x.node] := by
  rw [List.take_add_one, nodes, List.getElem?_map, hx]
  rfl

/-- What the cycle does for one of the paths found so far. -/
theorem disconnectSpur_cases (hx : curr.path[i]? = some x) (graph) (p : Path) :
    (∃ a, spurNode (curr.nodes.take (i + 1)) p = some a ∧
      disconnectSpur (curr.getSubpath i) x.node i graph p = graph.disconnectEdge x.node a) ∨
    spurNode (curr.nodes.take (i + 1)) p = none ∧
      disconnectSpur (curr.getSubpath i) x.node i graph p = graph := by
  obtain ⟨hi, -⟩ := List.getElem?_eq_some_iff.mp hx
  have hlen : (curr.nodes.take (i + 1)).length = i + 1 := by
    rw [List.length_take, nodes, List.length_map]
    omega
  rw [spurNode, hlen, disconnectSpur]
  by_cases hp : i + 1 < p.path.length
  · have hz : p.path[i]? = some p.path[i] := List.getElem?_eq_getElem (by omega)
    have hy : p.path[i + 1]? = some p.path[i + 1] := List.getElem?_eq_getElem hp
    have hnode : p.nodes[i + 1]? = some p.path[i + 1].node := by
      rw [nodes, List.getElem?_map, hy]
      rfl
    -- The path starts with the root, of which the spur node is the last one.
    have hiff : (p.isEqual (curr.getSubpath i) ∧ x.node = p.path[i].node) ↔
        (curr.nodes.take (i + 1)).isPrefixOf p.nodes = true := by
      have htake : (p.path.take (curr.path.take i).length).map (·.node) = p.nodes.take i := by
        rw [List.length_take, Nat.min_eq_left hi.le, nodes, List.map_take]
      have hequal : p.isEqual (curr.getSubpath i) = true ↔
          p.nodes.take i = curr.nodes.take i := by
        rw [isEqual, getSubpath_path]
        by_cases hzero : i = 0
        · simp [hzero]
        · have hne : (curr.path.take i).isEmpty = false := by
            rw [List.isEmpty_eq_false_iff, ← List.length_pos_iff, List.length_take]
            omega
          have hlong : ¬ p.path.length ≤ (curr.path.take i).length := by
            rw [List.length_take]
            omega
          rw [hne, if_neg Bool.false_ne_true, if_neg hlong, htake]
          simp [nodes, List.map_take]
      rw [hequal, List.isPrefixOf_iff_prefix, List.prefix_iff_eq_take, hlen,
        nodes_take_succ hx, nodes_take_succ hz]
      constructor
      · intro h
        rw [h.1, h.2]
      · intro h
        obtain ⟨hroot, hlast⟩ := List.append_inj' h rfl
        exact ⟨hroot.symm, List.singleton_inj.mp hlast⟩
    rw [hz, hy, hnode]
    simp only
    by_cases hpre : (curr.nodes.take (i + 1)).isPrefixOf p.nodes = true
    · obtain ⟨hequal, heq⟩ := hiff.mpr hpre
      refine .inl ⟨_, if_pos hpre, ?_⟩
      rw [if_pos ⟨hequal, heq⟩, heq]
    · exact .inr ⟨if_neg hpre, if_neg fun h => hpre (hiff.mp h)⟩
  · have hy : p.path[i + 1]? = none := List.getElem?_eq_none (by omega)
    have hnode : p.nodes[i + 1]? = none := by
      rw [nodes, List.getElem?_map, hy]
      rfl
    refine .inr ⟨?_, ?_⟩
    · rw [hnode, ite_self]
    · rw [hy]
      cases p.path[i]? <;> rfl

/-- The graph of a spur, by the calls that disconnect it. -/
theorem graph_spur (hx : curr.path[i]? = some x) (graph) :
    removeVertices (R.foldl (disconnectSpur (curr.getSubpath i) x.node i) graph)
      (curr.getSubpath i) = graph.disconnectAll (spurOps curr R i) := by
  have hnode : (curr.nodes[i]?).getD 0 = x.node := by
    rw [nodes, List.getElem?_map, hx]
    rfl
  have hedges : ∀ graph : PgrBaseGraph BasicVertex BasicEdge,
      R.foldl (disconnectSpur (curr.getSubpath i) x.node i) graph =
        graph.disconnectAll ((spurNodes (curr.nodes.take (i + 1)) R).map (.edge x.node)) := by
    induction R with
    | nil => exact fun _ => rfl
    | cons p R ih =>
      intro graph
      rw [List.foldl_cons, ih, spurNodes, spurNodes]
      obtain ⟨a, ha, hspur⟩ | ⟨hnone, hspur⟩ := disconnectSpur_cases hx graph p
      · rw [List.filterMap_cons_some ha, hspur]
        rfl
      · rw [List.filterMap_cons_none hnone, hspur]
  have htake : curr.nodes.take i = (curr.path.take i).map (·.node) := List.map_take.symm
  rw [spurOps, hnode, disconnectAll, List.foldl_append, removeVertices, getSubpath_path, hedges,
    disconnectAll, htake, List.foldl_map, List.foldl_map, List.foldl_map]
  rfl

/-! ## The routes of a spur -/

/-- A route of the graph of a spur avoids the root, and deviates from the paths found so far. -/
theorem spur_route (hg : h.Consistent) (hwf : h.WellFormed) (hx : curr.path[i]? = some x)
    (hr : Path.IsRoute (h.disconnectAll (spurOps curr R i)).Step x.node t r) :
    Path.IsRoute h.Step x.node t r ∧ (∀ y ∈ curr.path.take i, y.node ∉ r.nodes) ∧
      ∀ p ∈ R, ¬ curr.nodes.take i ++ r.nodes.take 2 <+: p.nodes := by
  have hnode : (curr.nodes[i]?).getD 0 = x.node := by
    rw [nodes, List.getElem?_map, hx]
    rfl
  have hstep : ∀ {a id b c}, (h.disconnectAll (spurOps curr R i)).Step a id b c →
      h.Step a id b c ∧ ∀ op ∈ spurOps curr R i, ¬ Blocks h.graph.directed op a id b :=
    fun hstep => (step_disconnectAll hg hwf _).mp hstep
  refine ⟨hr.of_steps fun k a b _ _ hab => (hstep hab).1, fun y hy hmem => ?_, fun p hp hpre => ?_⟩
  · obtain ⟨z, hz, hzy⟩ := List.mem_map.mp hmem
    obtain ⟨a, b, hab, hends⟩ := hr.exists_step hz
    have hop : Disconnect.vertex y.node ∈ spurOps curr R i := by
      refine List.mem_append_right _ (List.mem_map_of_mem ?_)
      rw [nodes, ← List.map_take]
      exact List.mem_map_of_mem hy
    refine (hstep hab).2 _ hop ?_
    obtain rfl | rfl := hends
    · exact .inl hzy
    · exact .inr hzy
  · -- A path found so far that goes on alike would have had its edge taken out.
    obtain ⟨rows, agg, hne, hshape⟩ := hr.shape
    obtain ⟨a, rest, ha⟩ := List.exists_cons_of_ne_nil hne
    have hfirst : r.path[0]? = some a := by
      rw [hshape, ha]
      rfl
    obtain ⟨b, hb⟩ : ∃ b, r.path[1]? = some b := by
      rw [hshape, ha]
      cases rest with
      | nil => exact ⟨_, rfl⟩
      | cons b rest => exact ⟨b, rfl⟩
    have hax : a.node = x.node := by
      have hhead := hr.head
      rw [List.head?_eq_getElem?, hfirst] at hhead
      exact Option.some.inj hhead
    have htwo : r.nodes.take 2 = [x.node, b.node] := by
      have hsucc := nodes_take_succ hb
      have hone := nodes_take_succ hfirst
      rw [List.take_zero, List.nil_append] at hone
      rw [hsucc, hone, hax]
      rfl
    have hop : Disconnect.edge x.node b.node ∈ spurOps curr R i := by
      rw [spurOps, hnode]
      refine List.mem_append_left _ (List.mem_map_of_mem (mem_spurNodes.mpr ⟨p, hp, ?_⟩))
      rw [nodes_take_succ hx, List.append_assoc]
      rw [htwo] at hpre
      exact hpre
    exact (hstep (hr.step_getElem hfirst hb)).2 _ hop (.inl ⟨hax, rfl⟩)

/-- The rest of a route that deviates from the paths found so far is a route of the graph of the
    spur. -/
theorem spur_rest (hg : h.Consistent) (hwf : h.WellFormed) (hx : curr.path[i]? = some x)
    (hq : Path.IsRoute h.Step s t q) (hdev : Deviates nodes R (curr.nodes.take (i + 1)) q) :
    ∃ y, q.path[i]? = some y ∧ y.node = x.node ∧ i + 1 < q.path.length ∧
      Path.IsRoute (h.disconnectAll (spurOps curr R i)).Step x.node t (q.rest i y) := by
  have hnode : (curr.nodes[i]?).getD 0 = x.node := by
    rw [nodes, List.getElem?_map, hx]
    rfl
  obtain ⟨hi, -⟩ := List.getElem?_eq_some_iff.mp hx
  obtain ⟨a, hpre, hnew⟩ := hdev
  have hlen : (curr.nodes.take (i + 1)).length = i + 1 := by
    rw [List.length_take, nodes, List.length_map]
    omega
  have hlt : i + 1 < q.path.length := by
    have hle := hpre.length_le
    rw [List.length_append, hlen, List.length_singleton, nodes, List.length_map] at hle
    omega
  -- The route has the nodes of the current path up to the spur node and goes on to `a`.
  have hroot : q.nodes.take (i + 1) = curr.nodes.take (i + 1) := by
    have hpre' := (List.prefix_append (curr.nodes.take (i + 1)) [a]).trans hpre
    rw [List.prefix_iff_eq_take, hlen] at hpre'
    exact hpre'.symm
  have hy : q.path[i]? = some q.path[i] := List.getElem?_eq_getElem (by omega)
  have hyx : q.path[i].node = x.node := by
    rw [nodes_take_succ hx, nodes_take_succ hy] at hroot
    exact List.singleton_inj.mp (List.append_inj' hroot rfl).2
  have hnext : ∀ z : PathT, q.path[i + 1]? = some z → z.node = a := by
    intro z hz
    obtain ⟨l, hl⟩ := hpre
    have hget : q.nodes[i + 1]? = some z.node := by
      rw [nodes, List.getElem?_map, hz]
      rfl
    rw [← hl, List.append_assoc, List.getElem?_append_right (by omega), hlen, Nat.sub_self] at hget
    exact (Option.some.inj hget).symm
  -- A route has no node twice, so a row is known by its node.
  have hinj : ∀ (j k : Nat) (y z : PathT), q.path[j]? = some y → q.path[k]? = some z →
      y.node = z.node → j = k := by
    intro j k y z hj hk hyz
    obtain ⟨hj, rfl⟩ := List.getElem?_eq_some_iff.mp hj
    obtain ⟨hk, rfl⟩ := List.getElem?_eq_some_iff.mp hk
    have hj' : j < (q.path.map (·.node)).length := by rwa [List.length_map]
    have hk' : k < (q.path.map (·.node)).length := by rwa [List.length_map]
    have heq : (q.path.map (·.node))[j] = (q.path.map (·.node))[k] := by
      rw [List.getElem_map, List.getElem_map]
      exact hyz
    exact hq.nodup.getElem_inj_iff.mp heq
  have hrest := hq.drop hy hlt
  refine ⟨_, hy, hyx, hlt, ?_⟩
  rw [hyx] at hrest
  -- Each step of the rest is still there after everything has been disconnected.
  refine hrest.of_steps fun k y z hk hk' hstep => ?_
  rw [rest, List.getElem?_drop] at hk hk'
  refine (step_disconnectAll hg hwf _).mpr ⟨hstep, fun op hop hblock => ?_⟩
  obtain hop | hop := List.mem_append.mp hop
  · -- The edge to a node by which one of the paths leaves the root.
    obtain ⟨w, hw, rfl⟩ := List.mem_map.mp hop
    rw [hnode] at hblock
    obtain ⟨p, hp, hpre'⟩ := mem_spurNodes.mp hw
    obtain ⟨hyx', hzw⟩ | ⟨_, _, hzx⟩ := hblock
    · obtain rfl : k = 0 := by
        have heq := hinj _ _ _ _ hk hy (hyx'.trans hyx.symm)
        omega
      exact hnew p hp ((hnext z hk').symm.trans hzw ▸ hpre')
    · have heq := hinj _ _ _ _ hk' hy (hzx.trans hyx.symm)
      omega
  · obtain ⟨w, hw, rfl⟩ := List.mem_map.mp hop
    -- A vertex of the root, which the rest does not visit again.
    have hw' : w ∈ q.nodes.take i := by
      have htake := congrArg (List.take i) hroot
      rw [List.take_take, List.take_take, Nat.min_eq_left (Nat.le_succ i)] at htake
      rw [htake]
      exact hw
    rw [nodes, ← List.map_take] at hw'
    obtain ⟨v, hv, hvw⟩ := List.mem_map.mp hw'
    obtain ⟨j, hj, hjv⟩ := List.mem_take_iff_getElem.mp hv
    have hjq : q.path[j]? = some v := by
      rw [← hjv]
      exact List.getElem?_eq_getElem _
    obtain hyw | hzw := hblock
    · have heq := hinj _ _ _ _ hjq hk (hvw.trans hyw.symm)
      omega
    · have heq := hinj _ _ _ _ hjq hk' (hvw.trans hzw.symm)
      omega

end Ksp

end PgRouting
