import PgRouting.Native.TrspHandler

/-!
# The graph of a turn restricted search

What the constructor of `TrspHandler` builds. The vertices are renumbered one to
one. Every edge carries, for either direction in which it can be traversed, the
list of the other edges that meet the node where the traversal ends; the adjacency
map lists the edges that meet a node.

A traversal is an edge with a slot: `rcEdge` leads from the start node to the end
node, `cEdge` back.

## Key results

- `renumberEdges_spec`: the ends of the rows are renumbered one to one
- `constructGraph_linked`: the edges are linked as their ends say
- `initializeRestrictions_eq`: the rule table lists the rules by their last edge
-/

namespace PgRouting

/-! ## Traversals of a row -/

namespace EdgeT

/-- The node where a traversal starts. -/
def entry (e : EdgeT) : Slot → Int
  | rcEdge => e.source
  | cEdge => e.target

/-- The node where a traversal ends. -/
def exit (e : EdgeT) : Slot → Int
  | rcEdge => e.target
  | cEdge => e.source

/-- The cost of a traversal; it is negative when the edge cannot be traversed so. -/
def slotCost (e : EdgeT) : Slot → ℚ
  | rcEdge => e.cost
  | cEdge => e.reverseCost

@[simp] theorem entry_rcEdge (e : EdgeT) : e.entry rcEdge = e.source := rfl
@[simp] theorem entry_cEdge (e : EdgeT) : e.entry cEdge = e.target := rfl
@[simp] theorem exit_rcEdge (e : EdgeT) : e.exit rcEdge = e.target := rfl
@[simp] theorem exit_cEdge (e : EdgeT) : e.exit cEdge = e.source := rfl
@[simp] theorem slotCost_rcEdge (e : EdgeT) : e.slotCost rcEdge = e.cost := rfl
@[simp] theorem slotCost_cEdge (e : EdgeT) : e.slotCost cEdge = e.reverseCost := rfl

/-- The edge meets the node. -/
def Meets (e : EdgeT) (node : Int) : Prop := e.source = node ∨ e.target = node

theorem meets_exit (e : EdgeT) (slot : Slot) : e.Meets (e.exit slot) := by
  cases slot
  · exact .inr rfl
  · exact .inl rfl

theorem meets_entry (e : EdgeT) (slot : Slot) : e.Meets (e.entry slot) := by
  cases slot
  · exact .inl rfl
  · exact .inr rfl

/-- The row with its ends renumbered. -/
def rename (ρ : Int → Int) (e : EdgeT) : EdgeT :=
  { e with source := ρ e.source, target := ρ e.target }

theorem Meets.rename (ρ : Int → Int) {e : EdgeT} {node : Int} (h : e.Meets node) :
    (e.rename ρ).Meets (ρ node) :=
  h.imp (congrArg ρ) (congrArg ρ)

@[simp] theorem id_rename (ρ : Int → Int) (e : EdgeT) : (e.rename ρ).id = e.id := rfl

@[simp] theorem entry_rename (ρ : Int → Int) (e : EdgeT) (slot : Slot) :
    (e.rename ρ).entry slot = ρ (e.entry slot) := by
  cases slot <;> rfl

@[simp] theorem exit_rename (ρ : Int → Int) (e : EdgeT) (slot : Slot) :
    (e.rename ρ).exit slot = ρ (e.exit slot) := by
  cases slot <;> rfl

@[simp] theorem slotCost_rename (ρ : Int → Int) (e : EdgeT) (slot : Slot) :
    (e.rename ρ).slotCost slot = e.slotCost slot := by
  cases slot <;> rfl

end EdgeT

namespace TrspGraph

/-! ## Renumbering -/

/-- `m_id_to_idx` and its inverse agree, and the indices below `idx` are in use. -/
structure Numbering (m : List (Int × Int)) (idx : Int) : Prop where
  inverse : ∀ x i, m.lookup x = some i ↔ (m.map fun (id, idx) => (idx, id)).lookup i = some x
  lt : ∀ x i, m.lookup x = some i → i < idx

theorem numbering_nil : Numbering [] 0 := ⟨by simp, by simp⟩

/-- The second map knows at least what the first one does. -/
def Extends (m m' : List (Int × Int)) : Prop := ∀ x i, m.lookup x = some i → m'.lookup x = some i

theorem renumberVertex_spec {m : List (Int × Int)} {idx : Int} (hm : Numbering m idx) (id : Int) :
    Numbering (renumberVertex m idx id).1 (renumberVertex m idx id).2 ∧
    Extends m (renumberVertex m idx id).1 ∧
    (∀ x, ((renumberVertex m idx id).1.lookup x).isSome ↔ (m.lookup x).isSome ∨ x = id) := by
  unfold renumberVertex
  split
  next hnone =>
    have hnone : m.lookup id = none := Option.isNone_iff_eq_none.mp hnone
    -- The next number has not been given to any vertex.
    have hfree : (m.map fun (id, idx) => (idx, id)).lookup idx = none := by
      cases h : (m.map fun (id, idx) => (idx, id)).lookup idx with
      | none => rfl
      | some x => exact absurd (hm.lt x idx ((hm.inverse x idx).mpr h)) (lt_irrefl _)
    have hlookup : ∀ x, (m ++ [(id, idx)]).lookup x =
        (m.lookup x).or (if x = id then some idx else none) := by
      intro x
      rw [List.lookup_append, List.lookup_singleton]
      simp [beq_iff_eq]
    have hinv : ∀ i, ((m ++ [(id, idx)]).map fun (id, idx) => (idx, id)).lookup i =
        ((m.map fun (id, idx) => (idx, id)).lookup i).or (if i = idx then some id else none) := by
      intro i
      rw [List.map_append, List.lookup_append, List.map_singleton, List.lookup_singleton]
      simp [beq_iff_eq]
    refine ⟨⟨fun x i => ?_, fun x i h => ?_⟩, fun x i h => ?_, fun x => ?_⟩
    · rw [hlookup, hinv]
      by_cases hx : x = id
      · subst hx
        rw [hnone]
        by_cases hi : i = idx
        · simp [hi, hfree]
        · simp only [if_true, if_neg hi, Option.none_or, Option.or_none, Option.some.injEq]
          refine ⟨fun h => absurd h.symm hi, fun h => ?_⟩
          rw [(hm.inverse x i).mpr h] at hnone
          cases hnone
      · by_cases hi : i = idx
        · subst hi
          rw [hfree]
          simp only [if_neg hx, if_true, Option.none_or, Option.or_none, Option.some.injEq]
          exact ⟨fun h => absurd (hm.lt x i h) (lt_irrefl _), fun h => absurd h.symm hx⟩
        · simp only [if_neg hx, if_neg hi, Option.or_none]
          exact hm.inverse x i
    · rw [hlookup] at h
      by_cases hx : x = id
      · subst hx
        rw [hnone, Option.none_or, if_pos rfl, Option.some.injEq] at h
        omega
      · rw [if_neg hx, Option.or_none] at h
        have := hm.lt x i h
        omega
    · rw [hlookup, h, Option.some_or]
    · rw [hlookup]
      by_cases hx : x = id <;> simp [hx]
  next hsome =>
    refine ⟨hm, fun _ _ h => h, fun x => ⟨.inl, ?_⟩⟩
    rintro (h | rfl)
    · exact h
    · cases hl : m.lookup x <;> simp_all

/-- The renumbering that a map describes. -/
def renumbering (m : List (Int × Int)) (id : Int) : Int := (m.lookup id).getD 0

/-- The rows are renumbered by the final map, which knows the ends of the rows. -/
theorem renumberEdges_spec {m : List (Int × Int)} {idx : Int} (hm : Numbering m idx)
    (es : List EdgeT) :
    (∃ idx', Numbering (renumberEdges m idx es).2 idx') ∧
    Extends m (renumberEdges m idx es).2 ∧
    (∀ x, ((renumberEdges m idx es).2.lookup x).isSome ↔
      (m.lookup x).isSome ∨ ∃ e ∈ es, e.Meets x) ∧
    (renumberEdges m idx es).1 =
      es.map (EdgeT.rename (renumbering (renumberEdges m idx es).2)) := by
  induction es generalizing m idx with
  | nil => exact ⟨⟨idx, hm⟩, fun _ _ h => h, by simp [renumberEdges], rfl⟩
  | cons e es ih =>
    obtain ⟨hm₁, hext₁, hknown₁⟩ := renumberVertex_spec hm e.source
    obtain ⟨hm₂, hext₂, hknown₂⟩ := renumberVertex_spec hm₁ e.target
    obtain ⟨hm₃, hext₃, hknown₃, hrows⟩ := ih hm₂
    simp only [renumberEdges]
    generalize (renumberVertex m idx e.source).2 = idx₁ at *
    generalize (renumberVertex m idx e.source).1 = m₁ at *
    generalize (renumberVertex m₁ idx₁ e.target).2 = idx₂ at *
    generalize (renumberVertex m₁ idx₁ e.target).1 = m₂ at *
    refine ⟨hm₃, fun x i h => hext₃ x i (hext₂ x i (hext₁ x i h)), fun x => ?_, ?_⟩
    · rw [hknown₃, hknown₂, hknown₁]
      simp only [List.mem_cons, exists_eq_or_imp, EdgeT.Meets, eq_comm (a := x), or_assoc]
    · -- The two ends of the first row keep the indices they get.
      have hkeep : ∀ x, (m₂.lookup x).isSome →
          renumbering (renumberEdges m₂ idx₂ es).2 x = (m₂.lookup x).getD 0 := by
        intro x hx
        obtain ⟨i, hi⟩ := Option.isSome_iff_exists.mp hx
        rw [renumbering, hext₃ x i hi, hi]
      rw [List.map_cons, hrows]
      simp only [EdgeT.rename, hkeep e.source ((hknown₂ _).mpr (.inl ((hknown₁ _).mpr (.inr rfl)))),
        hkeep e.target ((hknown₂ _).mpr (.inr rfl))]

/-! ## Linking edges -/

/-- `connect_endEdge` or `connect_startEdge`, for the node where a traversal ends. -/
def connect (slot : Slot) (j : Nat) (e : EdgeInfo) : EdgeInfo :=
  if slot then e.connectStartEdge j else e.connectEndEdge j

/-- `connectStartEdge` and `connectEndEdge`: link two edges at the node where the traversal
    `slot` of the first one ends. -/
def connectAt (slot : Slot) (firstIdx : Nat) (edges : List EdgeInfo) (secondIdx : Nat) :
    List EdgeInfo :=
  match edges[firstIdx]?, edges[secondIdx]? with
  | some firstEdge, some secondEdge =>
    let edges := if 0 ≤ firstEdge.edge.slotCost slot then
      edges.modify firstIdx (connect slot secondIdx) else edges
    let edges := if firstEdge.edge.exit slot = secondEdge.edge.exit cEdge ∧
        0 ≤ secondEdge.edge.slotCost cEdge then
      edges.modify secondIdx (connect cEdge firstIdx) else edges
    if firstEdge.edge.exit slot = secondEdge.edge.exit rcEdge ∧
        0 ≤ secondEdge.edge.slotCost rcEdge then
      edges.modify secondIdx (connect rcEdge firstIdx) else edges
  | _, _ => edges

theorem connectStartEdge_eq : connectStartEdge = connectAt cEdge := rfl

theorem connectEndEdge_eq : connectEndEdge = connectAt rcEdge := rfl

/-- The rows of the edges, with their indices. -/
def skeleton (edges : List EdgeInfo) : List (EdgeT × Nat) :=
  edges.map fun e => (e.edge, e.edgeIndex)

/-- The list of edges that the traversal `slot` of edge `i` leads to contains `j`. -/
def Link (edges : List EdgeInfo) (i : Nat) (slot : Slot) (j : Nat) : Prop :=
  ∃ e, edges[i]? = some e ∧ j ∈ e.getIdx slot

theorem mem_getIdx_connect {slot slot' : Slot} {e : EdgeInfo} {j k : Nat} :
    j ∈ (connect slot k e).getIdx slot' ↔ j ∈ e.getIdx slot' ∨ slot' = slot ∧ j = k := by
  cases slot <;> cases slot' <;>
    simp [connect, EdgeInfo.getIdx, EdgeInfo.connectStartEdge, EdgeInfo.connectEndEdge]

theorem skeleton_modify (edges : List EdgeInfo) (i : Nat) (slot : Slot) (j : Nat) :
    skeleton (edges.modify i (connect slot j)) = skeleton edges := by
  unfold skeleton
  refine List.ext_getElem? fun k => ?_
  rw [List.getElem?_map, List.getElem?_map, List.getElem?_modify, Option.map_eq_map,
    Option.map_map]
  congr 1
  funext e
  by_cases hik : i = k
  · cases slot <;> simp [hik, connect, EdgeInfo.connectStartEdge, EdgeInfo.connectEndEdge]
  · simp [hik]

theorem link_modify {edges : List EdgeInfo} {i k : Nat} {slot slot' : Slot} {j l : Nat} :
    Link (edges.modify k (connect slot l)) i slot' j ↔
      Link edges i slot' j ∨ (k < edges.length ∧ i = k ∧ slot' = slot ∧ j = l) := by
  unfold Link
  rw [List.getElem?_modify]
  by_cases hik : k = i
  · subst hik
    cases he : edges[k]? with
    | none =>
      have hlen := List.getElem?_eq_none_iff.mp he
      have hk : ¬ k < edges.length := by omega
      simp [hk]
    | some e =>
      have hlen := (List.getElem?_eq_some_iff.mp he).1
      simp [mem_getIdx_connect, hlen]
  · simp [hik, Ne.symm hik]

/-- What `connectAt` does: the first edge is linked to the second one, and the second one to
    the first for each of its traversals that ends at the same node. -/
theorem connectAt_spec {edges : List EdgeInfo} {first second : Nat} (slot : Slot)
    {e f : EdgeInfo} (he : edges[first]? = some e) (hf : edges[second]? = some f) :
    skeleton (connectAt slot first edges second) = skeleton edges ∧
    ∀ i slot' j, Link (connectAt slot first edges second) i slot' j ↔ Link edges i slot' j ∨
      (i = first ∧ slot' = slot ∧ j = second ∧ 0 ≤ e.edge.slotCost slot) ∨
      (i = second ∧ j = first ∧ e.edge.exit slot = f.edge.exit slot' ∧
        0 ≤ f.edge.slotCost slot') := by
  have hlen₁ := (List.getElem?_eq_some_iff.mp he).1
  have hlen₂ := (List.getElem?_eq_some_iff.mp hf).1
  -- One conditional link at a time.
  have hstep : ∀ (edges : List EdgeInfo) (c : Prop) [Decidable c] (k : Nat) (slot : Slot) (l : Nat),
      k < edges.length →
      (if c then edges.modify k (connect slot l) else edges).length = edges.length ∧
      skeleton (if c then edges.modify k (connect slot l) else edges) = skeleton edges ∧
      ∀ i slot' j, Link (if c then edges.modify k (connect slot l) else edges) i slot' j ↔
        Link edges i slot' j ∨ (c ∧ i = k ∧ slot' = slot ∧ j = l) := by
    intro edges c _ k slot l hk
    split
    · rename_i hc
      exact ⟨List.length_modify _ _ _, skeleton_modify _ _ _ _, fun i slot' j => by
        simp [link_modify, hk, hc]⟩
    · rename_i hc
      exact ⟨rfl, rfl, fun i slot' j => by simp [hc]⟩
  simp only [connectAt, he, hf]
  obtain ⟨h₁, hs₁, hl₁⟩ := hstep edges (0 ≤ e.edge.slotCost slot) first slot second hlen₁
  generalize (if 0 ≤ e.edge.slotCost slot then
    edges.modify first (connect slot second) else edges) = edges₁ at *
  obtain ⟨h₂, hs₂, hl₂⟩ := hstep edges₁ (e.edge.exit slot = f.edge.exit cEdge ∧
    0 ≤ f.edge.slotCost cEdge) second cEdge first (by omega)
  generalize (if e.edge.exit slot = f.edge.exit cEdge ∧ 0 ≤ f.edge.slotCost cEdge then
    edges₁.modify second (connect cEdge first) else edges₁) = edges₂ at *
  obtain ⟨-, hs₃, hl₃⟩ := hstep edges₂ (e.edge.exit slot = f.edge.exit rcEdge ∧
    0 ≤ f.edge.slotCost rcEdge) second rcEdge first (by omega)
  refine ⟨hs₃.trans (hs₂.trans hs₁), fun i slot' j => ?_⟩
  rw [hl₃, hl₂, hl₁]
  cases slot' <;> simp <;> tauto

/-- The edges have the given rows, and their own positions as indices. -/
theorem exists_edge {edges : List EdgeInfo} {rows : List EdgeT}
    (h : skeleton edges = rows.zipIdx) {i : Nat} {r : EdgeT} (hr : rows[i]? = some r) :
    ∃ e, edges[i]? = some e ∧ e.edge = r ∧ e.edgeIndex = i := by
  have hi := congrArg (·[i]?) h
  simp only [skeleton, List.getElem?_map, List.getElem?_zipIdx, hr, Option.map_some,
    Option.map_eq_some_iff, Prod.mk.injEq, Nat.zero_add] at hi
  exact hi

theorem row_of_edge {edges : List EdgeInfo} {rows : List EdgeT}
    (h : skeleton edges = rows.zipIdx) {i : Nat} {e : EdgeInfo} (he : edges[i]? = some e) :
    rows[i]? = some e.edge ∧ e.edgeIndex = i := by
  have hi := congrArg (·[i]?) h
  simp only [skeleton, List.getElem?_map, List.getElem?_zipIdx, he, Option.map_some] at hi
  obtain ⟨r, hr, heq⟩ := Option.map_eq_some_iff.mp hi.symm
  obtain ⟨hr', hidx⟩ := Prod.mk.inj heq
  exact ⟨by rw [hr, hr'], by omega⟩

/-- Linking an edge to all the edges of a list. -/
theorem connectAll_spec {edges : List EdgeInfo} {rows : List EdgeT} {first : Nat} {e : EdgeT}
    (slot : Slot) (h : skeleton edges = rows.zipIdx) (he : rows[first]? = some e) {l : List Nat}
    (hl : ∀ j ∈ l, j < rows.length) :
    skeleton (l.foldl (connectAt slot first) edges) = rows.zipIdx ∧
    ∀ i slot' j, Link (l.foldl (connectAt slot first) edges) i slot' j ↔ Link edges i slot' j ∨
      (i = first ∧ slot' = slot ∧ j ∈ l ∧ 0 ≤ e.slotCost slot) ∨
      (i ∈ l ∧ j = first ∧ ∃ f, rows[i]? = some f ∧ e.exit slot = f.exit slot' ∧
        0 ≤ f.slotCost slot') := by
  induction l generalizing edges with
  | nil => exact ⟨h, fun i slot' j => by simp⟩
  | cons k l ih =>
    obtain ⟨f, hf⟩ : ∃ f, rows[k]? = some f :=
      ⟨_, List.getElem?_eq_getElem (hl k List.mem_cons_self)⟩
    obtain ⟨e', he', rfl, _⟩ := exists_edge h he
    obtain ⟨f', hf', rfl, _⟩ := exists_edge h hf
    obtain ⟨hs, hlink⟩ := connectAt_spec slot he' hf'
    obtain ⟨hs', hlink'⟩ := ih (hs.trans h) fun j hj => hl j (List.mem_cons_of_mem _ hj)
    refine ⟨hs', fun i slot' j => ?_⟩
    rw [List.foldl_cons, hlink', hlink]
    -- `connectAt` speaks of the edge at `k`, the statement of the row that stands there.
    have hk : i = k → ((∃ f, rows[i]? = some f ∧ e'.edge.exit slot = f.exit slot' ∧
        0 ≤ f.slotCost slot') ↔ e'.edge.exit slot = f'.edge.exit slot' ∧
        0 ≤ f'.edge.slotCost slot') := by
      rintro rfl
      rw [hf]
      simp
    constructor
    · rintro ((h | ⟨rfl, rfl, rfl, hc⟩ | ⟨rfl, rfl, hc⟩) | ⟨rfl, rfl, hj, hc⟩ | ⟨hi, rfl, hc⟩)
      · exact .inl h
      · exact .inr (.inl ⟨rfl, rfl, List.mem_cons_self, hc⟩)
      · exact .inr (.inr ⟨List.mem_cons_self, rfl, (hk rfl).mpr hc⟩)
      · exact .inr (.inl ⟨rfl, rfl, List.mem_cons_of_mem _ hj, hc⟩)
      · exact .inr (.inr ⟨List.mem_cons_of_mem _ hi, rfl, hc⟩)
    · rintro (h | ⟨rfl, rfl, hj, hc⟩ | ⟨hi, rfl, hc⟩)
      · exact .inl (.inl h)
      · obtain rfl | hj := List.mem_cons.mp hj
        · exact .inl (.inr (.inl ⟨rfl, rfl, rfl, hc⟩))
        · exact .inr (.inl ⟨rfl, rfl, hj, hc⟩)
      · obtain rfl | hi := List.mem_cons.mp hi
        · exact .inl (.inr (.inr ⟨rfl, rfl, (hk rfl).mp hc⟩))
        · exact .inr (.inr ⟨hi, rfl, hc⟩)

/-! ## The whole graph -/

/-- The edges of the graph are the given rows; the traversals of an edge that are possible are
    linked to the other edges that meet the node where they end; and the adjacency map lists
    the edges that meet a node. -/
structure Linked (g : TrspGraph) (rows : List EdgeT) : Prop where
  edges : skeleton g.edges = rows.zipIdx
  links : ∀ i slot j, Link g.edges i slot j ↔ j ≠ i ∧ ∃ e f, rows[i]? = some e ∧
    rows[j]? = some f ∧ 0 ≤ e.slotCost slot ∧ f.Meets (e.exit slot)
  adjacent : ∀ v j, j ∈ (g.adjacency v).getD [] ↔ ∃ f, rows[j]? = some f ∧ f.Meets v
  known : ∀ v, (g.adjacency v).isSome ↔ ∃ f ∈ rows, f.Meets v

theorem link_append {edges : List EdgeInfo} {e : EdgeInfo} (he : ∀ slot, e.getIdx slot = [])
    {i : Nat} {slot : Slot} {j : Nat} : Link (edges ++ [e]) i slot j ↔ Link edges i slot j := by
  unfold Link
  constructor
  · rintro ⟨e', he', hj⟩
    rw [List.getElem?_append] at he'
    split at he'
    · exact ⟨e', he', hj⟩
    · obtain rfl := List.mem_singleton.mp (List.mem_of_getElem? he')
      rw [he slot] at hj
      cases hj
  · rintro ⟨e', he', hj⟩
    exact ⟨e', by rw [List.getElem?_append_left (List.getElem?_eq_some_iff.mp he').1, he'], hj⟩

/-- Adding an edge links it to the edges that are there already. -/
theorem addEdge_linked {g : TrspGraph} {rows : List EdgeT} (h : g.Linked rows) (directed : Bool)
    (edgeIn : EdgeT) : (g.addEdge directed edgeIn).Linked (rows ++ [readEdge directed edgeIn]) := by
  have hlen : g.edges.length = rows.length := by
    have := congrArg List.length h.edges
    simpa [skeleton] using this
  simp only [addEdge, connectStartEdge_eq, connectEndEdge_eq]
  generalize readEdge directed edgeIn = r
  have hlast : (rows ++ [r])[rows.length]? = some r := by simp
  have hskel : skeleton (g.edges ++ [{ edge := r, edgeIndex := g.edges.length }]) =
      (rows ++ [r]).zipIdx := by
    rw [skeleton, List.map_append, List.zipIdx_append]
    have := h.edges
    simp only [skeleton] at this
    rw [this, hlen]
    simp
  have hbound : ∀ v, ∀ j ∈ (g.adjacency v).getD [], j < (rows ++ [r]).length := by
    intro v j hj
    obtain ⟨f, hf, _⟩ := (h.adjacent v j).mp hj
    have := (List.getElem?_eq_some_iff.mp hf).1
    rw [List.length_append]
    omega
  rw [hlen]
  rw [hlen] at hskel
  -- The new edge is linked at its start first and then at its end.
  obtain ⟨hs₁, hl₁⟩ := connectAll_spec cEdge hskel hlast (hbound r.source)
  obtain ⟨hs₂, hl₂⟩ := connectAll_spec rcEdge hs₁ hlast (hbound r.target)
  -- A row of the new graph is an old one or the new one.
  have hget : ∀ i e, (rows ++ [r])[i]? = some e ↔
      rows[i]? = some e ∨ (i = rows.length ∧ r = e) := by
    intro i e
    rw [List.getElem?_append]
    split
    · rename_i hlt
      simp [hlt.ne]
    · rename_i hge
      rw [List.getElem?_singleton, List.getElem?_eq_none (by omega)]
      by_cases hi : i = rows.length
      · simp [hi]
      · have : i - rows.length ≠ 0 := by omega
        simp [hi, this]
  have hnone : ∀ e, ¬ rows[rows.length]? = some e := by simp
  constructor
  case edges => exact hs₂
  case links =>
    intro i slot j
    rw [hl₂, hl₁, link_append (fun slot => by cases slot <;> rfl), h.links, h.adjacent,
      h.adjacent, h.adjacent, h.adjacent]
    constructor
    · -- A link was there before, leads from the new edge or leads to it, at either end.
      rintro ((⟨hne, e, f, he, hf, hc⟩ | ⟨rfl, rfl, ⟨f, hf, hm⟩, hc⟩ |
        ⟨⟨f, hf, hm⟩, rfl, f', hf', hx, hc⟩) | ⟨rfl, rfl, ⟨f, hf, hm⟩, hc⟩ |
        ⟨⟨f, hf, hm⟩, rfl, f', hf', hx, hc⟩)
      · exact ⟨hne, e, f, (hget _ _).mpr (.inl he), (hget _ _).mpr (.inl hf), hc⟩
      · exact ⟨by rintro rfl; exact hnone _ hf, r, f, hlast, (hget _ _).mpr (.inl hf), hc, hm⟩
      · exact ⟨by rintro rfl; exact hnone _ hf, f', r, hf', hlast, hc, hx ▸ r.meets_exit cEdge⟩
      · exact ⟨by rintro rfl; exact hnone _ hf, r, f, hlast, (hget _ _).mpr (.inl hf), hc, hm⟩
      · exact ⟨by rintro rfl; exact hnone _ hf, f', r, hf', hlast, hc, hx ▸ r.meets_exit rcEdge⟩
    · rintro ⟨hne, e, f, he, hf, hc, hm⟩
      obtain he' | ⟨rfl, rfl⟩ := (hget _ _).mp he
      · obtain hf' | ⟨rfl, rfl⟩ := (hget _ _).mp hf
        · exact .inl (.inl ⟨hne, e, f, he', hf', hc, hm⟩)
        · -- An old edge that ends at one of the ends of the new edge.
          obtain hm | hm := hm
          · exact .inl (.inr (.inr ⟨⟨e, he', hm ▸ e.meets_exit slot⟩, rfl, e, he, hm, hc⟩))
          · exact .inr (.inr ⟨⟨e, he', hm ▸ e.meets_exit slot⟩, rfl, e, he, hm, hc⟩)
      · obtain hf' | ⟨rfl, rfl⟩ := (hget _ _).mp hf
        · cases slot
          · exact .inr (.inl ⟨rfl, rfl, ⟨f, hf', hm⟩, hc⟩)
          · exact .inl (.inr (.inl ⟨rfl, rfl, ⟨f, hf', hm⟩, hc⟩))
        · -- Both ends of the link are the new edge.
          exact absurd rfl hne
  case adjacent =>
    intro v j
    have hpush : ∀ (adj : Int → Option (List Nat)) (u : Int),
        j ∈ (pushAdjacency adj u rows.length v).getD [] ↔
          j ∈ (adj v).getD [] ∨ (v = u ∧ j = rows.length) := by
      intro adj u
      by_cases hv : v = u
      · subst hv
        simp [pushAdjacency]
      · simp [pushAdjacency, hv]
    rw [hpush, hpush, h.adjacent]
    simp only [hget, EdgeT.Meets]
    constructor
    · rintro ((⟨f, hf, hm⟩ | ⟨rfl, rfl⟩) | ⟨rfl, rfl⟩)
      · exact ⟨f, .inl hf, hm⟩
      · exact ⟨r, .inr ⟨rfl, rfl⟩, .inl rfl⟩
      · exact ⟨r, .inr ⟨rfl, rfl⟩, .inr rfl⟩
    · rintro ⟨f, hf | ⟨rfl, rfl⟩, hm⟩
      · exact .inl (.inl ⟨f, hf, hm⟩)
      · obtain rfl | rfl := hm
        · exact .inl (.inr ⟨rfl, rfl⟩)
        · exact .inr ⟨rfl, rfl⟩
  case known =>
    intro v
    have hpush : ∀ (adj : Int → Option (List Nat)) (u : Int),
        (pushAdjacency adj u rows.length v).isSome ↔ (adj v).isSome ∨ v = u := by
      intro adj u
      by_cases hv : v = u
      · subst hv
        simp [pushAdjacency]
      · simp [pushAdjacency, hv]
    rw [hpush, hpush, h.known]
    simp only [List.mem_append, List.mem_singleton, EdgeT.Meets, or_assoc, or_and_right, exists_or,
      exists_eq_left, eq_comm (a := v)]

/-- The graph of a list of rows. -/
theorem constructGraph_linked {g : TrspGraph} {rows : List EdgeT} (h : g.Linked rows)
    (directed : Bool) (es : List EdgeT) :
    (constructGraph directed g es).Linked (rows ++ es.map (readEdge directed)) := by
  induction es generalizing g rows with
  | nil => simpa [constructGraph] using h
  | cons e es ih =>
    have := ih (addEdge_linked h directed e)
    rwa [List.append_assoc] at this

/-- Adding edges leaves the other members alone. -/
theorem constructGraph_tables (directed : Bool) (g : TrspGraph) (es : List EdgeT) :
    (constructGraph directed g es).idToIdx = g.idToIdx ∧
    (constructGraph directed g es).idxToId = g.idxToId ∧
    (constructGraph directed g es).ruleTable = g.ruleTable := by
  induction es generalizing g with
  | nil => exact ⟨rfl, rfl, rfl⟩
  | cons e es ih => exact ih (g.addEdge directed e)

/-- The rule table lists the rules that end with an edge, in their order. -/
theorem initializeRestrictions_eq (rules : List Rule) (id : Int) :
    initializeRestrictions rules id = rules.filter (·.destId = id) := by
  suffices h : ∀ (table : Int → List Rule), rules.foldl (fun table rule =>
      Function.update table rule.destId (table rule.destId ++ [rule])) table id =
      table id ++ rules.filter (·.destId = id) from h _
  induction rules with
  | nil => simp
  | cons rule rules ih =>
    intro table
    rw [List.foldl_cons, ih]
    by_cases hid : rule.destId = id
    · subst hid
      simp
    · rw [Function.update_of_ne (Ne.symm hid)]
      simp [hid]

/-- Renumbering the ends of a row and reading it may be exchanged. -/
theorem readEdge_rename (directed : Bool) (ρ : Int → Int) (e : EdgeT) :
    readEdge directed (e.rename ρ) = (readEdge directed e).rename ρ := by
  by_cases hswap : e.cost < 0 ∧ 0 < e.reverseCost
  · cases directed <;> simp [readEdge, EdgeT.rename, hswap]
  · by_cases hcopy : e.reverseCost < 0
    · cases directed <;> simp [readEdge, EdgeT.rename, hswap, hcopy]
    · cases directed <;> simp [readEdge, EdgeT.rename, hswap, hcopy]

/-- What `addEdge` makes of a row: it turns it round, copies its cost or leaves it. -/
theorem readEdge_cases (directed : Bool) (e : EdgeT) :
    (e.cost < 0 ∧ 0 < e.reverseCost ∧ readEdge directed e =
      ⟨e.id, e.target, e.source, e.reverseCost, if directed then e.cost else e.reverseCost⟩) ∨
    (¬ (e.cost < 0 ∧ 0 < e.reverseCost) ∧ directed = false ∧ e.reverseCost < 0 ∧
      readEdge directed e = ⟨e.id, e.source, e.target, e.cost, e.cost⟩) ∨
    (¬ (e.cost < 0 ∧ 0 < e.reverseCost) ∧ (directed = true ∨ 0 ≤ e.reverseCost) ∧
      readEdge directed e = e) := by
  by_cases hswap : e.cost < 0 ∧ 0 < e.reverseCost
  · exact .inl ⟨hswap.1, hswap.2, by cases directed <;> simp [readEdge, hswap]⟩
  · by_cases hcopy : e.reverseCost < 0
    · cases directed
      · exact .inr (.inl ⟨hswap, rfl, hcopy, by simp [readEdge, hswap, hcopy]⟩)
      · exact .inr (.inr ⟨hswap, .inl rfl, by simp [readEdge, hswap]⟩)
    · exact .inr (.inr ⟨hswap, .inr (not_lt.mp hcopy), by simp [readEdge, hswap, hcopy]⟩)

/-- Reading a row keeps its id. -/
@[simp] theorem readEdge_id (directed : Bool) (e : EdgeT) : (readEdge directed e).id = e.id := by
  obtain ⟨_, _, h⟩ | ⟨_, _, _, h⟩ | ⟨_, _, h⟩ := readEdge_cases directed e <;> rw [h]

/-- Reading a row keeps its ends. -/
theorem readEdge_meets (directed : Bool) (e : EdgeT) (x : Int) :
    (readEdge directed e).Meets x ↔ e.Meets x := by
  obtain ⟨_, _, h⟩ | ⟨_, _, _, h⟩ | ⟨_, _, h⟩ := readEdge_cases directed e <;> rw [h]
  · exact or_comm
  · exact Iff.rfl

/-- What the constructor sets: the rows of the table, read and renumbered, are linked. -/
theorem new_spec (es : List EdgeT) (directed : Bool) (rules : List Rule) :
    let g := TrspGraph.new es directed rules
    g.Linked ((es.map (readEdge directed)).map (EdgeT.rename (renumbering g.idToIdx))) ∧
    (∃ idx, Numbering g.idToIdx idx) ∧ (∀ x, (g.idToIdx.lookup x).isSome ↔ ∃ e ∈ es, e.Meets x) ∧
    g.idxToId = g.idToIdx.map (fun (id, idx) => (idx, id)) ∧
    ∀ id, g.ruleTable id = rules.filter (·.destId = id) := by
  obtain ⟨hnum, _, hknown, hrows⟩ := renumberEdges_spec numbering_nil es
  intro g
  obtain ⟨hid, hidx, hrule⟩ := constructGraph_tables directed
    { idToIdx := (renumberEdges [] 0 es).2
      idxToId := (renumberEdges [] 0 es).2.map fun (id, idx) => (idx, id)
      ruleTable := initializeRestrictions rules } (renumberEdges [] 0 es).1
  have hg : g.idToIdx = (renumberEdges [] 0 es).2 := hid
  refine ⟨?_, hg ▸ hnum, fun x => ?_, ?_, fun id => ?_⟩
  · have hempty : TrspGraph.Linked
        { idToIdx := (renumberEdges [] 0 es).2
          idxToId := (renumberEdges [] 0 es).2.map fun (id, idx) => (idx, id)
          ruleTable := initializeRestrictions rules } [] :=
      ⟨rfl, by simp [Link], by simp, by simp⟩
    have hmap : (renumberEdges [] 0 es).1.map (readEdge directed) =
        (es.map (readEdge directed)).map (EdgeT.rename (renumbering g.idToIdx)) := by
      rw [hrows, hg, List.map_map, List.map_map]
      exact List.map_congr_left fun e _ => readEdge_rename directed _ e
    have hlinked := constructGraph_linked hempty directed (renumberEdges [] 0 es).1
    rw [List.nil_append, hmap] at hlinked
    exact hlinked
  · rw [hg, hknown]
    simp
  · rw [hg]
    exact hidx
  · rw [show g.ruleTable = initializeRestrictions rules from hrule]
    exact initializeRestrictions_eq rules id

end TrspGraph

end PgRouting
