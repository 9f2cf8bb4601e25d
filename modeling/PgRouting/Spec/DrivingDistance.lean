import PgRouting.Native.DrivingDistance
import PgRouting.Spec.SearchVisits
import PgRouting.Lib.ParentTree
import Mathlib.Tactic.NormNum.Ineq

/-!
# The trees of the driving distance

The search from a root leaves a tree of predecessors, in which every vertex within the distance
hangs. `get_depth` goes down this tree level by level, and `remove_details` compacts it, so that
the points in it are passed over. The rows have been made before that: without details their
costs and depths are those of the compacted tree, and their predecessors those of the tree that
the search has left.

## Key results

- `dijkstra1ToDistance_spec`: the tree of one search
- `removeDetails_spec`: the compacted tree
- `getDepthLoop_spec`: the depths are the levels of the tree
- `drivingDistanceNoEquicost_consistentTree_iff`: when the rows agree with the tree
-/

namespace PgRouting

variable {V E : Type} [TEdge E]

/-- What `boost::dijkstra_shortest_paths` does with the vertices that it has not examined: a
    label is the weight of a walk, and a vertex with a predecessor has a label and got both from
    a vertex that has been examined. -/
structure BoostVisits.Labels (g : AdjacencyList V E) (s : Nat) (r : BoostVisits) : Prop where
  walk : ∀ k v (d : ℚ), r.distances k v = d → Walk g.Arc s v d
  predecessor : ∀ k v, r.predecessors k v ≠ v →
    r.predecessors k v ∈ r.examined.take k ∧ r.distances k v ≠ ⊤

/-! ## One search -/

/-- The visitor has let all calls pass, or has thrown at one with a vertex too far away. -/
theorem distanceCalls_spec (goal : ℚ) (visits : BoostVisits) (l : List Nat) :
    ∀ calls, distanceCalls goal visits l calls = calls + l.length ∨
      ∃ l₁ u l₂, l = l₁ ++ u :: l₂ ∧
        distanceCalls goal visits l calls = calls + l₁.length + 1 ∧
        (goal : WithTop ℚ) < visits.distances (calls + l₁.length + 1) u := by
  induction l with
  | nil =>
    intro calls
    exact .inl rfl
  | cons u rest ih =>
    intro calls
    rw [distanceCalls]
    split
    · exact .inr ⟨[], u, rest, rfl, rfl, ‹_›⟩
    · obtain h | ⟨l₁, x, l₂, hl, hcalls, hfar⟩ := ih (calls + 1)
      · left
        rw [h, List.length_cons]
        omega
      · have hadd : calls + (u :: l₁).length + 1 = calls + 1 + l₁.length + 1 := by
          rw [List.length_cons]
          omega
        refine .inr ⟨u :: l₁, x, l₂, by rw [hl, List.cons_append], ?_, ?_⟩
        · rw [hcalls, hadd]
        · rwa [hadd]

namespace BoostVisits

variable {g : AdjacencyList V E} {r : BoostVisits} {s v k : Nat}

/-- The source is the first to be examined. -/
theorem Documented.source_mem (h : r.Documented g s) (hk : k ≠ 0) : s ∈ r.examined.take k := by
  obtain ⟨n, rfl⟩ := Nat.exists_eq_succ_of_ne_zero hk
  have hfirst := h.first
  cases hex : r.examined with
  | nil =>
    rw [hex] at hfirst
    cases hfirst
  | cons u tail =>
    rw [hex] at hfirst
    rw [Option.some.inj hfirst, List.take_succ_cons]
    exact List.mem_cons_self

end BoostVisits

/-- A vertex of a tree has a level in every part of the tree that goes up to the source. -/
theorem TreePath.exists_level {A : Nat → Nat → ℚ → Prop} {P : Nat → Nat} {D : Nat → WithTop ℚ}
    {W : Nat → Prop} {s v : Nat} {l : List Nat} (h : TreePath A P D s l v)
    (hup : ∀ u v w, A u v w → D v = D u + (w : ℚ) → W v → W u) (hv : W v) :
    ∃ k, Level P W s v k := by
  induction h with
  | source => exact ⟨0, .root⟩
  | @step l u v w htree hnew hp harc hd ih =>
    obtain ⟨k, hk⟩ := ih (hup u v w harc hd hv)
    have hne : P v ≠ v := by
      intro heq
      apply hnew
      rw [← heq, hp]
      exact htree.mem
    exact ⟨k + 1, .child hne hv (hp.symm ▸ hk)⟩

/-- The vertices that a search has to find. -/
def Within (A : Nat → Nat → ℚ → Prop) (s : Nat) (distance : ℚ) (v : Nat) : Prop :=
  ∃ d ≤ distance, IsDist A s v d

/-- The tree that a search up to a distance leaves. -/
structure SearchedTo (g : AdjacencyList V E) (s : Nat) (distance : ℚ) (P : Nat → Nat)
    (D : Nat → WithTop ℚ) : Prop where
  source : P s = s
  start : D s ≤ distance
  within : ∀ v, D v ≤ distance ↔ Within g.Arc s distance v
  exact : ∀ v, D v ≤ distance → ∃ d : ℚ, D v = d ∧ IsDist g.Arc s v d
  level : ∀ v, D v ≤ distance → ∃ k, Level P (D · ≤ distance) s v k
  arc : ∀ v, D v ≤ distance → v ≠ s → ∃ w : ℚ, g.Arc (P v) v w ∧ D v = D (P v) + w
  above : ∀ v, P v ≠ v → ∃ k, Level P (D · ≠ ⊤) s v k
  lt : ∀ v, D v ≠ ⊤ → v < g.numVertices

/-- What the search finds is in the graph. -/
theorem SearchedTo.lt_of_le {g : AdjacencyList V E} {s v : Nat} {distance : ℚ} {P : Nat → Nat}
    {D : Nat → WithTop ℚ} (h : SearchedTo g s distance P D) (hv : D v ≤ distance) :
    v < g.numVertices :=
  h.lt v (ne_top_of_le_ne_top WithTop.coe_ne_top hv)

namespace DrivingDistance

variable {boost : BoostDijkstraVisits V E} {g : PgrBaseGraph V E} {distance : ℚ} {a v : Nat}

/-- The number of calls of `examine_vertex` in the search from a root. -/
def searchCalls (boost : BoostDijkstraVisits V E) (g : AdjacencyList V E) (distance : ℚ)
    (root : Nat) : Nat :=
  distanceCalls distance (boost g root) (boost g root).examined 0

/-- The predecessors when the search from a root stops. -/
def searchTree (boost : BoostDijkstraVisits V E) (g : AdjacencyList V E) (distance : ℚ)
    (root : Nat) : Nat → Nat :=
  (boost g root).predecessors (searchCalls boost g distance root)

section Search

variable (hdoc : (boost g.graph a).Documented g.graph a)

include hdoc

theorem searchCalls_ne_zero : searchCalls boost g.graph distance a ≠ 0 := by
  obtain h | ⟨l₁, _, _, _, h, _⟩ :=
    distanceCalls_spec distance (boost g.graph a) (boost g.graph a).examined 0
  · have hmem : a ∈ (boost g.graph a).examined := List.mem_of_mem_take (hdoc.source_mem one_ne_zero)
    have hlen := List.length_pos_of_mem hmem
    rw [searchCalls, h]
    omega
  · rw [searchCalls, h]
    omega

/-- The vertex at which the visitor throws is too far away, and all that come later are. -/
theorem mem_take_of_within (hv : Within g.graph.Arc a distance v) :
    v ∈ (boost g.graph a).examined.take (searchCalls boost g.graph distance a) := by
  obtain ⟨d, hle, hd⟩ := hv
  have hexam : v ∈ (boost g.graph a).examined := (hdoc.reached v).mpr hd.reachable
  obtain h | ⟨l₁, u, l₂, hl, h, hfar⟩ :=
    distanceCalls_spec distance (boost g.graph a) (boost g.graph a).examined 0
  · rwa [searchCalls, h, Nat.zero_add, List.take_length]
  · rw [← h] at hfar
    rw [searchCalls]
    generalize distanceCalls distance (boost g.graph a) (boost g.graph a).examined 0 = calls
      at h hfar ⊢
    have htake : (boost g.graph a).examined.take calls = l₁ ++ [u] := by
      have happ : (boost g.graph a).examined = (l₁ ++ [u]) ++ l₂ := by simp [hl]
      have hlen : calls = (l₁ ++ [u]).length := by simp [h]
      rw [happ, hlen, List.take_left]
    by_contra hnot
    have hmem : v ∈ l₂ := by
      rw [htake] at hnot
      rw [hl] at hexam
      simp only [List.mem_append, List.mem_cons, List.not_mem_nil, or_false] at hexam hnot
      tauto
    obtain ⟨c, hc, hdist⟩ := hdoc.label (k := calls) (v := u) (by rw [htake]; simp)
    have hord := hdoc.ordered
    rw [hl] at hord
    have hcd : c ≤ d :=
      (List.pairwise_cons.mp (List.pairwise_append.mp hord).2.1).1 v hmem c d hdist hd
    rw [hc] at hfar
    exact absurd (hcd.trans hle) (not_le.mpr (WithTop.coe_lt_coe.mp hfar))

/-- When the search stops, the labels up to the distance are those of the vertices within it. -/
theorem label_le_iff (hlabels : (boost g.graph a).Labels g.graph a) :
    (boost g.graph a).distances (searchCalls boost g.graph distance a) v ≤ distance ↔
      Within g.graph.Arc a distance v := by
  constructor
  · intro hle
    obtain ⟨d, hd⟩ : ∃ d : ℚ,
        (d : WithTop ℚ) = (boost g.graph a).distances (searchCalls boost g.graph distance a) v :=
      WithTop.ne_top_iff_exists.mp (ne_top_of_le_ne_top WithTop.coe_ne_top hle)
    have hwalk := hlabels.walk _ v d hd.symm
    have hexam : v ∈ (boost g.graph a).examined := (hdoc.reached v).mpr ⟨d, hwalk⟩
    obtain ⟨d', hd'⟩ := DijkstraNear.exists_isDist hdoc hexam
    rw [← hd] at hle
    exact ⟨d', (hd'.le hwalk).trans (WithTop.coe_le_coe.mp hle), hd'⟩
  · intro hv
    obtain ⟨d, hle, hd⟩ := hv
    exact (hdoc.distance _ v (mem_take_of_within hdoc ⟨d, hle, hd⟩) d hd.walk).trans
      (WithTop.coe_le_coe.mpr hle)

variable [TVertex V]

/-- The search finds what is within the distance, in a tree of shortest paths. -/
theorem dijkstra1ToDistance_spec (hg : g.Consistent) (hcost : ∀ u v w, g.graph.Arc u v w → 0 ≤ w)
    (ha : a < g.graph.vertices.length) (hlabels : (boost g.graph a).Labels g.graph a)
    (hpos : 0 < distance) :
    ∃ D, dijkstra1ToDistance boost g.graph a distance =
        some (searchTree boost g.graph distance a, D) ∧
      SearchedTo g.graph a distance (searchTree boost g.graph distance a) D := by
  have hsearch : dijkstra1ToDistance boost g.graph a distance =
      some (searchTree boost g.graph distance a,
        (boost g.graph a).distances (searchCalls boost g.graph distance a)) := by
    rw [dijkstra1ToDistance, if_pos hpos]
    rfl
  refine ⟨_, hsearch, ?_⟩
  -- The search is stopped once a label exceeds the distance: those within it are final.
  have hwithin : ∀ v, (boost g.graph a).distances (searchCalls boost g.graph distance a) v ≤
      distance ↔ Within g.graph.Arc a distance v := fun v => label_le_iff hdoc hlabels
  have hnear : ∀ v, Within g.graph.Arc a distance v →
      v ∈ (boost g.graph a).examined.take (searchCalls boost g.graph distance a) :=
    fun v hv => mem_take_of_within hdoc hv
  have hcalls : searchCalls boost g.graph distance a ≠ 0 := searchCalls_ne_zero hdoc
  have hsource := hdoc.source_mem hcalls
  rw [searchTree]
  generalize searchCalls boost g.graph distance a = k at hwithin hnear hsource ⊢
  -- Going up a tree the labels do not grow.
  have hdown : ∀ (u v : Nat) (w : ℚ), g.graph.Arc u v w →
      (boost g.graph a).distances k v = (boost g.graph a).distances k u + (w : ℚ) →
      (boost g.graph a).distances k u ≤ (boost g.graph a).distances k v := by
    intro u v w harc hd
    rw [hd]
    exact le_add_of_nonneg_right (WithTop.coe_nonneg.mpr (hcost u v w harc))
  constructor
  case source => exact hdoc.source k
  case start =>
    obtain ⟨l, _, htree⟩ := hdoc.tree k a hsource
    cases htree with
    | source h =>
      rw [h]
      exact WithTop.coe_nonneg.mpr hpos.le
    | step htree hnew => exact absurd htree.source_mem hnew
  case within => exact hwithin
  case exact =>
    intro v hv
    exact hdoc.label (hnear v ((hwithin v).mp hv))
  case level =>
    intro v hv
    obtain ⟨l, _, htree⟩ := hdoc.tree k v (hnear v ((hwithin v).mp hv))
    exact htree.exists_level (fun u v w harc hd hle => (hdown u v w harc hd).trans hle) hv
  case arc =>
    intro v hv hva
    obtain ⟨l, _, htree⟩ := hdoc.tree k v (hnear v ((hwithin v).mp hv))
    cases htree with
    | source => exact absurd rfl hva
    | @step l u _ w htree _ hp harc hd => exact ⟨w, hp.symm ▸ harc, hp.symm ▸ hd⟩
  -- A vertex that was only discovered hangs under an examined one.
  case above =>
    intro v hv
    obtain ⟨hexam, hfinite⟩ := hlabels.predecessor k v hv
    obtain ⟨l, _, htree⟩ := hdoc.tree k _ hexam
    obtain ⟨d, hd, _⟩ := hdoc.label hexam
    obtain ⟨j, hj⟩ := htree.exists_level (W := ((boost g.graph a).distances k · ≠ ⊤))
      (fun u v w harc hd hne => ne_top_of_le_ne_top hne (hdown u v w harc hd))
      (by rw [hd]; exact WithTop.coe_ne_top)
    exact ⟨j + 1, .child hv hfinite hj⟩
  case lt =>
    intro v hv
    obtain ⟨d, hd⟩ := WithTop.ne_top_iff_exists.mp hv
    have hwalk := hlabels.walk k v d hd.symm
    exact hwalk.closed (C := (· < g.graph.vertices.length))
      (fun u v w harc _ => (hg.arc_lt harc).2) ha

end Search

/-! ## The depths -/

variable [TVertex V] {P : Nat → Nat} {D : Nat → WithTop ℚ}

omit [TEdge E] [TVertex V] in
theorem mem_verticesNext {p : Nat} :
    p ∈ verticesNext g D P distance v ↔
      p < g.graph.numVertices ∧ P p ≠ p ∧ D p ≤ distance ∧ P p = v := by
  simp [verticesNext]

omit [TEdge E] [TVertex V] in
/-- What is below the vertices of one level is the next level. -/
theorem mem_flatMap_verticesNext {vertices : List Nat} {j : Nat}
    (hlt : ∀ v, D v ≤ distance → v < g.graph.numVertices)
    (hlevel : ∀ v, v ∈ vertices ↔ Level P (D · ≤ distance) a v j) (v : Nat) :
    v ∈ vertices.flatMap (verticesNext g D P distance) ↔
      Level P (D · ≤ distance) a v (j + 1) := by
  rw [List.mem_flatMap]
  constructor
  · intro h
    obtain ⟨u, hu, hv⟩ := h
    obtain ⟨_, hne, hle, hp⟩ := mem_verticesNext.mp hv
    exact .child hne hle (hp.symm ▸ (hlevel u).mp hu)
  · intro h
    cases h with
    | child hne hle up =>
      exact ⟨P v, (hlevel _).mpr up, mem_verticesNext.mpr ⟨hlt v hle, hne, hle, rfl⟩⟩

/-- The depths are the levels below `d`. -/
def DepthsBelow (g : PgrBaseGraph V E) (P : Nat → Nat) (W : Nat → Prop) (a d : Nat)
    (depth : DepthMap) : Prop :=
  ∀ i k, depth i = some k ↔ ∃ v, ∃ j < d, i = g.vertexId v ∧ k = (j : Int) ∧ Level P W a v j

omit [TEdge E] in
/-- The depth that a round gives to the vertices it has found. -/
theorem foldl_update_depth (d : Int) (found : List Nat) (i : Int) (depth : DepthMap) :
    found.foldl (fun depth p => Function.update depth (g.vertexId p) (some d)) depth i =
      if ∃ p ∈ found, g.vertexId p = i then some d else depth i := by
  induction found generalizing depth with
  | nil => simp
  | cons p rest ih =>
    rw [List.foldl_cons, ih]
    by_cases hrest : ∃ q ∈ rest, g.vertexId q = i
    · simp [hrest]
    · by_cases hp : g.vertexId p = i
      · simp [hp]
      · simp [hrest, hp, Function.update_of_ne (Ne.symm hp)]

section Rounds

variable (hg : g.Consistent) (hP : P a = a) (hstart : D a ≤ distance)
variable (hle : ∀ v, D v ≤ distance → v < g.graph.numVertices)

include hg hP hstart hle

omit [TEdge E] in
/-- One round gives the vertices of the next level their depth. -/
theorem depthsBelow_round {found : List Nat} {d : Nat}
    (hfound : ∀ v, v ∈ found ↔ Level P (D · ≤ distance) a v d)
    {depth : DepthMap} (h : DepthsBelow g P (D · ≤ distance) a d depth) :
    DepthsBelow g P (D · ≤ distance) a (d + 1)
      (found.foldl (fun depth p => Function.update depth (g.vertexId p) (some (d : Int)))
        depth) := by
  intro i k
  rw [foldl_update_depth]
  by_cases hi : ∃ p ∈ found, g.vertexId p = i
  · rw [if_pos hi]
    obtain ⟨p, hp, rfl⟩ := hi
    have hlevel := (hfound p).mp hp
    constructor
    · intro hk
      exact ⟨p, d, Nat.lt_succ_self d, rfl, (Option.some.inj hk).symm, hlevel⟩
    · intro h
      obtain ⟨v, j, _, hid, rfl, hv⟩ := h
      have hvp : p = v := hg.vertexId_inj (hle p (hlevel.within hstart))
        (hle v (hv.within hstart)) hid
      rw [hlevel.unique hP (hvp ▸ hv)]
  · rw [if_neg hi, h i k]
    constructor
    · intro h
      obtain ⟨v, j, hj, hv⟩ := h
      exact ⟨v, j, Nat.lt_succ_of_lt hj, hv⟩
    · intro h
      obtain ⟨v, j, hj, hid, hk, hv⟩ := h
      have hne : j ≠ d := by
        intro hjd
        exact hi ⟨v, (hfound v).mpr (hjd ▸ hv), hid.symm⟩
      exact ⟨v, j, by omega, hid, hk, hv⟩

omit [TEdge E] in
/-- The rounds of `get_depth` find one level after the other. -/
theorem getDepthLoop_spec (rounds : Nat) :
    ∀ (d : Nat) (vertices : List Nat) (depth : DepthMap),
      (∀ v, v ∈ vertices ↔ Level P (D · ≤ distance) a v d) →
      DepthsBelow g P (D · ≤ distance) a (d + 1) depth →
      DepthsBelow g P (D · ≤ distance) a (d + 1 + rounds)
        (getDepthLoop g D P distance rounds ((d + 1 : Nat) : Int) vertices depth) := by
  induction rounds with
  | zero =>
    intro d vertices depth _ h
    exact h
  | succ rounds ih =>
    intro d vertices depth hvertices h
    rw [getDepthLoop]
    by_cases hempty : vertices.isEmpty
    · -- Below an empty level there is nothing.
      rw [if_pos hempty]
      intro i k
      rw [h i k]
      constructor
      · intro hex
        obtain ⟨v, j, hj, hv⟩ := hex
        exact ⟨v, j, by omega, hv⟩
      · intro hex
        obtain ⟨v, j, _, hid, hk, hv⟩ := hex
        have hj : j < d + 1 := by
          by_contra hge
          obtain ⟨u, hu⟩ := hv.exists_at (j := d) (by omega)
          rw [List.isEmpty_iff.mp hempty] at hvertices
          cases (hvertices u).mpr hu
        exact ⟨v, j, hj, hid, hk, hv⟩
    · rw [if_neg hempty]
      have hnext := mem_flatMap_verticesNext hle hvertices
      have hrounds : d + 1 + (rounds + 1) = d + 1 + 1 + rounds := by omega
      rw [hrounds]
      refine ih (d + 1) _ _ (fun v => ?_) (depthsBelow_round hg hP hstart hle hnext h)
      rw [List.mem_mergeSort, List.mem_dedup]
      exact hnext v

omit [TEdge E] in
/-- All rounds together give every vertex of the tree its level. -/
theorem getDepthLoop_levels :
    ∀ i k, getDepthLoop g D P distance (g.graph.numVertices - 1) 1 [a]
        (Function.update (fun _ => none) (g.vertexId a) (some 0)) i = some k ↔
      ∃ v j, i = g.vertexId v ∧ k = ((j : Nat) : Int) ∧ Level P (D · ≤ distance) a v j := by
  have hone : ∀ v, v ∈ [a] ↔ Level P (D · ≤ distance) a v 0 := by
    intro v
    rw [List.mem_singleton]
    constructor
    · intro hv
      exact hv ▸ .root
    · intro hv
      exact (hv.eq_root_iff hP).mpr rfl
  have hnone : DepthsBelow g P (D · ≤ distance) a 0 fun _ => none := fun i k => by simp
  have hfirst : DepthsBelow g P (D · ≤ distance) a (0 + 1)
      (Function.update (fun _ => none) (g.vertexId a) (some 0)) :=
    depthsBelow_round hg hP hstart hle hone hnone
  have hall := getDepthLoop_spec hg hP hstart hle (g.graph.numVertices - 1) 0 [a] _ hone hfirst
  intro i k
  rw [show (1 : Int) = ((0 + 1 : Nat) : Int) from rfl, hall i k]
  constructor
  · intro h
    obtain ⟨v, j, _, hv⟩ := h
    exact ⟨v, j, hv⟩
  · intro h
    obtain ⟨v, j, hid, hk, hv⟩ := h
    have hlt : j < (List.range g.graph.numVertices).length := by
      apply hv.lt_length hP
      intro u hu
      obtain rfl | hu := hu
      · exact List.mem_range.mpr (hle _ hstart)
      · exact List.mem_range.mpr (hle u hu)
    rw [List.length_range] at hlt
    exact ⟨v, j, by omega, hid, hk, hv⟩

end Rounds

/-! ## Passing over the points -/

/-- A node that stays in the tree without details: a vertex or the root. -/
def Kept (g : PgrBaseGraph V E) (a u : Nat) : Prop := 0 ≤ g.vertexId u ∨ u = a

section Compact

variable {P' : Nat → Nat} (hP : P a = a)

include hP

omit [TEdge E] in
/-- The loop over the points above a node stops at the first vertex, or at the root. -/
theorem passPoint_spec (h : Compacted P (Kept g a) P') (j : Nat) :
    ∀ u v n, Level P (D · ≠ ⊤) a u j → D v ≠ ⊤ → j < n →
      ∃ x, ClimbsTo P (Kept g a) u x ∧ runLoop (passPoint g D P') n (v, u) = some (some x) := by
  have hroot : Kept g a a := .inr rfl
  induction j using Nat.strongRecOn with
  | ind j ih =>
    intro u v n hu hv hn
    obtain ⟨n, rfl⟩ : ∃ m, n = m + 1 := ⟨n - 1, by omega⟩
    by_cases hkept : Kept g a u
    · have hstop : ¬ (g.vertexId u < 0 ∧ P' u ≠ u) := by
        intro hgo
        obtain hid | rfl := hkept
        · omega
        · exact hgo.2 (h.root hP hroot)
      have hdone : passPoint g D P' (v, u) = .done (some u) := by
        rw [passPoint, if_neg hstop]
      exact ⟨u, .here hkept, runLoop_done hdone⟩
    · have hpoint : g.vertexId u < 0 := by
        by_contra hge
        exact hkept (.inl (by omega))
      cases hu with
      | root => exact absurd hroot hkept
      | @child _ k hne hfinite up =>
        have hlevel : Level P (D · ≠ ⊤) a u (k + 1) := .child hne hfinite up
        have hnext : passPoint g D P' (v, u) = .next (u, P' u) := by
          rw [passPoint, if_pos ⟨hpoint, h.ne_self hP hroot hlevel⟩, if_pos hv]
        obtain ⟨i, hi, hup⟩ := h.lower hroot hlevel
        obtain ⟨x, hx, hrun⟩ := ih i (by omega) (P' u) u n hup hfinite (by omega)
        exact ⟨x, .up hkept (h.climbs_parent hx), by rw [runLoop_next hnext, hrun]⟩

variable (habove : ∀ v, P v ≠ v → ∃ k, Level P (D · ≠ ⊤) a v k)
variable (hstart : D a ≠ ⊤) (hlt : ∀ v, D v ≠ ⊤ → v < g.graph.numVertices)

include habove hstart hlt

omit [TEdge E] in
/-- A node whose predecessor is a point gets the first vertex above it, or the root. -/
theorem compactNode_spec (h : Compacted P (Kept g a) P') (hv : P v ≠ v) (hsame : P' v = P v)
    (hpoint : ¬ 0 ≤ g.vertexId (P v)) :
    ∃ x, ClimbsTo P (Kept g a) (P v) x ∧
      compactNode g D P' v = some (Function.update P' v x) := by
  obtain ⟨k, hk⟩ := habove v hv
  cases hk with
  | root => exact absurd hP hv
  | @child _ k _ hfinite up =>
    have hrange : k < (List.range g.graph.numVertices).length := by
      apply up.lt_length hP
      intro u hu
      obtain rfl | hu := hu
      · exact List.mem_range.mpr (hlt _ hstart)
      · exact List.mem_range.mpr (hlt u hu)
    rw [List.length_range] at hrange
    obtain ⟨x, hx, hrun⟩ :=
      passPoint_spec hP h k (P v) v (g.graph.numVertices + 1) up hfinite (by omega)
    refine ⟨x, hx, ?_⟩
    simp only [compactNode]
    rw [hsame, if_pos (by omega), hrun]
    rfl

omit [TEdge E] in
/-- One node after the other is compacted. -/
theorem compactNodes_spec (l : List Nat) (hl : l.Nodup)
    (hpoints : ∀ v ∈ l, P v ≠ v ∧ ¬ 0 ≤ g.vertexId (P v)) :
    ∀ P', Compacted P (Kept g a) P' → (∀ v ∈ l, P' v = P v) →
      ∃ P'', l.foldlM (compactNode g D) P' = some P'' ∧ Compacted P (Kept g a) P'' ∧
        ∀ v, (v ∈ l → ClimbsTo P (Kept g a) (P v) (P'' v)) ∧ (v ∉ l → P'' v = P' v) := by
  induction l with
  | nil =>
    intro P' h _
    exact ⟨P', rfl, h, fun v => ⟨fun hv => absurd hv List.not_mem_nil, fun _ => rfl⟩⟩
  | cons v rest ih =>
    intro P' h hsame
    obtain ⟨hnew, hrest⟩ := List.nodup_cons.mp hl
    obtain ⟨hv, hpoint⟩ := hpoints v List.mem_cons_self
    obtain ⟨x, hx, hnode⟩ := compactNode_spec hP habove hstart hlt h hv
      (hsame v List.mem_cons_self) hpoint
    have hkeep : ∀ u ∈ rest, Function.update P' v x u = P u := by
      intro u hu
      have hne : u ≠ v := fun heq => hnew (heq ▸ hu)
      rw [Function.update_of_ne hne]
      exact hsame u (List.mem_cons_of_mem v hu)
    obtain ⟨P'', hfold, hcompact, hall⟩ := ih hrest
      (fun u hu => hpoints u (List.mem_cons_of_mem v hu)) _ (h.update hx) hkeep
    have hrun : (v :: rest).foldlM (compactNode g D) P' = some P'' := by
      rw [List.foldlM_cons, hnode]
      exact hfold
    refine ⟨P'', hrun, hcompact, fun u => ⟨fun hu => ?_, fun hu => ?_⟩⟩
    · obtain rfl | hu := List.mem_cons.mp hu
      · rw [(hall u).2 hnew, Function.update_self]
        exact hx
      · exact (hall u).1 hu
    · rw [(hall u).2 (List.not_mem_of_not_mem_cons hu),
        Function.update_of_ne (List.ne_of_not_mem_cons hu)]

omit [TEdge E] in
/-- Without details every node gets the first vertex above it, or the root. -/
theorem removeDetails_spec :
    ∃ P', removeDetails g D P = some P' ∧ Compacted P (Kept g a) P' ∧
      ∀ v, P v ≠ v → ClimbsTo P (Kept g a) (P v) (P' v) := by
  obtain ⟨P', hfold, hcompact, hall⟩ := compactNodes_spec hP habove hstart hlt
    ((List.range g.graph.numVertices).filter fun v => P v ≠ v ∧ ¬ 0 ≤ g.vertexId (P v))
    (List.nodup_range.filter _) (fun v hv => by simpa using (List.mem_filter.mp hv).2)
    P (.refl P _) (fun _ _ => rfl)
  refine ⟨P', hfold, hcompact, fun v hv => ?_⟩
  by_cases hid : 0 ≤ g.vertexId (P v)
  · have hout : v ∉ (List.range g.graph.numVertices).filter
        fun v => P v ≠ v ∧ ¬ 0 ≤ g.vertexId (P v) := by
      simp [hid]
    rw [(hall v).2 hout]
    exact .here (.inl hid)
  · obtain ⟨k, hk⟩ := habove v hv
    have hrange : v < g.graph.numVertices := hlt v (hk.within hstart)
    have hpoint : g.vertexId (P v) < 0 := by omega
    exact (hall v).1 (by simp [hrange, hv, hpoint])

end Compact

/-! ## The rows -/

section Rows

/-- The row that is made for `v`. -/
def rowOf (g : PgrBaseGraph V E) (P : Nat → Nat) (D : Nat → WithTop ℚ) (v : Nat) : PathStop :=
  let edge := g.getEdgeId (P v) v ((D v).untopD 0 - (D (P v)).untopD 0)
  ⟨⟨g.vertexId v, edge.1, edge.2, (D v).untopD 0⟩, g.vertexId (P v)⟩

theorem newPath_path (root : Int) :
    (newPath g root distance P D).path =
      ((List.range g.graph.numVertices).filter fun v => D v ≤ distance).map (rowOf g P D) := by
  simp only [newPath]
  generalize List.range g.graph.numVertices = l
  induction l with
  | nil => rfl
  | cons v l ih =>
    rw [List.filterMap_cons, List.filter_cons, ih]
    by_cases hv : D v ≤ distance
    · simp [hv, rowOf]
    · simp [hv]

theorem sortByNodeAggCost_perm (p : DrivingPath) : (sortByNodeAggCost p).path.Perm p.path :=
  (List.mergeSort_perm _ _).trans (List.mergeSort_perm _ _)

/-- The rows of the root `a` while the costs are those in the tree `P'`: one for each vertex
    within the distance. The row of the root can have the cost of a loop. -/
structure RowsOf (g : PgrBaseGraph V E) (distance : ℚ) (a : Nat) (details : Bool)
    (P P' : Nat → Nat) (D : Nat → WithTop ℚ) (path : List PathStop) : Prop where
  nodup : (path.map (·.node)).Nodup
  row : ∀ row ∈ path, ∃ v, D v ≤ distance ∧ row.node = g.vertexId v ∧ D v = row.aggCost ∧
    row.pred = g.vertexId (P v) ∧
    (v ≠ a → details = true ∨ 0 ≤ row.node →
      row.cost = row.aggCost - (D (P' v)).untopD 0)
  all : ∀ v, D v ≤ distance → ∃ row ∈ path, row.node = g.vertexId v

variable (hg : g.Consistent) (hs : SearchedTo g.graph a distance P D)

include hg hs

/-- The rows that are made for the tree of the search. -/
theorem newPath_rows (root : Int) :
    RowsOf g distance a true P P D (sortByNodeAggCost (newPath g root distance P D)).path := by
  have hperm := sortByNodeAggCost_perm (newPath g root distance P D)
  have hlt : ∀ v, D v ≤ distance → v < g.graph.numVertices := fun _ hv => hs.lt_of_le hv
  constructor
  case nodup =>
    rw [(hperm.map _).nodup_iff, newPath_path, List.map_map]
    apply List.Nodup.map_on _ (List.nodup_range.filter _)
    intro u hu v hv heq
    simp only [List.mem_filter, decide_eq_true_eq] at hu hv
    exact hg.vertexId_inj (hlt u hu.2) (hlt v hv.2) heq
  case row =>
    intro row hrow
    rw [hperm.mem_iff, newPath_path, List.mem_map] at hrow
    obtain ⟨v, hv, rfl⟩ := hrow
    simp only [List.mem_filter, decide_eq_true_eq] at hv
    obtain ⟨d, hd, _⟩ := hs.exact v hv.2
    refine ⟨v, hv.2, rfl, by simp [rowOf, hd], rfl, fun hva _ => ?_⟩
    obtain ⟨w, harc, hsum⟩ := hs.arc v hv.2 hva
    obtain ⟨c, hc⟩ : ∃ c : ℚ, D (P v) = c := by
      cases hc : D (P v) with
      | top =>
        rw [hc, hd] at hsum
        simp at hsum
      | coe c => exact ⟨c, rfl⟩
    -- The cost of a row is the difference of two labels, which is the weight of the arc.
    have hw : d - c = w := by
      rw [hd, hc, ← WithTop.coe_add] at hsum
      have hdc : d = c + w := WithTop.coe_injective hsum
      rw [hdc, add_sub_cancel_left]
    obtain ⟨e, _, _, _, hedge⟩ := g.getEdgeId_arc harc
    simp [rowOf, hd, hc, hw, hedge]
  case all =>
    intro v hv
    refine ⟨rowOf g P D v, ?_, rfl⟩
    rw [hperm.mem_iff, newPath_path]
    apply List.mem_map_of_mem
    simp [hlt v hv, hv]

/-- The rows after their costs have been updated to those in the tree `P'`. -/
theorem updateCost_rows {P' : Nat → Nat} {rows : List PathStop}
    (h : RowsOf g distance a true P P D rows) :
    ∃ rows', rows.mapM (updateCost g D P') = some rows' ∧
      RowsOf g distance a false P P' D rows' := by
  have hlt : ∀ v, D v ≤ distance → v < g.graph.numVertices := fun _ hv => hs.lt_of_le hv
  have hrow : ∀ row ∈ rows, ∃ v row', D v ≤ distance ∧ updateCost g D P' row = some row' ∧
      row.node = g.vertexId v ∧ row'.node = row.node ∧ D v = row'.aggCost ∧
      row'.pred = g.vertexId (P v) ∧
      (0 ≤ row'.node → row'.cost = row'.aggCost - (D (P' v)).untopD 0) := by
    intro row hmem
    obtain ⟨v, hv, hnode, hagg, hpred, _⟩ := h.row row hmem
    have hmap : g.verticesMap row.node = some v := by
      rw [hnode]
      exact hg.map_vertexId (hlt v hv)
    -- The row of a point keeps the cost that it has.
    by_cases hpoint : g.vertexId v < 0
    · refine ⟨v, row, hv, ?_, hnode, rfl, hagg, hpred, fun hid => ?_⟩
      · rw [updateCost, hmap, Option.map_some, if_pos hpoint]
      · rw [hnode] at hid
        omega
    · refine ⟨v, { row with cost := (D v).untopD 0 - (D (P' v)).untopD 0 }, hv, ?_, hnode, rfl,
        hagg, hpred, fun _ => ?_⟩
      · rw [updateCost, hmap, Option.map_some, if_neg hpoint]
      · simp [hagg]
  have hmapM : rows.mapM (updateCost g D P') =
      some (rows.map fun row => (updateCost g D P' row).getD row) := by
    apply mapM_eq_map
    intro row hmem
    obtain ⟨v, row', _, hupdate, _⟩ := hrow row hmem
    rw [hupdate, Option.getD_some]
  refine ⟨_, hmapM, ?_⟩
  constructor
  case nodup =>
    have hnodes : (rows.map fun row => (updateCost g D P' row).getD row).map (·.node) =
        rows.map (·.node) := by
      rw [List.map_map]
      apply List.map_congr_left
      intro row hmem
      obtain ⟨v, row', _, hupdate, _, hnode, _⟩ := hrow row hmem
      rw [Function.comp_apply, hupdate, Option.getD_some, hnode]
    rw [hnodes]
    exact h.nodup
  case row =>
    intro updated hupdated
    obtain ⟨row, hmem, rfl⟩ := List.mem_map.mp hupdated
    obtain ⟨v, row', hv, hupdate, hid, hnode, hagg, hpred, hcost⟩ := hrow row hmem
    rw [hupdate, Option.getD_some]
    exact ⟨v, hv, hnode.trans hid, hagg, hpred, fun _ hkept => hcost (hkept.resolve_left (by simp))⟩
  case all =>
    intro v hv
    obtain ⟨row, hmem, hid⟩ := h.all v hv
    obtain ⟨_, row', _, hupdate, _, hnode, _⟩ := hrow row hmem
    refine ⟨row', List.mem_map.mpr ⟨row, hmem, ?_⟩, hnode.trans hid⟩
    rw [hupdate, Option.getD_some]

end Rows

/-! ## One root -/

/-- The depths are the levels of the tree `P`. -/
def DepthsAre (g : PgrBaseGraph V E) (distance : ℚ) (a : Nat) (P : Nat → Nat)
    (D : Nat → WithTop ℚ) (depth : DepthMap) : Prop :=
  ∀ i k, depth i = some k ↔
    ∃ v j, i = g.vertexId v ∧ k = ((j : Nat) : Int) ∧ Level P (D · ≤ distance) a v j

/-- What is returned for a root in the graph. With details `P'` is the tree of the search, and
    without them the compacted one. -/
structure RootResult (g : PgrBaseGraph V E) (distance : ℚ) (a : Nat) (details : Bool)
    (P P' : Nat → Nat) (D : Nat → WithTop ℚ) (r : DrivingPath × DepthMap) : Prop where
  compacted : Compacted P (Kept g a) P'
  tree : details = true → P' = P
  climbs : details = false → ∀ v, P v ≠ v → ClimbsTo P (Kept g a) (P v) (P' v)
  rows : RowsOf g distance a details P P' D r.1.path
  depths : DepthsAre g distance a P' D r.2

theorem ofRoot_spec (hg : g.Consistent) (hcost : ∀ u v w, g.graph.Arc u v w → 0 ≤ w)
    (hdoc : (boost g.graph a).Documented g.graph a) (hlabels : (boost g.graph a).Labels g.graph a)
    (hpos : 0 < distance) (details : Bool) {root : Int} (ha : g.verticesMap root = some a) :
    ∃ D P' path depth,
      ofRoot g boost distance details root = some (⟨root, root, path⟩, depth) ∧
      SearchedTo g.graph a distance (searchTree boost g.graph distance a) D ∧
      RootResult g distance a details (searchTree boost g.graph distance a) P' D
        (⟨root, root, path⟩, depth) := by
  obtain ⟨D, hsearch, hs⟩ := dijkstra1ToDistance_spec hdoc hg hcost (hg.lt ha) hlabels hpos
  generalize searchTree boost g.graph distance a = P at hsearch hs ⊢
  have hvertices : g.graph.numVertices ≠ 0 := Nat.ne_zero_of_lt (hg.lt ha)
  have hfinite : D a ≠ ⊤ := ne_top_of_le_ne_top WithTop.coe_ne_top hs.start
  have hle : ∀ v, D v ≤ distance → v < g.graph.numVertices := fun _ hv => hs.lt_of_le hv
  -- Without details the tree is compacted and the rows are priced anew; with them both stay.
  have hrows := newPath_rows hg hs root
  cases details with
  | true =>
    have hdepth : getDepth g a D P distance true = some
        (getDepthLoop g D P distance (g.graph.numVertices - 1) 1 [a]
          (Function.update (fun _ => none) (g.vertexId a) (some 0)), P) := by
      simp [getDepth, hvertices]
    refine ⟨D, P, _, _, ?_, hs, .refl P _, fun _ => rfl, nofun, hrows,
      getDepthLoop_levels hg hs.source hs.start hle⟩
    simp only [ofRoot, ha, hsearch, Option.bind_eq_bind, Option.bind_some, hdepth]
    rfl
  | false =>
    obtain ⟨P', hremove, hcompact, hclimbs⟩ := removeDetails_spec hs.source hs.above hfinite hs.lt
    obtain ⟨rows', hupdate, hrows'⟩ : ∃ rows',
        (sortByNodeAggCost (newPath g root distance P D)).path.mapM (updateCost g D P') =
          some rows' ∧ RowsOf g distance a false P P' D rows' := updateCost_rows hg hs hrows
    have hdepth : getDepth g a D P distance false = some
        (getDepthLoop g D P' distance (g.graph.numVertices - 1) 1 [a]
          (Function.update (fun _ => none) (g.vertexId a) (some 0)), P') := by
      simp [getDepth, hvertices, hremove]
    refine ⟨D, P', rows', _, ?_, hs, hcompact, nofun, fun _ => hclimbs, hrows',
      getDepthLoop_levels hg (hcompact.root hs.source (.inr rfl)) hs.start hle⟩
    simp only [ofRoot, ha, hsearch, Option.bind_eq_bind, Option.bind_some, hdepth, hupdate]
    rfl

/-! ## The trees of all roots -/

/-- The rows are one for each vertex within the distance, with its distance from the root. -/
structure CoversWithin (g : PgrBaseGraph V E) (distance : ℚ) (p : DrivingPath) : Prop where
  nodup : (p.path.map (·.node)).Nodup
  within : ∀ i, (∃ row ∈ p.path, row.node = i) ↔ ∃ d ≤ distance, IsDist g.IdArc p.startId i d
  aggCost : ∀ row ∈ p.path, IsDist g.IdArc p.startId row.node row.aggCost

/-- The row `row` names the other row `up` as the one before it, and is a step below it. -/
structure HangsUnder (depth : DepthMap) (row up : PathStop) : Prop where
  pred : row.pred = up.node
  other : row.node ≠ up.node
  depth : ∃ k, depth up.node = some k ∧ depth row.node = some (k + 1)
  aggCost : up.aggCost = row.aggCost - row.cost

/-- In the tree of the root, the node `j` is the nearest vertex above the node `i`, or the
    root. -/
def NearestAbove (g : PgrBaseGraph V E) (tree : Nat → Nat → Nat) (root i j : Int) : Prop :=
  ∃ a v x, g.verticesMap root = some a ∧ g.verticesMap i = some v ∧ g.verticesMap j = some x ∧
    ClimbsTo (tree a) (Kept g a) (tree a v) x

/-- With details the rows of a root cover what is within the distance, and every row hangs under
    another one. Without details the row of every vertex hangs under that of the nearest vertex
    above it in the tree. -/
def ConsistentTree (g : PgrBaseGraph V E) (tree : Nat → Nat → Nat) (distance : ℚ)
    (details : Bool) (r : DrivingPath × DepthMap) : Prop :=
  if details then
    CoversWithin g distance r.1 ∧
      ∀ row ∈ r.1.path, row.node ≠ r.1.startId → ∃ up ∈ r.1.path, HangsUnder r.2 row up
  else
    ∀ row ∈ r.1.path, row.node ≠ r.1.startId → 0 ≤ row.node →
      ∃ up ∈ r.1.path, NearestAbove g tree r.1.startId row.node up.node ∧ HangsUnder r.2 row up

/-- In the tree of the root no vertex within the distance comes right after a point, unless the
    point is the root. -/
def NoPointBefore (g : PgrBaseGraph V E) (tree : Nat → Nat → Nat) (distance : ℚ) (root : Int) :
    Prop :=
  ∀ a, g.verticesMap root = some a → ∀ v, v ≠ a → 0 ≤ g.vertexId v →
    Within g.graph.Arc a distance v → Kept g a (tree a v)

section Root

variable {tree : Nat → Nat → Nat} {details : Bool} {root : Int} {P' : Nat → Nat}
variable {path : List PathStop} {depth : DepthMap}

variable (hg : g.Consistent) (ha : g.verticesMap root = some a)
variable (hs : SearchedTo g.graph a distance (tree a) D)
variable (hr : RootResult g distance a details (tree a) P' D (⟨root, root, path⟩, depth))

include hg ha hs hr

theorem RootResult.covers : CoversWithin g distance ⟨root, root, path⟩ := by
  have hmap : ∀ v, D v ≤ distance → g.verticesMap (g.vertexId v) = some v :=
    fun _ hv => hg.map_vertexId (hs.lt_of_le hv)
  constructor
  case nodup => exact hr.rows.nodup
  case within =>
    intro i
    constructor
    · intro h
      obtain ⟨row, hrow, rfl⟩ := h
      obtain ⟨v, hv, hid, _⟩ := hr.rows.row row hrow
      obtain ⟨d, hle, hd⟩ := (hs.within v).mp hv
      exact ⟨d, hle, hid ▸ (hg.isDist_idArc ha (hmap v hv)).mpr hd⟩
    · intro h
      obtain ⟨d, hle, hd⟩ := h
      obtain ⟨v, hi⟩ : ∃ v, g.verticesMap i = some v := by
        by_cases hroot : root = i
        · exact ⟨a, hroot ▸ ha⟩
        · exact (hg.walk_ends hd.walk hroot).2
      obtain ⟨row, hrow, hid⟩ :=
        hr.rows.all v ((hs.within v).mpr ⟨d, hle, (hg.isDist_idArc ha hi).mp hd⟩)
      exact ⟨row, hrow, hid.trans (hg.vertexId_eq hi)⟩
  case aggCost =>
    intro row hrow
    obtain ⟨v, hv, hid, hagg, _⟩ := hr.rows.row row hrow
    obtain ⟨d, hd, hdist⟩ := hs.exact v hv
    have hsame : row.aggCost = d := WithTop.coe_injective (hagg.symm.trans hd)
    rw [hid, hsame]
    exact (hg.isDist_idArc ha (hmap v hv)).mpr hdist

/-- The row of a node, and the row of the node above it in the tree of the depths. -/
theorem RootResult.exists_up {row : PathStop} (hrow : row ∈ path) (hne : row.node ≠ root)
    (hkept : details = true ∨ 0 ≤ row.node) :
    ∃ v, ∃ up ∈ path, g.verticesMap row.node = some v ∧ g.verticesMap up.node = some (P' v) ∧
      tree a v ≠ v ∧ row.pred = g.vertexId (tree a v) ∧ row.node ≠ up.node ∧
      (∃ k, depth up.node = some k ∧ depth row.node = some (k + 1)) ∧
      up.aggCost = row.aggCost - row.cost := by
  have hroot : Kept g a a := .inr rfl
  have hmap : ∀ v, D v ≤ distance → g.verticesMap (g.vertexId v) = some v :=
    fun _ hv => hg.map_vertexId (hs.lt_of_le hv)
  obtain ⟨v, hv, hid, hagg, hpred, hcost⟩ := hr.rows.row row hrow
  have hva : v ≠ a := by
    intro heq
    exact hne (hid.trans (heq ▸ hg.vertexId_eq ha))
  obtain ⟨j, hj⟩ := hs.level v hv
  obtain ⟨k, _, hlevel⟩ := hr.compacted.level hs.source hroot hj
  have hself : tree a v ≠ v := by
    cases hj with
    | root => exact absurd rfl hva
    | child hself _ _ => exact hself
  cases hlevel with
  | root => exact absurd rfl hva
  | @child _ k hne' _ hup =>
    have hlevel : Level P' (D · ≤ distance) a v (k + 1) := .child hne' hv hup
    have hup' : D (P' v) ≤ distance := hup.within hs.start
    obtain ⟨up, hmem, hupid⟩ := hr.rows.all (P' v) hup'
    obtain ⟨u, hu, huid, huagg, _⟩ := hr.rows.row up hmem
    -- The node above is on the path under its own id, so its row is the row of the parent.
    have huv : u = P' v := by
      have hids : g.verticesMap up.node = some u := huid ▸ hmap u hu
      rw [hupid, hmap _ hup'] at hids
      exact (Option.some.inj hids).symm
    refine ⟨v, up, hmem, hid ▸ hmap v hv, hupid ▸ hmap _ hup', hself, hpred, ?_, ?_, ?_⟩
    · rw [hid, hupid]
      intro heq
      have hback := hmap v hv
      rw [heq, hmap _ hup'] at hback
      exact hne' (Option.some.inj hback)
    · exact ⟨k, (hr.depths _ _).mpr ⟨P' v, k, hupid, rfl, hup⟩,
        (hr.depths _ _).mpr ⟨v, k + 1, hid, by simp, hlevel⟩⟩
    · rw [hcost hva hkept, ← huv, huagg]
      simp

/-- When the rows of the vertices hang under those of the nearest vertices, the nodes before
    them are these vertices. -/
theorem RootResult.noPointBefore
    (h : ∀ row ∈ path, row.node ≠ root → 0 ≤ row.node →
      ∃ up ∈ path, NearestAbove g tree root row.node up.node ∧ HangsUnder depth row up) :
    NoPointBefore g tree distance root := by
  intro b hb v hva hid hwithin
  obtain rfl : a = b := Option.some.inj (ha.symm.trans hb)
  have hv := (hs.within v).mpr hwithin
  have hmap := hg.map_vertexId (hs.lt_of_le hv)
  obtain ⟨row, hrow, hnode⟩ := hr.rows.all v hv
  have hne : row.node ≠ root := by
    intro heq
    rw [← hnode, heq, ha] at hmap
    exact hva (Option.some.inj hmap).symm
  obtain ⟨u, _, _, hu, _, hself, hpred, _⟩ :=
    hr.exists_up hg ha hs hrow hne (.inr (hnode ▸ hid))
  rw [hnode, hmap] at hu
  obtain rfl := Option.some.inj hu
  obtain ⟨up, _, ⟨b, w, x, hb, hw, hx, hclimb⟩, hhangs⟩ := h row hrow hne (hnode ▸ hid)
  obtain rfl : a = b := Option.some.inj (ha.symm.trans hb)
  rw [hnode, hmap] at hw
  obtain rfl := Option.some.inj hw
  -- The row names the node before, which is the nearest vertex only when it is kept.
  have hbefore : x = tree a v := by
    obtain ⟨k, hk⟩ := hs.above v hself
    cases hk with
    | root => exact absurd rfl hva
    | child _ _ up =>
      have hlt := hs.lt _ (up.within (ne_top_of_le_ne_top WithTop.coe_ne_top hs.start))
      have hback := hg.map_vertexId hlt
      rw [hpred.symm.trans hhangs.pred, hx] at hback
      exact Option.some.inj hback
  exact hclimb.eq_iff.mp hbefore

/-- Without points in between, the nearest vertex is the node before. -/
theorem RootResult.hangsUnder (hdetails : details = false)
    (h : NoPointBefore g tree distance root) {row : PathStop} (hrow : row ∈ path)
    (hne : row.node ≠ root) (hid : 0 ≤ row.node) :
    ∃ up ∈ path, NearestAbove g tree root row.node up.node ∧ HangsUnder depth row up := by
  obtain ⟨v, up, hmem, hrowmap, hupmap, hself, hpred, hother, hdepth, hagg⟩ :=
    hr.exists_up hg ha hs hrow hne (.inr hid)
  have hclimb := hr.climbs hdetails v hself
  have hnode := hg.vertexId_eq hrowmap
  have hva : v ≠ a := by
    intro heq
    exact hne (hnode.symm.trans (heq ▸ hg.vertexId_eq ha))
  have hwithin : Within g.graph.Arc a distance v := by
    obtain ⟨u, hu, huid, _⟩ := hr.rows.row row hrow
    rw [huid, hg.map_vertexId (hs.lt_of_le hu)] at hrowmap
    exact Option.some.inj hrowmap ▸ (hs.within u).mp hu
  have hsame := hclimb.eq_iff.mpr (h a ha v hva (hnode.symm ▸ hid) hwithin)
  have hup : row.pred = up.node := by
    rw [hpred, ← hsame]
    exact hg.vertexId_eq hupmap
  exact ⟨up, hmem, ⟨a, v, P' v, ha, hrowmap, hupmap, hclimb⟩, hup, hother, hdepth, hagg⟩

theorem RootResult.consistentTree_iff :
    ConsistentTree g tree distance details (⟨root, root, path⟩, depth) ↔
      details = true ∨ NoPointBefore g tree distance root := by
  cases hd : details with
  | true =>
    rw [hd] at hr
    simp only [ConsistentTree, if_true, true_or, iff_true]
    refine ⟨hr.covers hg ha hs, fun row hrow hne => ?_⟩
    obtain ⟨v, up, hmem, _, hupmap, _, hpred, hother, hdepth, hagg⟩ :=
      hr.exists_up hg ha hs hrow hne (.inl rfl)
    rw [hr.tree rfl] at hupmap
    exact ⟨up, hmem, hpred.trans (hg.vertexId_eq hupmap), hother, hdepth, hagg⟩
  | false =>
    simp only [ConsistentTree, Bool.false_eq_true, if_false, false_or]
    constructor
    · exact hr.noPointBefore hg ha hs
    · intro h row hrow hne hid
      exact hr.hangsUnder hg ha hs hd h hrow hne hid

end Root

/-- The rows of a root that the graph does not have. -/
theorem consistentTree_missing (hg : g.Consistent) (tree : Nat → Nat → Nat) (hpos : 0 < distance)
    (details : Bool) {root : Int} (hroot : g.verticesMap root = none) (depth : DepthMap) :
    ConsistentTree g tree distance details (⟨root, root, [⟨⟨root, -1, 0, 0⟩, root⟩]⟩, depth) := by
  -- Nothing but the root itself can be reached from it.
  have hdist : ∀ i d, IsDist g.IdArc root i d → i = root := by
    intro i d hd
    by_contra hne
    obtain ⟨a, ha⟩ := (hg.walk_ends hd.walk (Ne.symm hne)).1
    rw [hroot] at ha
    cases ha
  have hzero : IsDist g.IdArc root root 0 := by
    refine ⟨.nil root, fun c hc => ?_⟩
    cases hc with
    | nil => exact le_refl 0
    | cons harc =>
      obtain ⟨a, ha⟩ := (hg.idArc_ends harc).1
      rw [hroot] at ha
      cases ha
  cases details with
  | true =>
    simp only [ConsistentTree, if_true, List.mem_singleton, forall_eq]
    refine ⟨⟨List.nodup_singleton _, fun i => ?_, ?_⟩, fun hne => absurd rfl hne⟩
    · constructor
      · intro h
        obtain ⟨row, hrow, rfl⟩ := h
        rw [List.mem_singleton.mp hrow]
        exact ⟨0, hpos.le, hzero⟩
      · intro h
        obtain ⟨d, _, hd⟩ := h
        exact ⟨_, List.mem_singleton.mpr rfl, (hdist i d hd).symm⟩
    · intro row hrow
      rw [List.mem_singleton.mp hrow]
      exact hzero
  | false =>
    simp only [ConsistentTree, Bool.false_eq_true, if_false, List.mem_singleton, forall_eq]
    intro hne
    exact absurd rfl hne

/-- With details the rows of every root are a tree. Without them they are one exactly when no
    vertex within the distance comes right after a point other than the root. -/
theorem drivingDistanceNoEquicost_consistentTree_iff (hg : g.Consistent)
    (hcost : ∀ u v w, g.graph.Arc u v w → 0 ≤ w)
    (hboost : ∀ a < g.graph.numVertices,
      (boost g.graph a).Documented g.graph a ∧ (boost g.graph a).Labels g.graph a)
    (roots : List Int) (hpos : 0 < distance) (details : Bool) :
    ∃ rs, drivingDistanceNoEquicost g boost roots distance details = some rs ∧
      rs.map (·.1.startId) = roots ∧
      ((∀ r ∈ rs, ConsistentTree g (searchTree boost g.graph distance) distance details r) ↔
        details = true ∨
          ∀ root ∈ roots, NoPointBefore g (searchTree boost g.graph distance) distance root) := by
  -- One root; one that the graph does not have gets a tree of one row.
  have hroot : ∀ root, ∃ r, ofRoot g boost distance details root = some r ∧ r.1.startId = root ∧
      (ConsistentTree g (searchTree boost g.graph distance) distance details r ↔
        details = true ∨ NoPointBefore g (searchTree boost g.graph distance) distance root) := by
    intro root
    cases ha : g.verticesMap root with
    | none =>
      have hnone : NoPointBefore g (searchTree boost g.graph distance) distance root := by
        intro a ha'
        rw [ha] at ha'
        cases ha'
      exact ⟨_, by rw [ofRoot, ha], rfl,
        iff_of_true (consistentTree_missing hg _ hpos details ha _) (.inr hnone)⟩
    | some a =>
      obtain ⟨hdoc, hlabels⟩ := hboost a (hg.lt ha)
      obtain ⟨D, P', path, depth, hrun, hs, hr⟩ :=
        ofRoot_spec hg hcost hdoc hlabels hpos details ha
      exact ⟨_, hrun, rfl, hr.consistentTree_iff hg ha hs⟩
  choose result hrun hstart hiff using hroot
  refine ⟨roots.map result, mapM_eq_map fun root _ => hrun root, ?_, ?_⟩
  · rw [List.map_map]
    exact (List.map_congr_left fun root _ => hstart root).trans (List.map_id roots)
  · simp only [List.mem_map, forall_exists_index, and_imp, forall_apply_eq_imp_iff₂, hiff]
    cases details with
    | true => simp
    | false => simp

end DrivingDistance

/-! ## Points between vertices -/

theorem searchVisits_labels {g : AdjacencyList V E} (hg : ∀ e ∈ g.edges, 0 ≤ TEdge.cost e.bundle)
    (a : Nat) : (searchVisits g a).Labels g a := by
  obtain ⟨calls, last, hrun, heq⟩ := searchVisits_run hg a
  rw [heq]
  have hstate : ∀ k, HasExplored g a ((calls.map (·.1)).take (k - 1))
      (searchAt calls last (k - 1)) := fun k => by simpa using hrun.hasExplored (k - 1)
  constructor
  case walk =>
    intro k v d hd
    have hlabel : (searchAt calls last (k - 1)).cost v ≠ ⊤ :=
      fun htop => WithTop.top_ne_coe (htop.symm.trans hd)
    obtain ⟨_, c, _, _, hc, hwalk⟩ := (hstate k).walk hlabel
    exact WithTop.coe_injective (hc.symm.trans hd) ▸ hwalk
  case predecessor =>
    intro k v hv
    have hlabel : (searchAt calls last (k - 1)).cost v ≠ ⊤ :=
      fun htop => hv ((hstate k).unlabelled v htop)
    have hne : v ≠ a := by
      rintro rfl
      exact hv (hstate k).inv.self
    obtain ⟨hpred, _⟩ := (hstate k).inv.pred_spec hlabel hne
    have hmem := ((hstate k).finished _).mp hpred
    exact ⟨(List.take_prefix_take_left (by omega)).subset hmem, hlabel⟩

namespace DrivingDistance

/-- The point -1 is on an edge between 1 and 2, next to a shorter one. Two rows lead on to 3. -/
def pointBeside : PgrBaseGraph BasicVertex BasicEdge :=
  .ofTable true [⟨1, 1, -1, 1, 1⟩, ⟨2, -1, 2, 1, 1⟩, ⟨3, 1, 2, 1, 1⟩, ⟨4, 2, 3, 1, -1⟩,
    ⟨5, 2, 3, 2, -1⟩, ⟨6, 3, 4, 5, -1⟩]

theorem table_cost (es : List EdgeT) (u v : Nat) (w : ℚ)
    (h : (PgrBaseGraph.ofTable true es : PgrBaseGraph BasicVertex BasicEdge).graph.Arc u v w) :
    0 ≤ w :=
  PgrBdDijkstra.arc_nonneg (PgrBaseGraph.ofTable_cost_nonneg true es) h

theorem table_visits (es : List EdgeT) (a : Nat) :
    let g : PgrBaseGraph BasicVertex BasicEdge := .ofTable true es
    (searchVisits g.graph a).Documented g.graph a ∧ (searchVisits g.graph a).Labels g.graph a :=
  ⟨searchVisits_documented (PgrBaseGraph.ofTable_cost_nonneg true es) a,
    searchVisits_labels (PgrBaseGraph.ofTable_cost_nonneg true es) a⟩

/-- The trees of a vertex, of the point and of an id that the graph does not have. -/
theorem drivingDistanceNoEquicost_consistentTree_pointBeside :
    ∃ rs, drivingDistanceNoEquicost pointBeside searchVisits [1, -1, 9] 3 false = some rs ∧
      rs.map (·.1.startId) = [1, -1, 9] ∧
      ∀ r ∈ rs, ConsistentTree pointBeside (searchTree searchVisits pointBeside.graph 3) 3 false
        r := by
  have hpos : (0 : ℚ) < 3 := by norm_num
  obtain ⟨rs, hrun, hstart, hiff⟩ := drivingDistanceNoEquicost_consistentTree_iff
    (PgrBaseGraph.ofTable_consistent true _) (table_cost _) (fun a _ => table_visits _ a)
    [1, -1, 9] hpos false
  refine ⟨rs, hrun, hstart, hiff.mpr (.inr ?_)⟩
  have hall : ∀ root ∈ [(1 : Int), -1, 9], ∀ a ∈ pointBeside.verticesMap root,
      ∀ v < pointBeside.graph.numVertices,
        v ≠ a → 0 ≤ pointBeside.vertexId v →
          0 ≤ pointBeside.vertexId (searchTree searchVisits pointBeside.graph 3 a v) ∨
            searchTree searchVisits pointBeside.graph 3 a v = a := by decide +kernel
  intro root hroot a ha v hne hid hwithin
  obtain ⟨d, _, hdist⟩ := hwithin
  have hg : pointBeside.Consistent := PgrBaseGraph.ofTable_consistent true _
  have hlt : v < pointBeside.graph.numVertices :=
    hdist.walk.closed (C := (· < pointBeside.graph.numVertices))
      (fun u v w harc _ => (hg.arc_lt harc).2) (hg.lt ha)
  exact hall root hroot a ha v hlt hne hid

/-- The graph of a table with two rows, from the vertex 1 over the point -1 to the vertex 2. -/
def pointBetween : PgrBaseGraph BasicVertex BasicEdge :=
  .ofTable true [⟨7, 1, -1, 1, -1⟩, ⟨8, -1, 2, 1, -1⟩]

/-- Without details the row of the vertex 2 names the point before it instead of the vertex 1. -/
theorem pointBetween_not_consistentTree :
    (∀ a < pointBetween.graph.numVertices,
      (searchVisits pointBetween.graph a).Documented pointBetween.graph a ∧
      (searchVisits pointBetween.graph a).Labels pointBetween.graph a) ∧
    (∀ u v w, pointBetween.graph.Arc u v w → 0 ≤ w) ∧
    ∃ rs, drivingDistanceNoEquicost pointBetween searchVisits [1] 5 false = some rs ∧
      ¬ ∀ r ∈ rs, ConsistentTree pointBetween (searchTree searchVisits pointBetween.graph 5) 5
        false r := by
  refine ⟨fun a _ => table_visits _ a, table_cost _, ?_⟩
  have hg : pointBetween.Consistent := PgrBaseGraph.ofTable_consistent _ _
  have hpos : (0 : ℚ) < 5 := by norm_num
  have hroot : pointBetween.verticesMap 1 = some 0 := by decide +kernel
  obtain ⟨hdoc, hlabels⟩ := table_visits [⟨7, 1, -1, 1, -1⟩, ⟨8, -1, 2, 1, -1⟩] 0
  obtain ⟨D, P', path, depth, hrun, hs, hr⟩ := ofRoot_spec hg (table_cost _) hdoc hlabels hpos
    false hroot
  refine ⟨[(⟨1, 1, path⟩, depth)], ?_, fun h => ?_⟩
  · rw [drivingDistanceNoEquicost, List.mapM_cons, hrun]
    rfl
  · have hnone := (hr.consistentTree_iff hg hroot hs).mp (h _ (List.mem_singleton.mpr rfl))
    have hwithin : Within pointBetween.graph.Arc 0 5 2 := by
      have hmem : 2 ∈ (searchVisits pointBetween.graph 0).examined.take 3 := by decide +kernel
      have htwo : (searchVisits pointBetween.graph 0).distances 3 2 = (2 : ℚ) := by decide +kernel
      obtain ⟨d, hd, hdist⟩ := hdoc.label hmem
      obtain rfl : d = 2 := WithTop.coe_injective (hd.symm.trans htwo)
      exact ⟨2, by norm_num, hdist⟩
    have hid : (0 : Int) ≤ pointBetween.vertexId 2 := by decide +kernel
    obtain hpoint | hsource := (hnone.resolve_left (by simp)) 0 hroot 2 (by decide) hid hwithin
    · have hneg : ¬ (0 : Int) ≤
          pointBetween.vertexId (searchTree searchVisits pointBetween.graph 5 0 2) := by
        decide +kernel
      exact hneg hpoint
    · have hne : searchTree searchVisits pointBetween.graph 5 0 2 ≠ 0 := by decide +kernel
      exact hne hsource

end DrivingDistance

end PgRouting
