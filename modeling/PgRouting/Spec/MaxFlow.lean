import PgRouting.Spec.EdgeDisjoint
import PgRouting.Spec.FlowRows

/-!
# The maximum flow and the smallest cut

The driver of the maximum flow functions answers with a flow from the sources to the sinks whose
value is the capacity of a cut of the edges, unless a source is also a sink.

## Key results

- `doMaxFlow_common`: a source that is also a sink
- `doMaxFlow_spec`: the maximum flow and the smallest cut
-/

namespace PgRouting

namespace PgrFlowGraph

open FlowNetwork

variable {g : PgrFlowGraph} {residual : g.E → Int} {edges : List EdgeT}
  {ids sources sinks : Identifiers Int} {algorithm : Int} {C : Int → Prop} [DecidablePred C]

/-- A set of ids with the sources and without the sinks. -/
structure Between (sources sinks : Identifiers Int) (C : Int → Prop) : Prop where
  sources : ∀ x ∈ sources, C x
  sinks : ∀ x ∈ sinks, ¬ C x

/-- No cut has less capacity than the flow. -/
theorem net_le_cutCapacity (h : Shape g ids sources sinks (edges.flatMap (flowPairs ids algorithm)))
    (hends : ∀ row ∈ edges, row.source ∈ ids ∧ row.target ∈ ids)
    (hflow : g.network.IsFlow g.capacity (g.flow residual) g.supersource g.supersink)
    (hC : Between sources sinks C) :
    g.network.net (g.flow residual) g.supersource ≤ cutCapacity edges C := by
  have hcut : CutOf ids sources sinks
      (fun v => v = ids.ids.length ∨ v < ids.ids.length ∧ C (idAt ids v)) C := by
    refine ⟨.inl rfl, by omega, fun x hx => ?_, hC.sources, hC.sinks⟩
    have hlt := vertexOf_lt hx
    rw [idAt_vertexOf hx, or_iff_right hlt.ne, and_iff_right hlt]
  rw [← sum_leaving_eq h hcut hends]
  refine hflow.net_le ?_ ?_
  · rw [h.supersource]
    exact hcut.supersource
  · rw [h.supersink]
    exact hcut.supersink

theorem toCapacity_le {P : Prop} [Decidable P] (c : ℚ) :
    (if P then toCapacity c else 0) ≤ toCapacity c := by
  split
  · exact le_refl _
  · exact toCapacity_nonneg c

/-- The capacity of all edges. -/
def totalCapacity (edges : List EdgeT) : Int :=
  (edges.map fun e => toCapacity e.cost + toCapacity e.reverseCost).sum

theorem cutCapacity_le (edges : List EdgeT) : cutCapacity edges C ≤ totalCapacity edges :=
  List.sum_le_sum fun _ _ => add_le_add (toCapacity_le _) (toCapacity_le _)

/-- Some cut has the capacity of a maximum flow, if there is room for it at the sources and the
    sinks. -/
theorem exists_cutCapacity (h : Shape g ids sources sinks
    (edges.flatMap (flowPairs ids algorithm)))
    (hends : ∀ row ∈ edges, row.source ∈ ids ∧ row.target ∈ ids)
    (hdisjoint : ∀ x ∈ sources, x ∉ sinks) (hsize : totalCapacity edges < int32Max)
    {r : (g.E → Int) × Int} (hmax : IsMaxFlow g r) :
    ∃ C : Int → Prop, ∃ _ : DecidablePred C, Between sources sinks C ∧
      g.network.net (g.flow r.1) g.supersource = cutCapacity edges C := by
  have hvalue : g.network.net (g.flow r.1) g.supersource < int32Max := by
    have hle := net_le_cutCapacity (C := fun x => x ∈ sources) h hends hmax.isFlow
      ⟨fun x hx => hx, fun x hx hmem => hdisjoint x hmem hx⟩
    exact (hle.trans (cutCapacity_le edges)).trans_lt hsize
  obtain ⟨R, _, hs, ht, _, hnet⟩ := hmax.isFlow.exists_minCut hmax.maximal
  have hsmall : ∀ e, R (g.source e) → ¬ R (g.target e) → g.capacity e < int32Max := by
    intro e hsource htarget
    refine lt_of_le_of_lt ?_ hvalue
    rw [hnet]
    exact Finset.single_le_sum (fun e _ => h.capacity_nonneg e)
      (Finset.mem_filter.mpr ⟨Finset.mem_univ e, hsource, htarget⟩)
  have hcut : CutOf ids sources sinks R fun x => R (vertexOf ids x) := by
    refine ⟨h.supersource ▸ hs, h.supersink ▸ ht, fun _ _ => Iff.rfl, fun x hx => ?_,
      fun x hx hR => ?_⟩
    · by_contra hR
      obtain ⟨e, hsource, htarget, hcapacity⟩ := h.exists_toSource hx
      exact (hsmall e (hsource ▸ h.supersource ▸ hs) (htarget ▸ hR)).ne hcapacity
    · obtain ⟨e, hsource, htarget, hcapacity⟩ := h.exists_fromSink hx
      exact (hsmall e (hsource ▸ hR) (htarget ▸ h.supersink ▸ ht)).ne hcapacity
  exact ⟨fun x => R (vertexOf ids x), inferInstance, ⟨hcut.sources, hcut.sinks⟩,
    hnet.trans (sum_leaving_eq h hcut hends)⟩

end PgrFlowGraph

namespace MaxFlowDriver

open PgrFlowGraph FlowNetwork ShortestPathDriver

variable {combinations : List (Int × List Int)} {sources sinks : Identifiers Int} {x : Int}

/-- The sources of the pairs. -/
def sourcesOf (combinations : List (Int × List Int)) : Identifiers Int :=
  combinations.foldl (fun sources c => sources.add c.1) .empty

/-- The sinks of the pairs. -/
def sinksOf (combinations : List (Int × List Int)) : Identifiers Int :=
  combinations.foldl (fun targets c => c.2.foldl .add targets) .empty

theorem mem_sourcesOf : x ∈ sourcesOf combinations ↔ ∃ c ∈ combinations, c.1 = x := by
  have hfold : sourcesOf combinations = (combinations.map Prod.fst).foldl .add .empty :=
    List.foldl_map.symm
  rw [hfold, Identifiers.mem_foldl_add, or_iff_right Identifiers.not_mem_empty, List.mem_map]

theorem mem_sinksOf : x ∈ sinksOf combinations ↔ ∃ c ∈ combinations, x ∈ c.2 := by
  have hfold : sinksOf combinations = (combinations.flatMap Prod.snd).foldl .add .empty :=
    List.foldl_flatMap.symm
  rw [hfold, Identifiers.mem_foldl_add, or_iff_right Identifiers.not_mem_empty, List.mem_flatMap]

/-- The sizes tell whether a source is also a sink. -/
theorem size_union_iff : (sinks.ids.foldl Identifiers.add sources).size =
    sources.size + sinks.size ↔ ∀ x ∈ sources, x ∉ sinks := by
  have hsize : ∀ s : Identifiers Int, s.size = s.ids.toFinset.card :=
    fun s => (List.toFinset_card_of_nodup s.nodup).symm
  have hunion : (sinks.ids.foldl Identifiers.add sources).ids.toFinset =
      sources.ids.toFinset ∪ sinks.ids.toFinset := by
    ext x
    rw [Finset.mem_union, List.mem_toFinset, List.mem_toFinset, List.mem_toFinset]
    exact Identifiers.mem_foldl_add
  rw [hsize, hsize, hsize, hunion, Finset.card_union_eq_card_add_card, Finset.disjoint_left]
  simp only [List.mem_toFinset]
  exact Iff.rfl

/-- The algorithm that the driver calls. -/
def run (boost : BoostMaxFlow) (algorithm : Int) (g : PgrFlowGraph) : (g.E → Int) × Int :=
  if algorithm = 1 then boost.pushRelabel g
  else if algorithm = 3 then boost.edmondsKarp g
  else boost.boykovKolmogorov g

/-- A source that is also a sink is an error. -/
theorem doMaxFlow_common (boost : BoostMaxFlow) (edges : List EdgeT)
    (combinationsSql : Option (List (Int × Int))) (starts ends : Option (List Int))
    (algorithm : Int) (onlyFlow : Bool)
    (hpairs : ¬ ((getCombinationsSql combinationsSql starts ends true).isEmpty ∧
      combinationsSql.isSome))
    (hcommon : ∃ c ∈ getCombinationsSql combinationsSql starts ends true,
      ∃ c' ∈ getCombinationsSql combinationsSql starts ends true, c.1 ∈ c'.2) :
    doMaxFlow boost edges combinationsSql starts ends algorithm onlyFlow =
      some (.error "A source found as sink") := by
  obtain ⟨c, hc, c', hc', hmem⟩ := hcommon
  have hsize := mt size_union_iff.mp fun h => h c.1 (mem_sourcesOf.mpr ⟨c, hc, rfl⟩)
    (mem_sinksOf.mpr ⟨c', hc', hmem⟩)
  rw [doMaxFlow, if_neg hpairs]
  exact if_pos hsize

/-- **The maximum flow and the smallest cut.** The rows are a flow from the sources to the sinks.
    Its value, which is returned alone when only the flow is wanted, is no more than the capacity of
    any cut of the edges between the sources and the sinks. It is the capacity of such a cut, if all
    capacities together are less than that of the edges at the supersource. -/
theorem doMaxFlow_spec (boost : BoostMaxFlow) (edges : List EdgeT)
    (combinationsSql : Option (List (Int × Int))) (starts ends : Option (List Int))
    (algorithm : Int) (halgorithm : algorithm = 1 ∨ algorithm = 2 ∨ algorithm = 3)
    (hpairs : ¬ ((getCombinationsSql combinationsSql starts ends true).isEmpty ∧
      combinationsSql.isSome))
    (hedges : edges ≠ [])
    (hdisjoint : ∀ c ∈ getCombinationsSql combinationsSql starts ends true,
      ∀ c' ∈ getCombinationsSql combinationsSql starts ends true, c.1 ∉ c'.2)
    (hboost : IsMaxFlow (ofAlgorithm edges
      (sourcesOf (getCombinationsSql combinationsSql starts ends true))
      (sinksOf (getCombinationsSql combinationsSql starts ends true)) algorithm)
      (run boost algorithm _)) :
    ∃ rows value,
      doMaxFlow boost edges combinationsSql starts ends algorithm false = some (.rows rows) ∧
      doMaxFlow boost edges combinationsSql starts ends algorithm true =
        some (.rows [⟨-1, -1, -1, value, -1⟩]) ∧
      IsEdgeFlow edges (sourcesOf (getCombinationsSql combinationsSql starts ends true))
        (sinksOf (getCombinationsSql combinationsSql starts ends true)) rows value ∧
      (∀ (C : Int → Prop) [DecidablePred C],
        Between (sourcesOf (getCombinationsSql combinationsSql starts ends true))
          (sinksOf (getCombinationsSql combinationsSql starts ends true)) C →
        value ≤ cutCapacity edges C) ∧
      (totalCapacity edges < int32Max → ∃ C : Int → Prop, ∃ _ : DecidablePred C,
        Between (sourcesOf (getCombinationsSql combinationsSql starts ends true))
          (sinksOf (getCombinationsSql combinationsSql starts ends true)) C ∧
        value = cutCapacity edges C) := by
  generalize hcombinations : getCombinationsSql combinationsSql starts ends true = combinations at *
  -- No source is a sink, which is what the driver checks.
  have hapart : ∀ x ∈ sourcesOf combinations, x ∉ sinksOf combinations := by
    intro x hx hx'
    obtain ⟨c, hc, rfl⟩ := mem_sourcesOf.mp hx
    obtain ⟨c', hc', hmem⟩ := mem_sinksOf.mp hx'
    exact hdisjoint c hc c' hc' hmem
  have hshape := ofAlgorithm_shape edges (sourcesOf combinations) (sinksOf combinations) algorithm
  have hends : ∀ row ∈ edges,
      row.source ∈ vertexIds edges (sourcesOf combinations) (sinksOf combinations) ∧
        row.target ∈ vertexIds edges (sourcesOf combinations) (sinksOf combinations) :=
    fun row hrow => edge_ends_mem hrow
  -- The three algorithms are run on the same graph.
  have hrun : ∀ onlyFlow,
      doMaxFlow boost edges combinationsSql starts ends algorithm onlyFlow =
        if onlyFlow then some (.rows [⟨-1, -1, -1, (run boost algorithm (ofAlgorithm edges
          (sourcesOf combinations) (sinksOf combinations) algorithm)).2, -1⟩])
        else ((ofAlgorithm edges (sourcesOf combinations) (sinksOf combinations)
          algorithm).getFlowEdges (run boost algorithm _).1).map .rows := by
    intro onlyFlow
    rw [doMaxFlow, hcombinations, if_neg hpairs]
    refine (if_neg (not_not.mpr (size_union_iff.mpr hapart))).trans ?_
    rw [if_neg (by simpa using hedges), run]
    obtain rfl | rfl | rfl := halgorithm <;> rfl
  refine ⟨_, _, (hrun false).trans (congrArg (Option.map _)
    (getFlowEdges_eq hshape hboost.isFlow.le)), hrun true, ?_, fun C _ hC => ?_, ?_⟩
  · rw [hboost.value]
    exact isEdgeFlow_shown hshape hends hapart hboost.isFlow
  · rw [hboost.value]
    exact net_le_cutCapacity hshape hends hboost.isFlow hC
  · intro hsize
    rw [hboost.value]
    exact exists_cutCapacity hshape hends hapart hsize hboost

theorem isMaxFlow_twoWays : IsMaxFlow (ofAlgorithm twoWays
    (sourcesOf (getCombinationsSql none (some [1]) (some [4]) true))
    (sinksOf (getCombinationsSql none (some [1]) (some [4]) true)) 2) (run twoPaths 2 _) := by
  have h : (ofAlgorithm twoWays (sourcesOf (getCombinationsSql none (some [1]) (some [4]) true))
      (sinksOf (getCombinationsSql none (some [1]) (some [4]) true)) 2).Documented
        (run twoPaths 2 _) := twoPaths_documented
  exact ⟨h.augmented.isFlow (ofAlgorithm_shape _ _ _ _).capacity_nonneg, h.maximal, h.value⟩

/-- Two ways. -/
theorem doMaxFlow_spec_twoWays : ∃ rows value,
    doMaxFlow twoPaths twoWays none (some [1]) (some [4]) 2 false = some (.rows rows) ∧
      doMaxFlow twoPaths twoWays none (some [1]) (some [4]) 2 true =
        some (.rows [⟨-1, -1, -1, value, -1⟩]) ∧
      IsEdgeFlow twoWays (sourcesOf (getCombinationsSql none (some [1]) (some [4]) true))
        (sinksOf (getCombinationsSql none (some [1]) (some [4]) true)) rows value ∧
      (∀ (C : Int → Prop) [DecidablePred C],
        Between (sourcesOf (getCombinationsSql none (some [1]) (some [4]) true))
          (sinksOf (getCombinationsSql none (some [1]) (some [4]) true)) C →
        value ≤ cutCapacity twoWays C) ∧
      (totalCapacity twoWays < int32Max → ∃ C : Int → Prop, ∃ _ : DecidablePred C,
        Between (sourcesOf (getCombinationsSql none (some [1]) (some [4]) true))
          (sinksOf (getCombinationsSql none (some [1]) (some [4]) true)) C ∧
        value = cutCapacity twoWays C) :=
  doMaxFlow_spec twoPaths twoWays none (some [1]) (some [4]) 2 (by decide) (by decide) (by decide)
    (by decide) isMaxFlow_twoWays

end MaxFlowDriver

end PgRouting
