import PgRouting.Native.BaseGraph
import PgRouting.Native.Identifiers
import PgRouting.Lib.Loop
import Mathlib.Algebra.Order.AddGroupWithTop

/-!
# Graph contraction

`Pgr_contractionGraph` and the contractions that `Pgr_contract` runs on it: dead
end vertices (`Pgr_deadend`) and linear vertices (`Pgr_linear`).

Costs are exact rationals. Where the source starts the search for a minimum at
`std::numeric_limits<double>::max()` the minimum starts at `⊤`, above every cost.

The list `contracted` of a graph is not in the source: it records which vertices
have been contracted and how, the latest first. No function reads it.
-/

namespace PgRouting

/-- `class CH_vertex` -/
structure CHVertex where
  id : Int
  contractedVertices : Identifiers Int
deriving DecidableEq

/-- `class CH_edge` -/
structure CHEdge where
  id : Int
  source : Int
  target : Int
  cost : ℚ
  contractedVertices : Identifiers Int
deriving DecidableEq

instance : TVertex CHVertex where
  ofId id := ⟨id, .empty⟩
  id v := v.id
  id_ofId _ := rfl

instance : TEdge CHEdge where
  ofIdCost id cost :=
    { id := id, source := 0, target := 0, cost := cost, contractedVertices := .empty }
  id e := e.id
  cost e := e.cost
  id_ofIdCost _ _ := rfl
  cost_ofIdCost _ _ := rfl

/-- `add_contracted_vertex(CH_vertex&)` -/
def CHVertex.addContractedVertex (x v : CHVertex) : CHVertex :=
  { x with contractedVertices := (x.contractedVertices.add v.id).union v.contractedVertices }

/-- `add_contracted_vertex(const Identifiers&)` -/
def CHVertex.addContractedVertices (x : CHVertex) (ids : Identifiers Int) : CHVertex :=
  { x with contractedVertices := x.contractedVertices.union ids }

/-- `clear_contracted_vertices` -/
def CHVertex.clearContractedVertices (x : CHVertex) : CHVertex :=
  { x with contractedVertices := .empty }

/-- `add_contracted_vertex` -/
def CHEdge.addContractedVertex (e : CHEdge) (v : CHVertex) : CHEdge :=
  { e with contractedVertices := (e.contractedVertices.add v.id).union v.contractedVertices }

/-- `add_contracted_edge_vertices` -/
def CHEdge.addContractedEdgeVertices (e e' : CHEdge) : CHEdge :=
  { e with contractedVertices := e.contractedVertices.union e'.contractedVertices }

/-- The kinds of contraction, with the numbers that stand for them in a contraction order. -/
inductive ContractionKind
  | deadEnd
  | linear
deriving DecidableEq, Repr

/-- `class Pgr_contractionGraph` -/
structure PgrContractionGraph extends PgrBaseGraph CHVertex CHEdge where
  minEdgeId : Int := 0
  forbiddenVertices : Identifiers Nat := .empty
  contracted : List (ContractionKind × Nat) := []

/-- `std::numeric_limits<double>::max()`, where the source stores it as a cost. -/
def dblMax : ℚ := (2 ^ 53 - 1) * 2 ^ 971

namespace PgrContractionGraph

variable (g : PgrContractionGraph)

/-- `graph[v]` -/
def vertex (v : Nat) : CHVertex :=
  (g.graph.vertices[v]?).getD { id := 0, contractedVertices := .empty }

/-- An assignment to `graph[v]`. -/
def modifyVertex (v : Nat) (f : CHVertex → CHVertex) : PgrContractionGraph :=
  { g with graph := { g.graph with vertices := g.graph.vertices.modify v f } }

/-- `find_adjacent_vertices` -/
def findAdjacentVertices (v : Nat) : Identifiers Nat :=
  let out := (g.graph.outEdges v).foldl
    (fun adjacentVertices e => adjacentVertices.add (PgrBaseGraph.adjacent v e)) .empty
  (g.graph.inEdges v).foldl
    (fun adjacentVertices e => adjacentVertices.add (PgrBaseGraph.adjacent v e)) out

/-- The loop of `get_min_cost_edge` over the edges that lead from `u` to `v`. -/
def getMinCostEdgeLoop : List (BoostEdge CHEdge) → WithTop ℚ → CHEdge → Bool →
    Identifiers Int → CHEdge × Bool
  | [], _, edge, found, contractedVertices =>
    ({ edge with contractedVertices := contractedVertices }, found)
  | e :: rest, minCost, edge, found, contractedVertices =>
    let contractedVertices := contractedVertices.union e.bundle.contractedVertices
    if (e.bundle.cost : WithTop ℚ) < minCost then
      getMinCostEdgeLoop rest e.bundle.cost e.bundle true contractedVertices
    else getMinCostEdgeLoop rest minCost edge found contractedVertices

/-- `get_min_cost_edge`: the first cheapest edge, with the contracted vertices of all edges
    that lead from `u` to `v`. -/
def getMinCostEdge (u v : Nat) : CHEdge × Bool :=
  getMinCostEdgeLoop
    ((g.graph.outEdges u).filter fun e =>
      if g.graph.directed then e.target = v else PgrBaseGraph.adjacent u e = v)
    ⊤ (TEdge.ofIdCost 0 0) false .empty

/-- `add_shortcut` -/
def addShortcut (edge : CHEdge) (u v : Nat) : PgrContractionGraph :=
  if edge.cost < 0 then g else { g with graph := g.graph.addEdge u v edge }

/-- The edge `boost::edge(u, v, graph)` has been found. -/
def hasEdge (u v : Nat) : Bool := (g.graph.edge u v).isSome

/-- `has_u_v_w` -/
def hasUVW (u v w : Nat) : Bool := g.hasEdge u v && g.hasEdge v w

/-- `is_shortcut_possible` -/
def isShortcutPossible (u v w : Nat) : Bool :=
  if u = v ∨ v = w ∨ u = w then false
  else if !g.graph.directed then g.hasUVW u v w
  else
    -- `u <-> v <-> w`, `u -> v -> w` or `u <- v <- w`
    (g.hasUVW u v w && g.hasUVW w v u) ||
    (g.hasUVW u v w && !(g.hasEdge v u || g.hasEdge w v)) ||
    (g.hasUVW w v u && !(g.hasEdge v w || g.hasEdge u v))

/-- The two vertices taken from the front of the adjacent vertices of `v`. -/
def linearEnds (v : Nat) : Option (Nat × Nat) :=
  let adjacentVertices := g.findAdjacentVertices v
  match adjacentVertices.front?, adjacentVertices.popFront.front? with
  | some u, some w => some (u, w)
  | _, _ => none

/-- `is_linear` -/
def isLinear (v : Nat) : Bool :=
  if (g.findAdjacentVertices v).size = 2 then
    match g.linearEnds v with
    | some (u, w) => g.isShortcutPossible u v w
    | none => false
  else false

/-- `is_forbidden` -/
def isForbidden (v : Nat) : Bool := g.forbiddenVertices.has v

/-- `is_dead_end` -/
def isDeadEnd (v : Nat) : Bool :=
  if !g.graph.directed then (g.findAdjacentVertices v).size = 1
  else
    (g.findAdjacentVertices v).size = 1 ||
      (0 < (g.graph.inEdges v).length && (g.graph.outEdges v).length = 0)

/-- The edge that `process_shortcut` makes of the passage from `u` through `v` to `w`. -/
def shortcut (u v w : Nat) : CHEdge :=
  let e1 := g.getMinCostEdge u v
  let e2 := g.getMinCostEdge v w
  let cost := if e1.2 && e2.2 then e1.1.cost + e2.1.cost else dblMax
  let shortcut : CHEdge :=
    { id := g.minEdgeId - 1, source := (g.vertex u).id, target := (g.vertex w).id, cost := cost,
      contractedVertices := .empty }
  let shortcut := shortcut.addContractedVertex (g.vertex v)
  let shortcut := shortcut.addContractedEdgeVertices e1.1
  shortcut.addContractedEdgeVertices e2.1

/-- `process_shortcut` -/
def processShortcut (u v w : Nat) : PgrContractionGraph :=
  { g with minEdgeId := g.minEdgeId - 1 }.addShortcut (g.shortcut u v w) u w

/-- The end of every contraction: the contracted vertices of `v` are cleared, and
    `boost::clear_vertex` takes its edges out of the graph. -/
def clearVertex (kind : ContractionKind) (v : Nat) : PgrContractionGraph :=
  let g := g.modifyVertex v CHVertex.clearContractedVertices
  { g with graph := g.graph.clearVertex v, contracted := (kind, v) :: g.contracted }

/-! ## Dead end contraction -/

/-- What `u` takes over from its dead end neighbour `v`. -/
def mergeDeadEnd (v u : Nat) : PgrContractionGraph :=
  let e := g.getMinCostEdge u v
  let g := g.modifyVertex u fun x => x.addContractedVertices e.1.contractedVertices
  g.modifyVertex u fun x => x.addContractedVertex (g.vertex v)

/-- The contraction of the dead end vertex `v`. -/
def contractDeadEnd (v : Nat) : PgrContractionGraph :=
  ((g.findAdjacentVertices v).ids.foldl (mergeDeadEnd · v) g).clearVertex .deadEnd v

/-! ## Linear contraction -/

/-- The shortcuts that replace the linear vertex `v` between `u` and `w`. -/
def addShortcuts (u v w : Nat) : PgrContractionGraph :=
  if g.graph.directed then
    let g := if g.hasEdge u v && g.hasEdge v w then g.processShortcut u v w else g
    if g.hasEdge w v && g.hasEdge v u then g.processShortcut w v u else g
  else g.processShortcut u v w

/-- The contraction of the linear vertex `v`. -/
def contractLinear (v : Nat) : PgrContractionGraph :=
  match g.linearEnds v with
  | some (u, w) => (g.addShortcuts u v w).clearVertex .linear v
  | none => g

/-- The contraction of one vertex. -/
def contractVertex : ContractionKind × Nat → PgrContractionGraph
  | (.deadEnd, v) => g.contractDeadEnd v
  | (.linear, v) => g.contractLinear v

end PgrContractionGraph

/-! ## `class Pgr_deadend` -/

namespace PgrDeadend

/-- `calculateVertices` -/
def calculateVertices (g : PgrContractionGraph) (deadendVertices : Identifiers Nat) :
    Identifiers Nat :=
  (List.range g.graph.numVertices).foldl
    (fun deadendVertices v =>
      if g.isDeadEnd v && !g.isForbidden v then deadendVertices.add v else deadendVertices)
    deadendVertices

/-- A vertex whose neighbourhood has changed is looked at again. -/
def reevaluate (g : PgrContractionGraph) (deadendVertices : Identifiers Nat) (u : Nat) :
    Identifiers Nat :=
  if g.isDeadEnd u && !g.isForbidden u then deadendVertices.add u else deadendVertices.remove u

/-- One round of the loop of `doContraction`. -/
def round (s : PgrContractionGraph × Identifiers Nat) :
    LoopStep (PgrContractionGraph × Identifiers Nat) PgrContractionGraph :=
  let (g, deadendVertices) := s
  match deadendVertices.front? with
  | none => .done g
  | some v =>
    -- The loop over the neighbours removes `v` from the set once more for each of them.
    let deadendVertices := deadendVertices.remove v
    let g' := g.contractDeadEnd v
    .next (g', (g.findAdjacentVertices v).ids.foldl (reevaluate g') deadendVertices)

/-- `calculateVertices`, called by `perform_deadEnd`, and `doContraction`, which calls it
    again. -/
def doContraction (n : Nat) (g : PgrContractionGraph) : Option PgrContractionGraph :=
  runLoop round n (g, calculateVertices g (calculateVertices g .empty))

end PgrDeadend

/-! ## `class Pgr_linear` -/

namespace PgrLinear

/-- `is_contractible` -/
def isContractible (g : PgrContractionGraph) (v : Nat) : Bool := g.isLinear v && !g.isForbidden v

/-- `calculateVertices` -/
def calculateVertices (g : PgrContractionGraph) : Identifiers Nat :=
  (List.range g.graph.numVertices).foldl
    (fun linearVertices v =>
      if isContractible g v then linearVertices.add v else linearVertices)
    .empty

/-- `one_cycle`, which contracts `v` and goes on to its neighbours; `none` when the
    recursion is deeper than the bound. -/
def oneCycle : Nat → PgrContractionGraph × Identifiers Nat → Nat →
    Option (PgrContractionGraph × Identifiers Nat)
  | 0, _, _ => none
  | n + 1, (g, linearVertices), v =>
    let goOn (s : PgrContractionGraph × Identifiers Nat) (x : Nat) :=
      if isContractible s.1 x then oneCycle n s x else some (s.1, s.2.remove x)
    (g.linearEnds v).bind fun ends =>
      (goOn (g.contractLinear v, linearVertices.remove v) ends.1).bind fun s => goOn s ends.2

/-- One round of the loop of `doContraction`. -/
def round (n : Nat) (s : PgrContractionGraph × Identifiers Nat) :
    LoopStep (PgrContractionGraph × Identifiers Nat) (Option PgrContractionGraph) :=
  match s.2.front? with
  | none => .done (some s.1)
  | some v =>
    match oneCycle n (s.1, s.2.remove v) v with
    | some s' => .next s'
    | none => .done none

/-- `doContraction` -/
def doContraction (n : Nat) (g : PgrContractionGraph) : Option PgrContractionGraph :=
  (runLoop (round n) n (g, calculateVertices g)).join

end PgrLinear

/-! ## `class Pgr_contract` -/

namespace PgrContract

/-- `one_cycle`; a number that stands for no contraction is left to an assertion. -/
def oneCycle (n : Nat) (g : PgrContractionGraph) (kind : Int)
    (forbiddenVertices : Identifiers Nat) : Option PgrContractionGraph :=
  let g' := { g with forbiddenVertices := forbiddenVertices }
  if kind = 1 then PgrDeadend.doContraction n g'
  else if kind = 2 then PgrLinear.doContraction n g'
  else some g

/-- One round of the inner loop, over the graph and the contraction order. -/
def round (n : Nat) (forbiddenVertices : Identifiers Nat) (front : Int)
    (s : PgrContractionGraph × List Int) :
    LoopStep (PgrContractionGraph × List Int) (Option (PgrContractionGraph × List Int)) :=
  match s.2 with
  | [] => .done none
  | kind :: contractOrder =>
    if kind = -1 then .done (some s)
    else
      match oneCycle n s.1 kind forbiddenVertices with
      | some g => .next (g, contractOrder ++ [front])
      | none => .done none

/-- One round of the outer loop. -/
def maxCyclesRound (n : Nat) (forbiddenVertices : Identifiers Nat)
    (s : PgrContractionGraph × List Int) : Option (PgrContractionGraph × List Int) :=
  match s.2 with
  | [] => none
  | front :: contractOrder =>
    (runLoop (round n forbiddenVertices front) n (s.1, contractOrder ++ [front])).join

end PgrContract

/-- `Pgr_contract(graph, forbidden_vertices, contraction_order, max_cycles)`; `none` when a
    loop takes more than `n` rounds. -/
def pgrContract (n : Nat) (g : PgrContractionGraph) (forbiddenVertices : Identifiers Nat)
    (contractionOrder : List Int) (maxCycles : Int) : Option PgrContractionGraph :=
  ((List.range maxCycles.toNat).foldlM
    (fun s _ => PgrContract.maxCyclesRound n forbiddenVertices s)
    (g, -1 :: contractionOrder)).map (·.1)

end PgRouting
