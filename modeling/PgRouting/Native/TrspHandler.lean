import PgRouting.Native.BaseGraph
import PgRouting.Native.Path
import PgRouting.Lib.Loop
import PgRouting.Lib.PriorityQueue
import Mathlib.Algebra.Order.Monoid.WithTop
import Mathlib.Data.Prod.Lex
import Mathlib.Data.Bool.Basic

/-!
# Turn restricted shortest paths

`TrspHandler` searches over the edges of the table rather than over the vertices:
an edge can be traversed from its start node to its end node, at its cost, or
from its end node to its start node, at its reverse cost. The constructor links
every edge to the edges that meet its ends; a query then runs Dijkstra over the
traversals and adds the costs of the rules that a traversal completes.

The members are split into those that the constructor sets (`TrspGraph`) and
those that a query changes (`TrspQuery`). A read that is out of bounds, a use of
an uninitialised edge and an exception end a computation with `none`, and so does
a loop that is still running after the rounds it has been given. The largest
`double`, the cost of what has not been reached, is `⊤`.
-/

namespace PgRouting

/-! ## Rules -/

/-- `struct Restriction_t`: the edges of `via` must not be traversed one after the other,
    or only at an extra cost. -/
structure RestrictionT where
  cost : ℚ
  via : List Int
  via_ne : via ≠ []

/-- `class Rule` -/
structure Rule where
  destId : Int
  cost : ℚ
  precedencelist : List Int
  all : List Int
deriving DecidableEq, Repr

/-- `Rule(const Restriction_t&)` -/
def Rule.new (r : RestrictionT) : Rule where
  destId := r.via.getLast r.via_ne
  cost := r.cost
  precedencelist := r.via.dropLast.reverse
  all := r.via

/-! ## Edges and predecessors -/

/-- `class EdgeInfo` -/
structure EdgeInfo where
  edge : EdgeT
  edgeIndex : Nat
  startConnectedEdge : List Nat := []
  endConnectedEdge : List Nat := []
deriving DecidableEq, Repr

namespace EdgeInfo

def idx (e : EdgeInfo) : Nat := e.edgeIndex
def startNode (e : EdgeInfo) : Int := e.edge.source
def endNode (e : EdgeInfo) : Int := e.edge.target
def edgeID (e : EdgeInfo) : Int := e.edge.id
def cost (e : EdgeInfo) : ℚ := e.edge.cost
def rCost (e : EdgeInfo) : ℚ := e.edge.reverseCost

/-- `get_idx` -/
def getIdx (e : EdgeInfo) (isStart : Bool) : List Nat :=
  if isStart then e.startConnectedEdge else e.endConnectedEdge

/-- `connect_startEdge` -/
def connectStartEdge (i : Nat) (e : EdgeInfo) : EdgeInfo :=
  { e with startConnectedEdge := e.startConnectedEdge ++ [i] }

/-- `connect_endEdge` -/
def connectEndEdge (i : Nat) (e : EdgeInfo) : EdgeInfo :=
  { e with endConnectedEdge := e.endConnectedEdge ++ [i] }

end EdgeInfo

/-- The legal values of `enum Position`, which are the indices 0 and 1 of the vectors of a
    `Predecessor`: `RC_EDGE` for the traversal that ends at the end node of an edge,
    `C_EDGE` for the traversal that ends at its start node. -/
abbrev Slot := Bool

@[match_pattern] abbrev rcEdge : Slot := false

@[match_pattern] abbrev cEdge : Slot := true

/-- `enum Position`, where `none` stands for `ILLEGAL`. -/
abbrev Position := Option Slot

/-- `class Predecessor` -/
structure Predecessor where
  eIdx : Slot → Nat := fun _ => 0
  vPos : Slot → Position := fun _ => none

/-- `class CostHolder` -/
structure CostHolder where
  startCost : WithTop ℚ := ⊤
  endCost : WithTop ℚ := ⊤

/-- The cost of the traversal in a slot. -/
def CostHolder.get (c : CostHolder) : Slot → WithTop ℚ
  | rcEdge => c.endCost
  | cEdge => c.startCost

def CostHolder.set (c : CostHolder) (x : WithTop ℚ) : Slot → CostHolder
  | rcEdge => { c with endCost := x }
  | cEdge => { c with startCost := x }

/-- `typedef std::pair<double, std::pair<int64_t, bool>> PDP` -/
abbrev PDP := WithTop ℚ ×ₗ Nat ×ₗ Bool

/-- The members of `TrspHandler` that the constructor sets. -/
structure TrspGraph where
  edges : List EdgeInfo := []
  adjacency : Int → Option (List Nat) := fun _ => none
  idToIdx : List (Int × Int) := []
  idxToId : List (Int × Int) := []
  ruleTable : Int → List Rule := fun _ => []

/-- The members of `TrspHandler` that a query changes. -/
structure TrspQuery where
  startVertex : Int := 0
  endVertex : Int := 0
  currentNode : Int := 0
  path : Path := {}
  parent : Nat → Predecessor := fun _ => {}
  dCost : Nat → CostHolder := fun _ => {}
  que : PriorityQueue PDP := []

namespace TrspGraph

/-! ## The constructor -/

/-- `initialize_restrictions` -/
def initializeRestrictions (ruleList : List Rule) : Int → List Rule :=
  ruleList.foldl (fun table rule =>
    Function.update table rule.destId (table rule.destId ++ [rule])) fun _ => []

/-- The part of `renumber_edges` that gives a vertex the next index if it has none. -/
def renumberVertex (idToIdx : List (Int × Int)) (idx id : Int) : List (Int × Int) × Int :=
  if (idToIdx.lookup id).isNone then (idToIdx ++ [(id, idx)], idx + 1) else (idToIdx, idx)

/-- `renumber_edges` -/
def renumberEdges (idToIdx : List (Int × Int)) (idx : Int) :
    List EdgeT → List EdgeT × List (Int × Int)
  | [] => ([], idToIdx)
  | e :: rest =>
    let (idToIdx, idx) := renumberVertex idToIdx idx e.source
    let (idToIdx, idx) := renumberVertex idToIdx idx e.target
    let source := (idToIdx.lookup e.source).getD 0
    let target := (idToIdx.lookup e.target).getD 0
    let (rest, idToIdx) := renumberEdges idToIdx idx rest
    ({ e with source := source, target := target } :: rest, idToIdx)

/-- `connectStartEdge` -/
def connectStartEdge (firstIdx : Nat) (edges : List EdgeInfo) (secondIdx : Nat) :
    List EdgeInfo :=
  match edges[firstIdx]?, edges[secondIdx]? with
  | some firstEdge, some secondEdge =>
    let edges := if 0 ≤ firstEdge.rCost then
      edges.modify firstIdx (·.connectStartEdge secondIdx) else edges
    let edges := if firstEdge.startNode = secondEdge.startNode ∧ 0 ≤ secondEdge.rCost then
      edges.modify secondIdx (·.connectStartEdge firstIdx) else edges
    if firstEdge.startNode = secondEdge.endNode ∧ 0 ≤ secondEdge.cost then
      edges.modify secondIdx (·.connectEndEdge firstIdx) else edges
  | _, _ => edges

/-- `connectEndEdge` -/
def connectEndEdge (firstIdx : Nat) (edges : List EdgeInfo) (secondIdx : Nat) :
    List EdgeInfo :=
  match edges[firstIdx]?, edges[secondIdx]? with
  | some firstEdge, some secondEdge =>
    let edges := if 0 ≤ firstEdge.cost then
      edges.modify firstIdx (·.connectEndEdge secondIdx) else edges
    let edges := if firstEdge.endNode = secondEdge.startNode ∧ 0 ≤ secondEdge.rCost then
      edges.modify secondIdx (·.connectStartEdge firstIdx) else edges
    if firstEdge.endNode = secondEdge.endNode ∧ 0 ≤ secondEdge.cost then
      edges.modify secondIdx (·.connectEndEdge firstIdx) else edges
  | _, _ => edges

/-- How `addEdge` reads a row of the table: a row with a reverse cost only is turned round,
    and an undirected row without a reverse cost gets its cost as the reverse cost. -/
def readEdge (directed : Bool) (edgeIn : EdgeT) : EdgeT :=
  let edgeIn := if edgeIn.cost < 0 ∧ 0 < edgeIn.reverseCost then
    { edgeIn with
      cost := edgeIn.reverseCost, reverseCost := edgeIn.cost
      source := edgeIn.target, target := edgeIn.source }
    else edgeIn
  if !directed ∧ edgeIn.reverseCost < 0 then { edgeIn with reverseCost := edgeIn.cost }
  else edgeIn

/-- `m_adjacency[node].push_back(idx)` -/
def pushAdjacency (adjacency : Int → Option (List Nat)) (node : Int) (idx : Nat) :
    Int → Option (List Nat) :=
  Function.update adjacency node (some ((adjacency node).getD [] ++ [idx]))

/-- `addEdge` -/
def addEdge (directed : Bool) (g : TrspGraph) (edgeIn : EdgeT) : TrspGraph :=
  let edgeIn := readEdge directed edgeIn
  let idx := g.edges.length
  let edges := g.edges ++ [{ edge := edgeIn, edgeIndex := idx }]
  let edges := ((g.adjacency edgeIn.source).getD []).foldl (connectStartEdge idx) edges
  let edges := ((g.adjacency edgeIn.target).getD []).foldl (connectEndEdge idx) edges
  { g with
    edges := edges
    adjacency := pushAdjacency (pushAdjacency g.adjacency edgeIn.source idx) edgeIn.target idx }

/-- `construct_graph` -/
def constructGraph (directed : Bool) (g : TrspGraph) (edges : List EdgeT) : TrspGraph :=
  edges.foldl (addEdge directed) g

/-- `TrspHandler(edges, directed, ruleList)` -/
def new (edges : List EdgeT) (directed : Bool) (ruleList : List Rule) : TrspGraph :=
  let (edges, idToIdx) := renumberEdges [] 0 edges
  constructGraph directed
    { idToIdx := idToIdx
      idxToId := idToIdx.map fun (id, idx) => (idx, id)
      ruleTable := initializeRestrictions ruleList } edges

end TrspGraph

namespace TrspQuery

variable (g : TrspGraph)

/-! ## The search -/

/-- The loop over the precedence list of a rule: the rule applies when its preceding edges
    are the last ones of the path that leads to the edge `edgeInd`, traversed as `vPos` says. -/
def checkPrecedence (q : TrspQuery) : Nat → Position → List Int → Option Bool
  | _, _, [] => some true
  | edgeInd, vPos, precedence :: rest =>
    match g.edges[edgeInd]? with
    -- `m_edges` is read behind its end.
    | none => none
    | some edge =>
      if precedence ≠ edge.edgeID then some false
      else
        match vPos with
        | none => none
        | some slot =>
          checkPrecedence q ((q.parent edgeInd).eIdx slot) ((q.parent edgeInd).vPos slot) rest

/-- `getRestrictionCost` -/
def getRestrictionCost (q : TrspQuery) (edgeInd : Nat) (edge : EdgeInfo) (isStart : Bool) :
    Option ℚ :=
  (g.ruleTable edge.edgeID).foldlM (fun cost rule => do
    let flag ← checkPrecedence g q edgeInd (some (if isStart then cEdge else rcEdge))
      rule.precedencelist
    pure (cost + if flag then rule.cost else 0)) 0

/-- `get_tot_cost` -/
def getTotCost (q : TrspQuery) (cost : ℚ) (edgeIdx : Nat) (isStart : Bool) : WithTop ℚ :=
  if isStart then (q.dCost edgeIdx).startCost + (cost : WithTop ℚ)
  else (q.dCost edgeIdx).endCost + (cost : WithTop ℚ)

/-- `add_to_que` -/
def addToQue (q : TrspQuery) (cost : WithTop ℚ) (eIdx : Nat) (isStart : Bool) : TrspQuery :=
  { q with que := q.que.push (toLex (cost, toLex (eIdx, isStart))) }

/-- What both branches of the loop of `explore` do when they can traverse an edge: the cost
    and the parent in the slot of the traversal are updated if the total cost is better. -/
def relax (q : TrspQuery) (curIdx : Nat) (isStart : Bool) (index : Nat) (edge : EdgeInfo)
    (slot : Slot) (cost : ℚ) : TrspQuery :=
  let totalCost := q.getTotCost cost curIdx isStart
  if totalCost < (q.dCost index).get slot then
    addToQue { q with
      dCost := Function.update q.dCost index ((q.dCost index).set totalCost slot)
      parent := Function.update q.parent edge.idx
        { vPos := Function.update (q.parent edge.idx).vPos slot
            (some (if isStart then cEdge else rcEdge))
          eIdx := Function.update (q.parent edge.idx).eIdx slot curIdx } }
      totalCost edge.idx (!slot)
  else q

/-- The body of the loop of `explore`. -/
def exploreEdge (curNode : Int) (curEdge : EdgeInfo) (isStart : Bool) (q : TrspQuery)
    (index : Nat) : Option TrspQuery := do
  let edge ← g.edges[index]?
  let extraCost ← getRestrictionCost g q curEdge.idx edge isStart
  let q := if edge.startNode = curNode ∧ 0 ≤ edge.cost then
    q.relax curEdge.idx isStart index edge rcEdge (edge.cost + extraCost) else q
  let q := if edge.endNode = curNode ∧ 0 ≤ edge.rCost then
    q.relax curEdge.idx isStart index edge cEdge (edge.rCost + extraCost) else q
  pure q

/-- `explore` -/
def explore (curNode : Int) (curEdge : EdgeInfo) (isStart : Bool) (q : TrspQuery) :
    Option TrspQuery :=
  (curEdge.getIdx isStart).foldlM (exploreEdge g curNode curEdge isStart) q

/-- What both branches of the loop of `initialize_que` do. -/
def startWith (q : TrspQuery) (curEdge : EdgeInfo) (slot : Slot) (cost : ℚ) : TrspQuery :=
  addToQue { q with
    dCost := Function.update q.dCost curEdge.idx ((q.dCost curEdge.idx).set cost slot)
    parent := Function.update q.parent curEdge.idx
      { q.parent curEdge.idx with
        vPos := Function.update (q.parent curEdge.idx).vPos slot none } }
    cost curEdge.idx (!slot)

/-- The body of the loop of `initialize_que`. -/
def initializeEdge (q : TrspQuery) (source : Nat) : Option TrspQuery := do
  let curEdge ← g.edges[source]?
  let q := if curEdge.startNode = q.startVertex ∧ 0 ≤ curEdge.cost then
    q.startWith curEdge rcEdge curEdge.cost else q
  let q := if curEdge.endNode = q.startVertex ∧ 0 ≤ curEdge.rCost then
    q.startWith curEdge cEdge curEdge.rCost else q
  pure q

/-- `initialize_que` -/
def initializeQue (q : TrspQuery) : Option TrspQuery :=
  ((g.adjacency q.startVertex).getD []).foldlM (initializeEdge g) q

/-- A round of `dijkstra_exploration`, on the query and `cur_edge`, which has no value at first. -/
def explorationRound : TrspQuery × Option EdgeInfo →
    LoopStep (TrspQuery × Option EdgeInfo) (Option (TrspQuery × Option EdgeInfo))
  | (q, curEdge) =>
    match q.que.top? with
    | none => .done (some (q, curEdge))
    | some curPos =>
      let q := { q with que := q.que.pop }
      match g.edges[(ofLex (ofLex curPos).2).1]? with
      | none => .done none
      | some curEdge =>
        if (ofLex (ofLex curPos).2).2 then
          -- explore edges connected to end node
          let q := { q with currentNode := curEdge.endNode }
          if curEdge.cost < 0 then .next (q, some curEdge)
          else if q.currentNode = q.endVertex then .done (some (q, some curEdge))
          else match explore g q.currentNode curEdge false q with
            | some q => .next (q, some curEdge)
            | none => .done none
        else
          -- explore edges connected to start node
          let q := { q with currentNode := curEdge.startNode }
          if curEdge.rCost < 0 then .next (q, some curEdge)
          else if q.currentNode = q.endVertex then .done (some (q, some curEdge))
          else match explore g q.currentNode curEdge true q with
            | some q => .next (q, some curEdge)
            | none => .done none

/-- `dijkstra_exploration`, run for at most `n` rounds. -/
def dijkstraExploration (n : Nat) (q : TrspQuery) : Option (TrspQuery × Option EdgeInfo) :=
  (runLoop (explorationRound g) n (q, none)).join

/-! ## The path -/

/-- `construct_path`, with at most `n` nested calls: the cost up to the edge and the query
    with the rows appended to its path. -/
def constructPath : Nat → Nat → Slot → TrspQuery → Option (WithTop ℚ × TrspQuery)
  | 0, _, _, _ => none
  | n + 1, edId, pos, q =>
    match g.edges[edId]? with
    | none => none
    | some curEdge =>
      let node := if pos = rcEdge then curEdge.startNode else curEdge.endNode
      match (q.parent edId).vPos pos with
      | none =>
        -- The first edge of the path.
        let cost := if pos = rcEdge then curEdge.cost else curEdge.rCost
        some (cost, { q with path := q.path.pushBack ⟨node, curEdge.edgeID, cost, 0⟩ })
      | some parentPos =>
        match constructPath n ((q.parent edId).eIdx pos) parentPos q with
        | none => none
        | some (ret, q) =>
          let cost := (q.dCost edId).get pos
          some (cost, { q with
            path := q.path.pushBack ⟨node, curEdge.edgeID, cost.untopD 0 - ret.untopD 0, 0⟩ })

/-! ## Queries -/

/-- `clear` -/
def clear (q : TrspQuery) : TrspQuery :=
  { q with parent := fun _ => {}, dCost := fun _ => {}, path := {} }

/-- `process_trsp`, with at most `n` rounds of the search. -/
def processTrsp (n : Nat) (q : TrspQuery) : Option (Path × TrspQuery) := do
  let q ← initializeQue g q
  let q := { q with currentNode := q.startVertex }
  let (q, curEdge) ← dijkstraExploration g n q
  if q.currentNode ≠ q.endVertex then
    let result ← (Path.new q.startVertex q.endVertex).renumberVertices g.idxToId
    pure (result, q)
  else
    let curEdge ← curEdge
    -- Read from the node that was reached, whichever slot the search has taken.
    let pos := if q.currentNode = curEdge.startNode then cEdge else rcEdge
    let (_, q) ← constructPath g (2 * g.edges.length + 1) curEdge.idx pos q
    let q := { q with path := q.path.pushBack ⟨q.endVertex, -1, 0, 0⟩ }
    let q := { q with path := q.path.recalculateAggCost }
    let result ← q.path.renumberVertices g.idxToId
    pure (result, { q with path := result })

/-- `process(start_vertex, end_vertex)`, with at most `n` rounds of the search. -/
def process (n : Nat) (startVertex endVertex : Int) (q : TrspQuery) :
    Option (Path × TrspQuery) :=
  match g.idToIdx.lookup startVertex, g.idToIdx.lookup endVertex with
  | some s, some t =>
    let q := { q.clear with startVertex := s, endVertex := t }
    let q := { q with path := .new q.startVertex q.endVertex }
    if (g.adjacency q.startVertex).isNone then some ({}, q)
    else if (g.adjacency q.endVertex).isNone then some ({}, q)
    else processTrsp g n q
  | _, _ => some ({}, q)

/-- `process(combinations)`: the pairs in the order of the map, one after the other on the
    same handler. -/
def processAll (n : Nat) : List (Int × Int) → TrspQuery → Option (List Path × TrspQuery)
  | [], q => some ([], q)
  | (source, target) :: rest, q => do
    let (path, q) ← process g n source target q
    let (paths, q) ← processAll n rest q
    pure (path :: paths, q)

end TrspQuery

end PgRouting
