import PgRouting.Native.Dijkstra
import PgRouting.Native.PathOps
import PgRouting.Lib.Loop
import PgRouting.Lib.OrderedSet

/-!
# Yen

`Pgr_ksp` looks for the `K` shortest paths without loops. A cycle takes the last path that has
been found. For each of its nodes it disconnects the edges by which the paths found so far leave
the common root, and the vertices of the root, has Dijkstra look for the rest of a path, and
restores the graph.

A visitor is told about the paths. What it throws ends the search where it is, with the graph
as it is then. A loop that is still running after the rounds it has been given has no result,
and neither has one in which Dijkstra has none.
-/

namespace PgRouting

/-- `std::numeric_limits<double>::epsilon()` -/
def epsilon : ℚ := 1 / 2 ^ 52

namespace Path

/-- The loop of `compPathsLess` over the nodes of two paths with the same size. -/
def nodesLess : List PathT → List PathT → Bool
  | p :: ps, q :: qs =>
    if q.node < p.node then false else if p.node < q.node then true else nodesLess ps qs
  | _, _ => false

/-- `compPathsLess::operator()` -/
def compPathsLess (p₁ p₂ : Path) : Bool :=
  let far := !decide (|p₂.totCost - p₁.totCost| < epsilon)
  if far ∧ p₂.totCost < p₁.totCost then false
  else if far ∧ p₁.totCost < p₂.totCost then true
  else if p₂.path.length < p₁.path.length then false
  else if p₁.path.length < p₂.path.length then true
  else nodesLess p₁.path p₂.path

/-- `getSubpath` -/
def getSubpath (p : Path) (j : Nat) : Path :=
  (p.path.take j).foldl pushBack (.new p.startId p.endId)

/-- `isEqual`: the path starts with the nodes of the other one and has more of them. -/
def isEqual (p subpath : Path) : Bool :=
  if subpath.path.isEmpty then true
  else if p.path.length ≤ subpath.path.length then false
  else (p.path.take subpath.path.length).map (·.node) = subpath.path.map (·.node)

end Path

/-- `std::set<Path, compPathsLess>::insert` -/
def insertPath (p : Path) (paths : List Path) : List Path :=
  orderedInsert Path.compPathsLess p paths

/-- `class Pgr_ksp::Visitor`, with the state that it changes: each function returns whether it
    throws, and the state afterwards. -/
structure KspVisitor (σ : Type) where
  onInsertFirstSolution : Path → σ → Bool × σ
  onInsertToHeap : Path → σ → Bool × σ

/-- The visitor that does nothing. -/
def KspVisitor.noop : KspVisitor Unit where
  onInsertFirstSolution := fun _ s => (false, s)
  onInsertToHeap := fun _ s => (false, s)

/-- The members of `Pgr_ksp` that change in the search, with the graph and the state of the
    visitor. -/
structure Ksp (σ : Type) where
  graph : PgrBaseGraph BasicVertex BasicEdge
  currResultPath : Path
  resultSet : List Path
  heap : List Path
  vis : σ

namespace Ksp

variable {σ : Type}

/-- `removeVertices` -/
def removeVertices (graph : PgrBaseGraph BasicVertex BasicEdge) (subpath : Path) :
    PgrBaseGraph BasicVertex BasicEdge :=
  subpath.path.foldl (fun graph e => graph.disconnectVertex e.node) graph

/-- The body of the loop of `doNextCycle` over the paths found so far. -/
def disconnectSpur (rootPath : Path) (spurNodeId : Int) (i : Nat)
    (graph : PgrBaseGraph BasicVertex BasicEdge) (path : Path) :
    PgrBaseGraph BasicVertex BasicEdge :=
  match path.path[i]?, path.path[i + 1]? with
  | some x, some y =>
    if path.isEqual rootPath ∧ spurNodeId = x.node then graph.disconnectEdge x.node y.node
    else graph
  | _, _ => graph

variable (boost : BoostDijkstra BasicVertex BasicEdge) (vis : KspVisitor σ) (mEnd : Int)

/-- The body of the loop of `doNextCycle` over the nodes: whether the visitor has thrown, and
    the state afterwards. -/
def spurStep (i : Nat) (s : Ksp σ) : Option (Bool × Ksp σ) := do
  let spurNodeId ← s.currResultPath.path[i]?.map (·.node)
  let rootPath := s.currResultPath.getSubpath i
  let graph := s.resultSet.foldl (disconnectSpur rootPath spurNodeId i) s.graph
  let graph := removeVertices graph rootPath
  let spurPath ← Algorithms.dijkstra boost graph spurNodeId mEnd false
  if 0 < spurPath.path.length then
    let rootPath := rootPath.appendPath spurPath
    let heap := insertPath rootPath s.heap
    let (thrown, state) := vis.onInsertToHeap rootPath s.vis
    -- A visitor that throws leaves before the graph is restored.
    let graph := if thrown then graph else graph.restoreGraph
    pure (thrown, { s with graph := graph, heap := heap, vis := state })
  else pure (false, { s with graph := graph.restoreGraph })

/-- The loop of `doNextCycle`. -/
def cycleLoop : List Nat → Ksp σ → Option (Bool × Ksp σ)
  | [], s => some (false, s)
  | i :: rest, s =>
    match spurStep boost vis mEnd i s with
    | none => none
    | some (true, s) => some (true, s)
    | some (false, s) => cycleLoop rest s

/-- `doNextCycle` -/
def doNextCycle (s : Ksp σ) : Option (Bool × Ksp σ) :=
  cycleLoop boost vis mEnd (List.range s.currResultPath.path.length) s

/-- A round of `executeYen`. -/
def round (k : Nat) (s : Ksp σ) : LoopStep (Ksp σ) (Option (Bool × Ksp σ)) :=
  if s.resultSet.length < k then
    match doNextCycle boost vis mEnd s with
    | none => .done none
    | some (true, s) => .done (some (true, s))
    | some (false, s) =>
      match s.heap with
      | [] => .done (some (false, s))
      | p :: rest =>
        -- The first of the heap moves to the results.
        let path := p.recalculateAggCost
        .next { s with
          currResultPath := path
          resultSet := insertPath path s.resultSet
          heap := rest }
  else .done (some (false, s))

/-- What `executeYen` does before its loop: `getFirstSolution` and the visitor. -/
def firstSolution (graph : PgrBaseGraph BasicVertex BasicEdge) (mStart : Int) (state : σ) :
    Option (Bool × Ksp σ) := do
  let path ← Algorithms.dijkstra boost graph mStart mEnd false
  let path := path.recalculateAggCost
  let resultSet := if path.path.isEmpty then [] else insertPath path []
  let (thrown, state) := vis.onInsertFirstSolution path state
  pure (thrown, ⟨graph, path, resultSet, [], state⟩)

/-- `executeYen`, with at most `n` rounds of its loop. -/
def executeYen (n : Nat) (graph : PgrBaseGraph BasicVertex BasicEdge) (mStart : Int) (k : Nat)
    (state : σ) : Option (Bool × Ksp σ) := do
  let (thrown, s) ← firstSolution boost vis mEnd graph mStart state
  if thrown ∨ s.resultSet.isEmpty then pure (thrown, s)
  else (runLoop (round boost vis mEnd k) n s).join

/-- `get_results` -/
def getResults (s : Ksp σ) (heapPaths : Bool) : List Path :=
  if s.resultSet.isEmpty then []
  else
    let paths := if heapPaths ∧ !s.heap.isEmpty then s.resultSet ++ s.heap else s.resultSet
    paths.mergeSort fun p q => !q.compPathsLess p

/-- `Pgr_ksp::Yen`: the paths, and the graph afterwards. -/
def yen (n : Nat) (graph : PgrBaseGraph BasicVertex BasicEdge) (startVertex endVertex : Int)
    (k : Nat) (heapPaths : Bool) : Option (List Path × PgrBaseGraph BasicVertex BasicEdge) :=
  if startVertex = endVertex ∨ k = 0 then some ([], graph)
  else if !graph.hasVertex startVertex ∨ !graph.hasVertex endVertex then some ([], graph)
  else do
    let (_, s) ← executeYen boost .noop endVertex n graph startVertex k ()
    let paths := s.getResults heapPaths
    pure (if !heapPaths then paths.take k else paths, s.graph)

end Ksp

namespace Algorithms

variable (boost : BoostDijkstra BasicVertex BasicEdge)

/-- The body of the loop of `algorithms::Yen` over the destinations of one vertex. -/
def yenTo (n k : Nat) (heapPaths : Bool) (departure : Int)
    (s : List Path × PgrBaseGraph BasicVertex BasicEdge) (destination : Int) :
    Option (List Path × PgrBaseGraph BasicVertex BasicEdge) :=
  if !s.2.hasVertex destination then some s
  else do
    let (resultPath, graph) ← Ksp.yen boost n s.2 departure destination k heapPaths
    pure (s.1 ++ resultPath, graph)

/-- `algorithms::Yen`: the paths, and the graph afterwards. -/
def yen (n : Nat) (graph : PgrBaseGraph BasicVertex BasicEdge)
    (combinations : List (Int × List Int)) (k : Nat) (heapPaths : Bool) :
    Option (List Path × PgrBaseGraph BasicVertex BasicEdge) :=
  combinations.foldlM (fun s c =>
    if !s.2.hasVertex c.1 then some s else c.2.foldlM (yenTo boost n k heapPaths c.1) s)
    ([], graph)

end Algorithms

end PgRouting
