import PgRouting.Native.Yen
import PgRouting.Native.TrspHandler

/-!
# Turn restricted paths by Yen

`Pgr_turnRestrictedPath` runs `Pgr_ksp` with a visitor that collects the paths without a
restriction, and stops the search at the first one when it is asked to.

Where `inf_cost_on_restriction` sets an aggregate cost to infinity, the row is marked.
-/

namespace PgRouting

/-- The position at which `std::search` finds the edges of the rule, from the position `i` on;
    `none` is the end. -/
def Path.findRestriction (rule : Rule) : List PathT → Nat → Option Nat
  | [], _ => none
  | row :: rest, i =>
    if rule.all.isPrefixOf ((row :: rest).map (·.edge)) then some i
    else findRestriction rule rest (i + 1)

/-- `has_restriction` -/
def Path.hasRestriction (p : Path) (rule : Rule) : Bool :=
  (findRestriction rule p.path 0).isSome

/-- A path, with the positions of the rows whose aggregate cost is infinity. -/
structure MarkedPath where
  path : Path
  infinite : List Nat := []

namespace MarkedPath

/-- `inf_cost_on_restriction` -/
def infCostOnRestriction (p : MarkedPath) (rule : Rule) : MarkedPath :=
  match Path.findRestriction rule p.path.path 0 with
  | some i => if i ∈ p.infinite then p else { p with infinite := p.infinite ++ [i] }
  | none => p

/-- `countInfinityCost` -/
def countInfinityCost (p : MarkedPath) : Nat := p.infinite.length

end MarkedPath

/-- The members of `Pgr_turnRestrictedPath` that its arguments set. -/
structure PgrTurnRestrictedPath where
  restrictions : List Rule
  heapPaths : Bool
  stopOnFirst : Bool
  strict : Bool

namespace PgrTurnRestrictedPath

variable (self : PgrTurnRestrictedPath)

/-- `Myvisitor::has_restriction` -/
def hasRestriction (path : Path) : Bool := self.restrictions.any path.hasRestriction

/-- What both functions of `Myvisitor` do with a path. -/
def insertSolution (path : Path) (solutions : List Path) : Bool × List Path :=
  if path.path.isEmpty then (false, solutions)
  else if self.hasRestriction path then (false, solutions)
  else (self.stopOnFirst, insertPath path solutions)

/-- `class Myvisitor` -/
def myvisitor : KspVisitor (List Path) where
  onInsertFirstSolution := self.insertSolution
  onInsertToHeap := self.insertSolution

/-- `inf_cost_on_restriction(paths)`, for one path. -/
def infCostOnRestrictions (path : Path) : MarkedPath :=
  self.restrictions.foldl .infCostOnRestriction { path := path }

/-- `get_results(paths)` -/
def getResults (paths : List Path) : List MarkedPath :=
  if paths.isEmpty then []
  else if self.strict then []
  else
    let paths := paths.map self.infCostOnRestrictions
    let paths := paths.mergeSort fun left right =>
      left.countInfinityCost ≤ right.countInfinityCost
    if self.heapPaths then paths
    else
      paths.filter fun p => paths.head?.map (·.countInfinityCost) = some p.countInfinityCost

variable (boost : BoostDijkstra BasicVertex BasicEdge)

/-- `turnRestrictedPath` and `Yen`: the paths, and the graph afterwards. -/
def turnRestrictedPath (n : Nat) (graph : PgrBaseGraph BasicVertex BasicEdge)
    (startVertex endVertex : Int) (k : Nat) :
    Option (List MarkedPath × PgrBaseGraph BasicVertex BasicEdge) :=
  if startVertex = endVertex then some ([], graph)
  else if !graph.hasVertex startVertex ∨ !graph.hasVertex endVertex then some ([], graph)
  else do
    let (thrown, s) ← Ksp.executeYen boost self.myvisitor endVertex n graph startVertex k []
    if thrown ∨ !s.vis.isEmpty then pure (s.vis.map fun p => { path := p }, s.graph)
    else pure (self.getResults (s.getResults true), s.graph)

end PgrTurnRestrictedPath

end PgRouting
