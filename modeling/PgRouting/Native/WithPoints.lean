import PgRouting.Native.BaseGraph
import Mathlib.Data.Prod.Lex

/-!
# Points on edges

`Pg_points_graph`, which splits the edges of a network at the points that lie on
them. A point with the number `pid` becomes the vertex `-pid`.

The messages written to the log are left out.
-/

namespace PgRouting

/-- The side of the edge on which a point lies, or on which vehicles drive: `'b'`, `'l'` or
    `'r'`. -/
inductive Side
  | both
  | left
  | right
deriving DecidableEq, Repr

/-- The order of the characters. -/
def Side.rank : Side → Nat
  | .both => 0
  | .left => 1
  | .right => 2

/-- What `reverse_sides` makes of a side. -/
def Side.reverse : Side → Side
  | .both => .both
  | .left => .right
  | .right => .left

/-- `struct Point_on_edge_t` -/
structure PointOnEdge where
  pid : Int
  edgeId : Int
  side : Side
  fraction : ℚ
  vertexId : Int
deriving DecidableEq, Repr

/-- The point is neither at the source nor at the target. -/
def PointOnEdge.inside (point : PointOnEdge) : Bool := 0 < point.fraction ∧ point.fraction < 1

/-- `class Pg_points_graph` -/
structure PgPointsGraph where
  points : List PointOnEdge
  edgesOfPoints : List EdgeT
  newEdges : List EdgeT
  drivingSide : Side
  directed : Bool
  error : String

namespace PgPointsGraph

/-- `reverse_sides` -/
def reverseSides (g : PgPointsGraph) : PgPointsGraph :=
  { g with
    points := g.points.map fun point =>
      { point with side := point.side.reverse, fraction := 1 - point.fraction }
    drivingSide := g.drivingSide.reverse }

/-! ## `check_points` -/

/-- The order in which `check_points` sorts the points. -/
def sortKey (point : PointOnEdge) : Int ×ₗ (Int ×ₗ (ℚ ×ₗ Nat)) :=
  toLex (point.pid, toLex (point.edgeId, toLex (point.fraction, point.side.rank)))

/-- Insert a point into sorted points. -/
def insertSorted (point : PointOnEdge) : List PointOnEdge → List PointOnEdge
  | [] => [point]
  | p :: rest => if sortKey point ≤ sortKey p then point :: p :: rest
    else p :: insertSorted point rest

/-- The points in the order of their keys. -/
def sortPoints : List PointOnEdge → List PointOnEdge
  | [] => []
  | point :: rest => insertSorted point (sortPoints rest)

/-- `std::unique`, after the element that has been kept last. -/
def uniqueAfter (equal : PointOnEdge → PointOnEdge → Bool) (last : PointOnEdge) :
    List PointOnEdge → List PointOnEdge
  | [] => []
  | p :: rest => if equal last p then uniqueAfter equal last rest
    else p :: uniqueAfter equal p rest

/-- `std::unique` -/
def unique (equal : PointOnEdge → PointOnEdge → Bool) : List PointOnEdge → List PointOnEdge
  | [] => []
  | p :: rest => p :: uniqueAfter equal p rest

/-- `check_points` -/
def checkPoints (g : PgPointsGraph) : PgPointsGraph :=
  let points := unique
    (fun a b => a.pid = b.pid ∧ a.edgeId = b.edgeId ∧ a.fraction = b.fraction ∧ a.side = b.side)
    (sortPoints g.points)
  let totalPoints := points.length
  let points := unique (fun a b => a.pid = b.pid) points
  { g with
    points := points
    error := if points.length ≠ totalPoints then g.error ++ "Unexpected point(s) with same pid" ++
      " but different edge/fraction/side combination found." else g.error }

/-! ## `create_new_edges` -/

/-- `pointCompare`, which is no order: of two points with different fractions it can put each
    before the other. -/
def pointCompare (lhs rhs : PointOnEdge) : Bool :=
  if lhs.fraction < rhs.fraction then true else lhs.pid < rhs.pid

/-- Insertion into a `std::set` that is ordered by `pointCompare`: the place is before the first
    element that the point compares less than, and the point is taken for a duplicate when the
    element in front of that place does not compare less than it. -/
def insertAfter (point : PointOnEdge) (prev : Option PointOnEdge) :
    List PointOnEdge → List PointOnEdge
  | [] => if prev.all (pointCompare · point) then [point] else []
  | p :: rest =>
    if pointCompare point p then
      if prev.all (pointCompare · point) then point :: p :: rest else p :: rest
    else p :: insertAfter point (some p) rest

/-- The set of the points on an edge, in its order. -/
def pointsOnEdge (points : List PointOnEdge) (edge : EdgeT) : List PointOnEdge :=
  (points.filter (edge.id = ·.edgeId)).foldl (fun set point => insertAfter point none set) []

/-- The variables of the loop over the points of one edge. -/
structure Splitting where
  prevTarget : Int
  prevRtarget : Int
  prevFraction : ℚ := 0
  prevRfraction : ℚ := 0
  aggCost : ℚ := 0
  aggRcost : ℚ := 0
  lastCost : ℚ := 0
  lastRcost : ℚ := 0
  newEdges : List EdgeT := []
  newPoints : List PointOnEdge := []

/-- The variables before the loop. -/
def startSplitting (edge : EdgeT) : Splitting :=
  { prevTarget := edge.source, prevRtarget := edge.source }

/-- The edges that join a point at an end of the edge to that end. -/
def endEdges (edge : EdgeT) (point : PointOnEdge) : List EdgeT :=
  (if point.fraction = 0 then [⟨edge.id, edge.source, -point.pid, 0, 0⟩] else []) ++
  (if point.fraction = 1 then [⟨edge.id, edge.target, -point.pid, 0, 0⟩] else [])

/-- The edge is one way, or the driving side or the side of the point is both. -/
def bothWays (edge : EdgeT) (drivingSide : Side) (point : PointOnEdge) : Bool :=
  edge.cost < 0 ∨ edge.reverseCost < 0 ∨ drivingSide = .both ∨ point.side = .both

/-- One round of the loop over the points of an edge. -/
def splitAtPoint (edge : EdgeT) (drivingSide : Side) (s : Splitting) (point : PointOnEdge) :
    Splitting :=
  let vertexId := -point.pid
  let s := { s with
    newEdges := s.newEdges ++ endEdges edge point
    newPoints := s.newPoints ++ [{ point with vertexId := vertexId }] }
  let deltaFraction := point.fraction - s.prevFraction
  let deltarFraction := point.fraction - s.prevRfraction
  if bothWays edge drivingSide point then
    -- A point that both directions can stop at; a segment that is not made leaves the last cost as
    -- it was.
    let forward : Bool := point.inside ∧ 0 ≤ edge.cost
    let backward : Bool := point.inside ∧ 0 ≤ edge.reverseCost
    let lastCost := if forward then deltaFraction * edge.cost else s.lastCost
    let lastRcost := if backward then deltarFraction * edge.reverseCost else s.lastRcost
    { s with
      newEdges := s.newEdges ++
        (if forward then [⟨edge.id, s.prevTarget, vertexId, lastCost, -1⟩] else []) ++
        -- From `prev_target` here too, not from `prev_rtarget`.
        (if backward then [⟨edge.id, s.prevTarget, vertexId, -1, lastRcost⟩] else [])
      lastCost := lastCost
      lastRcost := lastRcost
      prevTarget := vertexId
      prevFraction := point.fraction
      aggCost := s.aggCost + lastCost
      prevRtarget := vertexId
      prevRfraction := point.fraction
      aggRcost := s.aggRcost + lastRcost }
  else if drivingSide = point.side then
    let lastCost := if point.inside then deltaFraction * edge.cost else s.lastCost
    { s with
      newEdges := s.newEdges ++
        (if point.inside then [⟨edge.id, s.prevTarget, vertexId, lastCost, -1⟩] else [])
      lastCost := lastCost
      prevTarget := vertexId
      prevFraction := point.fraction
      aggCost := s.aggCost + lastCost }
  else
    let lastRcost := if point.inside then deltarFraction * edge.reverseCost else s.lastRcost
    { s with
      newEdges := s.newEdges ++
        (if point.inside then [⟨edge.id, s.prevRtarget, vertexId, -1, lastRcost⟩] else [])
      lastRcost := lastRcost
      prevRtarget := vertexId
      prevRfraction := point.fraction
      aggRcost := s.aggRcost + lastRcost }

/-- The loop over the points of an edge; the second result is `false` when a fraction has been
    found to be invalid. -/
def splitLoop (edge : EdgeT) (drivingSide : Side) : Splitting → List PointOnEdge →
    Splitting × Bool
  | s, [] => (s, true)
  | s, point :: rest =>
    if point.fraction < 0 ∨ 1 < point.fraction then (s, false)
    else splitLoop edge drivingSide (splitAtPoint edge drivingSide s point) rest

/-- The last segments. -/
def lastSegments (edge : EdgeT) (s : Splitting) : List EdgeT :=
  [⟨edge.id, s.prevTarget, edge.target, edge.cost - s.aggCost, -1⟩,
    ⟨edge.id, s.prevRtarget, edge.target, -1, edge.reverseCost - s.aggRcost⟩]

/-- The loop of `create_new_edges` over the edges. -/
def createNewEdgesLoop (g : PgPointsGraph) : List EdgeT → List PointOnEdge → PgPointsGraph
  | [], newPoints => { g with points := newPoints }
  | edge :: rest, newPoints =>
    match pointsOnEdge g.points edge with
    | [] =>
      { g with error := g.error ++ "For some reason didn't find a point belonging to the edge" ++
        ", must be an error\n" }
    | thePoints =>
      match splitLoop edge g.drivingSide (startSplitting edge) thePoints with
      | (s, false) =>
        { g with
          newEdges := g.newEdges ++ s.newEdges
          error := g.error ++ "For some reason an invalid fraction was accepted," ++
            " must be an error\n" }
      | (s, true) =>
        createNewEdgesLoop { g with newEdges := g.newEdges ++ s.newEdges ++ lastSegments edge s }
          rest (newPoints ++ s.newPoints)

/-- `create_new_edges` -/
def createNewEdges (g : PgPointsGraph) : PgPointsGraph := createNewEdgesLoop g g.edgesOfPoints []

/-- `Pg_points_graph(points, edges_of_points, normal, driving_side, directed)` -/
def new (points : List PointOnEdge) (edgesOfPoints : List EdgeT) (normal : Bool)
    (drivingSide : Side) (directed : Bool) : PgPointsGraph :=
  let g : PgPointsGraph :=
    { points := points, edgesOfPoints := edgesOfPoints, newEdges := [],
      drivingSide := drivingSide, directed := directed, error := "" }
  let g := if !normal then g.reverseSides else g
  let g := if !g.directed then { g with drivingSide := .both } else g
  g.checkPoints.createNewEdges

end PgPointsGraph

end PgRouting
