import PgRouting.Native.Bidirectional
import Mathlib.Algebra.Order.Group.Unbundled.Abs

/-!
# Bidirectional A*

`Pgr_bdAstar` runs the loop of `Pgr_bidirectional` with queues that are ordered by
the cost of a vertex plus its estimate to the other end. `explore_forward` takes the
cost of the node it explores from the cost array, `explore_backward` takes it from
the queue entry.

Coordinates, estimates and costs are elements of an ordered field `K`, because the
Euclidean estimate needs a square root: `sqrt` is `std::sqrt` on that field.
-/

namespace PgRouting

/-- `class XY_vertex` -/
structure XYVertex (K : Type) where
  id : Int
  x : K
  y : K
deriving DecidableEq, Repr

/-- The searches read vertices only. A vertex that has just been made has no coordinates yet. -/
instance {K : Type} [Zero K] : TVertex (XYVertex K) where
  ofId id := ⟨id, 0, 0⟩
  id v := v.id
  id_ofId _ := rfl

/-- The estimates by the number of the heuristic, for the coordinate differences `dx`, `dy`. -/
def estimate {K : Type} [Field K] [LinearOrder K] (sqrt : K → K) (heuristic : Int) (factor : K)
    (dx dy : K) : K :=
  match heuristic with
  | 0 => 0
  | 1 => |max dx dy| * factor
  | 2 => |min dx dy| * factor
  | 3 => (dx * dx + dy * dy) * factor * factor
  | 4 => sqrt (dx * dx + dy * dy) * factor
  | 5 => (|dx| + |dy|) * factor
  | _ => 0

/-- `class Pgr_bdAstar`: the members that the search does not change. -/
structure PgrBdAstar (K E : Type) where
  graph : PgrBaseGraph (XYVertex K) E
  vSource : Nat
  vTarget : Nat
  mHeuristic : Int
  mFactor : K

namespace PgrBdAstar

variable {K E : Type} [Field K] [LinearOrder K] (sqrt : K → K)

/-- `heuristic` -/
def heuristic (a : PgrBdAstar K E) (v u : Nat) : K :=
  let x (w : Nat) := (a.graph.graph.vertices[w]?.map XYVertex.x).getD 0
  let y (w : Nat) := (a.graph.graph.vertices[w]?.map XYVertex.y).getD 0
  if a.mHeuristic = 0 then 0
  else estimate sqrt a.mHeuristic a.mFactor (x v - x u) (y v - y u)

variable [TEdge E]

/-- `explore_forward` -/
def exploreForward (a : PgrBdAstar K E) (node : CostVertexPair K) (s : HalfSearch K) :
    HalfSearch K :=
  let currentNode := (ofLex node).2
  let currentNodeCost := s.cost currentNode
  s.explore (a.heuristic sqrt · a.vTarget) (a.graph.graph.outEdges currentNode) currentNodeCost
    currentNode

/-- `explore_backward` -/
def exploreBackward (a : PgrBdAstar K E) (node : CostVertexPair K) (s : HalfSearch K) :
    HalfSearch K :=
  let currentCost := (ofLex node).1
  let currentNode := (ofLex node).2
  s.explore (a.heuristic sqrt · a.vSource) (a.graph.graph.inEdges currentNode) currentCost
    currentNode

/-- The two virtual functions. -/
def explorer (a : PgrBdAstar K E) : Explorer K where
  exploreForward := a.exploreForward sqrt
  exploreBackward := a.exploreBackward sqrt

end PgrBdAstar

end PgRouting
