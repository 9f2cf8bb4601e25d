import PgRouting.Lib.Loop
import PgRouting.Lib.PriorityQueue
import PgRouting.Native.PathOps
import Mathlib.Data.Prod.Lex

/-!
# Searches from both ends

`Pgr_bidirectional` runs two searches, one from the source over the out edges and
one from the target over the in edges, and explores from the side with the cheaper
entry. `found` keeps the best vertex that both sides have finished and stops the
loop at the first one that is worse. The path over the best vertex is read back from
the predecessors of both sides.

How a node is explored is left to the derived class, `Explorer` here. Each of its
functions relaxes the edges that meet the node, and an entry of a queue is the cost of
its vertex plus an estimate.

Costs and estimates are elements of an ordered field `K`. The largest `double`, which
stands for infinity, is `⊤`.
-/

namespace PgRouting

/-- `std::pair<double, V>`, which compares the cost first. -/
abbrev CostVertexPair (K : Type) := WithTop K ×ₗ Nat

/-- One side of the search: the members called `forward_…` or `backward_…`. -/
structure HalfSearch (K : Type) where
  queue : PriorityQueue (CostVertexPair K)
  finished : Nat → Bool
  edge : Nat → Int
  predecessor : Nat → Nat
  cost : Nat → WithTop K

/-- The two sides. -/
structure TwoSides (K : Type) where
  forward : HalfSearch K
  backward : HalfSearch K

/-- `class Pgr_bidirectional` -/
structure PgrBidirectional (K : Type) extends TwoSides K where
  vMinNode : Nat
  bestCost : WithTop K

/-- The virtual functions `explore_forward` and `explore_backward`, for the side they change. -/
structure Explorer (K : Type) where
  exploreForward : CostVertexPair K → HalfSearch K → HalfSearch K
  exploreBackward : CostVertexPair K → HalfSearch K → HalfSearch K

variable {K : Type} [Field K] [LinearOrder K]

namespace HalfSearch

variable {E : Type} [TEdge E]

/-- One side after `initialize`, with its end of the path as the only entry. -/
def initializeAt (v : Nat) : HalfSearch K where
  queue := PriorityQueue.push (toLex (0, v)) []
  finished _ := false
  edge _ := -1
  predecessor v := v
  cost := Function.update (fun _ => ⊤) v 0

/-- The body of the loop of `explore_forward` and `explore_backward`, with the estimate that the
    entry of the next node adds to its cost. -/
def relaxEdge (heuristic : Nat → K) (currentCost : WithTop K) (currentNode : Nat)
    (s : HalfSearch K) (e : BoostEdge E) : HalfSearch K :=
  let edgeCost : WithTop K := ((TEdge.cost e.bundle : K) : WithTop K)
  let nextNode := PgrBaseGraph.adjacent currentNode e
  if s.finished nextNode then s
  else if edgeCost + currentCost < s.cost nextNode then
    { s with
      cost := Function.update s.cost nextNode (edgeCost + currentCost)
      predecessor := Function.update s.predecessor nextNode currentNode
      edge := Function.update s.edge nextNode (TEdge.id e.bundle)
      queue := s.queue.push
        (toLex (edgeCost + currentCost + (heuristic nextNode : WithTop K), nextNode)) }
  else s

/-- Relax the edges that meet the current node, then finish it. -/
def explore (heuristic : Nat → K) (edges : List (BoostEdge E)) (currentCost : WithTop K)
    (currentNode : Nat) (s : HalfSearch K) : HalfSearch K :=
  let s := edges.foldl (relaxEdge heuristic currentCost currentNode) s
  { s with finished := Function.update s.finished currentNode true }

end HalfSearch

namespace PgrBidirectional

/-- The search before the loop. -/
def initializeAt (vSource vTarget : Nat) : PgrBidirectional K where
  forward := .initializeAt vSource
  backward := .initializeAt vTarget
  vMinNode := 0
  bestCost := ⊤

/-- `found`: whether to stop at this node, and the search with the common node updated. -/
def found (s : PgrBidirectional K) (node : Nat) : Bool × PgrBidirectional K :=
  if s.forward.finished node ∧ s.backward.finished node then
    if s.forward.cost node + s.backward.cost node ≤ s.bestCost then
      (false, { s with
        vMinNode := node
        bestCost := s.forward.cost node + s.backward.cost node })
    else (true, s)
  else (false, s)

/-- The part of `bidirectional` after its loop. The first two arguments are what the memory of the
    total costs of the two half paths holds. -/
def path {V E : Type} [TVertex V] [TEdge E] (unsetForward unsetBackward : K)
    (graph : PgrBaseGraph V E) (vSource vTarget : Nat) (onlyCost : Bool)
    (s : PgrBidirectional K) : Option Path :=
  if s.bestCost = ⊤ then some {}
  else do
    let forwardPath ← Path.newOfPredecessors unsetForward graph vSource s.vMinNode
      s.forward.predecessor s.forward.cost false true
    let backwardPath ← Path.newOfPredecessors unsetBackward graph vTarget s.vMinNode
      s.backward.predecessor s.backward.cost false false
    let forwardPath ← forwardPath.append backwardPath.reverse
    Path.newOfGraph graph forwardPath onlyCost

end PgrBidirectional

namespace Explorer

variable (ex : Explorer K)

/-- The part of a round that explores from the cheapest side: the node it takes and the two
    sides afterwards. It is `none` when the loop ends before that. -/
def exploreCheapest (s : TwoSides K) : Option (Nat × TwoSides K) :=
  match s.forward.queue.top?, s.backward.queue.top? with
  | some forwardNode, some backwardNode =>
    if (ofLex forwardNode).1 = ⊤ ∨ (ofLex backwardNode).1 = ⊤ then none
    -- On equal costs the forward side goes first.
    else if (ofLex backwardNode).1 < (ofLex forwardNode).1 then
      let node := (ofLex backwardNode).2
      let backward := { s.backward with queue := s.backward.queue.pop }
      some (node, { s with
        backward := if !backward.finished node then ex.exploreBackward backwardNode backward
          else backward })
    else
      let node := (ofLex forwardNode).2
      let forward := { s.forward with queue := s.forward.queue.pop }
      some (node, { s with
        forward := if !forward.finished node then ex.exploreForward forwardNode forward
          else forward })
  | _, _ => none

/-- A round of the loop of `bidirectional`. -/
def round (s : PgrBidirectional K) : LoopStep (PgrBidirectional K) (PgrBidirectional K) :=
  match ex.exploreCheapest s.toTwoSides with
  | none => .done s
  | some (node, sides) =>
    match PgrBidirectional.found { s with toTwoSides := sides } node with
    | (true, s) => .done s
    | (false, s) => .next s

/-- The loop of `bidirectional`, run for at most `n` rounds. -/
def search (vSource vTarget : Nat) (n : Nat) : Option (PgrBidirectional K) :=
  runLoop ex.round n (.initializeAt vSource vTarget)

end Explorer

end PgRouting
