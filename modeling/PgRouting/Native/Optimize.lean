import PgRouting.Native.PickDeliver
import Mathlib.Data.List.Sort

/-!
# Pick and deliver: optimizing a solution

`Optimize` moves and swaps orders between the trucks of a solution. It keeps the best
solution it has come across.

A reference to a truck is its position in the fleet. The order in which `std::sort` leaves
trucks of the same duration is not specified: `sort` stands for the call that sorts the fleet
by duration. Taking the first truck of an empty fleet to its end is undefined behaviour and has
no result here.
-/

namespace PgRouting

namespace Vrp

variable {K : Type} [Numbers K]

/-- `class Optimize`, with the fleet of `best_solution`. -/
structure Optimize (K : Type := ℚ) where
  fleet : List (VehiclePickDeliver K)
  best : List (VehiclePickDeliver K)

/-- `Solution::duration` -/
def fleetDuration (fleet : List (VehiclePickDeliver K)) : K :=
  fleet.foldl (fun total v => total + v.duration) 0

namespace Optimize

/-- `save_if_best` -/
def saveIfBest (s : Optimize K) : Optimize K :=
  let s := if fleetDuration s.fleet < fleetDuration s.best then { s with best := s.fleet } else s
  if s.fleet.length < s.best.length then { s with best := s.fleet } else s

/-- `delete_empty_truck` -/
def deleteEmptyTruck (s : Optimize K) : Optimize K :=
  saveIfBest { s with fleet := s.fleet.filter fun v => v.ordersInVehicle.size ≠ 0 }

/-- `sort_by_size` -/
def sortBySize (sort : List (VehiclePickDeliver K) → List (VehiclePickDeliver K)) (s : Optimize K) :
    Optimize K :=
  { s with fleet := (sort s.fleet).insertionSort fun lhs rhs =>
      rhs.ordersInVehicle.size ≤ lhs.ordersInVehicle.size }

variable (m : Dmatrix K) (kind : InitialsCode)

/-- The insertion that the kind of the problem asks for. -/
def insertByKind (order : Order K) (v : VehiclePickDeliver K) : VehiclePickDeliver K :=
  if kind = .oneDepot then (v.semiLIFO m order).2 else (v.insert m order).2

/-- `move_order`: whether the order has been moved, and the two trucks afterwards. -/
def moveOrder (order : Order K) (fromTruck toTruck : VehiclePickDeliver K) :
    Bool × VehiclePickDeliver K × VehiclePickDeliver K :=
  if toTruck.empty then (false, fromTruck, toTruck)
  else if !fromTruck.isPhony && toTruck.isPhony then (false, fromTruck, toTruck)
  else if toTruck.size < fromTruck.size then (false, fromTruck, toTruck)
  else
    let toTruck := insertByKind m kind order toTruck
    if toTruck.hasOrder order then (true, fromTruck.erase m order, toTruck)
    else (false, fromTruck, toTruck)

/-- The variables of `swap_worse`: the solution and the copies of the two trucks. -/
structure SwapState (K : Type := ℚ) where
  solution : Optimize K
  fromTruck : VehiclePickDeliver K
  toTruck : VehiclePickDeliver K

/-- `to = to_truck; from = from_truck`, for the trucks at positions `i` and `j`. -/
def SwapState.keep (i j : Nat) (s : SwapState K) : SwapState K :=
  { s with solution :=
      { s.solution with fleet := (s.solution.fleet.set j s.toTruck).set i s.fromTruck } }

/-- `to_truck = to; from_truck = from` -/
def SwapState.restore (i j : Nat) (s : SwapState K) : SwapState K :=
  { s with
    toTruck := s.solution.fleet.getD j default
    fromTruck := s.solution.fleet.getD i default }

/-- The inner loop of `swap_worse`, over the orders of the truck at `j`. -/
def swapLoop (i j : Nat) (fromOrder : Order K) (currFromDuration : K) :
    List Nat → SwapState K → SwapState K
  | [], s => s
  | toOrderId :: rest, s =>
    let toOrder := PDOrders.get (s.solution.fleet.getD j default).orders toOrderId
    if !s.toTruck.hasOrder toOrder then swapLoop i j fromOrder currFromDuration rest s
    else
      let currToDuration := s.toTruck.duration
      let fromTruck := insertByKind m kind toOrder (s.fromTruck.erase m fromOrder)
      let toTruck := insertByKind m kind fromOrder (s.toTruck.erase m toOrder)
      let tried : SwapState K := { s with fromTruck := fromTruck, toTruck := toTruck }
      if fromTruck.hasOrder toOrder && toTruck.hasOrder fromOrder then
        let newFromDuration := fromTruck.duration
        let newToDuration := toTruck.duration
        let estimatedDelta :=
          -(currFromDuration + currToDuration) + (newToDuration + newFromDuration)
        let estimatedDuration := fleetDuration s.solution.fleet + estimatedDelta
        if newFromDuration < currFromDuration || estimatedDelta < 0 ||
            estimatedDuration < fleetDuration s.solution.best then
          -- The first swap that is kept ends the loop over the orders.
          tried.keep i j
        else swapLoop i j fromOrder currFromDuration rest (tried.restore i j)
      else swapLoop i j fromOrder currFromDuration rest (tried.restore i j)

/-- The loop of `swap_worse` over the orders of the truck at `i`. -/
def swapWorseLoop (i j : Nat) (toOrders : List Nat) : List Nat → SwapState K → SwapState K
  | [], s => s
  | fromOrderId :: rest, s =>
    let fromOrder := PDOrders.get s.fromTruck.orders fromOrderId
    let (moved, fromTruck, toTruck) := moveOrder m kind fromOrder s.fromTruck s.toTruck
    let s : SwapState K := { s with fromTruck := fromTruck, toTruck := toTruck }
    if moved then swapWorseLoop i j toOrders rest (s.keep i j)
    else
      swapWorseLoop i j toOrders rest
        (swapLoop m kind i j fromOrder s.fromTruck.duration toOrders s)

/-- `swap_worse`, from the truck at `i` to the truck at `j`. -/
def swapWorse (i j : Nat) (s : Optimize K) : Optimize K :=
  let fromTruck := s.fleet.getD i default
  let toTruck := s.fleet.getD j default
  (swapWorseLoop m kind i j toTruck.ordersInVehicle.ids fromTruck.ordersInVehicle.ids
    { solution := s, fromTruck := fromTruck, toTruck := toTruck }).solution

/-- The loop of `move_reduce_cost`. It works on the copies of the trucks, which are dropped
    afterwards. -/
def moveReduceLoop : List Nat → SwapState K → SwapState K
  | [], s => s
  | id :: rest, s =>
    let order := PDOrders.get s.fromTruck.orders id
    let currDuration := s.fromTruck.duration + s.toTruck.duration
    let toTruck := insertByKind m kind order s.toTruck
    if toTruck.hasOrder order then
      let fromTruck := s.fromTruck.erase m order
      let newDuration := fromTruck.duration + toTruck.duration
      if newDuration < currDuration || fromTruck.empty ||
          newDuration < fleetDuration s.solution.best then
        moveReduceLoop rest
          -- What is saved is the fleet, which the copies have not been put into.
          { solution := s.solution.saveIfBest, fromTruck := fromTruck, toTruck := toTruck }
      else
        moveReduceLoop rest
          { s with
            toTruck := toTruck.erase m order
            fromTruck := insertByKind m kind order fromTruck }
    else moveReduceLoop rest { s with toTruck := toTruck }

/-- `move_reduce_cost`, from the truck at `i` to the truck at `j`. -/
def moveReduceCost (i j : Nat) (s : Optimize K) : Optimize K :=
  let fromTruck := s.fleet.getD i default
  let toTruck := s.fleet.getD j default
  if toTruck.empty then s
  else if !fromTruck.isPhony && toTruck.isPhony then s
  else
    (moveReduceLoop m kind fromTruck.ordersInVehicle.ids
      { solution := s, fromTruck := fromTruck, toTruck := toTruck }).solution

/-- `inter_swap()`: every truck with every truck before it. -/
def interSwap (s : Optimize K) : Optimize K :=
  let s := s.deleteEmptyTruck
  let s := (List.range s.fleet.length).foldl (fun s i =>
    (List.range i).foldl (fun s j => moveReduceCost m kind i j (swapWorse m kind i j s)) s) s
  s.deleteEmptyTruck

/-- The inner loop of `decrease_truck(size_t)`: insert an order of the truck at `position` in the
    first truck possible. -/
def placeLoop (position : Nat) (order : Order K) :
    List Nat → List (VehiclePickDeliver K) → List (VehiclePickDeliver K)
  | [], fleet => fleet
  | i :: rest, fleet =>
    let truck := ((fleet.getD i default).insert m order).2
    let fleet := fleet.set i truck
    if truck.hasOrder order then fleet.set position ((fleet.getD position default).erase m order)
    else placeLoop position order rest fleet

/-- `decrease_truck(size_t)`: whether the truck has no orders left, and the fleet afterwards. -/
def decreaseTruckAt (position : Nat) (fleet : List (VehiclePickDeliver K)) :
    Bool × List (VehiclePickDeliver K) :=
  let fleet := (fleet.getD position default).ordersInVehicle.ids.foldl (fun fleet id =>
    placeLoop m position (PDOrders.get (fleet.getD position default).orders id)
      (List.range position) fleet) fleet
  ((fleet.getD position default).ordersInVehicle.size = 0, fleet)

/-- The loop of `decrease_truck()` over the trucks behind the first one. -/
def decreaseLoop (fleet : List (VehiclePickDeliver K)) : Bool × List (VehiclePickDeliver K) :=
  (List.range' 1 (fleet.length - 1)).foldl (fun (s : Bool × List (VehiclePickDeliver K)) i =>
    let (emptied, fleet) := decreaseTruckAt m i s.2
    (emptied || s.1, fleet)) (false, fleet)

/-- `decrease_truck()`, with at most `n` nested calls. -/
def decreaseTruck : Nat → Optimize K → Option (Optimize K)
  | 0, _ => none
  | n + 1, s => do
    let (decreased, fleet) := decreaseLoop m s.fleet
    let s := { s with fleet := fleet }
    let s ← if decreased then decreaseTruck n s.deleteEmptyTruck.saveIfBest else some s
    some s.saveIfBest

/-- `std::rotate`, by one truck -/
def rotateFleet : List (VehiclePickDeliver K) → Option (List (VehiclePickDeliver K))
  | [] => none
  | v :: rest => some (rest ++ [v])

/-- The loop of `inter_swap(size_t)`. -/
def cycles : Nat → Optimize K → Option (Optimize K)
  | 0, s => some s
  | n + 1, s => do
    let s := interSwap m kind s
    let fleet ← rotateFleet s.fleet
    cycles n { s with fleet := fleet }

/-- `Optimize(const Solution&, size_t)`, with at most `n` nested calls of `decrease_truck`. -/
def optimize (sort : List (VehiclePickDeliver K) → List (VehiclePickDeliver K)) (times n : Nat)
    (fleet : List (VehiclePickDeliver K)) : Option (Optimize K) := do
  let s := sortBySize sort { fleet := fleet, best := fleet }
  let s ← decreaseTruck m n s
  let s ← cycles m kind times (sortBySize sort s)
  some (sortBySize sort { s with fleet := s.best })

end Optimize

end Vrp

end PgRouting
