import PgRouting.Native.Vehicle
import PgRouting.Native.Identifiers
import PgRouting.Lib.Loop

/-!
# Pick and deliver: orders, vehicles and the initial solution

An order is picked up at one node and delivered at another by the same vehicle.
`Vehicle_pickDeliver` inserts orders into a vehicle in several ways; an insertion that would
violate a time window or the capacity is undone. `Initial_solution` takes trucks from the
fleet, one after the other, until every order has been assigned.

Orders and trucks are known by their positions. The assertions of the source are disabled in
a release build and are not part of the model.
-/

namespace PgRouting

namespace Vrp

variable {K : Type} [Numbers K]

/-- `enum Initials_code` -/
inductive InitialsCode
  | oneTruck
  | onePerTruck
  | frontTruck
  | backTruck
  | bestInsert
  | bestBack
  | bestFront
  | oneDepot
deriving DecidableEq, Repr

/-- `class Order` -/
structure Order (K : Type := ℚ) where
  idx : Nat
  id : Int
  pickup : VehicleNode K
  delivery : VehicleNode K
  compatibleI : Identifiers Nat
  compatibleJ : Identifiers Nat
deriving DecidableEq, Inhabited

namespace Order

variable (m : Dmatrix K) (o : Order K)

/-- `is_valid` -/
def isValid (speed : K) : Bool :=
  o.pickup.isPickup && o.delivery.isDelivery &&
  o.delivery.isCompatibleIJ m o.pickup.toTwNode speed

/-- `isCompatibleIJ`: order `i` can be placed before this order. -/
def isCompatibleIJ (i : Order K) (speed : K) : Bool :=
  let allCases := o.pickup.isCompatibleIJ m i.pickup.toTwNode speed &&
    o.delivery.isCompatibleIJ m i.pickup.toTwNode speed
  let case1 := o.pickup.isCompatibleIJ m i.delivery.toTwNode speed &&
    o.delivery.isCompatibleIJ m i.delivery.toTwNode speed
  let case2 := i.delivery.isCompatibleIJ m o.pickup.toTwNode speed &&
    o.delivery.isCompatibleIJ m i.delivery.toTwNode speed
  let case3 := i.delivery.isCompatibleIJ m o.pickup.toTwNode speed &&
    i.delivery.isCompatibleIJ m o.delivery.toTwNode speed
  allCases && (case1 || case2 || case3)

/-- `set_compatibles` -/
def setCompatibles (speed : K) (j : Order K) : Order K :=
  if j.idx = o.idx then o
  else
    let o := if j.isCompatibleIJ m o speed then { o with compatibleJ := o.compatibleJ.add j.idx }
      else o
    if o.isCompatibleIJ m j speed then { o with compatibleI := o.compatibleI.add j.idx } else o

/-- `subsetI` -/
def subsetI (i : Identifiers Nat) : Identifiers Nat := o.compatibleI.inter i

/-- `subsetJ` -/
def subsetJ (j : Identifiers Nat) : Identifiers Nat := o.compatibleJ.inter j

end Order

/-- `class PD_Orders` -/
abbrev PDOrders (K : Type := ℚ) := List (Order K)

namespace PDOrders

/-- `operator []` -/
def get (orders : PDOrders K) (i : Nat) : Order K := orders.getD i default

/-- `set_compatibles` -/
def setCompatibles (m : Dmatrix K) (orders : PDOrders K) (speed : K) : PDOrders K :=
  orders.map fun i => orders.foldl (fun i j => i.setCompatibles m speed j) i

/-- The loop of `find_best_J` and `find_best_I`, which finds the first order with the most
    orders of the set that may stand next to it. -/
def findBest (orders : PDOrders K) (subset : Order K → Identifiers Nat → Identifiers Nat)
    (withinThisSet : Identifiers Nat) : Nat :=
  (withinThisSet.ids.foldl (fun (best : Nat × Nat) o =>
    let size := (subset (PDOrders.get orders o) withinThisSet).size
    if best.2 < size then (o, size) else best) (withinThisSet.front?.getD 0, 0)).1

/-- `find_best_J` -/
def findBestJ (orders : PDOrders K) (withinThisSet : Identifiers Nat) : Nat :=
  findBest orders Order.subsetJ withinThisSet

/-- `find_best_I` -/
def findBestI (orders : PDOrders K) (withinThisSet : Identifiers Nat) : Nat :=
  findBest orders Order.subsetI withinThisSet

end PDOrders

/-- `class Vehicle_pickDeliver` -/
structure VehiclePickDeliver (K : Type := ℚ) extends Vehicle K where
  ordersInVehicle : Identifiers Nat
  orders : PDOrders K
  feasableOrders : Identifiers Nat
deriving DecidableEq, Inhabited

/-- The variables of `insert` for the best place so far. -/
structure BestPlace (K : Type := ℚ) where
  found : Bool
  bestPickPos : Nat
  bestDeliverPos : Nat
  minDeltaDuration : WithTop K

namespace VehiclePickDeliver

variable (m : Dmatrix K) (v : VehiclePickDeliver K) (order : Order K)

/-- `has_order` -/
def hasOrder : Bool := v.ordersInVehicle.has order.idx

/-- `Vehicle::insert` -/
def insertNode (pos : Nat) (node : VehicleNode K) : VehiclePickDeliver K :=
  { v with toVehicle := v.toVehicle.insert m pos node }

/-- `Vehicle::erase` -/
def eraseNodeAt (pos : Nat) : VehiclePickDeliver K :=
  { v with toVehicle := v.toVehicle.eraseAt m pos }

/-- The inner loop of `insert`, over the positions of the delivery. -/
def deliverLoop (currentDuration : K) (pickPos : Nat) :
    Nat → Nat → VehiclePickDeliver K → BestPlace K → VehiclePickDeliver K × BestPlace K
  | 0, _, v, best => (v, best)
  | n + 1, deliverPos, v, best =>
    let v := v.insertNode m deliverPos order.delivery
    let v := { v with ordersInVehicle := v.ordersInVehicle.add order.idx }
    let deltaDuration : WithTop K := ((v.duration - currentDuration : K) : WithTop K)
    let best :=
      if v.isFeasable && deltaDuration < best.minDeltaDuration then
        { found := true, bestPickPos := pickPos, bestDeliverPos := deliverPos,
          minDeltaDuration := deltaDuration : BestPlace K }
      else best
    let v := v.eraseNodeAt m deliverPos
    deliverLoop currentDuration pickPos n (deliverPos + 1) v best

/-- The outer loop of `insert`, over the positions of the pickup. -/
def pickLoop (currentDuration : K) (deliverPos : Nat × Nat) :
    Nat → Nat → VehiclePickDeliver K → BestPlace K → VehiclePickDeliver K × BestPlace K
  | 0, _, v, best => (v, best)
  | n + 1, pickPos, v, best =>
    let v := v.insertNode m pickPos order.pickup
    let first := if deliverPos.1 ≤ pickPos then pickPos + 1 else deliverPos.1
    let (v, best) := deliverLoop m order currentDuration pickPos (deliverPos.2 + 1 - first) first v
      best
    let v := v.eraseNodeAt m pickPos
    let v := { v with ordersInVehicle := v.ordersInVehicle.remove order.idx }
    pickLoop currentDuration deliverPos n (pickPos + 1) v best

/-- The first part of `insert`, the search for the best place. Where `insert` returns because a
    node has no position, no place has been found. -/
def searchPlace : VehiclePickDeliver K × BestPlace K :=
  let pickPos := v.positionLimits m order.pickup.toTwNode
  let deliverPos := v.positionLimits m order.delivery.toTwNode
  let best : BestPlace K :=
    { found := false, bestPickPos := v.path.length, bestDeliverPos := v.path.length + 1,
      minDeltaDuration := ⊤ }
  if pickPos.2 < pickPos.1 then (v, best)
  else if deliverPos.2 < deliverPos.1 then (v, best)
  else
    -- The limits of the delivery were found without the pickup.
    let deliverPos := (deliverPos.1 + 1, deliverPos.2 + 1)
    pickLoop m order v.duration deliverPos (pickPos.2 + 1 - pickPos.1) pickPos.1 v best

/-- `insert`: whether the order has been inserted, and the vehicle afterwards. -/
def insert : Bool × VehiclePickDeliver K :=
  let (v, best) := v.searchPlace m order
  if !best.found then (false, v)
  else
    let v := v.insertNode m best.bestPickPos order.pickup
    let v := v.insertNode m best.bestDeliverPos order.delivery
    (true, { v with ordersInVehicle := v.ordersInVehicle.add order.idx })

/-- `push_back` -/
def pushBack : VehiclePickDeliver K :=
  let path := v.path.insertIdx (v.path.length - 1) order.pickup
  let path := path.insertIdx (path.length - 1) order.delivery
  { v with
    ordersInVehicle := v.ordersInVehicle.add order.idx
    toVehicle := ({ v.toVehicle with path := path } : Vehicle K).evaluate m (path.length - 3) }

/-- `push_front` -/
def pushFront : VehiclePickDeliver K :=
  let path := (v.path.insertIdx 1 order.delivery).insertIdx 1 order.pickup
  { v with
    ordersInVehicle := v.ordersInVehicle.add order.idx
    toVehicle := ({ v.toVehicle with path := path } : Vehicle K).evaluate m 1 }

/-- `erase` -/
def erase : VehiclePickDeliver K :=
  { v with
    toVehicle := (v.toVehicle.erase m order.pickup).erase m order.delivery
    ordersInVehicle := v.ordersInVehicle.remove order.idx }

/-- The loop of `semiLIFO`, over the positions of the delivery from the last one down. -/
def semiLIFOLoop : Nat → Nat → VehiclePickDeliver K → Bool × VehiclePickDeliver K
  | 0, _, v => (false, v.eraseNodeAt m 1)
  | n + 1, deliverPos, v =>
    let v := v.insertNode m deliverPos order.delivery
    if v.isFeasable && !(v.path.getD (deliverPos + 1) default).isPickup then
      (true, { v with ordersInVehicle := v.ordersInVehicle.add order.idx })
    else semiLIFOLoop n (deliverPos - 1) (v.eraseNodeAt m deliverPos)

/-- `semiLIFO`: whether the order has been inserted, and the vehicle afterwards. -/
def semiLIFO : Bool × VehiclePickDeliver K :=
  let v := v.insertNode m 1 order.pickup
  let deliverPos := v.dropPositionLimits m order.delivery.toTwNode
  if deliverPos.2 < deliverPos.1 then (false, v.eraseNodeAt m 1)
  else semiLIFOLoop m order (deliverPos.2 + 1 - deliverPos.1) deliverPos.2 v

/-- `is_order_feasable` -/
def isOrderFeasable : Bool := (v.pushBack m order).isFeasable

/-- `set_compatibles` -/
def setCompatibles (orders : PDOrders K) : VehiclePickDeliver K :=
  { v with
    orders := PDOrders.setCompatibles m orders v.speed
    feasableOrders := orders.foldl (fun ids o =>
      if v.isOrderFeasable m o then ids.add o.idx else ids) v.feasableOrders }

/-- The variables of `do_while_feasable`. -/
structure FillState (K : Type := ℚ) where
  vehicle : VehiclePickDeliver K
  currentFeasable : Identifiers Nat
  unassigned : Identifiers Nat
  assigned : Identifiers Nat

/-- The `switch` of `do_while_feasable`: the order it takes and the vehicle afterwards. -/
def fillOrder (kind : InitialsCode) (currentFeasable : Identifiers Nat) (front : Nat) :
    Order K × VehiclePickDeliver K :=
  let order := PDOrders.get v.orders front
  match kind with
  | .oneTruck => (order, v)
  | .onePerTruck => (order, v.pushBack m order)
  | .frontTruck => (order, v.pushFront m order)
  | .backTruck => (order, v.pushBack m order)
  | .bestInsert => (order, (v.insert m order).2)
  | .bestBack =>
    let order := PDOrders.get v.orders (PDOrders.findBestJ v.orders currentFeasable)
    (order, (v.insert m order).2)
  | .bestFront =>
    let order := PDOrders.get v.orders (PDOrders.findBestI v.orders currentFeasable)
    (order, (v.insert m order).2)
  | .oneDepot => (order, (v.semiLIFO m order).2)

/-- The loop of `do_while_feasable`. Every round takes an order out of the current set, whose
    size bounds the rounds. -/
def fillLoop (kind : InitialsCode) : Nat → FillState K → FillState K
  | 0, s => s
  | n + 1, s =>
    match s.currentFeasable.front? with
    | none => s
    | some front =>
      let (order, vehicle) := s.vehicle.fillOrder m kind s.currentFeasable front
      -- The `return` in the middle of the loop.
      if kind = .onePerTruck then
        { s with
          vehicle := vehicle
          assigned := s.assigned.add order.idx
          unassigned := s.unassigned.remove order.idx }
      else
        let s :=
          if !vehicle.isFeasable then { s with vehicle := vehicle.erase m order }
          else if vehicle.hasOrder order then
            { vehicle := vehicle
              assigned := s.assigned.add order.idx
              unassigned := s.unassigned.remove order.idx
              currentFeasable :=
                if kind = .bestBack then
                  (PDOrders.get vehicle.orders order.idx).subsetJ s.currentFeasable
                else if kind = .bestFront then
                  (PDOrders.get vehicle.orders order.idx).subsetI s.currentFeasable
                else s.currentFeasable }
          -- The order was not put on the vehicle and stays unassigned.
          else { s with vehicle := vehicle }
        fillLoop kind n { s with currentFeasable := s.currentFeasable.remove order.idx }

/-- `do_while_feasable` -/
def doWhileFeasable (kind : InitialsCode) (unassigned assigned : Identifiers Nat) : FillState K :=
  let currentFeasable := v.feasableOrders.inter unassigned
  fillLoop m kind currentFeasable.size
    { vehicle := v, currentFeasable := currentFeasable, unassigned := unassigned,
      assigned := assigned }

end VehiclePickDeliver

end Vrp

end PgRouting
