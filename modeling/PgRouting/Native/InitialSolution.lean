import PgRouting.Native.Optimize

/-!
# Pick and deliver: the problem and its initial solution

`Pgr_pickDeliver` builds the orders and the fleet from the rows of the inner queries and checks
that they can be served at all. `Initial_solution` then takes a truck for the first order that
is not assigned yet and fills it, until no order is left.

The rows of the vehicles come as the first row and the others, since the fleet is built around
the first one. The initial solutions are those of the kinds that share one loop; `OneTruck`
stands for trying all of them and is not a kind of its own here.
-/

namespace PgRouting

namespace Vrp

/-- `struct Orders_t` -/
structure OrdersT where
  id : Int
  demand : ℚ
  pickNodeId : Int
  pickOpenT : ℚ
  pickCloseT : WithTop ℚ
  pickServiceT : ℚ
  deliverNodeId : Int
  deliverOpenT : ℚ
  deliverCloseT : WithTop ℚ
  deliverServiceT : ℚ

/-- `struct Vehicle_t` -/
structure VehicleT where
  id : Int
  capacity : WithTop ℚ
  speed : ℚ
  startNodeId : Int
  cantV : Int
  startOpenT : ℚ
  startCloseT : WithTop ℚ
  startServiceT : ℚ
  endNodeId : Int
  endOpenT : ℚ
  endCloseT : WithTop ℚ
  endServiceT : ℚ

namespace TwNode

/-- `Tw_node(size_t, Orders_t, NodeType)` -/
def ofOrder (idx : Nat) (data : OrdersT) (type : NodeType) : TwNode :=
  if type = .kDelivery then
    { idx := idx, id := data.deliverNodeId, opens := data.deliverOpenT
      closes := data.deliverCloseT, serviceTime := data.deliverServiceT
      demand := -data.demand, type := type }
  else
    { idx := idx, id := data.pickNodeId, opens := data.pickOpenT, closes := data.pickCloseT
      serviceTime := data.pickServiceT, demand := data.demand, type := type }

/-- `Tw_node(size_t, Vehicle_t, NodeType)` -/
def ofVehicle (idx : Nat) (data : VehicleT) (type : NodeType) : TwNode :=
  if type = .kEnd then
    { idx := idx, id := data.endNodeId, opens := data.endOpenT, closes := data.endCloseT
      serviceTime := data.endServiceT, demand := 0, type := type }
  else
    { idx := idx, id := data.startNodeId, opens := data.startOpenT, closes := data.startCloseT
      serviceTime := data.startServiceT, demand := 0, type := type }

end TwNode

/-- `build_orders`, behind the orders built so far. Every order has added two nodes to the
    problem. -/
def PDOrders.buildOrders (m : Dmatrix) : List OrdersT → PDOrders → Except String PDOrders
  | [], orders => .ok orders
  | order :: rest, orders =>
    if !m.hasId order.pickNodeId then .error "Unable to find node on matrix"
    else if !m.hasId order.deliverNodeId then .error "Unable to find node on matrix"
    else
      let nodes := 2 * orders.length
      buildOrders m rest (orders ++
        [{ idx := orders.length, id := order.id
           pickup := .ofTwNode (.ofOrder nodes order .kPickup)
           delivery := .ofTwNode (.ofOrder (nodes + 1) order .kDelivery)
           compatibleI := .empty, compatibleJ := .empty }])

/-- `Vehicle_pickDeliver(…)` -/
def VehiclePickDeliver.new (m : Dmatrix) (idx : Nat) (id : Int)
    (startingSite endingSite : VehicleNode) (capacity : WithTop ℚ) (speed factor : ℚ) :
    VehiclePickDeliver where
  toVehicle := Vehicle.new m idx id startingSite endingSite capacity speed factor
  ordersInVehicle := .empty
  orders := []
  feasableOrders := .empty

/-- `class Fleet` -/
structure Fleet where
  trucks : List VehiclePickDeliver
  used : Identifiers Nat
  unUsed : Identifiers Nat

namespace Fleet

variable (m : Dmatrix)

/-- `add_vehicle`: the vehicles of a row, behind `trucks` others. -/
def addVehicle (trucks : Nat) (vehicle : VehicleT) (factor : ℚ)
    (startingSite endingSite : VehicleNode) : List VehiclePickDeliver :=
  (List.range vehicle.cantV.toNat).map fun i =>
    .new m (trucks + i) vehicle.id startingSite endingSite vehicle.capacity vehicle.speed factor

/-- The row of the phony truck: any load, at any time, between the sites of the first vehicle. -/
def phony (first : VehicleT) : VehicleT where
  id := -1
  capacity := ⊤
  speed := first.speed
  startNodeId := first.startNodeId
  cantV := 1
  startOpenT := 0
  startCloseT := ⊤
  startServiceT := 0
  endNodeId := first.endNodeId
  endOpenT := 0
  endCloseT := ⊤
  endServiceT := 0

/-- The loop of `build_fleet` over the rows. Every row adds its two sites to the nodes. -/
def buildLoop (factor : ℚ) : List VehicleT → Nat → List VehiclePickDeliver →
    Except String (List VehiclePickDeliver)
  | [], _, trucks => .ok trucks
  | vehicle :: rest, nodes, trucks =>
    if vehicle.cantV < 0 then .error "Illegal number of vehicles found"
    else if vehicle.capacity < 0 then .error "Illegal value for capacity found"
    else if !m.empty && !m.hasId vehicle.startNodeId then .error "Unable to find node on matrix"
    else if !m.empty && !m.hasId vehicle.endNodeId then .error "Unable to find node on matrix"
    else if !((vehicle.startOpenT : WithTop ℚ) ≤ vehicle.startCloseT &&
        (vehicle.endOpenT : WithTop ℚ) ≤ vehicle.endCloseT &&
        (vehicle.startOpenT : WithTop ℚ) ≤ vehicle.endCloseT) then
      .error "Illegal values found on vehicle"
    else
      buildLoop factor rest (nodes + 2) (trucks ++
        addVehicle m trucks.length vehicle factor (.ofTwNode (.ofVehicle nodes vehicle .kStart))
          (.ofTwNode (.ofVehicle (nodes + 1) vehicle .kEnd)))

/-- `build_fleet`, behind the nodes of the orders. -/
def buildFleet (factor : ℚ) (nodes : Nat) (first : VehicleT) (others : List VehicleT) :
    Except String Fleet := do
  let trucks ← buildLoop m factor (first :: others ++ [phony first]) nodes []
  return { trucks := trucks, used := .empty, unUsed := .ofSize trucks.length }

/-- `is_fleet_ok` -/
def isFleetOk : List VehiclePickDeliver → Except String Unit
  | [] => .ok ()
  | truck :: rest =>
    if !truck.isOk then .error "Illegal values found on vehicle"
    else if !(truck.startSite.isStart && truck.endSite.isEnd) then
      .error "Illegal values found on vehicle"
    else if !truck.isFeasable then .error "Truck is not feasible"
    else isFleetOk rest

/-- `is_order_ok` -/
def isOrderOk (trucks : List VehiclePickDeliver) (order : Order) : Bool :=
  trucks.any fun truck => order.isValid m truck.speed && truck.isOrderFeasable m order

/-- `set_compatibles` -/
def setCompatibles (fleet : Fleet) (orders : PDOrders) : Fleet :=
  { fleet with trucks := fleet.trucks.map fun truck => truck.setCompatibles m orders }

/-- `get_truck(size_t)`: the first truck not used that may have the order, or the phony one. -/
def getTruck (fleet : Fleet) (order : Nat) : VehiclePickDeliver × Fleet :=
  match fleet.unUsed.ids.find? fun i =>
    (fleet.trucks.getD i default).feasableOrders.has order with
  | some i =>
    (fleet.trucks.getD i default,
      { fleet with
        used := fleet.used.add i
        unUsed := if 1 < fleet.unUsed.size then fleet.unUsed.remove i else fleet.unUsed })
  | none => (fleet.trucks.getLastD default, fleet)

end Fleet

/-- `class Pgr_pickDeliver`: the orders and the trucks. -/
structure PgrPickDeliver where
  orders : PDOrders
  trucks : Fleet

/-- `Pgr_pickDeliver(…)`, or why the data is not accepted. -/
def PgrPickDeliver.new (m : Dmatrix) (pdOrders : List OrdersT) (first : VehicleT)
    (others : List VehicleT) (factor : ℚ) : Except String PgrPickDeliver := do
  let orders ← PDOrders.buildOrders m pdOrders []
  let trucks ← Fleet.buildFleet m factor (2 * orders.length) first others
  Fleet.isFleetOk trucks.trucks
  if !orders.all fun o => Fleet.isOrderOk m trucks.trucks o then
    throw "Order not feasible on any truck was found"
  return { orders := orders, trucks := trucks.setCompatibles m orders }

/-- `class Initial_solution` -/
structure InitialSolution where
  trucks : Fleet
  unassigned : Identifiers Nat
  assigned : Identifiers Nat
  fleet : List VehiclePickDeliver

namespace InitialSolution

/-- The body of the loop of `do_while_foo`. -/
def body (m : Dmatrix) (kind : InitialsCode) (s : InitialSolution) :
    LoopStep InitialSolution InitialSolution :=
  match s.unassigned.front? with
  | none => .done s
  | some order =>
    let (truck, trucks) := s.trucks.getTruck order
    let filled := truck.doWhileFeasable m kind s.unassigned s.assigned
    .next
      { trucks := trucks
        unassigned := filled.unassigned
        assigned := filled.assigned
        -- The truck joins the fleet even when it took no order.
        fleet := s.fleet ++ [filled.vehicle] }

/-- The variables of `Initial_solution` before its loop. -/
def start (p : PgrPickDeliver) : InitialSolution where
  trucks := p.trucks
  unassigned := .ofSize p.orders.length
  assigned := .empty
  fleet := []

/-- `Initial_solution(kind, number_of_orders)`, with at most `n` rounds of its loop. -/
def initialSolution (m : Dmatrix) (kind : InitialsCode) (p : PgrPickDeliver) (n : Nat) :
    Option InitialSolution :=
  runLoop (body m kind) n (start p)

end InitialSolution

end Vrp

end PgRouting
