import PgRouting.Lib.DoubleOrder
import Mathlib.Algebra.Order.Monoid.WithTop
import Mathlib.Algebra.Order.Field.Rat

/-!
# Vehicles of the pick and deliver problem

A vehicle is a path of nodes with time windows, from its starting site to its ending
site. Every node of the path carries what the evaluation of the path has found out about
it: the times, the cargo and the violations up to the node.

Times and loads are doubles in the source, and its sums are rounded. The functions compute with
any `Numbers`: with doubles as the source does, or with rationals, where every sum is exact. A
closing time or a capacity may be infinite. The functions that ask for a distance take the cost
matrix of the problem.
-/

namespace PgRouting

namespace Vrp

/-- What the source asks of the numbers that are times and loads. -/
class Numbers (K : Type) extends OfNat K 0, Add K, Sub K, Neg K, Div K, BEq K, LT K, LE K,
    Inhabited K where
  decidableLT : DecidableLT K
  decidableLE : DecidableLE K
  lt_irrefl : ∀ a : K, ¬ a < a
  lt_trans : ∀ {a b c : K}, a < b → b < c → a < c

attribute [reducible, instance] Numbers.decidableLT Numbers.decidableLE

instance : Numbers ℚ where
  decidableLT := inferInstance
  decidableLE := inferInstance
  lt_irrefl := lt_irrefl
  lt_trans := lt_trans

instance : Numbers Float where
  decidableLT := inferInstance
  decidableLE := inferInstance
  lt_irrefl := float_lt_irrefl
  lt_trans := float_lt_trans

/-- `class Dmatrix`: the ids it has and the distances between them. -/
structure Dmatrix (K : Type := ℚ) where
  ids : List Int
  distance : Int → Int → K

variable {K : Type} [Numbers K]

/-- `has_id` -/
def Dmatrix.hasId (m : Dmatrix K) (id : Int) : Bool := m.ids.contains id

/-- `empty` -/
def Dmatrix.empty (m : Dmatrix K) : Bool := m.ids.isEmpty

/-- `Tw_node::NodeType` -/
inductive NodeType
  | kStart
  | kPickup
  | kDelivery
  | kDump
  | kLoad
  | kEnd
deriving DecidableEq, Repr, Inhabited

/-- `class Tw_node` -/
structure TwNode (K : Type := ℚ) where
  idx : Nat
  id : Int
  opens : K
  closes : WithTop K
  serviceTime : K
  demand : K
  type : NodeType
deriving DecidableEq, Inhabited

namespace TwNode

variable (m : Dmatrix K) (n : TwNode K)

/-- `travel_time_to` -/
def travelTimeTo (other : TwNode K) (speed : K) : K := m.distance n.id other.id / speed

/-- `is_early_arrival` -/
def isEarlyArrival (arrivalTime : K) : Bool := arrivalTime < n.opens

/-- `is_late_arrival` -/
def isLateArrival (arrivalTime : WithTop K) : Bool := n.closes < arrivalTime

/-- `arrival_j_opens_i` -/
def arrivalJOpensI (i : TwNode K) (speed : K) : WithTop K :=
  if n.type = .kStart then ⊤
  else ((i.opens + i.serviceTime + i.travelTimeTo m n speed : K) : WithTop K)

/-- `is_compatible_IJ` -/
def isCompatibleIJ (i : TwNode K) (speed : K) : Bool :=
  if n.type = .kStart then false
  else if i.type = .kEnd then false
  else !n.isLateArrival (n.arrivalJOpensI m i speed)

/-- The times of a node of any kind are legal. -/
def legalTimes : Bool := (n.opens : WithTop K) < n.closes && 0 ≤ n.serviceTime

/-- `is_start` -/
def isStart : Bool := n.type = .kStart && n.legalTimes && n.demand == 0

/-- `is_pickup` -/
def isPickup : Bool := n.type = .kPickup && n.legalTimes && 0 < n.demand

/-- `is_delivery` -/
def isDelivery : Bool := n.type = .kDelivery && n.legalTimes && n.demand < 0

/-- `is_dump` -/
def isDump : Bool := n.type = .kDump && n.legalTimes && n.demand ≤ 0

/-- `is_end` -/
def isEnd : Bool := n.type = .kEnd && n.legalTimes && n.demand == 0

end TwNode

/-- `class Vehicle_node` -/
structure VehicleNode (K : Type := ℚ) extends TwNode K where
  travelTime : K
  arrivalTime : K
  waitTime : K
  departureTime : K
  deltaTime : K
  cargo : K
  twvTot : Nat
  cvTot : Nat
  totWaitTime : K
  totTravelTime : K
  totServiceTime : K
deriving DecidableEq, Inhabited

namespace VehicleNode

/-- `Vehicle_node(const Tw_node&)` -/
def ofTwNode (node : TwNode K) : VehicleNode K :=
  { node with
    travelTime := 0, arrivalTime := 0, waitTime := 0, departureTime := 0, deltaTime := 0
    cargo := 0, twvTot := 0, cvTot := 0, totWaitTime := 0, totTravelTime := 0
    totServiceTime := 0 }

variable (m : Dmatrix K) (n : VehicleNode K)

/-- `has_twv` -/
def hasTwv : Bool := n.isLateArrival n.arrivalTime

/-- `has_cv` -/
def hasCv (cargoLimit : WithTop K) : Bool :=
  if n.isEnd || n.isStart then n.cargo != 0
  else cargoLimit < (n.cargo : WithTop K) || n.cargo < 0

/-- `evaluate(double)`, for the first node of a path -/
def evaluateFirst (cargoLimit : WithTop K) : VehicleNode K :=
  if n.isStart then
    let n := { n with
      travelTime := 0
      arrivalTime := n.opens
      waitTime := 0
      departureTime := n.opens + n.serviceTime
      totTravelTime := 0
      totWaitTime := 0
      totServiceTime := n.serviceTime
      cargo := n.demand
      twvTot := 0
      deltaTime := 0 }
    { n with cvTot := if n.hasCv cargoLimit then 1 else 0 }
  else n

/-- `evaluate(const Vehicle_node&, double, double)`, for a node behind `pred` -/
def evaluate (pred : VehicleNode K) (cargoLimit : WithTop K) (speed : K) : VehicleNode K :=
  let travelTime := pred.travelTimeTo m n.toTwNode speed
  let arrivalTime := pred.departureTime + travelTime
  let waitTime := if n.isEarlyArrival arrivalTime then n.opens - arrivalTime else 0
  let departureTime := arrivalTime + waitTime + n.serviceTime
  -- A dump unloads everything.
  let demand := if n.isDump && 0 ≤ pred.cargo then -pred.cargo else n.demand
  let n := { n with
    travelTime := travelTime
    arrivalTime := arrivalTime
    waitTime := waitTime
    departureTime := departureTime
    totTravelTime := pred.totTravelTime + travelTime
    totWaitTime := pred.totWaitTime + waitTime
    totServiceTime := pred.totServiceTime + n.serviceTime
    demand := demand
    cargo := pred.cargo + demand }
  { n with
    twvTot := if n.hasTwv then pred.twvTot + 1 else pred.twvTot
    cvTot := if n.hasCv cargoLimit then pred.cvTot + 1 else pred.cvTot
    deltaTime := departureTime - pred.departureTime }

end VehicleNode

/-- `class Vehicle` -/
structure Vehicle (K : Type := ℚ) where
  idx : Nat
  id : Int
  path : List (VehicleNode K)
  capacity : WithTop K
  mFactor : K
  mSpeed : K
deriving DecidableEq, Inhabited

namespace Vehicle

variable (m : Dmatrix K) (v : Vehicle K)

/-- `is_phony` -/
def isPhony : Bool := v.id < 0

/-- `speed` -/
def speed : K := v.mSpeed / v.mFactor

/-- `start_site` -/
def startSite : VehicleNode K := v.path.headD default

/-- `end_site`, also the node that `duration` and the totals of the path are read from -/
def endSite : VehicleNode K := v.path.getLastD default

/-- `duration` -/
def duration : K := v.endSite.departureTime

/-- `twvTot` -/
def twvTot : Nat := v.endSite.twvTot

/-- `cvTot` -/
def cvTot : Nat := v.endSite.cvTot

/-- `is_feasable` -/
def isFeasable : Bool := !(v.twvTot ≠ 0 || v.cvTot ≠ 0)

/-- `empty` -/
def empty : Bool := v.path.length ≤ 2

/-- `size` -/
def size : Nat := v.path.length - 2

/-- The loop of `evaluate(POS)` over the nodes behind `pred`. -/
def evaluateLoop (capacity : WithTop K) (speed : K) (pred : VehicleNode K) :
    List (VehicleNode K) → List (VehicleNode K)
  | [] => []
  | node :: rest =>
    let node := node.evaluate m pred capacity speed
    node :: evaluateLoop capacity speed node rest

/-- `evaluate(POS)`: evaluate the path from a position. -/
def evaluate (start : Nat) : Vehicle K :=
  match (v.path.take start).getLast?, v.path with
  | some pred, path =>
    { v with path := path.take start ++ evaluateLoop m v.capacity v.speed pred (path.drop start) }
  | none, node :: rest =>
    let node := node.evaluateFirst v.capacity
    { v with path := node :: evaluateLoop m v.capacity v.speed node rest }
  | none, [] => v

/-- `insert(POS, Vehicle_node)` -/
def insert (pos : Nat) (node : VehicleNode K) : Vehicle K :=
  ({ v with path := v.path.insertIdx pos node } : Vehicle K).evaluate m pos

/-- `erase(POS)` -/
def eraseAt (pos : Nat) : Vehicle K :=
  ({ v with path := v.path.eraseIdx pos } : Vehicle K).evaluate m pos

/-- `erase(const Vehicle_node&)` -/
def erase (node : VehicleNode K) : Vehicle K :=
  let pos := v.path.findIdx fun n => node.idx = n.idx
  (v.eraseAt m pos).evaluate m pos

/-- `swap` -/
def swap (i j : Nat) : Vehicle K :=
  let path := (v.path.set i (v.path.getD j default)).set j (v.path.getD i default)
  ({ v with path := path } : Vehicle K).evaluate m (if i < j then i else j)

/-- The loop of `getPosHighLimit`, over the nodes from `highLimit` on. -/
def posHighLoop (nodeJ : TwNode K) : List (VehicleNode K) → Nat → Nat
  | [], highLimit => highLimit
  | i :: rest, highLimit =>
    if nodeJ.isCompatibleIJ m i.toTwNode v.speed then posHighLoop nodeJ rest (highLimit + 1)
    else highLimit

/-- `getPosHighLimit` -/
def getPosHighLimit (nodeJ : TwNode K) : Nat := posHighLoop m v nodeJ v.path 0

/-- The loop of `getPosLowLimit`, which goes down from the end of the path. -/
def posLowLoop (nodeI : TwNode K) : Nat → Nat
  | 0 => 0
  | n + 1 =>
    match v.path[n]? with
    | none => n + 1
    | some j => if j.isCompatibleIJ m nodeI v.speed then posLowLoop nodeI n else n + 1

/-- `getPosLowLimit` -/
def getPosLowLimit (nodeI : TwNode K) : Nat := posLowLoop m v nodeI v.path.length

/-- The loop of `getDropPosLowLimit`, which also stops behind a pickup. -/
def dropPosLowLoop (nodeI : TwNode K) : Nat → Nat
  | 0 => 0
  | n + 1 =>
    match v.path[n]? with
    | none => n + 1
    | some j =>
      if j.isCompatibleIJ m nodeI v.speed && !j.isPickup then dropPosLowLoop nodeI n else n + 1

/-- `getDropPosLowLimit` -/
def getDropPosLowLimit (nodeI : TwNode K) : Nat := dropPosLowLoop m v nodeI v.path.length

/-- `position_limits` -/
def positionLimits (node : TwNode K) : Nat × Nat :=
  (v.getPosLowLimit m node, v.getPosHighLimit m node)

/-- `drop_position_limits` -/
def dropPositionLimits (node : TwNode K) : Nat × Nat :=
  (v.getDropPosLowLimit m node, v.getPosHighLimit m node)

/-- `is_ok` -/
def isOk : Bool :=
  (v.startSite.opens : WithTop K) ≤ v.startSite.closes &&
  (v.endSite.opens : WithTop K) ≤ v.endSite.closes && ((0 : K) : WithTop K) < v.capacity

/-- `Vehicle(…)` -/
def new (idx : Nat) (id : Int) (startingSite endingSite : VehicleNode K) (capacity : WithTop K)
    (speed factor : K) : Vehicle K :=
  ({ idx := idx, id := id, path := [startingSite, endingSite], capacity := capacity,
     mFactor := factor, mSpeed := speed } : Vehicle K).evaluate m 0

end Vehicle

end Vrp

end PgRouting
