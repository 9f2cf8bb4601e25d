import PgRouting.Spec.Optimize

/-!
# Feasible solutions stay feasible

The moves of `Optimize` on the vehicles of a feasible solution: an insertion is made at a
place where the vehicle stays feasible, and under the triangle inequality a vehicle stays
feasible when an order is taken out.

## Key results

- `moves_sturdy`: the moves of `Optimize` on the vehicles of a feasible solution
-/

namespace PgRouting

namespace Vrp

open VehiclePickDeliver

variable {K : Type} [Numbers K]
variable {m : Dmatrix K} {kind : InitialsCode} {orders : PDOrders K} {w : VehiclePickDeliver K}
  {order : Order K} {o : Nat}

/-- The vehicle visits the pickup and the delivery of each of its orders once, the pickup first,
    between its sites. -/
def Serves (m : Dmatrix K) (orders : PDOrders K) (w : VehiclePickDeliver K) : Prop :=
  ∃ (sites : Sites orders) (stops : List (Stop Nat)), w.OnRoute m sites stops

/-- The vehicle serves its orders without a violation. -/
def ServesFeasible (m : Dmatrix K) (orders : PDOrders K) (w : VehiclePickDeliver K) : Prop :=
  w.isFeasable = true ∧ Serves m orders w

namespace Serves

theorem table (h : Serves m orders w) :
    ∀ o < orders.length, orders.Describes (PDOrders.get w.orders o) o := by
  obtain ⟨_, _, hroute⟩ := h
  exact hroute.table

variable (hvalid : orders.Valid) (ho : o < orders.length) (hd : orders.Describes order o)
include hvalid ho hd

theorem insert (h : Serves m orders w) (hnew : o ∉ w.ordersInVehicle) :
    Takes (fun w' => ServesFeasible m orders w' ∧ w'.speed = w.speed) o w
      (w.insert m order).2 := by
  obtain ⟨sites, stops, hroute⟩ := h
  obtain hsame | ⟨p, q, hplace, _, _, _, htaken⟩ := hroute.insert_eq hvalid ho hd hnew
  · left
    rw [hsame]
  · right
    rw [htaken]
    exact ⟨⟨⟨hplace.feasible, sites, _,
      hroute.placed ho hnew hplace.pickup_lt hplace.delivery_le⟩, rfl⟩, rfl⟩

theorem semiLIFO (h : Serves m orders w) (hnew : o ∉ w.ordersInVehicle) :
    Takes (fun w' => ServesFeasible m orders w' ∧ w'.speed = w.speed) o w
      (w.semiLIFO m order).2 := by
  obtain ⟨sites, stops, hroute⟩ := h
  obtain hsame | ⟨q, hplace, _, htaken⟩ := hroute.semiLIFO_eq hvalid ho hd
  · left
    rw [hsame]
  · right
    rw [htaken]
    exact ⟨⟨⟨hplace.feasible, sites, _,
      hroute.placed ho hnew hplace.pickup_lt hplace.delivery_le⟩, rfl⟩, rfl⟩

theorem erase (h : Serves m orders w) : Serves m orders (w.erase m order) ∧
    (w.erase m order).ordersInVehicle = w.ordersInVehicle.remove o ∧
    (w.erase m order).speed = w.speed := by
  obtain ⟨sites, stops, hroute⟩ := h
  rw [hroute.erase_eq hvalid ho hd]
  exact ⟨⟨sites, _, hroute.without⟩, rfl, rfl⟩

end Serves

omit [Numbers K] in
theorem Takes.mono {Ok Ok' : VehiclePickDeliver K → Prop} {w' : VehiclePickDeliver K}
    (h : Takes Ok o w w') (hle : Ok w' → Ok' w') : Takes Ok' o w w' :=
  h.imp_right fun htaken => ⟨hle htaken.1, htaken.2⟩

omit [Numbers K] in
theorem IsSolution.mono {Ok Ok' : VehiclePickDeliver K → Prop}
    {fleet : List (VehiclePickDeliver K)} (h : IsSolution orders Ok fleet)
    (hle : ∀ w ∈ fleet, Ok w → Ok' w) : IsSolution orders Ok' fleet :=
  ⟨fun w hw => hle w hw (h.ok w hw), h.once⟩

/-- However sums are rounded, the vehicles serve their orders. -/
theorem moves_serves (kind : InitialsCode) (hvalid : orders.Valid) :
    Moves m kind orders (Serves m orders) where
  table h := h.table
  insert h ho hd hnew := by
    unfold Optimize.insertByKind
    split
    · exact (h.semiLIFO hvalid ho hd hnew).mono fun hserves => hserves.1.2
    · exact (h.insert hvalid ho hd hnew).mono fun hserves => hserves.1.2
  erase h ho hd := by
    obtain ⟨hserves, hids, _⟩ := h.erase hvalid ho hd
    exact ⟨hserves, hids⟩

/-! ## Exact times -/

section

variable {m : Dmatrix} {orders : PDOrders} {w : VehiclePickDeliver} {order : Order}

/-- A feasible vehicle stays feasible when an order is taken out. -/
theorem ServesFeasible.erase (hvalid : orders.Valid) (htri : TriangleInequality m w.speed)
    (ho : o < orders.length) (hd : orders.Describes order o) (h : ServesFeasible m orders w) :
    ServesFeasible m orders (w.erase m order) := by
  obtain ⟨hfeasible, sites, stops, hroute⟩ := h
  rw [hroute.isFeasable_iff hvalid] at hfeasible
  rw [hroute.erase_eq hvalid ho hd]
  have hwithout := hroute.without (o := o)
  exact ⟨(hwithout.isFeasable_iff hvalid).mpr
    (hfeasible.without hvalid hroute.route hroute.known htri), sites, _, hwithout⟩

/-- A vehicle of a feasible solution, for whose speed the triangle inequality holds. -/
def Sturdy (m : Dmatrix) (orders : PDOrders) (w : VehiclePickDeliver) : Prop :=
  ServesFeasible m orders w ∧ TriangleInequality m w.speed

theorem Sturdy.takes {w' : VehiclePickDeliver} (htri : TriangleInequality m w.speed)
    (h : Takes (fun w' => ServesFeasible m orders w' ∧ w'.speed = w.speed) o w w') :
    Takes (Sturdy m orders) o w w' := by
  obtain hsame | ⟨⟨hserves, hspeed⟩, hids⟩ := h
  · exact .inl hsame
  · right
    refine ⟨⟨hserves, ?_⟩, hids⟩
    rw [hspeed]
    exact htri

theorem moves_sturdy (kind : InitialsCode) (hvalid : orders.Valid) :
    Moves m kind orders (Sturdy m orders) where
  table h := h.1.2.table
  insert h ho hd hnew := by
    unfold Optimize.insertByKind
    split
    · exact Sturdy.takes h.2 (h.1.2.semiLIFO hvalid ho hd hnew)
    · exact Sturdy.takes h.2 (h.1.2.insert hvalid ho hd hnew)
  erase h ho hd := by
    obtain ⟨_, hids, hspeed⟩ := h.1.2.erase hvalid ho hd
    refine ⟨⟨h.1.erase hvalid h.2 ho hd, ?_⟩, hids⟩
    rw [hspeed]
    exact h.2

end

end Vrp

end PgRouting
