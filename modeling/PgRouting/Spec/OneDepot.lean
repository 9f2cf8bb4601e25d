import PgRouting.Spec.InitialSolution

/-!
# Pickups before deliveries

With the kind `OneDepot` every insertion of the initial solution and of the swaps is a
`semiLIFO`, which puts the pickup in front and the delivery behind the last pickup. Only
`decrease_truck` calls the general `insert`, which puts an order wherever it costs least: the
vehicles keep their shape as long as the places it finds do.

## Key results

- `lifoPlace_iff`: when an order placed by `insert` keeps the pickups first
- `oneDepot_keeps_semiLIFO`: the shape of the final solution
-/

namespace PgRouting

namespace Vrp

open VehiclePickDeliver InitialSolution

variable {m : Dmatrix} {orders : PDOrders} {sites : Sites orders} {w : VehiclePickDeliver}
  {stops : List (Stop Nat)} {order : Order} {o p q : Nat}

/-- The vehicle visits all its pickups before any of its deliveries. -/
def PickupsBeforeDeliveries (w : VehiclePickDeliver) : Prop :=
  w.path.Pairwise fun n n' => n'.isPickup = true → n.isDelivery = false

instance : Decidable (PickupsBeforeDeliveries w) :=
  inferInstanceAs (Decidable (List.Pairwise _ _))

/-- The place that `insert` finds for the order, if it finds one, has no delivery in front of the
    pickup and no pickup behind the delivery. -/
def LifoPlace (m : Dmatrix) (order : Order) (w : VehiclePickDeliver) : Prop :=
  (w.searchPlace m order).2.found = true →
    (∀ n ∈ w.path.take (w.searchPlace m order).2.bestPickPos, n.isDelivery = false) ∧
      ∀ n ∈ w.path.drop ((w.searchPlace m order).2.bestDeliverPos - 1), n.isPickup = false

/-- A vehicle that serves its orders, the pickups first. -/
def ServesLifo (m : Dmatrix) (orders : PDOrders) (w : VehiclePickDeliver) : Prop :=
  ∃ (sites : Sites orders) (stops : List (Stop Nat)), w.OnRoute m sites stops ∧ PickupsFirst stops

/-- A stop that is no pickup is a delivery. -/
theorem PDOrders.Valid.node_isDelivery (h : orders.Valid) {s : Stop Nat}
    (hs : s.order < orders.length) : (orders.node s).isDelivery = !s.isPickup := by
  cases s with
  | pickup o =>
    have htype := h.node_type hs
    unfold TwNode.isDelivery
    rw [htype]
    rfl
  | delivery o => exact h.delivery o hs

theorem start_isDelivery (sites : Sites orders) : sites.start.isDelivery = false := by
  unfold TwNode.isDelivery
  rw [PDOrders.start_type sites]
  rfl

theorem finish_isPickup (sites : Sites orders) : sites.finish.isPickup = false := by
  unfold TwNode.isPickup
  rw [PDOrders.finish_type sites]
  rfl

namespace VehiclePickDeliver.OnRoute

variable (h : w.OnRoute m sites stops) (hvalid : orders.Valid)
include h hvalid

theorem path_nodes : w.path.map VehicleNode.toTwNode =
    sites.start :: orders.nodes sites stops := by
  have hpath := carry_path_nodes m sites w w.ordersInVehicle hvalid h.known
  rw [← h.eq_carry] at hpath
  exact hpath

theorem pickupsBeforeDeliveries_iff : PickupsBeforeDeliveries w ↔ PickupsFirst stops := by
  have hmap : PickupsBeforeDeliveries w ↔ (w.path.map VehicleNode.toTwNode).Pairwise
      fun n n' => n'.isPickup = true → n.isDelivery = false := by
    rw [List.pairwise_map]
    exact Iff.rfl
  rw [hmap, h.path_nodes hvalid]
  unfold PDOrders.nodes PickupsFirst
  rw [List.pairwise_cons, List.pairwise_append, List.pairwise_map]
  have hstops : stops.Pairwise (fun s t => (orders.node t).isPickup = true →
      (orders.node s).isDelivery = false) ↔
        stops.Pairwise fun s t => t.isPickup = true → s.isPickup = true := by
    apply List.Pairwise.iff_of_mem
    intro s t hs ht
    rw [hvalid.node_isPickup (h.known t ht), hvalid.node_isDelivery (h.known s hs),
      Bool.not_eq_false']
  rw [hstops]
  constructor
  · intro hall
    exact hall.2.1
  · intro hfirst
    refine ⟨fun _ _ _ => start_isDelivery sites, hfirst, List.pairwise_singleton _ _, ?_⟩
    intro n _ n' hn' hpickup
    rw [List.mem_singleton.mp hn', finish_isPickup sites] at hpickup
    exact absurd hpickup Bool.false_ne_true

/-- The nodes in front of a position. -/
theorem take_isDelivery (hp : p ≤ stops.length) :
    (∀ n ∈ w.path.take (p + 1), n.isDelivery = false) ↔
      ∀ s ∈ stops.take p, s.isPickup = true := by
  have hmap : (∀ n ∈ w.path.take (p + 1), n.isDelivery = false) ↔
      ∀ n ∈ (w.path.map VehicleNode.toTwNode).take (p + 1), n.isDelivery = false := by
    rw [← List.map_take, List.forall_mem_map]
  have hnodes : (orders.nodes sites stops).take p = (stops.take p).map orders.node := by
    unfold PDOrders.nodes
    rw [List.take_append_of_le_length (by rw [List.length_map]; exact hp), List.map_take]
  rw [hmap, h.path_nodes hvalid, List.take_succ_cons, hnodes, List.forall_mem_cons,
    List.forall_mem_map]
  constructor
  · intro hall s hs
    have hs' := hall.2 s hs
    rw [hvalid.node_isDelivery (h.known s (List.mem_of_mem_take hs))] at hs'
    simpa using hs'
  · intro hall
    refine ⟨start_isDelivery sites, fun s hs => ?_⟩
    rw [hvalid.node_isDelivery (h.known s (List.mem_of_mem_take hs)), hall s hs]
    rfl

/-- The nodes behind a position. -/
theorem drop_isPickup (hpos : 0 < q) (hq : q ≤ stops.length + 1) :
    (∀ n ∈ w.path.drop q, n.isPickup = false) ↔
      ∀ s ∈ stops.drop (q - 1), s.isPickup = false := by
  obtain ⟨k, rfl⟩ := Nat.exists_eq_succ_of_ne_zero hpos.ne'
  have hmap : (∀ n ∈ w.path.drop (k + 1), n.isPickup = false) ↔
      ∀ n ∈ (w.path.map VehicleNode.toTwNode).drop (k + 1), n.isPickup = false := by
    rw [← List.map_drop, List.forall_mem_map]
  have hnodes : (orders.nodes sites stops).drop k =
      (stops.drop k).map orders.node ++ [sites.finish] := by
    unfold PDOrders.nodes
    rw [List.drop_append_of_le_length (by rw [List.length_map]; omega), List.map_drop]
  rw [Nat.succ_sub_one, hmap, h.path_nodes hvalid, List.drop_succ_cons, hnodes,
    List.forall_mem_append, List.forall_mem_map, List.forall_mem_singleton]
  constructor
  · intro hall s hs
    rw [← hvalid.node_isPickup (h.known s (List.mem_of_mem_drop hs))]
    exact hall.1 s hs
  · intro hall
    refine ⟨fun s hs => ?_, finish_isPickup sites⟩
    rw [hvalid.node_isPickup (h.known s (List.mem_of_mem_drop hs))]
    exact hall s hs

/-- An order placed where the search has found a place keeps the pickups first iff the place is
    between the pickups and the deliveries. -/
theorem lifoPlace_iff (hfirst : PickupsFirst stops) (hplace : w.Place m sites stops o p q)
    (hfound : (w.searchPlace m order).2.found = true)
    (hpick : (w.searchPlace m order).2.bestPickPos = p + 1)
    (hdeliver : (w.searchPlace m order).2.bestDeliverPos = q + 1) :
    LifoPlace m order w ↔ PickupsFirst (VehiclePickDeliver.placed stops o p q) := by
  have hpq := hplace.pickup_lt
  have hq := hplace.delivery_le
  unfold LifoPlace VehiclePickDeliver.placed
  rw [hpick, hdeliver, Nat.add_sub_cancel, h.take_isDelivery hvalid (by omega),
    h.drop_isPickup hvalid (by omega) hq, hfirst.insertIdx_iff hpq hq]
  exact imp_iff_right hfound

end VehiclePickDeliver.OnRoute

namespace ServesLifo

variable (hvalid : orders.Valid) (ho : o < orders.length) (hd : orders.Describes order o)
include hvalid ho hd

theorem insert (h : ServesLifo m orders w) (hnew : o ∉ w.ordersInVehicle)
    (hlifo : LifoPlace m order w) : Takes (ServesLifo m orders) o w (w.insert m order).2 := by
  obtain ⟨sites, stops, hroute, hfirst⟩ := h
  obtain hsame | ⟨p, q, hplace, hfound, hpick, hdeliver, htaken⟩ :=
    hroute.insert_eq hvalid ho hd hnew
  · left
    rw [hsame]
  · right
    rw [htaken]
    exact ⟨⟨sites, _, hroute.placed ho hnew hplace.pickup_lt hplace.delivery_le,
      (hroute.lifoPlace_iff hvalid hfirst hplace hfound hpick hdeliver).mp hlifo⟩, rfl⟩

theorem semiLIFO (h : ServesLifo m orders w) (hnew : o ∉ w.ordersInVehicle) :
    Takes (ServesLifo m orders) o w (w.semiLIFO m order).2 := by
  obtain ⟨sites, stops, hroute, hfirst⟩ := h
  obtain hsame | ⟨q, hplace, hlast, htaken⟩ := hroute.semiLIFO_eq hvalid ho hd
  · left
    rw [hsame]
  · right
    rw [htaken]
    refine ⟨⟨sites, _, hroute.placed ho hnew hplace.pickup_lt hplace.delivery_le, ?_⟩, rfl⟩
    apply (hfirst.insertIdx_iff hplace.pickup_lt hplace.delivery_le).mpr
    rw [List.take_zero]
    exact ⟨fun s hs => absurd hs List.not_mem_nil, hlast⟩

theorem erase (h : ServesLifo m orders w) : ServesLifo m orders (w.erase m order) ∧
    (w.erase m order).ordersInVehicle = w.ordersInVehicle.remove o := by
  obtain ⟨sites, stops, hroute, hfirst⟩ := h
  rw [hroute.erase_eq hvalid ho hd]
  exact ⟨⟨sites, _, hroute.without, hfirst.sublist List.filter_sublist⟩, rfl⟩

end ServesLifo

theorem moves_lifo (hvalid : orders.Valid) :
    Moves m .oneDepot orders (ServesLifo m orders) where
  table h := by
    obtain ⟨_, _, hroute, _⟩ := h
    exact hroute.table
  insert h ho hd hnew := h.semiLIFO hvalid ho hd hnew
  erase h ho hd := h.erase hvalid ho hd

/-- Every `semiLIFO` of the initial solution keeps the pickups first. -/
theorem keepsShape_oneDepot : KeepsShape m .oneDepot orders PickupsFirst :=
  fun hinserted hfirst => hinserted.pickupsFirst rfl hfirst

/-- With the kind `OneDepot` the vehicles of the final solution visit their pickups before their
    deliveries, if the places that `insert` finds in `decrease_truck` keep that order, and a
    `semiLIFO` that fails leaves the vehicle as it was. -/
theorem oneDepot_keeps_semiLIFO (m : Dmatrix) (pdOrders : List OrdersT) (first : VehicleT)
    (others : List VehicleT) (factor : ℚ) (p : PgrPickDeliver)
    (sort : List VehiclePickDeliver → List VehiclePickDeliver) (times n k : Nat)
    (s : InitialSolution) (h : PgrPickDeliver.new m pdOrders first others factor = .ok p)
    (hpos : p.orders ≠ []) (hsort : ∀ fleet, (sort fleet).Perm fleet)
    (hs : initialSolution m .oneDepot p n = some s)
    (hk : s.fleet.length * p.orders.length + 1 < k) :
    ((∀ c ∈ Optimize.decreaseCalls m k
          (Optimize.sortBySize sort { fleet := s.fleet, best := s.fleet }),
        LifoPlace m c.1 c.2) →
      ∃ r, Optimize.optimize m .oneDepot sort times k s.fleet = some r ∧
        ∀ w ∈ r.fleet, PickupsBeforeDeliveries w) ∧
    ∀ w order o, Serves m p.orders w → o < p.orders.length → p.orders.Describes order o →
      (w.semiLIFO m order).1 = false → (w.semiLIFO m order).2 = w := by
  have hp := new_accepted h
  constructor
  · intro hlifo
    have hsolution : IsSolution p.orders (ServesLifo m p.orders) s.fleet := by
      obtain ⟨hok, hend⟩ := initialSolution_ok hp keepsShape_oneDepot
        List.Pairwise.nil hs
      exact hok.solution hend fun hfilled => hfilled.onRoute
    obtain ⟨r, hr, hsound⟩ := Optimize.optimize_ok (LifoPlace m) times
      (fun hw ho hd hnew hplace => hw.insert hp.valid ho hd hnew hplace) (moves_lifo hp.valid)
      hsort hpos hsolution hk hlifo
    refine ⟨r, hr, fun w hw => ?_⟩
    obtain ⟨sites, stops, hroute, hfirst⟩ := hsound.fleet.ok w hw
    exact (hroute.pickupsBeforeDeliveries_iff hp.valid).mpr hfirst
  · intro w order o hserves ho hd hfails
    obtain ⟨sites, stops, hroute⟩ := hserves
    exact hroute.semiLIFO_false hp.valid ho hd hfails

instance : Decidable (LifoPlace m order w) := inferInstanceAs (Decidable (_ → _))

/-- An order from the depot to a place, with times for its pickup and its delivery. -/
def timedOrder (id place : Int) (pickOpen pickClose deliverOpen : ℚ) : OrdersT :=
  { lineOrder id 1 place with
    pickOpenT := pickOpen, pickCloseT := (pickClose : WithTop ℚ), deliverOpenT := deliverOpen }

/-- The second order cannot be picked up first, so that each order gets a truck. Then
    `decrease_truck` puts the second order into the first truck, its pickup behind the other one. -/
theorem oneDepot_keeps_semiLIFO_line : ∃ p s,
    PgrPickDeliver.new lineMatrix [timedOrder 1 2 0 1 12, timedOrder 2 3 10 100 0] pairVehicle
      [] 1 = .ok p ∧
    initialSolution lineMatrix .oneDepot p 3 = some s ∧ s.fleet.length = 2 ∧
    (Optimize.decreaseCalls lineMatrix 6
      (Optimize.sortBySize id { fleet := s.fleet, best := s.fleet })).map
        (fun c => (c.2.insert lineMatrix c.1).1) = [true] ∧
    (∃ r, Optimize.optimize lineMatrix .oneDepot id 3 6 s.fleet = some r ∧
      ∀ w ∈ r.fleet, PickupsBeforeDeliveries w) ∧
    ∀ w order o, Serves lineMatrix p.orders w → o < p.orders.length →
      p.orders.Describes order o → (w.semiLIFO lineMatrix order).1 = false →
        (w.semiLIFO lineMatrix order).2 = w := by
  obtain ⟨p, hp⟩ := eq_ok_of_isOk (PgrPickDeliver.new lineMatrix
    [timedOrder 1 2 0 1 12, timedOrder 2 3 10 100 0] pairVehicle [] 1) (by decide +kernel)
  have hrun : (PgrPickDeliver.new lineMatrix [timedOrder 1 2 0 1 12, timedOrder 2 3 10 100 0]
      pairVehicle [] 1).toOption.map (fun p =>
        (p.orders.length, (initialSolution lineMatrix .oneDepot p 3).map fun s =>
          (s.fleet.length, (Optimize.decreaseCalls lineMatrix 6
            (Optimize.sortBySize id { fleet := s.fleet, best := s.fleet })).map fun c =>
              ((c.2.insert lineMatrix c.1).1, decide (LifoPlace lineMatrix c.1 c.2))))) =
      some (2, some (2, [(true, true)])) := by
    decide +kernel
  rw [hp] at hrun
  simp only [Except.toOption, Option.map_some, Option.some.injEq, Prod.mk.injEq,
    Option.map_eq_some_iff] at hrun
  obtain ⟨horders, s, hs, hlen, hcalls⟩ := hrun
  obtain ⟨hlifo, hfails⟩ := oneDepot_keeps_semiLIFO lineMatrix _ pairVehicle [] 1 p id 3 3 6 s hp
    (List.ne_nil_of_length_pos (by omega)) (fun _ => List.Perm.refl _) hs
    (by rw [hlen, horders]; decide)
  refine ⟨p, s, hp, hs, hlen, ?_, hlifo fun c hc => ?_, hfails⟩
  · have hfirst := congrArg (List.map Prod.fst) hcalls
    rw [List.map_map] at hfirst
    exact hfirst
  · have hmem := List.mem_map_of_mem
      (f := fun c => ((c.2.insert lineMatrix c.1).1, decide (LifoPlace lineMatrix c.1 c.2))) hc
    rw [hcalls, List.mem_singleton] at hmem
    exact of_decide_eq_true (congrArg Prod.snd hmem)

/-! ## An order that decrease_truck moves -/

/-- Sort the fleet by its durations, the longest first. -/
def sortByDuration (fleet : List VehiclePickDeliver) : List VehiclePickDeliver :=
  fleet.insertionSort fun lhs rhs => rhs.duration ≤ lhs.duration

/-- The initial solution serves the two orders by a truck each. Then the second order is put
    behind the delivery of the first one. -/
theorem oneDepot_breaks_semiLIFO : ∃ p,
    lineProblem [lineOrder 1 1 3, lineOrder 2 1 2] = .ok p ∧
      ¬ ∀ n k s r, initialSolution lineMatrix .oneDepot p n = some s →
        Optimize.optimize lineMatrix .oneDepot sortByDuration 1 k s.fleet = some r →
        ∀ w ∈ r.fleet, PickupsBeforeDeliveries w := by
  obtain ⟨p, hp⟩ := eq_ok_of_isOk
    (lineProblem [lineOrder 1 1 3, lineOrder 2 1 2]) (by decide +kernel)
  have hrun : (lineProblem [lineOrder 1 1 3, lineOrder 2 1 2]).toOption.map (fun p =>
      (initialSolution lineMatrix .oneDepot p 4).map fun s =>
        (Optimize.optimize lineMatrix .oneDepot sortByDuration 1 10 s.fleet).map fun r =>
          r.fleet.all fun w => decide (PickupsBeforeDeliveries w)) = some (some (some false)) := by
    decide +kernel
  rw [hp] at hrun
  simp only [Except.toOption, Option.map_some, Option.some.injEq, Option.map_eq_some_iff] at hrun
  obtain ⟨s, hs, r, hr, hshape⟩ := hrun
  refine ⟨p, hp, fun hall => ?_⟩
  have hevery : (r.fleet.all fun w => decide (PickupsBeforeDeliveries w)) = true := by
    rw [List.all_eq_true]
    intro w hw
    exact decide_eq_true (hall 4 10 s r hs hr w hw)
  rw [hshape] at hevery
  exact absurd hevery Bool.false_ne_true

end Vrp

end PgRouting
