import PgRouting.Native.InitialSolution
import PgRouting.Spec.PickDeliver
import Mathlib.Data.List.GetD

/-!
# What the constructor accepts

The orders and the trucks of an accepted problem: the nodes are numbered one after the other,
so that no two of them are the same, every order can be served by some truck, and every truck
is empty, feasible and on its way between its sites.

## Key results

- `buildOrders_built`, `Built.valid`: the orders
- `Fleet.buildFleet_new`: the trucks
- `new_accepted`: both, for an accepted problem
-/

namespace PgRouting

namespace Vrp

open VehiclePickDeliver

variable {K : Type} [Numbers K]
variable {m : Dmatrix} {orders acc : PDOrders} {rows : List OrdersT} {o : Nat}

namespace PDOrders

/-- The orders while they are built: numbered, each with two nodes of its own. -/
structure Built (orders : PDOrders K) : Prop where
  idx : ∀ o < orders.length, (get orders o).idx = o
  pickup_idx : ∀ o < orders.length, (get orders o).pickup.idx = 2 * o
  delivery_idx : ∀ o < orders.length, (get orders o).delivery.idx = 2 * o + 1
  demand : ∀ o < orders.length, (get orders o).delivery.demand = -(get orders o).pickup.demand

theorem get_append_left {l r : PDOrders} (h : o < l.length) :
    get (l ++ r) o = get l o := by
  unfold get
  rw [List.getD_append _ _ _ _ h]

theorem get_append_length {l : PDOrders} {order : Order} :
    get (l ++ [order]) l.length = order := by
  unfold get
  rw [List.getD_append_right _ _ _ _ (Nat.le_refl _), Nat.sub_self]
  rfl

/-- One more order is built. -/
theorem Built.snoc {order : Order} (h : acc.Built) (hidx : order.idx = acc.length)
    (hpickup : order.pickup.idx = 2 * acc.length)
    (hdelivery : order.delivery.idx = 2 * acc.length + 1)
    (hdemand : order.delivery.demand = -order.pickup.demand) : (acc ++ [order]).Built := by
  have hcases : ∀ o < (acc ++ [order]).length,
      o < acc.length ∧ get (acc ++ [order]) o = get acc o ∨
        o = acc.length ∧ get (acc ++ [order]) o = order := by
    intro o ho
    rw [List.length_append, List.length_singleton] at ho
    obtain hlt | rfl := Nat.lt_or_eq_of_le (Nat.le_of_lt_succ ho)
    · exact .inl ⟨hlt, get_append_left hlt⟩
    · exact .inr ⟨rfl, get_append_length⟩
  constructor
  · intro o ho
    obtain ⟨hlt, hget⟩ | ⟨rfl, hget⟩ := hcases o ho
    · rw [hget, h.idx o hlt]
    · rw [hget, hidx]
  · intro o ho
    obtain ⟨hlt, hget⟩ | ⟨rfl, hget⟩ := hcases o ho
    · rw [hget, h.pickup_idx o hlt]
    · rw [hget, hpickup]
  · intro o ho
    obtain ⟨hlt, hget⟩ | ⟨rfl, hget⟩ := hcases o ho
    · rw [hget, h.delivery_idx o hlt]
    · rw [hget, hdelivery]
  · intro o ho
    obtain ⟨hlt, hget⟩ | ⟨rfl, hget⟩ := hcases o ho
    · rw [hget, h.demand o hlt]
    · rw [hget, hdemand]

theorem buildOrders_built (h : acc.Built) (hbuild : buildOrders m rows acc = .ok orders) :
    orders.Built := by
  induction rows generalizing acc with
  | nil =>
    cases hbuild
    exact h
  | cons row rest ih =>
    unfold buildOrders at hbuild
    split at hbuild
    · cases hbuild
    · split at hbuild
      · cases hbuild
      · exact ih (h.snoc rfl rfl rfl rfl) hbuild

section

variable {orders : PDOrders K}

/-- The numbers of the nodes of the orders. -/
theorem Built.node_idx (h : orders.Built) {s : Stop Nat} (hs : s.order < orders.length) :
    (orders.node s).idx = 2 * s.order + if s.isPickup then 0 else 1 := by
  cases s with
  | pickup o => exact h.pickup_idx o hs
  | delivery o => exact h.delivery_idx o hs

theorem Built.node_lt (h : orders.Built) {s : Stop Nat} (hs : s.order < orders.length) :
    (orders.node s).idx < 2 * orders.length := by
  rw [h.node_idx hs]
  split <;> omega

theorem Built.node_inj (h : orders.Built) {s t : Stop Nat} (hs : s.order < orders.length)
    (ht : t.order < orders.length) (heq : (orders.node s).idx = (orders.node t).idx) : s = t := by
  rw [h.node_idx hs, h.node_idx ht] at heq
  cases s <;> cases t <;> simp [Stop.isPickup] at heq ⊢ <;> omega

end

/-- Orders that some truck can serve are valid orders. -/
theorem Built.valid (h : orders.Built)
    (hok : ∀ o < orders.length, ∃ speed, (get orders o).isValid m speed = true) :
    orders.Valid := by
  have hboth : ∀ o < orders.length, (get orders o).pickup.isPickup = true ∧
      (get orders o).delivery.isDelivery = true := by
    intro o ho
    obtain ⟨speed, hvalid⟩ := hok o ho
    unfold Order.isValid at hvalid
    simp only [Bool.and_eq_true] at hvalid
    exact hvalid.1
  constructor
  · exact h.idx
  · exact fun o ho => (hboth o ho).1
  · exact fun o ho => (hboth o ho).2
  · exact h.demand
  · exact fun s t hs ht heq => h.node_inj hs ht heq

/-- The compatible orders are all that `set_compatibles` changes. -/
theorem setCompatibles_describes {speed : ℚ} (hidx : ∀ o < orders.length, (get orders o).idx = o)
    (ho : o < orders.length) : orders.Describes (get (setCompatibles m orders speed) o) o := by
  have hkeep : ∀ (i j : Order), (i.setCompatibles m speed j).idx = i.idx ∧
      (i.setCompatibles m speed j).pickup = i.pickup ∧
      (i.setCompatibles m speed j).delivery = i.delivery := by
    intro i j
    unfold Order.setCompatibles
    split
    · exact ⟨rfl, rfl, rfl⟩
    · split <;> simp only <;> split <;> exact ⟨rfl, rfl, rfl⟩
  have hfold : ∀ (l : List Order) (i : Order),
      (l.foldl (fun i j => i.setCompatibles m speed j) i).idx = i.idx ∧
      (l.foldl (fun i j => i.setCompatibles m speed j) i).pickup = i.pickup ∧
      (l.foldl (fun i j => i.setCompatibles m speed j) i).delivery = i.delivery := by
    intro l
    induction l with
    | nil => exact fun i => ⟨rfl, rfl, rfl⟩
    | cons j l ih =>
      intro i
      obtain ⟨hi, hp, hd⟩ := ih (i.setCompatibles m speed j)
      obtain ⟨hi', hp', hd'⟩ := hkeep i j
      exact ⟨hi.trans hi', hp.trans hp', hd.trans hd'⟩
  have hget : get (setCompatibles m orders speed) o =
      orders.foldl (fun i j => i.setCompatibles m speed j) (get orders o) := by
    unfold get setCompatibles
    rw [List.getD_eq_getElem _ _ (by simpa using ho), List.getElem_map,
      List.getD_eq_getElem _ _ ho]
  obtain ⟨hi, hp, hd⟩ := hfold orders (get orders o)
  rw [hget]
  exact ⟨hi.trans (hidx o ho), congrArg VehicleNode.toTwNode hp, congrArg VehicleNode.toTwNode hd⟩

end PDOrders

/-! ## The trucks -/

/-- A truck as it is built at the position `i`, with sites behind the first `nodes` nodes. -/
def IsNew (m : Dmatrix) (nodes i : Nat) (truck : VehiclePickDeliver) : Prop :=
  ∃ (id : Int) (start finish : TwNode) (capacity : WithTop ℚ) (speed factor : ℚ),
    truck = .new m i id (.ofTwNode start) (.ofTwNode finish) capacity speed factor ∧
      finish.type = .kEnd ∧ nodes ≤ start.idx ∧ nodes ≤ finish.idx

namespace Fleet

variable {factor : ℚ} {vehicles : List VehicleT} {nodes first : Nat}
  {trucks acc : List VehiclePickDeliver}

theorem buildLoop_new (hnodes : first ≤ nodes)
    (hacc : ∀ i < acc.length, IsNew m first i (acc.getD i default))
    (h : buildLoop m factor vehicles nodes acc = .ok trucks) :
    ∀ i < trucks.length, IsNew m first i (trucks.getD i default) := by
  induction vehicles generalizing nodes acc with
  | nil =>
    cases h
    exact hacc
  | cons vehicle rest ih =>
    unfold buildLoop at h
    split_ifs at h
    apply ih (by omega) _ h
    intro i hi
    by_cases hlt : i < acc.length
    · rw [List.getD_append _ _ _ _ hlt]
      exact hacc i hlt
    · rw [List.length_append] at hi
      have hge : acc.length ≤ i := Nat.le_of_not_lt hlt
      rw [List.getD_append_right _ _ _ _ hge, List.getD_eq_getElem _ _ (by omega)]
      unfold addVehicle
      rw [List.getElem_map, List.getElem_range, Nat.add_sub_cancel' hge]
      refine ⟨_, _, _, _, _, _, rfl, rfl, ?_, ?_⟩
      · show first ≤ nodes
        exact hnodes
      · show first ≤ nodes + 1
        omega

theorem length_buildLoop (h : buildLoop m factor vehicles nodes acc = .ok trucks) :
    trucks.length = acc.length + (vehicles.map fun vehicle => vehicle.cantV.toNat).sum := by
  induction vehicles generalizing nodes acc with
  | nil =>
    cases h
    rfl
  | cons vehicle rest ih =>
    unfold buildLoop at h
    split_ifs at h
    rw [ih h, List.length_append, List.map_cons, List.sum_cons]
    unfold addVehicle
    rw [List.length_map, List.length_range]
    omega

theorem isFleetOk_forall (h : isFleetOk trucks = .ok ()) : ∀ truck ∈ trucks,
    truck.isOk = true ∧ truck.startSite.isStart = true ∧ truck.endSite.isEnd = true ∧
      truck.isFeasable = true := by
  induction trucks with
  | nil =>
    intro truck htruck
    exact absurd htruck List.not_mem_nil
  | cons first rest ih =>
    unfold isFleetOk at h
    split_ifs at h with hok hsites hfeasible
    intro truck htruck
    obtain rfl | htruck := List.mem_cons.mp htruck
    · simp only [Bool.not_eq_true', Bool.not_eq_false, Bool.and_eq_true] at hok hsites hfeasible
      exact ⟨hok, hsites.1, hsites.2, hfeasible⟩
    · exact ih h truck htruck

end Fleet

/-- A new truck with legal sites is empty and on its route. -/
theorem IsNew.onRoute {nodes i : Nat} {truck : VehiclePickDeliver} (h : IsNew m nodes i truck)
    (hbuilt : orders.Built) (hnodes : 2 * orders.length ≤ nodes)
    (hstart : truck.startSite.isStart = true) (hend : truck.endSite.isEnd = true) :
    ∃ sites : Sites orders, (truck.setCompatibles m orders).OnRoute m sites [] ∧
      truck = truck.carry m sites [] .empty ∧ truck.idx = i ∧ truck.feasableOrders = .empty := by
  obtain ⟨id, start, finish, capacity, speed, factor, rfl, htype, hsidx, hfidx⟩ := h
  -- The constructor evaluates the two sites, which changes nothing but their evaluations.
  have hpath : (VehiclePickDeliver.new m i id (.ofTwNode start) (.ofTwNode finish) capacity speed
      factor).path.map VehicleNode.toTwNode = [start, finish] := by
    show [((VehicleNode.ofTwNode start).evaluateFirst capacity).toTwNode,
      ((VehicleNode.ofTwNode finish).evaluate m _ _ _).toTwNode] = _
    rw [VehicleNode.evaluateFirst_toTwNode, VehicleNode.evaluate_toTwNode]
    · rfl
    · show finish.type ≠ .kDump
      rw [htype]
      decide
  set truck := VehiclePickDeliver.new m i id (.ofTwNode start) (.ofTwNode finish) capacity speed
    factor with htruck
  have hstart' : start.isStart = true := by
    have hsite : truck.startSite.toTwNode = start := by
      show ((VehicleNode.ofTwNode start).evaluateFirst capacity).toTwNode = start
      rw [VehicleNode.evaluateFirst_toTwNode]
      rfl
    rw [← hsite]
    exact hstart
  have hend' : finish.isEnd = true := by
    have hsite : truck.endSite.toTwNode = finish := by
      obtain ⟨a, b, hab⟩ : ∃ a b, truck.path = [a, b] := ⟨_, _, rfl⟩
      rw [hab] at hpath
      show (truck.path.getLastD default).toTwNode = finish
      rw [hab]
      exact (List.cons_eq_cons.mp (List.cons_eq_cons.mp hpath).2).1
    rw [← hsite]
    exact hend
  -- So the truck is what evaluating its path makes of it.
  have hdrive : truck.toVehicle = truck.toVehicle.drive m start [finish] :=
    Vehicle.evaluate_eq_drive (k := 0)
      (v := ⟨i, id, [.ofTwNode start, .ofTwNode finish], capacity, factor, speed⟩)
      hstart' rfl rfl
  -- The sites are numbered after all nodes of orders.
  have hfar : ∀ s : Stop Nat, s.order < orders.length → (orders.node s).idx < nodes :=
    fun s hs => (hbuilt.node_lt hs).trans_le hnodes
  let sites : Sites orders :=
    ⟨start, finish, hstart', hend', fun s hs => ((hfar s hs).trans_le hsidx).ne',
      fun s hs => ((hfar s hs).trans_le hfidx).ne'⟩
  refine ⟨sites, ?_, ?_, rfl, rfl⟩
  · constructor
    · intro o ho
      exact PDOrders.setCompatibles_describes hbuilt.idx ho
    · intro o
      exact .inl rfl
    · intro s hs
      exact absurd hs List.not_mem_nil
    · intro o
      exact iff_of_false Identifiers.not_mem_empty List.not_mem_nil
    · exact hdrive
  · show truck = { truck with
      toVehicle := truck.toVehicle.drive m start [finish], ordersInVehicle := .empty }
    rw [← hdrive]
    rfl

/-- A truck of the fleet before any order is in it. -/
structure ReadyTruck (m : Dmatrix) (orders : PDOrders) (i : Nat) (truck : VehiclePickDeliver) :
    Prop where
  idx : truck.idx = i
  onRoute : ∃ sites : Sites orders, truck.OnRoute m sites []
  ids : truck.ordersInVehicle = .empty
  feasible : truck.isFeasable = true
  feasable : ∀ o, o ∈ truck.feasableOrders ↔
    o < orders.length ∧ truck.isOrderFeasable m (PDOrders.get orders o) = true

/-- The orders that `set_compatibles` finds feasible. -/
theorem mem_foldl_feasable {l : List Order} {c : Order → Bool} {ids : Identifiers Nat} {x : Nat} :
    x ∈ l.foldl (fun ids o => if c o then ids.add o.idx else ids) ids ↔
      x ∈ ids ∨ ∃ o ∈ l, c o = true ∧ o.idx = x := by
  induction l generalizing ids with
  | nil => simp
  | cons o l ih =>
    rw [List.foldl_cons, ih]
    by_cases hc : c o = true
    · rw [if_pos hc, Identifiers.mem_add, List.exists_mem_cons_iff]
      have hidx : x = o.idx ↔ c o = true ∧ o.idx = x :=
        ⟨fun h => ⟨hc, h.symm⟩, fun h => h.2.symm⟩
      rw [hidx]
      tauto
    · rw [if_neg hc, List.exists_mem_cons_iff]
      tauto

theorem IsNew.ready {nodes i : Nat} {truck : VehiclePickDeliver} (h : IsNew m nodes i truck)
    (hbuilt : orders.Built) (hnodes : 2 * orders.length ≤ nodes)
    (hstart : truck.startSite.isStart = true) (hend : truck.endSite.isEnd = true)
    (hfeasible : truck.isFeasable = true) :
    ReadyTruck m orders i (truck.setCompatibles m orders) := by
  obtain ⟨sites, hroute, hcarry, hidx, hnone⟩ := h.onRoute hbuilt hnodes hstart hend
  constructor
  · exact hidx
  · exact ⟨sites, hroute⟩
  · show truck.ordersInVehicle = .empty
    rw [hcarry, carry_ids]
  · exact hfeasible
  · intro o
    show o ∈ orders.foldl (fun ids o => if truck.isOrderFeasable m o then ids.add o.idx else ids)
      truck.feasableOrders ↔
        o < orders.length ∧ truck.isOrderFeasable m (PDOrders.get orders o) = true
    rw [mem_foldl_feasable, hnone]
    simp only [Identifiers.not_mem_empty, false_or]
    constructor
    · intro hmem
      obtain ⟨order, horder, hfeasible, hx⟩ := hmem
      obtain ⟨k, hk, rfl⟩ := List.mem_iff_getElem.mp horder
      have hget : PDOrders.get orders k = orders[k] := List.getD_eq_getElem _ _ hk
      have hko : k = o := by
        rw [← hx, ← hget, hbuilt.idx k hk]
      rw [← hko, hget]
      exact ⟨hk, hfeasible⟩
    · intro hmem
      refine ⟨PDOrders.get orders o, ?_, hmem.2, hbuilt.idx o hmem.1⟩
      unfold PDOrders.get
      rw [List.getD_eq_getElem _ _ hmem.1]
      exact List.getElem_mem hmem.1

/-- What an accepted problem is made of. -/
structure Accepted (m : Dmatrix) (p : PgrPickDeliver) : Prop where
  valid : p.orders.Valid
  ready : ∀ i < p.trucks.trucks.length,
    ReadyTruck m p.orders i (p.trucks.trucks.getD i default)
  ne_nil : p.trucks.trucks ≠ []
  used : p.trucks.used = .empty
  unUsed : p.trucks.unUsed = .ofSize p.trucks.trucks.length

theorem bind_eq_ok {α β : Type} {x : Except String α} {f : α → Except String β} {b : β}
    (h : x >>= f = .ok b) : ∃ a, x = .ok a ∧ f a = .ok b := by
  cases x with
  | error e => cases h
  | ok a => exact ⟨a, rfl, h⟩

/-- The trucks that `build_fleet` has built are new, and one of them is the phony truck. -/
theorem Fleet.buildFleet_new {first : VehicleT} {others : List VehicleT} {factor : ℚ} {nodes : Nat}
    {fleet : Fleet} (h : Fleet.buildFleet m factor nodes first others = .ok fleet) :
    (∀ i < fleet.trucks.length, IsNew m nodes i (fleet.trucks.getD i default)) ∧
      fleet.trucks ≠ [] ∧ fleet.used = .empty ∧ fleet.unUsed = .ofSize fleet.trucks.length := by
  unfold Fleet.buildFleet at h
  obtain ⟨trucks, hbuild, hfleet⟩ := bind_eq_ok h
  cases hfleet
  refine ⟨?_, ?_, rfl, rfl⟩
  · apply Fleet.buildLoop_new (Nat.le_refl _) _ hbuild
    intro i hi
    exact absurd hi (Nat.not_lt_zero i)
  · intro hnil
    change trucks = [] at hnil
    have hlength := Fleet.length_buildLoop hbuild
    rw [hnil, List.map_append, List.sum_append] at hlength
    simp [Fleet.phony] at hlength

/-- Everything the constructor has checked. -/
theorem new_accepted {first : VehicleT} {others : List VehicleT} {factor : ℚ} {p : PgrPickDeliver}
    (h : PgrPickDeliver.new m rows first others factor = .ok p) : Accepted m p := by
  unfold PgrPickDeliver.new at h
  obtain ⟨orders, horders, h⟩ := bind_eq_ok h
  obtain ⟨fleet, hfleet, h⟩ := bind_eq_ok h
  obtain ⟨_, hcheck, h⟩ := bind_eq_ok h
  have hbuilt : orders.Built := by
    apply PDOrders.buildOrders_built _ horders
    constructor <;> intro o ho <;> exact absurd ho (Nat.not_lt_zero o)
  obtain ⟨hnew, hne, hused, hunUsed⟩ := Fleet.buildFleet_new hfleet
  have hok := Fleet.isFleetOk_forall hcheck
  by_cases hall : (!orders.all fun o => Fleet.isOrderOk m fleet.trucks o) = true
  · rw [if_pos hall] at h
    cases h
  · rw [if_neg hall] at h
    cases h
    -- Some truck can serve each order alone, so each order can be delivered after its pickup.
    have hserved : ∀ o ∈ orders, Fleet.isOrderOk m fleet.trucks o = true := by
      simpa using hall
    have hlength : (fleet.setCompatibles m orders).trucks.length = fleet.trucks.length :=
      List.length_map _
    constructor
    · apply hbuilt.valid
      intro o ho
      have hmem : PDOrders.get orders o ∈ orders := by
        unfold PDOrders.get
        rw [List.getD_eq_getElem _ _ ho]
        exact List.getElem_mem ho
      have hone := hserved _ hmem
      unfold Fleet.isOrderOk at hone
      rw [List.any_eq_true] at hone
      obtain ⟨truck, _, hvalid⟩ := hone
      rw [Bool.and_eq_true] at hvalid
      exact ⟨truck.speed, hvalid.1⟩
    · intro i hi
      rw [hlength] at hi
      have hget : (fleet.setCompatibles m orders).trucks.getD i default =
          (fleet.trucks.getD i default).setCompatibles m orders := by
        unfold Fleet.setCompatibles
        rw [List.getD_eq_getElem _ _ (by simpa using hi), List.getElem_map,
          List.getD_eq_getElem _ _ hi]
      have htruck : fleet.trucks.getD i default ∈ fleet.trucks := by
        rw [List.getD_eq_getElem _ _ hi]
        exact List.getElem_mem hi
      obtain ⟨_, hstart, hend, hfeasible⟩ := hok _ htruck
      rw [hget]
      exact (hnew i hi).ready hbuilt (Nat.le_refl _) hstart hend hfeasible
    · intro hnil
      exact hne (List.map_eq_nil_iff.mp hnil)
    · exact hused
    · rw [hlength]
      exact hunUsed

end Vrp

end PgRouting
