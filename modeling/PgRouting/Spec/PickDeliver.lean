import PgRouting.Spec.Insertion

/-!
# Vehicles that carry orders

A vehicle of a solution drives from its starting site along the stops of its orders to its
ending site. The insertions and the removal of an order change the stops, and an insertion
that fails leaves the vehicle as it was.

## Key results

- `insert_carry`, `semiLIFO_carry`: an order is inserted at two places, or nothing has changed
- `erase_carry`: an order is taken out
- `isFeasable_carry`: when a vehicle on its route is feasible
-/

namespace PgRouting

namespace Vrp

variable {K : Type} [Numbers K]

namespace PDOrders

/-- The node of a stop. -/
def node (orders : PDOrders K) : Stop Nat → TwNode K
  | .pickup o => (get orders o).pickup.toTwNode
  | .delivery o => (get orders o).delivery.toTwNode

/-- The orders as they are built from the input: known by their position, picked up and
    delivered in the same amount, at nodes of their own. -/
structure Valid (orders : PDOrders K) : Prop where
  idx : ∀ o < orders.length, (get orders o).idx = o
  pickup : ∀ o < orders.length, (get orders o).pickup.isPickup = true
  delivery : ∀ o < orders.length, (get orders o).delivery.isDelivery = true
  demand : ∀ o < orders.length, (get orders o).delivery.demand = -(get orders o).pickup.demand
  node_idx : ∀ s t : Stop Nat, s.order < orders.length → t.order < orders.length →
    (orders.node s).idx = (orders.node t).idx → s = t

/-- The order is the one at the position `o`, whatever it is compatible with. -/
structure Describes (orders : PDOrders K) (order : Order K) (o : Nat) : Prop where
  idx : order.idx = o
  pickup : order.pickup.toTwNode = orders.node (.pickup o)
  delivery : order.delivery.toTwNode = orders.node (.delivery o)

end PDOrders

/-- The two sites of a vehicle, which are nodes of no order. -/
structure Sites (orders : PDOrders K) where
  start : TwNode K
  finish : TwNode K
  isStart : start.isStart = true
  isEnd : finish.isEnd = true
  start_idx : ∀ s : Stop Nat, s.order < orders.length → start.idx ≠ (orders.node s).idx
  finish_idx : ∀ s : Stop Nat, s.order < orders.length → finish.idx ≠ (orders.node s).idx

namespace PDOrders

variable {orders : PDOrders K} {stops : List (Stop Nat)} {s : Stop Nat}

/-- The nodes of a list of stops, and the ending site behind them. -/
def nodes (orders : PDOrders K) (sites : Sites orders) (stops : List (Stop Nat)) :
    List (TwNode K) :=
  stops.map orders.node ++ [sites.finish]

theorem Valid.node_type (h : orders.Valid) (hs : s.order < orders.length) :
    (orders.node s).type = if s.isPickup then .kPickup else .kDelivery := by
  cases s with
  | pickup o => exact (TwNode.isPickup_iff.mp (h.pickup o hs)).1
  | delivery o => exact (TwNode.isDelivery_iff.mp (h.delivery o hs)).1

theorem Valid.node_site (h : orders.Valid) (hs : s.order < orders.length) :
    (orders.node s).type = .kPickup ∨ (orders.node s).type = .kDelivery := by
  rw [h.node_type hs]
  cases s with
  | pickup o => exact .inl rfl
  | delivery o => exact .inr rfl

/-- Only a pickup is a pickup. -/
theorem Valid.node_isPickup (h : orders.Valid) (hs : s.order < orders.length) :
    (orders.node s).isPickup = s.isPickup := by
  cases s with
  | pickup o => exact h.pickup o hs
  | delivery o =>
    have htype := h.node_type hs
    unfold TwNode.isPickup
    rw [htype]
    rfl

theorem Valid.serviceTime_nonneg (h : orders.Valid) (hs : s.order < orders.length) :
    0 ≤ (orders.node s).serviceTime := by
  cases s with
  | pickup o => exact TwNode.serviceTime_of_legalTimes (TwNode.isPickup_iff.mp (h.pickup o hs)).2.1
  | delivery o =>
    exact TwNode.serviceTime_of_legalTimes (TwNode.isDelivery_iff.mp (h.delivery o hs)).2.1

theorem finish_type (sites : Sites orders) : sites.finish.type = .kEnd :=
  (TwNode.isEnd_iff.mp sites.isEnd).1

theorem finish_serviceTime (sites : Sites orders) : 0 ≤ sites.finish.serviceTime :=
  TwNode.serviceTime_of_legalTimes (TwNode.isEnd_iff.mp sites.isEnd).2.1

theorem start_type (sites : Sites orders) : sites.start.type = .kStart :=
  (TwNode.isStart_iff.mp sites.isStart).1

theorem Valid.no_dump (h : orders.Valid) (sites : Sites orders)
    (hknown : ∀ s ∈ stops, s.order < orders.length) :
    ∀ n ∈ orders.nodes sites stops, n.type ≠ .kDump := by
  intro n hn
  obtain hn | hn := List.mem_append.mp hn
  · obtain ⟨s, hs, rfl⟩ := List.mem_map.mp hn
    obtain htype | htype := h.node_site (hknown s hs) <;> simp [htype]
  · rw [List.mem_singleton.mp hn, finish_type sites]
    decide

/-- The nodes of a route are different. -/
theorem Valid.nodup_idx (h : orders.Valid) {sites : Sites orders} (hnodup : stops.Nodup)
    (hknown : ∀ s ∈ stops, s.order < orders.length) :
    ((orders.nodes sites stops).map TwNode.idx).Nodup := by
  unfold nodes
  rw [List.map_append, List.nodup_append]
  refine ⟨?_, List.nodup_singleton _, ?_⟩
  · rw [List.map_map]
    apply hnodup.map_on
    intro s hs t ht heq
    exact h.node_idx s t (hknown s hs) (hknown t ht) heq
  · intro a ha b hb heq
    obtain ⟨n, hn, rfl⟩ := List.mem_map.mp ha
    obtain ⟨s, hs, rfl⟩ := List.mem_map.mp hn
    rw [List.map_singleton, List.mem_singleton] at hb
    exact sites.finish_idx s (hknown s hs) (hb.symm.trans heq.symm)

end PDOrders

/-- Leaving out the node of a stop. -/
theorem PDOrders.Valid.filter_nodes {orders : PDOrders K} (h : orders.Valid) {sites : Sites orders}
    {stops : List (Stop Nat)} (hknown : ∀ s ∈ stops, s.order < orders.length) {s : Stop Nat}
    (hs : s.order < orders.length) :
    (orders.nodes sites stops).filter (fun n => n.idx ≠ (orders.node s).idx) =
      orders.nodes sites (stops.filter fun t => t ≠ s) := by
  unfold nodes
  rw [List.filter_append, List.filter_map, List.filter_cons_of_pos, List.filter_nil]
  · congr 2
    apply List.filter_congr
    intro t ht
    by_cases heq : t = s
    · simp [heq]
    · have hidx : (orders.node t).idx ≠ (orders.node s).idx := by
        intro hidx
        exact heq (h.node_idx t s (hknown t ht) hs hidx)
      simp [heq, hidx]
  · simpa using sites.finish_idx s hs

namespace VehiclePickDeliver

open PDOrders

variable (m : Dmatrix K) {orders : PDOrders K} (sites : Sites orders)

/-- The vehicle on its route along the stops, with the orders of the set. -/
def carry (v : VehiclePickDeliver K) (stops : List (Stop Nat)) (ids : Identifiers Nat) :
    VehiclePickDeliver K :=
  { v with
    toVehicle := v.toVehicle.drive m sites.start (orders.nodes sites stops)
    ordersInVehicle := ids }

variable {m sites} {v : VehiclePickDeliver K} {stops : List (Stop Nat)} {ids : Identifiers Nat}
  {order : Order K} {o p q : Nat}

@[simp] theorem carry_carry {stops' : List (Stop Nat)} {ids' : Identifiers Nat} :
    (v.carry m sites stops ids).carry m sites stops' ids' = v.carry m sites stops' ids' := rfl

@[simp] theorem carry_ids : (v.carry m sites stops ids).ordersInVehicle = ids := rfl

@[simp] theorem carry_orders : (v.carry m sites stops ids).orders = v.orders := rfl

@[simp] theorem carry_feasableOrders :
    (v.carry m sites stops ids).feasableOrders = v.feasableOrders := rfl

@[simp] theorem carry_speed : (v.carry m sites stops ids).speed = v.speed := rfl

@[simp] theorem carry_capacity : (v.carry m sites stops ids).capacity = v.capacity := rfl

@[simp] theorem carry_with {ids' : Identifiers Nat} :
    { v.carry m sites stops ids with ordersInVehicle := ids' } = v.carry m sites stops ids' := rfl

section

variable (hvalid : orders.Valid) (hknown : ∀ s ∈ stops, s.order < orders.length)
include hvalid hknown

variable (m sites v ids) in
theorem insertNode_carry {n : VehicleNode K} {s : Stop Nat} (hn : n.toTwNode = orders.node s)
    (hp : p ≤ stops.length) : (v.carry m sites stops ids).insertNode m (p + 1) n =
      v.carry m sites (stops.insertIdx p s) ids := by
  have hinsert := insertNode_onPath v ids (m := m) (p := p) sites.isStart
    (hvalid.no_dump sites hknown) n (by simpa using hp)
  rw [hn, ← List.map_insertIdx] at hinsert
  exact hinsert

variable (m sites v ids) in
theorem eraseNodeAt_carry (hp : p < stops.length) :
    (v.carry m sites stops ids).eraseNodeAt m (p + 1) =
      v.carry m sites (stops.eraseIdx p) ids := by
  have herase := eraseNodeAt_onPath v ids (m := m) (p := p) sites.isStart
    (hvalid.no_dump sites hknown) (by simpa using hp)
  rw [List.eraseIdx_map] at herase
  exact herase

end

variable (m sites v ids) in
theorem carry_path_nodes (hvalid : orders.Valid) (hknown : ∀ s ∈ stops, s.order < orders.length) :
    (v.carry m sites stops ids).path.map VehicleNode.toTwNode =
      sites.start :: orders.nodes sites stops :=
  Vehicle.drive_nodes (hvalid.no_dump sites hknown)

variable (m sites v stops ids) in
/-- A path with other nodes behind a position, evaluated from there. -/
theorem evaluate_carry {path : List (VehicleNode K)} {stops' : List (Stop Nat)} {k : Nat}
    (hpath : path.map VehicleNode.toTwNode = sites.start :: orders.nodes sites stops')
    (htakes : path.take (k + 1) = (v.carry m sites stops ids).path.take (k + 1))
    (hnodes : (orders.nodes sites stops').take k = (orders.nodes sites stops).take k) :
    ({ (v.carry m sites stops ids).toVehicle with path := path } : Vehicle K).evaluate m (k + 1) =
      v.toVehicle.drive m sites.start (orders.nodes sites stops') :=
  Vehicle.evaluate_path sites.isStart hpath htakes hnodes

variable (m sites v ids) in
/-- An order at the end of the route. -/
theorem pushBack_carry (hvalid : orders.Valid) (hknown : ∀ s ∈ stops, s.order < orders.length)
    (hd : orders.Describes order o) : (v.carry m sites stops ids).pushBack m order =
      v.carry m sites (stops ++ [.pickup o, .delivery o]) (ids.add o) := by
  have hlen : (v.carry m sites stops ids).path.length = stops.length + 2 := by
    have hlength := congrArg List.length
      (carry_path_nodes m sites v ids hvalid hknown)
    simpa [nodes] using hlength
  have hlen' : ((v.carry m sites stops ids).path.insertIdx (stops.length + 1) order.pickup).length =
      stops.length + 3 := by
    rw [List.length_insertIdx_of_le_length (by omega), hlen]
  -- The two nodes stand before the end node, in the order of the stops.
  have hpath : (((v.carry m sites stops ids).path.insertIdx (stops.length + 1)
      order.pickup).insertIdx (stops.length + 2) order.delivery).map VehicleNode.toTwNode =
        sites.start :: orders.nodes sites (stops ++ [.pickup o, .delivery o]) := by
    rw [List.map_insertIdx, List.map_insertIdx, carry_path_nodes m sites v ids hvalid hknown,
      hd.pickup, hd.delivery, List.insertIdx_succ_cons, List.insertIdx_succ_cons]
    have hback : ∀ (l : List (TwNode K)) (n : Nat) (x y : TwNode K), l.length = n →
        (l ++ [y]).insertIdx n x = l ++ [x] ++ [y] := by
      intro l n x y hl
      rw [← hl, insertIdx_append_of_le (Nat.le_refl _), List.insertIdx_length_self]
    unfold nodes
    rw [hback _ _ _ _ (by simp), hback _ _ _ _ (by simp), List.map_append]
    simp
  have hlength : ((((v.carry m sites stops ids).path.insertIdx (stops.length + 1)
      order.pickup).insertIdx (stops.length + 2) order.delivery).length - 3) =
        stops.length + 1 := by
    rw [List.length_insertIdx_of_le_length (by omega), hlen']
    rfl
  have hevaluate := evaluate_carry m _ v stops ids
    (k := stops.length) hpath
    (by rw [List.take_insertIdx_eq_take_of_le _ _ _ _ (by omega),
      List.take_insertIdx_eq_take_of_le _ _ _ _ (by omega)])
    (by
      unfold nodes
      rw [List.map_append, List.append_assoc, List.take_left' (by simp),
        List.take_left' (by simp)])
  unfold pushBack
  simp only
  rw [hlen, show stops.length + 2 - 1 = stops.length + 1 from rfl, hlen',
    show stops.length + 3 - 1 = stops.length + 2 from rfl, hlength, hevaluate, carry_ids, hd.idx]
  rfl

variable (m sites v ids) in
/-- An order at the beginning of the route. -/
theorem pushFront_carry (hvalid : orders.Valid) (hknown : ∀ s ∈ stops, s.order < orders.length)
    (hd : orders.Describes order o) : (v.carry m sites stops ids).pushFront m order =
      v.carry m sites (.pickup o :: .delivery o :: stops) (ids.add o) := by
  have hpath : (((v.carry m sites stops ids).path.insertIdx 1 order.delivery).insertIdx 1
      order.pickup).map VehicleNode.toTwNode =
        sites.start :: orders.nodes sites (.pickup o :: .delivery o :: stops) := by
    rw [List.map_insertIdx, List.map_insertIdx, carry_path_nodes m sites v ids hvalid hknown,
      hd.pickup, hd.delivery]
    rfl
  have hevaluate := evaluate_carry m _ v stops ids (k := 0) hpath
    rfl rfl
  unfold pushFront
  simp only
  rw [hevaluate, carry_ids, hd.idx]
  rfl

variable (m sites v ids) in
/-- Taking an order out of a vehicle. -/
theorem erase_carry (hvalid : orders.Valid) (hnodup : stops.Nodup)
    (hknown : ∀ s ∈ stops, s.order < orders.length) (hd : orders.Describes order o)
    (ho : o < orders.length) : (v.carry m sites stops ids).erase m order =
      v.carry m sites (stops.filter fun s => s.order ≠ o) (ids.remove o) := by
  have hkept : ∀ s ∈ stops.filter fun t => t ≠ .pickup o, s.order < orders.length :=
    fun s hs => hknown s (List.mem_filter.mp hs).1
  have hstart : ∀ s : Stop Nat, s.order = o → sites.start.idx ≠ (orders.node s).idx := by
    intro s hs
    apply sites.start_idx
    rw [hs]
    exact ho
  have hpickup : order.pickup.idx = (orders.node (.pickup o)).idx := by rw [hd.pickup]
  have hdelivery : order.delivery.idx = (orders.node (.delivery o)).idx := by rw [hd.delivery]
  have hboth : (stops.filter fun t => t ≠ .pickup o).filter (fun t => t ≠ .delivery o) =
      stops.filter fun s => s.order ≠ o := by
    rw [List.filter_filter]
    apply List.filter_congr
    intro s _
    obtain o' | o' := s <;> by_cases heq : o' = o <;> simp [heq]
  have hfirst := Vehicle.erase_drive (m := m) (v := v.toVehicle) (n := order.pickup)
    sites.isStart (hvalid.no_dump sites hknown) (hvalid.nodup_idx hnodup hknown)
    (by rw [hpickup]; exact hstart _ rfl)
  have hsecond := Vehicle.erase_drive (m := m) (v := v.toVehicle) (n := order.delivery)
    sites.isStart (hvalid.no_dump sites hkept)
    (hvalid.nodup_idx (hnodup.filter _) hkept) (by rw [hdelivery]; exact hstart _ rfl)
  rw [hpickup, hvalid.filter_nodes hknown (s := .pickup o) ho] at hfirst
  rw [hdelivery, hvalid.filter_nodes hkept (s := .delivery o) ho, hboth] at hsecond
  unfold erase carry
  simp only
  rw [hfirst, hsecond, hd.idx]

/-! ## The positions that are tried -/

/-- Behind the position where the drop loop stops there is no pickup. -/
theorem dropPosLowLoop_spec {w : Vehicle K} {nodeI : TwNode K} {n k : Nat} {j : VehicleNode K}
    (hlow : w.dropPosLowLoop m nodeI n ≤ k) (hk : k < n) (hj : w.path[k]? = some j) :
    j.isPickup = false := by
  induction n with
  | zero => exact absurd hk (Nat.not_lt_zero k)
  | succ n ih =>
    unfold Vehicle.dropPosLowLoop at hlow
    split at hlow
    · omega
    · rename_i last hlast
      split at hlow
      · rename_i hcompatible
        simp only [Bool.and_eq_true, Bool.not_eq_true'] at hcompatible
        obtain hlt | heq := Nat.lt_or_eq_of_le (Nat.le_of_lt_succ hk)
        · exact ih hlow hlt
        · rw [heq, hlast, Option.some.injEq] at hj
          rw [← hj]
          exact hcompatible.2
      · omega

variable (m sites v ids) in
theorem positionLimits_carry (node : TwNode K) (hvalid : orders.Valid)
    (hknown : ∀ s ∈ stops, s.order < orders.length) :
    0 < ((v.carry m sites stops ids).positionLimits m node).1 ∧
      ((v.carry m sites stops ids).positionLimits m node).2 ≤ stops.length + 1 := by
  have hlimits := limits_onPath v ids (m := m) sites.isStart (hvalid.no_dump sites hknown)
    (finish_type sites) node
  rw [List.length_map] at hlimits
  exact hlimits

variable (m sites v ids) in
/-- No pickup stands behind the lower limit for a drop. -/
theorem dropPosLowLimit_carry (node : TwNode K) (hvalid : orders.Valid)
    (hknown : ∀ s ∈ stops, s.order < orders.length) {k : Nat} {s : Stop Nat}
    (hs : stops[k]? = some s)
    (hlow : (v.carry m sites stops ids).getDropPosLowLimit m node ≤ k + 1) :
    s.isPickup = false := by
  have hpath := carry_path_nodes m sites v ids hvalid hknown
  have hget : ((v.carry m sites stops ids).path.map VehicleNode.toTwNode)[k + 1]? =
      some (orders.node s) := by
    rw [hpath, List.getElem?_cons_succ]
    unfold nodes
    rw [List.getElem?_append_left, List.getElem?_map, hs]
    · rfl
    · rw [List.length_map]
      exact (List.getElem?_eq_some_iff.mp hs).1
  rw [List.getElem?_map, Option.map_eq_some_iff] at hget
  obtain ⟨j, hj, hnode⟩ := hget
  have hlast := dropPosLowLoop_spec hlow (List.getElem?_eq_some_iff.mp hj).1 hj
  rw [hnode, hvalid.node_isPickup (hknown s (List.mem_of_getElem? hs))] at hlast
  exact hlast

variable (m sites v ids) in
theorem getPosHighLimit_carry (node : TwNode K) (hvalid : orders.Valid)
    (hknown : ∀ s ∈ stops, s.order < orders.length) :
    (v.carry m sites stops ids).getPosHighLimit m node ≤ stops.length + 1 :=
  (positionLimits_carry m sites v ids node hvalid hknown).2

/-! ## Insertions -/

/-- The stops with an order inserted, the pickup at `p` and the delivery at `q`. -/
def placed (stops : List (Stop Nat)) (o p q : Nat) : List (Stop Nat) :=
  (stops.insertIdx p (.pickup o)).insertIdx q (.delivery o)

theorem mem_placed {s : Stop Nat} (hs : s ∈ placed stops o p q) :
    s = .delivery o ∨ s = .pickup o ∨ s ∈ stops := by
  obtain hs | hs := List.eq_or_mem_of_mem_insertIdx hs
  · exact .inl hs
  · exact .inr (List.eq_or_mem_of_mem_insertIdx hs)

omit [Numbers K] in
theorem known_placed (hknown : ∀ s ∈ stops, s.order < orders.length) (ho : o < orders.length) :
    ∀ s ∈ placed stops o p q, s.order < orders.length := by
  intro s hs
  obtain rfl | rfl | hs := mem_placed hs
  · exact ho
  · exact ho
  · exact hknown s hs

omit [Numbers K] in
theorem known_pickup (hknown : ∀ s ∈ stops, s.order < orders.length) (ho : o < orders.length) :
    ∀ s ∈ stops.insertIdx p (.pickup o), s.order < orders.length := by
  intro s hs
  obtain rfl | hs := List.eq_or_mem_of_mem_insertIdx hs
  · exact ho
  · exact hknown s hs

/-- Leaving the order out again. -/
theorem filter_placed (hnew : ∀ s ∈ stops, s.order ≠ o) (hpq : p < q) (hq : q ≤ stops.length + 1) :
    (placed stops o p q).filter (fun s => s.order ≠ o) = stops := by
  obtain ⟨a, b, c, hl, _, _, hinsert⟩ :=
    exists_insertIdx_insertIdx (x := Stop.pickup o) (y := .delivery o) hpq hq
  have hkeep : ∀ l, l ⊆ stops → l.filter (fun s => s.order ≠ o) = l := by
    intro l hsub
    apply List.filter_eq_self.mpr
    intro s hs
    simpa using hnew s (hsub hs)
  have ha := hkeep a (by rw [hl]; simp)
  have hb := hkeep b (by rw [hl]; intro s hs; simp [hs])
  have hc := hkeep c (by rw [hl]; intro s hs; simp [hs])
  unfold placed
  rw [hinsert, hl, List.filter_append, List.filter_append,
    List.filter_cons_of_neg (by simp), List.filter_cons_of_neg (by simp), ha, hb, hc]

/-- A place for the order: behind the starting site, the delivery behind the pickup. -/
structure Place (m : Dmatrix K) (sites : Sites orders) (v : VehiclePickDeliver K)
    (stops : List (Stop Nat)) (o p q : Nat) : Prop where
  pickup_lt : p < q
  delivery_le : q ≤ stops.length + 1
  feasible : (v.toVehicle.drive m sites.start
    (orders.nodes sites (placed stops o p q))).isFeasable = true

section

variable (hvalid : orders.Valid) (hknown : ∀ s ∈ stops, s.order < orders.length)
  (ho : o < orders.length) (hd : orders.Describes order o)
include hvalid hknown ho hd

variable (m sites v ids) in
/-- `insert` places the order where the search has found a place, or it leaves the vehicle as it
    was. -/
theorem insert_carry (hids : o ∉ ids) :
    (v.carry m sites stops ids).insert m order = (false, v.carry m sites stops ids) ∨
      ∃ p q, v.Place m sites stops o p q ∧
        ((v.carry m sites stops ids).searchPlace m order).2.found = true ∧
        ((v.carry m sites stops ids).searchPlace m order).2.bestPickPos = p + 1 ∧
        ((v.carry m sites stops ids).searchPlace m order).2.bestDeliverPos = q + 1 ∧
        (v.carry m sites stops ids).insert m order =
          (true, v.carry m sites (placed stops o p q) (ids.add o)) := by
  have hpickup : order.pickup.type ≠ .kDump := by
    rw [hd.pickup]
    obtain h | h := hvalid.node_site (s := .pickup o) ho <;> simp [h]
  have hdelivery : order.delivery.type ≠ .kDump := by
    rw [hd.delivery]
    obtain h | h := hvalid.node_site (s := .delivery o) ho <;> simp [h]
  have hplaced : ∀ p q, withOrder (stops.map orders.node) order p q =
      (placed stops o p q).map orders.node := by
    intro p q
    rw [withOrder, hd.pickup, hd.delivery, ← List.map_insertIdx, ← List.map_insertIdx]
    rfl
  obtain ⟨hsame, _⟩ | ⟨p, q, hin, hq, hfit, ⟨hfound, hpick, hdeliver⟩, htrue, _⟩ :=
    insert_onPath v ids (m := m) sites.isStart sites.isEnd (hvalid.no_dump sites hknown) hpickup
      hdelivery (hd.idx ▸ hids)
  · exact .inl hsame
  · rw [List.length_map] at hq
    rw [hplaced, hd.idx] at htrue
    rw [Fitting, hplaced] at hfit
    exact .inr ⟨p, q, ⟨Nat.lt_of_succ_lt_succ hin.1, hq, hfit⟩, hfound, hpick, hdeliver, htrue⟩

variable (m sites v ids) in
/-- The loop tries the delivery from the last position down to the one at `b`. -/
theorem semiLIFOLoop_carry {b n : Nat} (hb : 0 < b)
    (hdrop : ∀ s ∈ (Stop.pickup o :: stops).drop b, s.isPickup = false)
    (hn : n + b ≤ q + 1) (hq : q ≤ stops.length + 1) :
    semiLIFOLoop m order n (q + 1) (v.carry m sites (.pickup o :: stops) ids) =
        (false, v.carry m sites stops ids) ∨
      ∃ r, 0 < r ∧ r ≤ stops.length + 1 ∧
        (v.carry m sites (placed stops o 0 r) ids).isFeasable = true ∧
        (∀ s ∈ (Stop.pickup o :: stops).drop r, s.isPickup = false) ∧
        semiLIFOLoop m order n (q + 1) (v.carry m sites (.pickup o :: stops) ids) =
          (true, v.carry m sites (placed stops o 0 r) (ids.add o)) := by
  have hknownP : ∀ s ∈ Stop.pickup o :: stops, s.order < orders.length :=
    known_pickup hknown ho (p := 0)
  induction n generalizing q with
  | zero =>
    left
    have herase := eraseNodeAt_carry m sites v ids (p := 0)
      hvalid hknownP (Nat.succ_pos _)
    unfold semiLIFOLoop
    rw [herase]
    rfl
  | succ n ih =>
    have hpos : 0 < q := by omega
    have hinsert := insertNode_carry m sites v ids (p := q)
      hvalid hknownP hd.delivery (by rw [List.length_cons]; exact hq)
    have herase := eraseNodeAt_carry m sites v ids (p := q)
      hvalid (known_placed hknown ho (p := 0) (q := q))
      (by
        unfold placed
        rw [List.insertIdx_zero, List.length_insertIdx_of_le_length hq, List.length_cons]
        omega)
    rw [show (placed stops o 0 q).eraseIdx q = .pickup o :: stops from
      List.eraseIdx_insertIdx_self _] at herase
    -- One position: the delivery stays when the route is feasible and no pickup follows it.
    have hstep : semiLIFOLoop m order (n + 1) (q + 1)
        (v.carry m sites (.pickup o :: stops) ids) =
        if (v.carry m sites (placed stops o 0 q) ids).isFeasable &&
            !((v.carry m sites (placed stops o 0 q) ids).path.getD (q + 1 + 1) default).isPickup
        then (true, v.carry m sites (placed stops o 0 q) (ids.add o))
        else semiLIFOLoop m order n q (v.carry m sites (.pickup o :: stops) ids) := by
      rw [semiLIFOLoop, hinsert, hd.idx]
      show (if ((v.carry m sites (placed stops o 0 q) ids).isFeasable && _) = true then _
        else semiLIFOLoop m order n q
          ((v.carry m sites (placed stops o 0 q) ids).eraseNodeAt m (q + 1))) = _
      rw [herase]
      rfl
    rw [hstep]
    split
    · rename_i hnow
      rw [Bool.and_eq_true] at hnow
      right
      refine ⟨q, hpos, hq, hnow.1, ?_, rfl⟩
      intro s hs
      exact hdrop s (List.drop_subset_drop_left _ (by omega) hs)
    · obtain ⟨q', rfl⟩ := Nat.exists_eq_succ_of_ne_zero hpos.ne'
      exact ih (by omega) (by omega)

variable (m sites v ids) in
/-- `semiLIFO` places the pickup first and the delivery behind every pickup, or it leaves the
    vehicle as it was, whatever its orders are. -/
theorem semiLIFO_carry :
    (v.carry m sites stops ids).semiLIFO m order = (false, v.carry m sites stops ids) ∨
      ∃ q, 0 < q ∧ q ≤ stops.length + 1 ∧
        (v.carry m sites (placed stops o 0 q) ids).isFeasable = true ∧
        (∀ s ∈ (Stop.pickup o :: stops).drop q, s.isPickup = false) ∧
        (v.carry m sites stops ids).semiLIFO m order =
          (true, v.carry m sites (placed stops o 0 q) (ids.add o)) := by
  have hknownP : ∀ s ∈ Stop.pickup o :: stops, s.order < orders.length :=
    known_pickup hknown ho (p := 0)
  have hinsert := insertNode_carry m sites v ids (p := 0)
    hvalid hknown hd.pickup (Nat.zero_le _)
  rw [List.insertIdx_zero] at hinsert
  have herase := eraseNodeAt_carry m sites v ids (p := 0)
    hvalid hknownP (Nat.succ_pos _)
  have hhigh := getPosHighLimit_carry m sites v ids order.delivery.toTwNode hvalid hknownP
  rw [List.length_cons] at hhigh
  have hlow := fun k s => dropPosLowLimit_carry m sites v ids order.delivery.toTwNode
    (k := k) (s := s) hvalid hknownP
  unfold semiLIFO
  simp only
  rw [hinsert]
  generalize hlimits : (v.carry m sites (.pickup o :: stops) ids).dropPositionLimits m
    order.delivery.toTwNode = limits
  have hfst : (v.carry m sites (.pickup o :: stops) ids).getDropPosLowLimit m
      order.delivery.toTwNode = limits.1 := by
    rw [← hlimits]
    rfl
  have hsnd : (v.carry m sites (.pickup o :: stops) ids).getPosHighLimit m
      order.delivery.toTwNode = limits.2 := by
    rw [← hlimits]
    rfl
  rw [hfst] at hlow
  rw [hsnd] at hhigh
  -- The new pickup itself stands before the lower limit.
  have htwo : 1 < limits.1 := by
    by_contra hle
    have hfirst := hlow 0 (.pickup o) rfl (by omega)
    exact Bool.false_ne_true hfirst.symm
  split
  · left
    rw [herase]
    rfl
  · rename_i hle
    obtain ⟨q, hq⟩ := Nat.exists_eq_succ_of_ne_zero (n := limits.2) (by omega)
    have hloop := semiLIFOLoop_carry m sites v ids hvalid hknown ho hd
      (q := q) (b := limits.1 - 1) (n := limits.2 + 1 - limits.1)
      (by omega)
      (by
        intro s hs
        obtain ⟨k, hk, rfl⟩ := List.mem_drop_iff_getElem.mp hs
        exact hlow (limits.1 - 1 + k) _ (List.getElem?_eq_getElem _) (by omega))
      (by omega) (by omega)
    rw [hq] at hloop ⊢
    exact hloop

end

/-! ## Vehicles of a solution -/

/-- The vehicle is on its route along the stops and has their orders. -/
structure OnRoute (m : Dmatrix K) (sites : Sites orders) (w : VehiclePickDeliver K)
    (stops : List (Stop Nat)) : Prop where
  table : ∀ o < orders.length, orders.Describes (PDOrders.get w.orders o) o
  route : IsRoute stops
  known : ∀ s ∈ stops, s.order < orders.length
  ids : ∀ o, o ∈ w.ordersInVehicle ↔ .pickup o ∈ stops
  path : w.toVehicle = w.toVehicle.drive m sites.start (orders.nodes sites stops)

namespace OnRoute

variable {w : VehiclePickDeliver K}

theorem eq_carry (h : w.OnRoute m sites stops) : w = w.carry m sites stops w.ordersInVehicle := by
  unfold carry
  rw [← h.path]

theorem not_mem_stops (h : w.OnRoute m sites stops) (ho : o ∉ w.ordersInVehicle) :
    ∀ s ∈ stops, s.order ≠ o := by
  intro s hs heq
  apply ho
  rw [h.ids]
  rw [← heq]
  cases s with
  | pickup o' => exact hs
  | delivery o' => exact h.route.delivery_mem_iff.mp hs

/-- The vehicle after an order has been placed. -/
theorem placed (h : w.OnRoute m sites stops) (ho : o < orders.length) (hnew : o ∉ w.ordersInVehicle)
    (hpq : p < q) (hq : q ≤ stops.length + 1) :
    (w.carry m sites (placed stops o p q) (w.ordersInVehicle.add o)).OnRoute m sites
      (VehiclePickDeliver.placed stops o p q) := by
  constructor
  · exact h.table
  · exact h.route.insertIdx (h.not_mem_stops hnew) hpq hq
  · exact known_placed h.known ho
  · intro x
    have hp : p ≤ stops.length := by omega
    rw [carry_ids, Identifiers.mem_add, h.ids]
    unfold VehiclePickDeliver.placed
    rw [List.mem_insertIdx (by rw [List.length_insertIdx_of_le_length hp]; exact hq),
      List.mem_insertIdx hp]
    simp
  · rfl

/-- The vehicle after an order has been taken out. -/
theorem without (h : w.OnRoute m sites stops) :
    (w.carry m sites (stops.filter fun s => s.order ≠ o) (w.ordersInVehicle.remove o)).OnRoute m
      sites (stops.filter fun s => s.order ≠ o) := by
  constructor
  · exact h.table
  · exact h.route.without
  · intro s hs
    exact h.known s (List.mem_filter.mp hs).1
  · intro x
    rw [carry_ids, Identifiers.mem_remove, h.ids, List.mem_filter, decide_eq_true_iff]
    exact Iff.rfl
  · rfl

/-- A vehicle on its route visits the nodes of its stops. -/
theorem visits (h : w.OnRoute m sites stops) (hvalid : orders.Valid) :
    Visits m w sites.start sites.finish (stops.map orders.node) := by
  have hdump := hvalid.no_dump sites h.known
  refine ⟨?_, ?_, sites.isStart, sites.isEnd, fun n hn => ?_⟩
  · rw [h.path]
    exact Vehicle.evaluate_drive sites.isStart hdump
  · rw [h.path]
    exact Vehicle.drive_nodes hdump
  · obtain ⟨s, hs, rfl⟩ := List.mem_map.mp hn
    cases s with
    | pickup o => exact .inl (hvalid.pickup o (h.known _ hs))
    | delivery o => exact .inr (hvalid.delivery o (h.known _ hs))

section

variable (h : w.OnRoute m sites stops) (hvalid : orders.Valid) (ho : o < orders.length)
  (hd : orders.Describes order o)
include h hvalid ho hd

theorem insert_eq (hnew : o ∉ w.ordersInVehicle) : w.insert m order = (false, w) ∨
    ∃ p q, w.Place m sites stops o p q ∧ (w.searchPlace m order).2.found = true ∧
      (w.searchPlace m order).2.bestPickPos = p + 1 ∧
      (w.searchPlace m order).2.bestDeliverPos = q + 1 ∧ w.insert m order =
      (true, w.carry m sites (VehiclePickDeliver.placed stops o p q)
        (w.ordersInVehicle.add o)) := by
  have hinsert := insert_carry m sites w w.ordersInVehicle hvalid h.known ho hd hnew
  rw [← h.eq_carry] at hinsert
  exact hinsert

/-- A `semiLIFO` that fails leaves the vehicle as it was. -/
theorem semiLIFO_false (hfails : (w.semiLIFO m order).1 = false) :
    (w.semiLIFO m order).2 = w := by
  have hlifo := semiLIFO_carry m sites w w.ordersInVehicle hvalid h.known ho hd
  rw [← h.eq_carry] at hlifo
  obtain hsame | ⟨q, _, _, _, _, htaken⟩ := hlifo
  · rw [hsame]
  · rw [htaken] at hfails
    exact absurd hfails.symm Bool.false_ne_true

theorem semiLIFO_eq : w.semiLIFO m order = (false, w) ∨
    ∃ q, w.Place m sites stops o 0 q ∧ (∀ s ∈ stops.drop (q - 1), s.isPickup = false) ∧
      w.semiLIFO m order =
        (true, w.carry m sites (VehiclePickDeliver.placed stops o 0 q)
          (w.ordersInVehicle.add o)) := by
  have hlifo := semiLIFO_carry m sites w w.ordersInVehicle hvalid h.known ho hd
  rw [← h.eq_carry] at hlifo
  obtain hsame | ⟨q, hpos, hq, hfeasible, hlast, htaken⟩ := hlifo
  · exact .inl hsame
  · obtain ⟨k, rfl⟩ := Nat.exists_eq_succ_of_ne_zero hpos.ne'
    exact .inr ⟨_, ⟨hpos, hq, hfeasible⟩, hlast, htaken⟩

theorem erase_eq : w.erase m order = w.carry m sites (stops.filter fun s => s.order ≠ o)
    (w.ordersInVehicle.remove o) := by
  have herase := erase_carry m sites w w.ordersInVehicle
    hvalid h.route.nodup h.known hd ho
  rw [← h.eq_carry] at herase
  exact herase

end

end OnRoute

end VehiclePickDeliver

/-! ## Exact loads and times -/

namespace PDOrders

variable {orders : PDOrders} {stops : List (Stop Nat)} {s : Stop Nat}

/-- What the pickup of an order loads. -/
def amount (orders : PDOrders) (o : Nat) : ℚ := (get orders o).pickup.demand

theorem Valid.amount_nonneg (h : orders.Valid) (hs : s.order < orders.length) :
    0 ≤ orders.amount s.order :=
  (TwNode.isPickup_iff.mp (h.pickup s.order hs)).2.2.le

theorem Valid.node_demand (h : orders.Valid) (hs : s.order < orders.length) :
    (orders.node s).demand = s.load orders.amount := by
  cases s with
  | pickup o => rfl
  | delivery o => exact h.demand o hs

theorem Valid.nodes_demand (h : orders.Valid) (hknown : ∀ s ∈ stops, s.order < orders.length) :
    (stops.map orders.node).map TwNode.demand = stops.map (Stop.load orders.amount) := by
  rw [List.map_map]
  apply List.map_congr_left
  intro s hs
  exact h.node_demand (hknown s hs)

end PDOrders

namespace VehiclePickDeliver

open PDOrders

variable {m : Dmatrix} {orders : PDOrders} {sites : Sites orders} {v : VehiclePickDeliver}
  {stops : List (Stop Nat)} {ids : Identifiers Nat} {o : Nat}

/-- The vehicle can drive along the stops. -/
def Feasible (m : Dmatrix) (sites : Sites orders) (v : VehiclePickDeliver)
    (stops : List (Stop Nat)) : Prop :=
  OnTime (TwNode.windows m v.speed) (sites.start.opens + sites.start.serviceTime) sites.start
    (orders.nodes sites stops) ∧ Fits v.capacity (Stop.load orders.amount) 0 stops

variable (m sites v ids) in
theorem isFeasable_carry (hvalid : orders.Valid) (hroute : IsRoute stops)
    (hknown : ∀ s ∈ stops, s.order < orders.length) :
    (v.carry m sites stops ids).isFeasable = true ↔ v.Feasible m sites stops := by
  have hnodes : ∀ n ∈ stops.map orders.node, n.type = .kPickup ∨ n.type = .kDelivery := by
    intro n hn
    obtain ⟨s, hs, rfl⟩ := List.mem_map.mp hn
    exact hvalid.node_site (hknown s hs)
  have hloads := hvalid.nodes_demand hknown
  show (v.toVehicle.drive m sites.start (orders.nodes sites stops)).isFeasable = true ↔ _
  unfold nodes
  rw [Vehicle.isFeasable_drive sites.isStart sites.isEnd hnodes, hloads, hroute.sum_eq_zero,
    fits_congr hloads]
  exact and_congr_right fun _ => and_iff_left rfl

/-- Under the triangle inequality a vehicle stays feasible when an order is taken out. -/
theorem Feasible.without (hvalid : orders.Valid) (hroute : IsRoute stops)
    (hknown : ∀ s ∈ stops, s.order < orders.length) (htri : TriangleInequality m v.speed)
    (h : v.Feasible m sites stops) :
    v.Feasible m sites (stops.filter fun s => s.order ≠ o) := by
  constructor
  · apply OnTime.sublist _ _ _ h.1
    · intro a b c
      exact htri a.id b.id c.id
    · unfold nodes
      exact (List.filter_sublist.map _).append (List.Sublist.refl _)
    · intro n hn
      show 0 ≤ n.serviceTime
      obtain hn | hn := List.mem_append.mp hn
      · obtain ⟨s, hs, rfl⟩ := List.mem_map.mp hn
        exact hvalid.serviceTime_nonneg (hknown s hs)
      · rw [List.mem_singleton.mp hn]
        exact finish_serviceTime sites
  · exact hroute.fits_without (fun s hs => hvalid.amount_nonneg (hknown s hs)) h.2

theorem OnRoute.isFeasable_iff {w : VehiclePickDeliver} (h : w.OnRoute m sites stops)
    (hvalid : orders.Valid) : w.isFeasable = true ↔ w.Feasible m sites stops := by
  have hcarry := isFeasable_carry m sites w w.ordersInVehicle hvalid h.route h.known
  rw [← h.eq_carry] at hcarry
  exact hcarry

end VehiclePickDeliver

end Vrp

end PgRouting
