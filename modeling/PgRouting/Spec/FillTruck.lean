import PgRouting.Spec.PickDeliverProblem
import PgRouting.Spec.Solutions

/-!
# Filling a truck

`do_while_feasable` tries the orders that the truck can serve alone and that have not been
assigned. Every insertion either leaves the truck as it was, or is undone because the truck
would not be feasible, or assigns the order.

## Key results

- `place_cases`: what the insertion of a kind does to a truck on its route
- `fillLoop_ok`: the orders that leave the unassigned ones are those of the truck
- `fillLoop_stuck`: nothing is assigned iff the truck refuses every order it is tried with
-/

namespace PgRouting

namespace Vrp

namespace PDOrders

variable {orders : PDOrders} {subset : Order → Identifiers Nat → Identifiers Nat}
  {ids : Identifiers Nat} {front : Nat}

/-- The best order of a set is one of the set. -/
theorem findBest_mem (hfront : ids.front? = some front) : findBest orders subset ids ∈ ids := by
  unfold findBest
  apply List.foldlRecOn (motive := fun best : Nat × Nat => best.1 ∈ ids)
  · rw [hfront]
    exact Identifiers.front?_mem hfront
  · intro best hbest o ho
    simp only
    split
    · exact ho
    · exact hbest

end PDOrders

namespace VehiclePickDeliver

variable {m : Dmatrix} {kind : InitialsCode} {orders : PDOrders} {sites : Sites orders}
  {v w : VehiclePickDeliver} {stops : List (Stop Nat)} {order : Order} {o front : Nat}
  {current : Identifiers Nat}

variable (m kind v) in
/-- The vehicle after the insertion that the kind asks for. -/
def place (order : Order) : VehiclePickDeliver :=
  match kind with
  | .oneTruck => v
  | .onePerTruck | .backTruck => v.pushBack m order
  | .frontTruck => v.pushFront m order
  | .bestInsert | .bestBack | .bestFront => (v.insert m order).2
  | .oneDepot => (v.semiLIFO m order).2

variable (m kind v) in
/-- The loop takes an order of the current set. -/
theorem fillOrder_eq (hfront : current.front? = some front) : ∃ o ∈ current,
    v.fillOrder m kind current front =
      (PDOrders.get v.orders o, v.place m kind (PDOrders.get v.orders o)) := by
  have hmem := Identifiers.front?_mem hfront
  cases kind with
  | oneTruck => exact ⟨front, hmem, rfl⟩
  | onePerTruck => exact ⟨front, hmem, rfl⟩
  | frontTruck => exact ⟨front, hmem, rfl⟩
  | backTruck => exact ⟨front, hmem, rfl⟩
  | bestInsert => exact ⟨front, hmem, rfl⟩
  | bestBack => exact ⟨_, PDOrders.findBest_mem hfront, rfl⟩
  | bestFront => exact ⟨_, PDOrders.findBest_mem hfront, rfl⟩
  | oneDepot => exact ⟨front, hmem, rfl⟩

/-- An order that has been placed can be taken out again. -/
theorem erase_placed {p q : Nat} (hvalid : orders.Valid) (h : w.OnRoute m sites stops)
    (ho : o < orders.length) (hd : orders.Describes order o) (hnew : o ∉ w.ordersInVehicle)
    (hpq : p < q) (hq : q ≤ stops.length + 1) :
    (w.carry m sites (placed stops o p q) (w.ordersInVehicle.add o)).erase m order = w := by
  have hids : (w.ordersInVehicle.add o).remove o = w.ordersInVehicle := by
    apply Identifiers.ext_mem
    intro x
    rw [Identifiers.mem_remove, Identifiers.mem_add]
    constructor
    · intro hx
      exact hx.1.resolve_left hx.2
    · intro hx
      exact ⟨.inr hx, fun heq => hnew (heq ▸ hx)⟩
  rw [(h.placed ho hnew hpq hq).erase_eq hvalid ho hd, carry_ids, hids, carry_carry,
    filter_placed (h.not_mem_stops hnew) hpq hq, ← h.eq_carry]

/-- What an insertion that has found a place makes of the vehicle `w`. -/
structure Inserted (m : Dmatrix) (kind : InitialsCode) (sites : Sites orders) (order : Order)
    (o : Nat) (stops : List (Stop Nat)) (w w' : VehiclePickDeliver) (stops' : List (Stop Nat)) :
    Prop where
  onRoute : w'.OnRoute m sites stops'
  ids : w'.ordersInVehicle = w.ordersInVehicle.add o
  idx : w'.idx = w.idx
  erase : w'.erase m order = w
  pickupsFirst : kind = .oneDepot → PickupsFirst stops → PickupsFirst stops'

variable (kind) in
/-- The insertion of a kind: nothing changes, or the order is on the route and can be taken out
    again. -/
theorem place_cases (hvalid : orders.Valid) (h : w.OnRoute m sites stops) (ho : o < orders.length)
    (hd : orders.Describes order o) (hnew : o ∉ w.ordersInVehicle) :
    w.place m kind order = w ∨
      ∃ stops', Inserted m kind sites order o stops w (w.place m kind order) stops' := by
  -- Every kind puts the pickup at some position and the delivery behind it.
  have hplaced : ∀ {p q : Nat}, p < q → q ≤ stops.length + 1 →
      w.place m kind order = w.carry m sites (placed stops o p q) (w.ordersInVehicle.add o) →
      (kind = .oneDepot → PickupsFirst stops → PickupsFirst (placed stops o p q)) →
      ∃ stops', Inserted m kind sites order o stops w (w.place m kind order) stops' := by
    intro p q hpq hq hplace hshape
    rw [hplace]
    exact ⟨_, h.placed ho hnew hpq hq, rfl, rfl, erase_placed hvalid h ho hd hnew hpq hq, hshape⟩
  have hback : w.pushBack m order = w.carry m sites
      (placed stops o stops.length (stops.length + 1)) (w.ordersInVehicle.add o) := by
    have hpush := pushBack_carry m sites w w.ordersInVehicle hvalid h.known hd
    have hlen : (stops ++ [Stop.pickup o]).length = stops.length + 1 := by simp
    rw [← h.eq_carry] at hpush
    rw [hpush]
    unfold placed
    rw [List.insertIdx_length_self, ← hlen, List.insertIdx_length_self, List.append_assoc]
    rfl
  have hfront : w.pushFront m order = w.carry m sites (placed stops o 0 1)
      (w.ordersInVehicle.add o) := by
    have hpush := pushFront_carry m sites w w.ordersInVehicle hvalid h.known hd
    rw [← h.eq_carry] at hpush
    exact hpush
  -- `insert` finds the best pair of positions or leaves the truck as it was.
  have hbest : kind ≠ .oneDepot → w.place m kind order = (w.insert m order).2 →
      w.place m kind order = w ∨
        ∃ stops', Inserted m kind sites order o stops w (w.place m kind order) stops' := by
    intro hkind hplace
    obtain hsame | ⟨p, q, hfound, _, _, _, htaken⟩ := h.insert_eq hvalid ho hd hnew
    · left
      rw [hplace, hsame]
    · right
      rw [htaken] at hplace
      exact hplaced hfound.pickup_lt hfound.delivery_le hplace fun heq => absurd heq hkind
  cases kind with
  | oneTruck => exact .inl rfl
  | onePerTruck =>
    exact .inr (hplaced (Nat.lt_succ_self _) (Nat.le_refl _) hback fun heq => by cases heq)
  | backTruck =>
    exact .inr (hplaced (Nat.lt_succ_self _) (Nat.le_refl _) hback fun heq => by cases heq)
  | frontTruck =>
    exact .inr (hplaced Nat.zero_lt_one (Nat.succ_le_succ (Nat.zero_le _)) hfront
      fun heq => by cases heq)
  | bestInsert => exact hbest (by decide) rfl
  | bestBack => exact hbest (by decide) rfl
  | bestFront => exact hbest (by decide) rfl
  | oneDepot =>
    obtain hsame | ⟨q, hplace, hlast, htaken⟩ := h.semiLIFO_eq hvalid ho hd
    · left
      show (w.semiLIFO m order).2 = w
      rw [hsame]
    · right
      apply hplaced hplace.pickup_lt hplace.delivery_le
      · show (w.semiLIFO m order).2 = _
        rw [htaken]
      · intro _ hshape
        apply (hshape.insertIdx_iff hplace.pickup_lt hplace.delivery_le).mpr
        rw [List.take_zero]
        exact ⟨fun s hs => absurd hs List.not_mem_nil, hlast⟩

/-- The truck does not take the order: it would not be feasible, or no place was found. -/
def Refuses (m : Dmatrix) (kind : InitialsCode) (w : VehiclePickDeliver) (o : Nat) : Prop :=
  (w.place m kind (PDOrders.get w.orders o)).isFeasable = false ∨
    (w.place m kind (PDOrders.get w.orders o)).hasOrder (PDOrders.get w.orders o) = false

/-- A truck on its route that is feasible, and whose stops have a shape. -/
structure Filled (m : Dmatrix) (orders : PDOrders) (shape : List (Stop Nat) → Prop) (i : Nat)
    (w : VehiclePickDeliver) : Prop where
  feasible : w.isFeasable = true
  idx : w.idx = i
  onRoute : ∃ (sites : Sites orders) (stops : List (Stop Nat)),
    w.OnRoute m sites stops ∧ shape stops

/-- A shape that every insertion of the kind keeps. -/
def KeepsShape (m : Dmatrix) (kind : InitialsCode) (orders : PDOrders)
    (shape : List (Stop Nat) → Prop) : Prop :=
  ∀ {sites : Sites orders} {order o stops w w' stops'},
    Inserted m kind sites order o stops w w' stops' → shape stops → shape stops'

variable {shape : List (Stop Nat) → Prop} {i : Nat}

theorem Filled.describes (h : Filled m orders shape i w) (ho : o < orders.length) :
    orders.Describes (PDOrders.get w.orders o) o := by
  obtain ⟨_, _, hroute, _⟩ := h.onRoute
  exact hroute.table o ho

/-- A truck that refuses an order ends up as it was. -/
theorem Refuses.eq (hvalid : orders.Valid) (h : Filled m orders shape i w) (ho : o < orders.length)
    (hnew : o ∉ w.ordersInVehicle) (hrefuses : Refuses m kind w o) :
    (if !(w.place m kind (PDOrders.get w.orders o)).isFeasable then
      (w.place m kind (PDOrders.get w.orders o)).erase m (PDOrders.get w.orders o)
    else w.place m kind (PDOrders.get w.orders o)) = w := by
  have hd := h.describes ho
  obtain ⟨sites, stops, hroute, _⟩ := h.onRoute
  obtain hsame | ⟨stops', hinserted⟩ := place_cases kind hvalid hroute ho hd hnew
  · rw [hsame, h.feasible]
    rfl
  · have hhas : (w.place m kind (PDOrders.get w.orders o)).hasOrder
        (PDOrders.get w.orders o) = true := by
      rw [hasOrder_iff hd, hinserted.ids, Identifiers.mem_add]
      exact .inl rfl
    have hinfeasible : (w.place m kind (PDOrders.get w.orders o)).isFeasable = false := by
      obtain hinfeasible | hnot := hrefuses
      · exact hinfeasible
      · rw [hhas] at hnot
        exact absurd hnot.symm Bool.false_ne_true
    rw [hinfeasible]
    exact hinserted.erase

/-- A truck that takes an order is filled with it. -/
theorem Filled.take (hvalid : orders.Valid) (hshape : KeepsShape m kind orders shape)
    (h : Filled m orders shape i w) (ho : o < orders.length) (hnew : o ∉ w.ordersInVehicle)
    (htakes : ¬ Refuses m kind w o) :
    Filled m orders shape i (w.place m kind (PDOrders.get w.orders o)) ∧
      (w.place m kind (PDOrders.get w.orders o)).ordersInVehicle = w.ordersInVehicle.add o := by
  have hd := h.describes ho
  unfold Refuses at htakes
  rw [not_or, Bool.not_eq_false, Bool.not_eq_false, hasOrder_iff hd] at htakes
  obtain ⟨sites, stops, hroute, hstops⟩ := h.onRoute
  obtain hsame | ⟨stops', hinserted⟩ := place_cases kind hvalid hroute ho hd hnew
  · rw [hsame] at htakes
    exact absurd htakes.2 hnew
  · refine ⟨⟨htakes.1, ?_, sites, stops', hinserted.onRoute, hshape hinserted hstops⟩,
      hinserted.ids⟩
    rw [hinserted.idx]
    exact h.idx

/-- One round of `do_while_feasable` for the kinds that go on. -/
theorem fillLoop_succ {n : Nat} {s : FillState} (hkind : kind ≠ .onePerTruck)
    (hfront : s.currentFeasable.front? = some front)
    (hidx : ∀ o ∈ s.currentFeasable, (PDOrders.get s.vehicle.orders o).idx = o) :
    ∃ o ∈ s.currentFeasable, ∃ s', fillLoop m kind (n + 1) s = fillLoop m kind n s' ∧
      (∀ x ∈ s'.currentFeasable, x ∈ s.currentFeasable ∧ x ≠ o) ∧
      (Refuses m kind s.vehicle o ∧ s'.unassigned = s.unassigned ∧
          s'.currentFeasable = s.currentFeasable.remove o ∧
          s'.vehicle = (if !(s.vehicle.place m kind (PDOrders.get s.vehicle.orders o)).isFeasable
            then (s.vehicle.place m kind (PDOrders.get s.vehicle.orders o)).erase m
              (PDOrders.get s.vehicle.orders o)
            else s.vehicle.place m kind (PDOrders.get s.vehicle.orders o)) ∨
        ¬ Refuses m kind s.vehicle o ∧ s'.unassigned = s.unassigned.remove o ∧
          s'.vehicle = s.vehicle.place m kind (PDOrders.get s.vehicle.orders o)) := by
  obtain ⟨o, ho, hfill⟩ := fillOrder_eq m kind s.vehicle hfront
  have hoidx := hidx o ho
  refine ⟨o, ho, ?_⟩
  unfold Refuses
  generalize PDOrders.get s.vehicle.orders o = order at hfill hoidx ⊢
  generalize s.vehicle.place m kind order = w at hfill ⊢
  -- Infeasible: the order is taken out again. Feasible: it is counted if it is on the truck.
  by_cases hfeasible : w.isFeasable = true
  · by_cases hhas : w.hasOrder order = true
    · refine ⟨{ vehicle := w, assigned := s.assigned.add order.idx,
                unassigned := s.unassigned.remove order.idx,
                currentFeasable := (if kind = .bestBack then
                  (PDOrders.get w.orders order.idx).subsetJ s.currentFeasable
                else if kind = .bestFront then
                  (PDOrders.get w.orders order.idx).subsetI s.currentFeasable
                else s.currentFeasable).remove order.idx }, ?_, ?_, ?_⟩
      · rw [fillLoop, hfront]
        simp only [hfill, hfeasible, hhas]
        rw [if_neg hkind]
        rfl
      · intro x hx
        rw [Identifiers.mem_remove, hoidx] at hx
        refine ⟨?_, hx.2⟩
        have hx := hx.1
        split at hx
        · exact (Identifiers.mem_inter.mp hx).2
        · split at hx
          · exact (Identifiers.mem_inter.mp hx).2
          · exact hx
      · right
        simp [hfeasible, hhas, hoidx]
    · refine ⟨{ s with vehicle := w, currentFeasable := s.currentFeasable.remove order.idx },
        ?_, ?_, ?_⟩
      · rw [fillLoop, hfront]
        simp only [hfill, hfeasible, hhas]
        rw [if_neg hkind]
        rfl
      · intro x hx
        rwa [Identifiers.mem_remove, hoidx] at hx
      · left
        simp [hfeasible, hhas, hoidx]
  · refine ⟨{ s with vehicle := w.erase m order,
                     currentFeasable := s.currentFeasable.remove order.idx }, ?_, ?_, ?_⟩
    · rw [fillLoop, hfront]
      simp only [hfill, hfeasible]
      rw [if_neg hkind]
      rfl
    · intro x hx
      rwa [Identifiers.mem_remove, hoidx] at hx
    · left
      simp [hfeasible, hoidx]

/-- The orders that are not unassigned any more are in the truck. -/
structure FillEnd (m : Dmatrix) (orders : PDOrders) (shape : List (Stop Nat) → Prop) (i : Nat)
    (unassigned : Identifiers Nat) (s : FillState) : Prop where
  filled : Filled m orders shape i s.vehicle
  once : ∀ o ∈ s.unassigned, o ∉ s.vehicle.ordersInVehicle
  all : ∀ o, o ∈ unassigned ↔ o ∈ s.unassigned ∨ o ∈ s.vehicle.ordersInVehicle

/-- What holds between two rounds of `do_while_feasable`. -/
structure FillOk (m : Dmatrix) (orders : PDOrders) (shape : List (Stop Nat) → Prop) (i : Nat)
    (unassigned : Identifiers Nat) (s : FillState) : Prop
    extends FillEnd m orders shape i unassigned s where
  current : ∀ o ∈ s.currentFeasable, o ∈ s.unassigned

variable {unassigned : Identifiers Nat}

theorem FillOk.lt {s : FillState} (h : FillOk m orders shape i unassigned s)
    (hlt : ∀ o ∈ unassigned, o < orders.length) : ∀ o ∈ s.currentFeasable, o < orders.length :=
  fun o ho => hlt o ((h.all o).mpr (.inl (h.current o ho)))

/-- An order goes from the unassigned ones to the truck. -/
theorem FillEnd.take {s : FillState} (s' : FillState) (h : FillEnd m orders shape i unassigned s)
    (ho : o ∈ s.unassigned)
    (hids : s'.vehicle.ordersInVehicle = s.vehicle.ordersInVehicle.add o)
    (hunassigned : s'.unassigned = s.unassigned.remove o) :
    (∀ x ∈ s'.unassigned, x ∉ s'.vehicle.ordersInVehicle) ∧
      ∀ x, x ∈ unassigned ↔ x ∈ s'.unassigned ∨ x ∈ s'.vehicle.ordersInVehicle := by
  constructor
  · intro x hx
    rw [hunassigned, Identifiers.mem_remove] at hx
    rw [hids, Identifiers.mem_add, not_or]
    exact ⟨hx.2, h.once x hx.1⟩
  · intro x
    rw [h.all x, hunassigned, hids, Identifiers.mem_remove, Identifiers.mem_add]
    by_cases hx : x = o
    · rw [hx]
      exact iff_of_true (.inl ho) (.inr (.inl rfl))
    · simp [hx]

/-- What one round keeps, and what it assigns. -/
theorem FillOk.round {n : Nat} {s : FillState} (hvalid : orders.Valid)
    (hkind : kind ≠ .onePerTruck) (hshape : KeepsShape m kind orders shape)
    (hlt : ∀ o ∈ unassigned, o < orders.length) (h : FillOk m orders shape i unassigned s)
    (hfront : s.currentFeasable.front? = some front) :
    ∃ o ∈ s.currentFeasable, ∃ s', fillLoop m kind (n + 1) s = fillLoop m kind n s' ∧
      FillOk m orders shape i unassigned s' ∧
      (Refuses m kind s.vehicle o ∧ s'.vehicle = s.vehicle ∧ s'.unassigned = s.unassigned ∧
          s'.currentFeasable = s.currentFeasable.remove o ∨
        ¬ Refuses m kind s.vehicle o ∧ s'.unassigned = s.unassigned.remove o) := by
  obtain ⟨o, ho, s', hstep, hcurrent, hcases⟩ := fillLoop_succ (m := m) (n := n) hkind hfront
    fun o ho => (h.filled.describes (h.lt hlt o ho)).idx
  have hnew := h.once o (h.current o ho)
  have hlo := h.lt hlt o ho
  refine ⟨o, ho, s', hstep, ?_⟩
  obtain ⟨hrefuses, hunassigned, hless, hvehicle⟩ | ⟨htakes, hunassigned, hvehicle⟩ := hcases
  · -- A refused order leaves the vehicle as it was, whatever has been tried.
    rw [hrefuses.eq hvalid h.filled hlo hnew] at hvehicle
    refine ⟨?_, .inl ⟨hrefuses, hvehicle, hunassigned, hless⟩⟩
    refine ⟨⟨?_, ?_, ?_⟩, ?_⟩
    · rw [hvehicle]
      exact h.filled
    · rw [hunassigned, hvehicle]
      exact h.once
    · rw [hunassigned, hvehicle]
      exact h.all
    · intro x hx
      rw [hunassigned]
      exact h.current x (hcurrent x hx).1
  · obtain ⟨hfilled, hids⟩ := h.filled.take hvalid hshape hlo hnew htakes
    rw [← hvehicle] at hfilled hids
    refine ⟨?_, .inr ⟨htakes, hunassigned⟩⟩
    obtain ⟨honce, hall⟩ := h.toFillEnd.take s' (h.current o ho) hids hunassigned
    refine ⟨⟨hfilled, honce, hall⟩, ?_⟩
    intro x hx
    rw [hunassigned, Identifiers.mem_remove]
    exact ⟨h.current x (hcurrent x hx).1, (hcurrent x hx).2⟩

/-- All rounds. -/
theorem fillLoop_ok {n : Nat} {s : FillState} (hvalid : orders.Valid)
    (hkind : kind ≠ .onePerTruck) (hshape : KeepsShape m kind orders shape)
    (hlt : ∀ o ∈ unassigned, o < orders.length) (h : FillOk m orders shape i unassigned s) :
    FillOk m orders shape i unassigned (fillLoop m kind n s) ∧
      ∀ x ∈ (fillLoop m kind n s).unassigned, x ∈ s.unassigned := by
  induction n generalizing s with
  | zero => exact ⟨h, fun x hx => hx⟩
  | succ n ih =>
    cases hfront : s.currentFeasable.front? with
    | none =>
      have hend : fillLoop m kind (n + 1) s = s := by
        rw [fillLoop, hfront]
      rw [hend]
      exact ⟨h, fun x hx => hx⟩
    | some front =>
      obtain ⟨o, _, s', hstep, hok, hcases⟩ := h.round (n := n) hvalid hkind hshape hlt hfront
      obtain ⟨hend, hsub⟩ := ih hok
      rw [hstep]
      refine ⟨hend, fun x hx => ?_⟩
      have hx := hsub x hx
      obtain ⟨_, _, hsame, _⟩ | ⟨_, hremoved⟩ := hcases
      · rwa [hsame] at hx
      · rw [hremoved, Identifiers.mem_remove] at hx
        exact hx.1

/-- Nothing is assigned iff the truck refuses all the orders, one after the other. -/
theorem fillLoop_stuck {n : Nat} {s : FillState} (hvalid : orders.Valid)
    (hkind : kind ≠ .onePerTruck) (hshape : KeepsShape m kind orders shape)
    (hlt : ∀ o ∈ unassigned, o < orders.length) (h : FillOk m orders shape i unassigned s)
    (hn : s.currentFeasable.size ≤ n) :
    (fillLoop m kind n s).unassigned = s.unassigned ↔
      ∀ o ∈ s.currentFeasable, Refuses m kind s.vehicle o := by
  induction n generalizing s with
  | zero =>
    have hnil : s.currentFeasable.ids = [] := List.eq_nil_of_length_eq_zero (Nat.le_zero.mp hn)
    refine iff_of_true rfl fun o ho => ?_
    change o ∈ s.currentFeasable.ids at ho
    rw [hnil] at ho
    exact absurd ho List.not_mem_nil
  | succ n ih =>
    cases hfront : s.currentFeasable.front? with
    | none =>
      have hend : fillLoop m kind (n + 1) s = s := by
        rw [fillLoop, hfront]
      rw [hend]
      exact iff_of_true rfl fun o ho => absurd ho (Identifiers.front?_none hfront)
    | some front =>
      obtain ⟨o, ho, s', hstep, hok, hcases⟩ := h.round (n := n) hvalid hkind hshape hlt hfront
      rw [hstep]
      obtain ⟨hrefuses, hvehicle, hsame, hless⟩ | ⟨htakes, hremoved⟩ := hcases
      · have hsize := Identifiers.size_remove ho
        rw [← hless] at hsize
        have hrest := ih hok (by omega)
        rw [hsame, hvehicle, hless] at hrest
        rw [hrest]
        constructor
        · intro hall x hx
          by_cases heq : x = o
          · rw [heq]
            exact hrefuses
          · exact hall x (Identifiers.mem_remove.mpr ⟨hx, heq⟩)
        · intro hall x hx
          exact hall x (Identifiers.mem_remove.mp hx).1
      · -- An order that is taken has left the unassigned ones and does not come back.
        refine iff_of_false (fun hsame => ?_) fun hall => htakes (hall o ho)
        have hmem := h.current o ho
        rw [← hsame] at hmem
        have hmem' := (fillLoop_ok (n := n) hvalid hkind hshape hlt hok).2 o hmem
        rw [hremoved, Identifiers.mem_remove] at hmem'
        exact hmem'.2 rfl

/-- A truck that is ready takes an order that it can serve alone at its end. -/
theorem not_refuses_onePerTruck (hvalid : orders.Valid) (hready : ReadyTruck m orders i v)
    (ho : o ∈ v.feasableOrders) : ¬ Refuses m .onePerTruck v o := by
  obtain ⟨hlo, hfeasible⟩ := (hready.feasable o).mp ho
  obtain ⟨sites, hroute⟩ := hready.onRoute
  have hd := hroute.table o hlo
  have hpush := fun (order : Order) (hd : orders.Describes order o) =>
    pushBack_carry m sites v v.ordersInVehicle hvalid hroute.known hd
  rw [← hroute.eq_carry] at hpush
  have hsame : v.place m .onePerTruck (PDOrders.get v.orders o) =
      v.pushBack m (PDOrders.get orders o) :=
    (hpush _ hd).trans (hpush _ ⟨hvalid.idx o hlo, rfl, rfl⟩).symm
  unfold Refuses
  rw [hsame, not_or, Bool.not_eq_false, Bool.not_eq_false, hasOrder_iff hd]
  refine ⟨hfeasible, ?_⟩
  rw [hpush _ ⟨hvalid.idx o hlo, rfl, rfl⟩, carry_ids, Identifiers.mem_add]
  exact .inl rfl

/-- Filling a truck that is ready: the orders that leave the unassigned ones are those of the
    truck, and none does iff the truck refuses every order it could serve alone. -/
theorem doWhileFeasable_ok (assigned : Identifiers Nat) (hvalid : orders.Valid)
    (hshape : KeepsShape m kind orders shape) (hnil : shape []) (hready : ReadyTruck m orders i v)
    (hlt : ∀ o ∈ unassigned, o < orders.length) :
    FillEnd m orders shape i unassigned (v.doWhileFeasable m kind unassigned assigned) ∧
      ((v.doWhileFeasable m kind unassigned assigned).unassigned = unassigned ↔
        ∀ o ∈ v.feasableOrders, o ∈ unassigned → Refuses m kind v o) := by
  obtain ⟨sites, hroute⟩ := hready.onRoute
  -- Before the loop the truck has taken nothing.
  have hstart : FillOk m orders shape i unassigned
      { vehicle := v, currentFeasable := v.feasableOrders.inter unassigned
        unassigned := unassigned, assigned := assigned } := by
    refine ⟨⟨⟨hready.feasible, hready.idx, sites, [], hroute, hnil⟩, ?_, ?_⟩, ?_⟩
    · intro o _
      show o ∉ v.ordersInVehicle
      rw [hready.ids]
      exact Identifiers.not_mem_empty
    · intro o
      show o ∈ unassigned ↔ o ∈ unassigned ∨ o ∈ v.ordersInVehicle
      rw [hready.ids]
      simp
    · intro o ho
      exact (Identifiers.mem_inter.mp ho).2
  have hinter : (∀ o ∈ v.feasableOrders, o ∈ unassigned → Refuses m kind v o) ↔
      ∀ o ∈ v.feasableOrders.inter unassigned, Refuses m kind v o := by
    constructor
    · intro hall o ho
      rw [Identifiers.mem_inter] at ho
      exact hall o ho.1 ho.2
    · intro hall o ho hu
      exact hall o (Identifiers.mem_inter.mpr ⟨ho, hu⟩)
  rw [hinter]
  unfold doWhileFeasable
  -- One order per truck takes the first feasible order and leaves the loop at once.
  by_cases hkind : kind = .onePerTruck
  · rw [hkind] at hshape ⊢
    cases hfront : (v.feasableOrders.inter unassigned).front? with
    | none =>
      have hend : fillLoop m .onePerTruck (v.feasableOrders.inter unassigned).size
          { vehicle := v, currentFeasable := v.feasableOrders.inter unassigned
            unassigned := unassigned, assigned := assigned } =
          { vehicle := v, currentFeasable := v.feasableOrders.inter unassigned
            unassigned := unassigned, assigned := assigned } := by
        cases (v.feasableOrders.inter unassigned).size with
        | zero => rfl
        | succ n => rw [fillLoop, hfront]
      rw [hend]
      exact ⟨hstart.toFillEnd,
        iff_of_true rfl fun o ho => absurd ho (Identifiers.front?_none hfront)⟩
    | some front =>
      have hmem := Identifiers.front?_mem hfront
      obtain ⟨hfeasable, hun⟩ := Identifiers.mem_inter.mp hmem
      have hidx := (hroute.table front (hlt front hun)).idx
      -- An empty truck does not refuse an order that it can serve alone.
      have htakes := not_refuses_onePerTruck hvalid hready hfeasable
      obtain ⟨n, hn⟩ : ∃ n, (v.feasableOrders.inter unassigned).size = n + 1 :=
        ⟨_, (Identifiers.size_remove hmem).symm⟩
      have hend : fillLoop m .onePerTruck (n + 1)
          { vehicle := v, currentFeasable := v.feasableOrders.inter unassigned
            unassigned := unassigned, assigned := assigned } =
          { vehicle := v.place m .onePerTruck (PDOrders.get v.orders front)
            currentFeasable := v.feasableOrders.inter unassigned
            unassigned := unassigned.remove front, assigned := assigned.add front } := by
        rw [fillLoop, hfront]
        simp only [fillOrder, place, if_true, hidx]
      obtain ⟨hfilled, hids⟩ := hstart.filled.take hvalid hshape (hlt front hun)
        (hstart.once front hun) htakes
      obtain ⟨honce, hall⟩ := hstart.toFillEnd.take
        { vehicle := v.place m .onePerTruck (PDOrders.get v.orders front)
          currentFeasable := v.feasableOrders.inter unassigned
          unassigned := unassigned.remove front, assigned := assigned.add front } hun hids rfl
      simp only [hn, hend]
      refine ⟨⟨hfilled, honce, hall⟩, iff_of_false (fun hsame => ?_) fun hall => ?_⟩
      · rw [← hsame, Identifiers.mem_remove] at hun
        exact hun.2 rfl
      · exact htakes (hall front hmem)
  · exact ⟨(fillLoop_ok hvalid hkind hshape hlt hstart).1.toFillEnd,
      fillLoop_stuck hvalid hkind hshape hlt hstart (Nat.le_refl _)⟩

end VehiclePickDeliver

end Vrp

end PgRouting
