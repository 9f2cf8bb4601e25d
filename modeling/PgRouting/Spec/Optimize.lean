import PgRouting.Native.Optimize
import PgRouting.Spec.PickDeliver
import PgRouting.Lib.Bins

/-!
# Optimizing keeps solutions

Every pass of `Optimize` takes a solution to a solution: every order stays in exactly one
vehicle, and the vehicles stay as an insertion and a removal of an order leave them. The best
solution is never worse than the first one, and `decrease_truck` ends, because it moves orders
to trucks further ahead only.
-/

namespace PgRouting

namespace Vrp

variable {K : Type} [Numbers K]
variable {m : Dmatrix K} {kind : InitialsCode} {orders : PDOrders K}
  {Ok : VehiclePickDeliver K → Prop} {fleet fleet' : List (VehiclePickDeliver K)}
  {w w' : VehiclePickDeliver K} {order : Order K} {o i j : Nat}

/-- What an attempt to insert the order makes of the vehicle `w`: it is as it was, or it has the
    order. -/
def Takes (Ok : VehiclePickDeliver K → Prop) (o : Nat) (w w' : VehiclePickDeliver K) : Prop :=
  w' = w ∨ Ok w' ∧ w'.ordersInVehicle = w.ordersInVehicle.add o

/-- A solution: the vehicles are fine and every order is in exactly one of them. -/
structure IsSolution (orders : PDOrders K) (Ok : VehiclePickDeliver K → Prop)
    (fleet : List (VehiclePickDeliver K)) : Prop where
  ok : ∀ w ∈ fleet, Ok w
  once : Partitions (fun w => w.ordersInVehicle.ids) fleet (List.range orders.length)

/-- What the passes rely on: the insertion and the removal of an order keep a vehicle fine. -/
structure Moves (m : Dmatrix K) (kind : InitialsCode) (orders : PDOrders K)
    (Ok : VehiclePickDeliver K → Prop) : Prop where
  table : ∀ {w}, Ok w → ∀ o < orders.length, orders.Describes (PDOrders.get w.orders o) o
  insert : ∀ {w order o}, Ok w → o < orders.length → orders.Describes order o →
    o ∉ w.ordersInVehicle → Takes Ok o w (Optimize.insertByKind m kind order w)
  erase : ∀ {w order o}, Ok w → o < orders.length → orders.Describes order o →
    Ok (w.erase m order) ∧ (w.erase m order).ordersInVehicle = w.ordersInVehicle.remove o

omit [Numbers K] in
theorem Takes.has (h : Takes Ok o w w') (ho : o ∉ w.ordersInVehicle)
    (hhas : o ∈ w'.ordersInVehicle) : Ok w' ∧ w'.ordersInVehicle = w.ordersInVehicle.add o := by
  obtain hsame | htaken := h
  · rw [hsame] at hhas
    exact absurd hhas ho
  · exact htaken

omit [Numbers K] in
theorem Takes.not_has (h : Takes Ok o w w') (hhas : o ∉ w'.ordersInVehicle) : w' = w := by
  obtain hsame | ⟨_, hids⟩ := h
  · exact hsame
  · rw [hids, Identifiers.mem_add] at hhas
    exact absurd (.inl rfl) hhas

theorem hasOrder_iff (hd : orders.Describes order o) :
    w.hasOrder order = true ↔ o ∈ w.ordersInVehicle := by
  unfold VehiclePickDeliver.hasOrder
  rw [hd.idx, Identifiers.has_iff]

theorem getD_mem (hi : i < fleet.length) : fleet.getD i default ∈ fleet := by
  rw [List.getD_eq_getElem _ _ hi]
  exact List.getElem_mem hi

theorem set_getD (hi : i < fleet.length) : fleet.set i (fleet.getD i default) = fleet := by
  rw [List.getD_eq_getElem _ _ hi, List.set_getElem_self]

namespace IsSolution

omit [Numbers K] in
theorem lt (h : IsSolution orders Ok fleet) (hw : w ∈ fleet) (ho : o ∈ w.ordersInVehicle) :
    o < orders.length :=
  List.mem_range.mp (h.once.mem hw ho)

theorem not_mem (h : IsSolution orders Ok fleet) (hi : i < fleet.length) (hj : j < fleet.length)
    (hij : i ≠ j) (ho : o ∈ (fleet.getD i default).ordersInVehicle) :
    o ∉ (fleet.getD j default).ordersInVehicle :=
  h.once.not_mem List.nodup_range hi hj hij ho

omit [Numbers K] in
theorem perm (h : IsSolution orders Ok fleet) (hperm : fleet'.Perm fleet) :
    IsSolution orders Ok fleet' :=
  ⟨fun w hw => h.ok w (hperm.subset hw), h.once.perm hperm⟩

theorem set_set (h : IsSolution orders Ok fleet) (hi : i < fleet.length) (hj : j < fleet.length)
    (hij : i ≠ j) (hw : Ok w) (hw' : Ok w')
    (hsame : (w.ordersInVehicle.ids ++ w'.ordersInVehicle.ids).Perm
      ((fleet.getD i default).ordersInVehicle.ids ++
        (fleet.getD j default).ordersInVehicle.ids)) :
    IsSolution orders Ok ((fleet.set j w').set i w) := by
  constructor
  · intro x hx
    obtain hx | rfl := List.mem_or_eq_of_mem_set hx
    · obtain hx | rfl := List.mem_or_eq_of_mem_set hx
      · exact h.ok x hx
      · exact hw'
    · exact hw
  · exact h.once.set_set hi hj hij hsame

/-- An order moves from the truck at `i` to the truck at `j`. -/
theorem move (h : IsSolution orders Ok fleet) (hi : i < fleet.length) (hj : j < fleet.length)
    (hij : i ≠ j) (ho : o ∈ (fleet.getD i default).ordersInVehicle) (hw : Ok w) (hw' : Ok w')
    (hfrom : w.ordersInVehicle = (fleet.getD i default).ordersInVehicle.remove o)
    (hto : w'.ordersInVehicle = (fleet.getD j default).ordersInVehicle.add o) :
    IsSolution orders Ok ((fleet.set j w').set i w) := by
  apply h.set_set hi hj hij hw hw'
  rw [hfrom, hto]
  have hadd := Identifiers.perm_add (h.not_mem hi hj hij ho)
  have hremove := Identifiers.perm_remove ho
  exact (hadd.append_left _).trans (List.perm_middle.trans (hremove.symm.append_right _))

/-- Two trucks swap two orders. -/
theorem swap {o' : Nat} (h : IsSolution orders Ok fleet) (hi : i < fleet.length)
    (hj : j < fleet.length) (hij : i ≠ j) (ho : o ∈ (fleet.getD i default).ordersInVehicle)
    (ho' : o' ∈ (fleet.getD j default).ordersInVehicle) (hw : Ok w) (hw' : Ok w')
    (hfrom : w.ordersInVehicle = ((fleet.getD i default).ordersInVehicle.remove o).add o')
    (hto : w'.ordersInVehicle = ((fleet.getD j default).ordersInVehicle.remove o').add o) :
    IsSolution orders Ok ((fleet.set j w').set i w) := by
  apply h.set_set hi hj hij hw hw'
  have hnot := h.not_mem hi hj hij ho
  have hnot' := h.not_mem hj hi hij.symm ho'
  rw [hfrom, hto]
  have hadd := Identifiers.perm_add
    (s := (fleet.getD i default).ordersInVehicle.remove o) (a := o')
    fun hmem => hnot' (Identifiers.mem_remove.mp hmem).1
  have hadd' := Identifiers.perm_add
    (s := (fleet.getD j default).ordersInVehicle.remove o') (a := o)
    fun hmem => hnot (Identifiers.mem_remove.mp hmem).1
  have hremove := Identifiers.perm_remove ho
  have hremove' := Identifiers.perm_remove ho'
  apply (hadd.append hadd').trans
  apply List.Perm.trans _ (hremove.append hremove').symm
  rw [List.cons_append, List.cons_append]
  exact (List.perm_middle.cons o').trans
    ((List.Perm.swap _ _ _).trans (List.perm_middle.symm.cons o))

omit [Numbers K] in
theorem filter (h : IsSolution orders Ok fleet) :
    IsSolution orders Ok (fleet.filter fun v => v.ordersInVehicle.size ≠ 0) := by
  constructor
  · intro w hw
    exact h.ok w (List.mem_filter.mp hw).1
  · apply h.once.filter
    intro w _ hsize
    have hzero : w.ordersInVehicle.size = 0 := by simpa using hsize
    exact List.eq_nil_of_length_eq_zero hzero

omit [Numbers K] in
theorem ne_nil (h : IsSolution orders Ok fleet) (hpos : orders ≠ []) : fleet ≠ [] := by
  intro hnil
  have hperm := h.once
  unfold Partitions at hperm
  rw [hnil, List.flatMap_nil, List.nil_perm, List.range_eq_nil, List.length_eq_zero_iff] at hperm
  exact hpos hperm

end IsSolution

namespace Optimize

/-- The fleet is no worse than the first one: fewer vehicles, or as many and not a longer
    duration. -/
def NotWorse (fleet first : List (VehiclePickDeliver K)) : Prop :=
  fleet.length < first.length ∨
    fleet.length = first.length ∧ ¬ fleetDuration first < fleetDuration fleet

theorem NotWorse.refl : NotWorse fleet fleet := .inr ⟨rfl, Numbers.lt_irrefl _⟩

/-- What every pass keeps: the fleet and the best fleet are solutions, and the best one has been
    updated whenever the fleet got smaller. -/
structure Sound (orders : PDOrders K) (Ok : VehiclePickDeliver K → Prop)
    (first : List (VehiclePickDeliver K)) (s : Optimize K) : Prop where
  fleet : IsSolution orders Ok s.fleet
  best : IsSolution orders Ok s.best
  smaller : s.fleet.length ≤ s.best.length
  better : NotWorse s.best first

variable {first : List (VehiclePickDeliver K)} {s : Optimize K}

theorem Sound.with_fleet (h : Sound orders Ok first s) (hfleet : IsSolution orders Ok fleet)
    (hle : fleet.length ≤ s.best.length) : Sound orders Ok first { s with fleet := fleet } :=
  ⟨hfleet, h.best, hle, h.better⟩

/-- A fleet that is better than one that is no worse. -/
theorem NotWorse.better {best : List (VehiclePickDeliver K)} (hbest : NotWorse best first)
    (h : fleet.length < best.length ∨
      fleet.length = best.length ∧ fleetDuration fleet < fleetDuration best) :
    NotWorse fleet first := by
  unfold NotWorse at *
  obtain h | ⟨h, hd⟩ := h
  · left
    omega
  · obtain hb | ⟨hb, hbd⟩ := hbest
    · left
      omega
    · exact .inr ⟨h.trans hb, fun hlt => hbd (Numbers.lt_trans hlt hd)⟩

/-- `save_if_best` may raise neither the number of vehicles nor, for as many, the duration. -/
theorem Sound.saveIfBest (h : Sound orders Ok first s) : Sound orders Ok first s.saveIfBest := by
  have htake : (s.fleet.length < s.best.length ∨ s.fleet.length = s.best.length ∧
      fleetDuration s.fleet < fleetDuration s.best) →
        Sound orders Ok first { s with best := s.fleet } :=
    fun hbetter => ⟨h.fleet, h.fleet, Nat.le_refl _, h.better.better hbetter⟩
  unfold Optimize.saveIfBest
  by_cases hduration : fleetDuration s.fleet < fleetDuration s.best
  · have hbetter : s.fleet.length < s.best.length ∨
        s.fleet.length = s.best.length ∧ fleetDuration s.fleet < fleetDuration s.best := by
      obtain hlt | heq := Nat.lt_or_eq_of_le h.smaller
      · exact .inl hlt
      · exact .inr ⟨heq, hduration⟩
    simp only [hduration, if_true]
    rw [if_neg (Nat.lt_irrefl _)]
    exact htake hbetter
  · simp only [hduration, if_false]
    split
    · rename_i hlt
      exact htake (.inl hlt)
    · exact h

theorem Sound.deleteEmptyTruck (h : Sound orders Ok first s) :
    Sound orders Ok first s.deleteEmptyTruck := by
  apply Sound.saveIfBest
  exact h.with_fleet (h.fleet.filter) ((List.length_filter_le _ _).trans h.smaller)

theorem Sound.sortBySize {sort : List (VehiclePickDeliver K) → List (VehiclePickDeliver K)}
    (hsort : ∀ fleet, (sort fleet).Perm fleet) (h : Sound orders Ok first s) :
    Sound orders Ok first (s.sortBySize sort) := by
  have hperm : ((sort s.fleet).insertionSort fun lhs rhs : VehiclePickDeliver K =>
      rhs.ordersInVehicle.size ≤ lhs.ordersInVehicle.size).Perm s.fleet :=
    (List.perm_insertionSort _ _).trans (hsort s.fleet)
  apply h.with_fleet (h.fleet.perm hperm)
  rw [hperm.length_eq]
  exact h.smaller

/-! ## `swap_worse` and `move_reduce_cost` -/

/-- Between two rounds of `swap_worse` the copies are the trucks of the fleet of `n` trucks. -/
structure SwapOk (orders : PDOrders K) (Ok : VehiclePickDeliver K → Prop)
    (first : List (VehiclePickDeliver K)) (n i j : Nat) (s : SwapState K) : Prop where
  sound : Sound orders Ok first s.solution
  fromTruck : s.fromTruck = s.solution.fleet.getD i default
  toTruck : s.toTruck = s.solution.fleet.getD j default
  length : s.solution.fleet.length = n

section Swap

variable {n : Nat} {t : SwapState K}

/-- Both trucks are replaced. -/
theorem SwapOk.keep (h : SwapOk orders Ok first n i j t) (hi : i < n) (hj : j < n) (hij : i ≠ j)
    (hfleet : IsSolution orders Ok ((t.solution.fleet.set j w').set i w)) :
    SwapOk orders Ok first n i j
      (SwapState.keep i j { t with fromTruck := w, toTruck := w' }) := by
  have hlen : ((t.solution.fleet.set j w').set i w).length = n := by
    rw [List.length_set, List.length_set, h.length]
  constructor
  · apply h.sound.with_fleet hfleet
    rw [hlen, ← h.length]
    exact h.sound.smaller
  · show w = ((t.solution.fleet.set j w').set i w).getD i default
    rw [getD_set_self]
    rw [List.length_set, h.length]
    exact hi
  · show w' = ((t.solution.fleet.set j w').set i w).getD j default
    rw [getD_set_ne hij, getD_set_self]
    rw [h.length]
    exact hj
  · exact hlen

theorem SwapOk.restore (h : SwapOk orders Ok first n i j t) :
    SwapOk orders Ok first n i j
      (SwapState.restore i j { t with fromTruck := w, toTruck := w' }) :=
  ⟨h.sound, rfl, rfl, h.length⟩

variable (hm : Moves m kind orders Ok) (hi : i < n) (hj : j < n) (hij : i ≠ j)
include hm hi hj hij

/-- An order of the first truck is swapped with one of the second, or nothing changes. -/
theorem swapLoop_ok {d : K} {toOrders : List Nat} (hd : orders.Describes order o)
    (hids : ∀ id ∈ toOrders, id < orders.length) (h : SwapOk orders Ok first n i j t)
    (ho : o ∈ t.fromTruck.ordersInVehicle) :
    SwapOk orders Ok first n i j (swapLoop m kind i j order d toOrders t) ∧
      ∀ x ∈ t.fromTruck.ordersInVehicle, x ≠ o →
        x ∈ (swapLoop m kind i j order d toOrders t).fromTruck.ordersInVehicle := by
  induction toOrders generalizing t with
  | nil => exact ⟨h, fun x hx _ => hx⟩
  | cons id rest ih =>
    have hrest := fun x hx => hids x (List.mem_cons_of_mem id hx)
    have hlen := h.length
    have hfleet := h.sound.fleet
    have hfrom := hfleet.ok _ (getD_mem (i := i) (by omega))
    have hto := hfleet.ok _ (getD_mem (i := j) (by omega))
    have hdid := hm.table hto id (hids id List.mem_cons_self)
    unfold swapLoop
    simp only
    split
    · exact ih hrest h ho
    · rename_i hhas
      have hid : id ∈ t.toTruck.ordersInVehicle := by
        rw [← hasOrder_iff hdid]
        simpa using hhas
      rw [h.fromTruck] at ho
      rw [h.toTruck] at hid
      have hlo := hfleet.lt (getD_mem (by omega)) ho
      have hlid := hfleet.lt (getD_mem (by omega)) hid
      -- Each truck gives one order away and is offered the other one.
      obtain ⟨hfromOk, hfromIds⟩ := hm.erase hfrom hlo hd
      obtain ⟨htoOk, htoIds⟩ := hm.erase hto hlid hdid
      have hidNot := hfleet.not_mem (by omega) (by omega) hij.symm hid
      have hoNot := hfleet.not_mem (by omega) (by omega) hij ho
      have hfromTakes := hm.insert hfromOk hlid hdid
        (by rw [hfromIds, Identifiers.mem_remove]; exact fun hmem => hidNot hmem.1)
      have htoTakes := hm.insert htoOk hlo hd
        (by rw [htoIds, Identifiers.mem_remove]; exact fun hmem => hoNot hmem.1)
      rw [h.fromTruck, h.toTruck]
      split
      · -- Both trucks have taken the other order: it is kept when it shortens the solution.
        rename_i hboth
        rw [Bool.and_eq_true, hasOrder_iff hdid, hasOrder_iff hd] at hboth
        obtain ⟨hfromOk', hfromIds'⟩ := hfromTakes.has
          (by rw [hfromIds, Identifiers.mem_remove]; exact fun hmem => hidNot hmem.1) hboth.1
        obtain ⟨htoOk', htoIds'⟩ := htoTakes.has
          (by rw [htoIds, Identifiers.mem_remove]; exact fun hmem => hoNot hmem.1) hboth.2
        rw [hfromIds] at hfromIds'
        rw [htoIds] at htoIds'
        split
        · constructor
          · apply h.keep hi hj hij
            exact hfleet.swap (by omega) (by omega) hij ho hid hfromOk' htoOk' hfromIds' htoIds'
          · intro x hx hxo
            show x ∈ (insertByKind m kind _ _).ordersInVehicle
            rw [hfromIds', Identifiers.mem_add, Identifiers.mem_remove]
            exact .inr ⟨hx, hxo⟩
        · exact ih hrest h.restore ho
      · exact ih hrest h.restore ho

/-- `move_order` moves the order, or it leaves the trucks as they were. -/
theorem moveOrder_ok (hd : orders.Describes order o) (h : SwapOk orders Ok first n i j t)
    (ho : o ∈ t.fromTruck.ordersInVehicle) :
    moveOrder m kind order t.fromTruck t.toTruck = (false, t.fromTruck, t.toTruck) ∨
      ∃ w w', moveOrder m kind order t.fromTruck t.toTruck = (true, w, w') ∧
        w.ordersInVehicle = t.fromTruck.ordersInVehicle.remove o ∧
        IsSolution orders Ok ((t.solution.fleet.set j w').set i w) := by
  have hlen := h.length
  have hfleet := h.sound.fleet
  have hfrom := hfleet.ok _ (getD_mem (i := i) (by omega))
  have hto := hfleet.ok _ (getD_mem (i := j) (by omega))
  rw [h.fromTruck] at ho
  have hlo := hfleet.lt (getD_mem (by omega)) ho
  -- An order of one truck is in no other.
  have hoNot := hfleet.not_mem (by omega) (by omega) hij ho
  have htakes := hm.insert hto hlo hd hoNot
  obtain ⟨hfromOk, hfromIds⟩ := hm.erase hfrom hlo hd
  rw [h.fromTruck, h.toTruck]
  unfold moveOrder
  simp only
  split
  · exact .inl rfl
  · split
    · exact .inl rfl
    · split
      · exact .inl rfl
      · split
        · rename_i hhas
          rw [hasOrder_iff hd] at hhas
          -- The insertion is tried on a copy; only when the copy has the order are the trucks
          -- changed.
          obtain ⟨htoOk, htoIds⟩ := htakes.has hoNot hhas
          right
          exact ⟨_, _, rfl, hfromIds,
            hfleet.move (by omega) (by omega) hij ho hfromOk htoOk hfromIds htoIds⟩
        · rename_i hhas
          rw [hasOrder_iff hd] at hhas
          left
          rw [htakes.not_has hhas]

theorem swapWorseLoop_ok {toOrders fromOrders : List Nat}
    (hids : ∀ id ∈ toOrders, id < orders.length) (hnodup : fromOrders.Nodup)
    (h : SwapOk orders Ok first n i j t)
    (hmem : ∀ id ∈ fromOrders, id ∈ t.fromTruck.ordersInVehicle) :
    SwapOk orders Ok first n i j (swapWorseLoop m kind i j toOrders fromOrders t) := by
  induction fromOrders generalizing t with
  | nil => exact h
  | cons id rest ih =>
    obtain ⟨hid, hrest⟩ := List.nodup_cons.mp hnodup
    have hlen := h.length
    have hfleet := h.sound.fleet
    have hmemId := hmem id List.mem_cons_self
    have hlt : id < orders.length := by
      rw [h.fromTruck] at hmemId
      exact hfleet.lt (getD_mem (by omega)) hmemId
    have hd : orders.Describes (PDOrders.get t.fromTruck.orders id) id := by
      rw [h.fromTruck]
      exact hm.table (hfleet.ok _ (getD_mem (by omega))) id hlt
    have hne : ∀ x ∈ rest, x ≠ id := fun x hx heq => hid (heq ▸ hx)
    unfold swapWorseLoop
    simp only
    obtain hsame | ⟨w, w', hmoved, hw, hsolution⟩ := moveOrder_ok hm hi hj hij hd h hmemId
    · rw [hsame]
      obtain ⟨hok, hkept⟩ := swapLoop_ok hm hi hj hij (d := t.fromTruck.duration) hd hids h hmemId
      exact ih hrest hok fun x hx => hkept x (hmem x (List.mem_cons_of_mem _ hx)) (hne x hx)
    · rw [hmoved]
      apply ih hrest (h.keep hi hj hij hsolution)
      intro x hx
      show x ∈ w.ordersInVehicle
      rw [hw, Identifiers.mem_remove]
      exact ⟨hmem x (List.mem_cons_of_mem _ hx), hne x hx⟩

theorem swapWorse_ok (h : Sound orders Ok first s) (hlen : s.fleet.length = n) :
    Sound orders Ok first (swapWorse m kind i j s) ∧ (swapWorse m kind i j s).fleet.length = n := by
  have hloop := swapWorseLoop_ok hm hi hj hij
    (fun id hid => h.fleet.lt (getD_mem (by omega : j < s.fleet.length)) hid) Identifiers.nodup
    ⟨h, rfl, rfl, hlen⟩ (t := ⟨s, s.fleet.getD i default, s.fleet.getD j default⟩)
    (fun id hid => hid)
  exact ⟨hloop.sound, hloop.length⟩

end Swap

theorem saveIfBest_fleet : s.saveIfBest.fleet = s.fleet := by
  unfold saveIfBest
  simp only
  split <;> split <;> rfl

theorem deleteEmptyTruck_fleet : s.deleteEmptyTruck.fleet =
    s.fleet.filter fun v => v.ordersInVehicle.size ≠ 0 := saveIfBest_fleet

/-- `move_reduce_cost` works on copies: the solution is at most saved. -/
theorem moveReduceLoop_ok {ids : List Nat} {t : SwapState K} {n : Nat}
    (h : Sound orders Ok first t.solution) (hlen : t.solution.fleet.length = n) :
    Sound orders Ok first (moveReduceLoop m kind ids t).solution ∧
      (moveReduceLoop m kind ids t).solution.fleet.length = n := by
  induction ids generalizing t with
  | nil => exact ⟨h, hlen⟩
  | cons id rest ih =>
    unfold moveReduceLoop
    simp only
    split
    · split
      · apply ih h.saveIfBest
        show t.solution.saveIfBest.fleet.length = n
        rw [saveIfBest_fleet, hlen]
      · exact ih h hlen
    · exact ih h hlen

theorem moveReduceCost_ok {n : Nat} (h : Sound orders Ok first s) (hlen : s.fleet.length = n) :
    Sound orders Ok first (moveReduceCost m kind i j s) ∧
      (moveReduceCost m kind i j s).fleet.length = n := by
  unfold moveReduceCost
  simp only
  split
  · exact ⟨h, hlen⟩
  · split
    · exact ⟨h, hlen⟩
    · exact moveReduceLoop_ok h hlen

/-- One cycle over all pairs of trucks. -/
theorem interSwap_ok (hm : Moves m kind orders Ok) (h : Sound orders Ok first s) :
    Sound orders Ok first (interSwap m kind s) := by
  unfold interSwap
  simp only
  apply Sound.deleteEmptyTruck
  generalize hn : s.deleteEmptyTruck.fleet.length = n
  have hloop : ∀ t : Optimize K, Sound orders Ok first t ∧ t.fleet.length = n → ∀ i ∈ List.range n,
      Sound orders Ok first ((List.range i).foldl (fun s j =>
        moveReduceCost m kind i j (swapWorse m kind i j s)) t) ∧
      ((List.range i).foldl (fun s j =>
        moveReduceCost m kind i j (swapWorse m kind i j s)) t).fleet.length = n := by
    intro t ht i hi
    apply List.foldlRecOn (motive := fun t : Optimize K =>
      Sound orders Ok first t ∧ t.fleet.length = n) _ _ ht
    intro t ht j hj
    rw [List.mem_range] at hi hj
    obtain ⟨hsound, hlen⟩ := swapWorse_ok hm hi (hj.trans hi) hj.ne' ht.1 ht.2
    exact moveReduceCost_ok hsound hlen
  have hall := List.foldlRecOn (motive := fun t : Optimize K =>
    Sound orders Ok first t ∧ t.fleet.length = n) (List.range n) _ ⟨h.deleteEmptyTruck, hn⟩ hloop
  exact hall.1

/-! ## `decrease_truck` -/

section Decrease

variable (m)

/-- The calls of `insert` in the inner loop of `decrease_truck`: the order and the truck. -/
def placeCalls (order : Order K) :
    List Nat → List (VehiclePickDeliver K) → List (Order K × VehiclePickDeliver K)
  | [], _ => []
  | i :: rest, fleet =>
    let truck := ((fleet.getD i default).insert m order).2
    (order, fleet.getD i default) ::
      if truck.hasOrder order then [] else placeCalls order rest (fleet.set i truck)

/-- The calls of `insert` for the orders of the truck at `position`. -/
def decreaseAtCalls (position : Nat) :
    List Nat → List (VehiclePickDeliver K) → List (Order K × VehiclePickDeliver K)
  | [], _ => []
  | id :: rest, fleet =>
    let order := PDOrders.get (fleet.getD position default).orders id
    placeCalls m order (List.range position) fleet ++
      decreaseAtCalls position rest (placeLoop m position order (List.range position) fleet)

/-- The calls of `insert` while the positions are gone through. -/
def decreaseLoopCalls :
    List Nat → List (VehiclePickDeliver K) → List (Order K × VehiclePickDeliver K)
  | [], _ => []
  | position :: rest, fleet =>
    decreaseAtCalls m position (fleet.getD position default).ordersInVehicle.ids fleet ++
      decreaseLoopCalls rest (decreaseTruckAt m position fleet).2

/-- The calls of `insert` in `decrease_truck`, each with the truck as it is before the call. -/
def decreaseCalls : Nat → Optimize K → List (Order K × VehiclePickDeliver K)
  | 0, _ => []
  | n + 1, s =>
    let (decreased, fleet) := decreaseLoop m s.fleet
    decreaseLoopCalls m (List.range' 1 (s.fleet.length - 1)) s.fleet ++
      if decreased then
        decreaseCalls n { s with fleet := fleet }.deleteEmptyTruck.saveIfBest
      else []

variable {m} {P : Order K → VehiclePickDeliver K → Prop} {order : Order K}

/-- The weight of the orders in their trucks. -/
abbrev load (fleet : List (VehiclePickDeliver K)) : Nat :=
  weight (fun w : VehiclePickDeliver K => w.ordersInVehicle.ids) fleet

variable
  (hinsert : ∀ {w order o}, Ok w → o < orders.length → orders.Describes order o →
    o ∉ w.ordersInVehicle → P order w → Takes Ok o w (w.insert m order).2)
  (hm : Moves m kind orders Ok)
include hinsert hm

/-- An order of the truck at `position` goes to a truck before it, or nothing changes. -/
theorem placeLoop_ok {position : Nat} {is : List Nat} (h : IsSolution orders Ok fleet)
    (hposition : position < fleet.length) (his : ∀ i ∈ is, i < position)
    (hd : orders.Describes order o) (ho : o ∈ (fleet.getD position default).ordersInVehicle)
    (hP : ∀ c ∈ placeCalls m order is fleet, P c.1 c.2) :
    placeLoop m position order is fleet = fleet ∨
      IsSolution orders Ok (placeLoop m position order is fleet) ∧
      (placeLoop m position order is fleet).length = fleet.length ∧
      load (placeLoop m position order is fleet) < load fleet ∧
      ((placeLoop m position order is fleet).getD position default).ordersInVehicle =
        (fleet.getD position default).ordersInVehicle.remove o ∧
      ∀ k, position < k →
        (placeLoop m position order is fleet).getD k default = fleet.getD k default := by
  induction is with
  | nil => exact .inl rfl
  | cons i rest ih =>
    have hi : i < position := his i List.mem_cons_self
    have hilen : i < fleet.length := hi.trans hposition
    have hlo := h.lt (getD_mem hposition) ho
    have hnot := h.not_mem hposition hilen hi.ne' ho
    unfold placeCalls at hP
    unfold placeLoop
    simp only at hP ⊢
    have htakes := hinsert (h.ok _ (getD_mem hilen)) hlo hd hnot (hP _ List.mem_cons_self)
    replace hP := fun c hc => hP c (List.mem_cons_of_mem _ hc)
    -- The first truck that takes the order keeps it, and the truck at `position` loses it.
    by_cases hhas : ((fleet.getD i default).insert m order).2.hasOrder order = true
    · rw [if_pos hhas]
      have hmem := hhas
      rw [hasOrder_iff hd] at hmem
      obtain ⟨htruck, hids⟩ := htakes.has hnot hmem
      have hget : (fleet.set i ((fleet.getD i default).insert m order).2).getD position default =
          fleet.getD position default := getD_set_ne hi.ne
      rw [hget]
      obtain ⟨herase, heraseIds⟩ := hm.erase (h.ok _ (getD_mem hposition)) hlo hd
      right
      refine ⟨?_, by rw [List.length_set, List.length_set], ?_, ?_, ?_⟩
      · exact h.move hposition hilen hi.ne' ho herase htruck heraseIds hids
      · apply weight_set_set (d := default) hposition hi
        · show ((fleet.getD position default).erase m order).ordersInVehicle.size + 1 =
            (fleet.getD position default).ordersInVehicle.size
          rw [heraseIds]
          exact Identifiers.size_remove ho
        · show ((fleet.getD i default).insert m order).2.ordersInVehicle.size =
            (fleet.getD i default).ordersInVehicle.size + 1
          rw [hids]
          exact Identifiers.size_add hnot
      · rw [getD_set_self (by rw [List.length_set]; exact hposition), heraseIds]
      · intro k hk
        rw [getD_set_ne hk.ne, getD_set_ne (hi.trans hk).ne]
    · rw [if_neg hhas] at hP
      rw [if_neg hhas]
      have hmem := hhas
      rw [hasOrder_iff hd] at hmem
      rw [htakes.not_has hmem, set_getD hilen] at hP ⊢
      exact ih (fun i hi => his i (List.mem_cons_of_mem _ hi)) hP

/-- What moving orders away from the truck at `position` makes of the fleet. -/
structure Lighter (orders : PDOrders K) (Ok : VehiclePickDeliver K → Prop) (position : Nat)
    (fleet fleet' : List (VehiclePickDeliver K)) : Prop where
  solution : IsSolution orders Ok fleet'
  length : fleet'.length = fleet.length
  load : fleet' = fleet ∨ load fleet' < load fleet
  behind : ∀ k, position < k → fleet'.getD k default = fleet.getD k default

/-- The orders of the truck at `position`, one after the other. -/
theorem decreaseAt_ok {position : Nat} {ids : List Nat} (h : IsSolution orders Ok fleet)
    (hposition : position < fleet.length) (hnodup : ids.Nodup)
    (hmem : ∀ id ∈ ids, id ∈ (fleet.getD position default).ordersInVehicle)
    (hP : ∀ c ∈ decreaseAtCalls m position ids fleet, P c.1 c.2) :
    Lighter orders Ok position fleet (ids.foldl (fun fleet id =>
      placeLoop m position (PDOrders.get (fleet.getD position default).orders id)
        (List.range position) fleet) fleet) := by
  induction ids generalizing fleet with
  | nil => exact ⟨h, rfl, .inl rfl, fun k _ => rfl⟩
  | cons id rest ih =>
    obtain ⟨hid, hrest⟩ := List.nodup_cons.mp hnodup
    have hmemId := hmem id List.mem_cons_self
    have hlt := h.lt (getD_mem hposition) hmemId
    have hd := hm.table (h.ok _ (getD_mem hposition)) id hlt
    unfold decreaseAtCalls at hP
    simp only [List.mem_append] at hP
    rw [List.foldl_cons]
    -- Either no truck takes the order and the fleet stays, or one truck does and the others are as
    -- before.
    obtain hsame | ⟨hsolution, hlength, hload, hids, hbehind⟩ :=
      placeLoop_ok hinsert hm h hposition
        (fun i (hi : i ∈ List.range position) => List.mem_range.mp hi) hd hmemId
        (fun c hc => hP c (.inl hc))
    · rw [hsame] at hP ⊢
      exact ih h hposition hrest (fun x hx => hmem x (List.mem_cons_of_mem _ hx))
        (fun c hc => hP c (.inr hc))
    · have hlighter := ih hsolution (by rw [hlength]; exact hposition) hrest
        (by
          intro x hx
          rw [hids, Identifiers.mem_remove]
          exact ⟨hmem x (List.mem_cons_of_mem _ hx), fun heq => hid (heq ▸ hx)⟩)
        (fun c hc => hP c (.inr hc))
      constructor
      · exact hlighter.solution
      · exact hlighter.length.trans hlength
      · right
        obtain hsame | hless := hlighter.load
        · rw [hsame]
          exact hload
        · exact hless.trans hload
      · intro k hk
        rw [hlighter.behind k hk, hbehind k hk]

theorem decreaseTruckAt_ok {position : Nat} (h : IsSolution orders Ok fleet)
    (hposition : position < fleet.length)
    (hP : ∀ c ∈ decreaseAtCalls m position (fleet.getD position default).ordersInVehicle.ids
      fleet, P c.1 c.2) :
    Lighter orders Ok position fleet (decreaseTruckAt m position fleet).2 :=
  decreaseAt_ok hinsert hm h hposition Identifiers.nodup (fun _ hid => hid) hP

/-- The loop of `decrease_truck`: when a truck has been emptied, some order has moved ahead or a
    truck had no orders before. -/
theorem decreaseLoop_ok {b : Bool} {k n : Nat} (h : IsSolution orders Ok fleet)
    (hk : k + n ≤ fleet.length)
    (hP : ∀ c ∈ decreaseLoopCalls m (List.range' k n) fleet, P c.1 c.2) :
    ∃ b' fleet', (List.range' k n).foldl (fun (s : Bool × List (VehiclePickDeliver K)) i =>
        let (emptied, fleet) := decreaseTruckAt m i s.2
        (emptied || s.1, fleet)) (b, fleet) = (b', fleet') ∧
      IsSolution orders Ok fleet' ∧ fleet'.length = fleet.length ∧ load fleet' ≤ load fleet ∧
      (b' = true → b = true ∨ load fleet' < load fleet ∨
        ∃ j, k ≤ j ∧ j < k + n ∧ (fleet.getD j default).ordersInVehicle.size = 0) := by
  induction n generalizing k b fleet with
  | zero => exact ⟨b, fleet, rfl, h, rfl, Nat.le_refl _, .inl⟩
  | succ n ih =>
    rw [List.range'_succ] at hP ⊢
    unfold decreaseLoopCalls at hP
    simp only [List.mem_append] at hP
    rw [List.foldl_cons]
    have hlighter := decreaseTruckAt_ok hinsert hm h (by omega : k < fleet.length)
      (fun c hc => hP c (.inl hc))
    have hlength := hlighter.length
    -- The flag of one round is the number of orders left on its truck.
    have hemptied : (decreaseTruckAt m k fleet).1 = true ↔
        ((decreaseTruckAt m k fleet).2.getD k default).ordersInVehicle.size = 0 := by
      unfold decreaseTruckAt
      simp
    generalize hone : decreaseTruckAt m k fleet = one at hlighter hP hlength hemptied ⊢
    obtain ⟨emptied, fleet₁⟩ := one
    simp only at hlighter hP hlength hemptied ⊢
    obtain ⟨b', fleet', hloop, hsolution, hlen, hload, hflag⟩ := ih (b := emptied || b)
      (k := k + 1) hlighter.solution (by omega) (fun c hc => hP c (.inr hc))
    -- Orders only move ahead, so the load does not grow.
    have hle : load fleet₁ ≤ load fleet := by
      obtain hsame | hless := hlighter.load
      · rw [hsame]
      · exact hless.le
    refine ⟨b', fleet', hloop, hsolution, hlen.trans hlength, hload.trans hle, ?_⟩
    intro hb'
    obtain hb | hless | ⟨j, hj, hjn, hsize⟩ := hflag hb'
    · rw [Bool.or_eq_true] at hb
      obtain hb | hb := hb
      · right
        obtain hsame | hless := hlighter.load
        · rw [hsame] at hemptied
          exact .inr ⟨k, Nat.le_refl k, by omega, hemptied.mp hb⟩
        · exact .inl (hload.trans_lt hless)
      · exact .inl hb
    · exact .inr (.inl (hless.trans_le hle))
    · right
      right
      rw [hlighter.behind j (by omega)] at hsize
      exact ⟨j, by omega, by omega, hsize⟩

/-- `decrease_truck` ends, and it keeps the solution. -/
theorem decreaseTruck_ok {n : Nat} (h : Sound orders Ok first s)
    (hn : load s.fleet + 1 < n ∨
      load s.fleet < n ∧ ∀ w ∈ s.fleet, w.ordersInVehicle.size ≠ 0)
    (hP : ∀ c ∈ decreaseCalls m n s, P c.1 c.2) :
    ∃ s', decreaseTruck m n s = some s' ∧ Sound orders Ok first s' := by
  induction n generalizing s with
  | zero => omega
  | succ n ih =>
    unfold decreaseCalls at hP
    unfold decreaseTruck
    simp only [List.mem_append] at hP
    have hpos : 1 + (s.fleet.length - 1) ≤ s.fleet.length ∨ s.fleet.length = 0 := by omega
    -- The flag says that orders have been moved, or that a truck was empty from the start.
    obtain ⟨b, fleet, hloop, hsolution, hlen, hload, hflag⟩ :
        ∃ b fleet, decreaseLoop m s.fleet = (b, fleet) ∧ IsSolution orders Ok fleet ∧
          fleet.length = s.fleet.length ∧ load fleet ≤ load s.fleet ∧
          (b = true → load fleet < load s.fleet ∨
            ∃ w ∈ s.fleet, w.ordersInVehicle.size = 0) := by
      obtain hpos | hzero := hpos
      · obtain ⟨b, fleet, hloop, hsolution, hlen, hload, hflag⟩ :=
          decreaseLoop_ok (b := false) hinsert hm h.fleet hpos (fun c hc => hP c (.inl hc))
        refine ⟨b, fleet, hloop, hsolution, hlen, hload, fun hb => ?_⟩
        obtain hfalse | hless | ⟨j, _, hj, hsize⟩ := hflag hb
        · exact absurd hfalse Bool.false_ne_true
        · exact .inl hless
        · exact .inr ⟨_, getD_mem (by omega), hsize⟩
      · rw [List.length_eq_zero_iff] at hzero
        refine ⟨false, s.fleet, ?_, h.fleet, rfl, Nat.le_refl _, fun hb => ?_⟩
        · rw [hzero]
          rfl
        · exact absurd hb Bool.false_ne_true
    rw [hloop] at hP ⊢
    have hnow : Sound orders Ok first { s with fleet := fleet } :=
      h.with_fleet hsolution (by rw [hlen]; exact h.smaller)
    cases b with
    | false => exact ⟨_, rfl, hnow.saveIfBest⟩
    | true =>
      have hfleet : ({ s with fleet := fleet } : Optimize K).deleteEmptyTruck.saveIfBest.fleet =
          fleet.filter fun v => v.ordersInVehicle.size ≠ 0 := by
        rw [saveIfBest_fleet, deleteEmptyTruck_fleet]
      have hfilter : load (fleet.filter fun v => v.ordersInVehicle.size ≠ 0) ≤ load fleet :=
        weight_filter_le
      -- After the empty trucks are gone only a smaller load makes it go on.
      obtain ⟨s', hs', hsound⟩ := ih hnow.deleteEmptyTruck.saveIfBest
        (by
          right
          rw [hfleet]
          constructor
          · obtain hn | ⟨hn, hnone⟩ := hn
            · omega
            · obtain hless | ⟨w, hw, hsize⟩ := hflag rfl
              · omega
              · exact absurd hsize (hnone w hw)
          · intro w hw
            simpa using (List.mem_filter.mp hw).2)
        (fun c hc => hP c (.inr hc))
      simp only [if_true]
      rw [hs']
      exact ⟨_, rfl, hsound.saveIfBest⟩

end Decrease

/-! ## All passes -/

theorem cycles_ok (hm : Moves m kind orders Ok) (hpos : orders ≠ []) (times : Nat)
    (h : Sound orders Ok first s) :
    ∃ s', cycles m kind times s = some s' ∧ Sound orders Ok first s' := by
  induction times generalizing s with
  | zero => exact ⟨s, rfl, h⟩
  | succ n ih =>
    have hswap := interSwap_ok hm h
    obtain ⟨v, rest, hcons⟩ := List.exists_cons_of_ne_nil (hswap.fleet.ne_nil hpos)
    have hperm : (rest ++ [v]).Perm (interSwap m kind s).fleet := by
      rw [hcons]
      exact List.perm_append_singleton v rest
    have hrotated : rotateFleet (interSwap m kind s).fleet = some (rest ++ [v]) := by
      rw [hcons]
      rfl
    unfold cycles
    simp only [hrotated]
    apply ih
    apply hswap.with_fleet (hswap.fleet.perm hperm)
    rw [hperm.length_eq]
    exact hswap.smaller

omit [Numbers K] in
/-- The load of a solution is bounded by its size. -/
theorem load_le (h : IsSolution orders Ok fleet) : load fleet ≤ fleet.length * orders.length := by
  have hle := weight_le (fun w : VehiclePickDeliver K => w.ordersInVehicle.ids) fleet
  rw [h.once.length_eq, List.length_range] at hle
  exact hle

/-- `Optimize` ends, and what the moves keep holds of its fleets. -/
theorem optimize_ok (P : Order K → VehiclePickDeliver K → Prop)
    {sort : List (VehiclePickDeliver K) → List (VehiclePickDeliver K)} (times : Nat) {n : Nat}
    (hinsert : ∀ {w order o}, Ok w → o < orders.length → orders.Describes order o →
      o ∉ w.ordersInVehicle → P order w → Takes Ok o w (w.insert m order).2)
    (hm : Moves m kind orders Ok) (hsort : ∀ fleet, (sort fleet).Perm fleet) (hpos : orders ≠ [])
    (h : IsSolution orders Ok fleet) (hn : fleet.length * orders.length + 1 < n)
    (hP : ∀ c ∈ decreaseCalls m n (sortBySize sort { fleet := fleet, best := fleet }), P c.1 c.2) :
    ∃ r, optimize m kind sort times n fleet = some r ∧ Sound orders Ok fleet r := by
  have hstart : Sound orders Ok fleet { fleet := fleet, best := fleet } :=
    ⟨h, h, Nat.le_refl _, .refl⟩
  have hsorted := hstart.sortBySize hsort
  have hlen : (sortBySize sort { fleet := fleet, best := fleet }).fleet.length = fleet.length :=
    (List.length_insertionSort _ _).trans (hsort fleet).length_eq
  have hload := load_le hsorted.fleet
  rw [hlen] at hload
  obtain ⟨s₁, hdecrease, hsound₁⟩ := decreaseTruck_ok hinsert hm hsorted
    (.inl (by omega)) hP
  obtain ⟨s₂, hcycles, hsound₂⟩ := cycles_ok hm hpos times (hsound₁.sortBySize hsort)
  unfold optimize
  simp only [hdecrease, Option.bind_eq_bind, Option.bind_some, hcycles]
  refine ⟨_, rfl, ?_⟩
  apply Sound.sortBySize hsort
  exact hsound₂.with_fleet hsound₂.best (Nat.le_refl _)

end Optimize

end Vrp

end PgRouting
