import PgRouting.Spec.FillTruck

/-!
# The initial solution

Every round of `do_while_foo` takes a truck and fills it. The trucks that have been filled and
the orders that are left always make up all the orders. The loop can go on for ever: when the
truck to take is the last one that is left, or the phony truck, and it refuses every order,
the next round finds everything as this one did. And the last truck that is left can be taken
over and over again, although it is a real one.

## Key results

- `body_ok`: what a round keeps
- `initialSolution_iff`: the initial solution is complete iff no round is stuck and none takes a
  real truck again
-/

namespace PgRouting

namespace Vrp

open VehiclePickDeliver

variable {m : Dmatrix} {kind : InitialsCode} {p : PgrPickDeliver}
  {shape : List (Stop Nat) → Prop} {front i : Nat}

namespace Fleet

/-- The truck that is not used and may have the order. -/
def unUsedFor (fleet : Fleet) (order : Nat) : Option Nat :=
  fleet.unUsed.ids.find? fun i => (fleet.trucks.getD i default).feasableOrders.has order

variable {fleet : Fleet}

theorem getTruck_some (h : fleet.unUsedFor front = some i) : fleet.getTruck front =
    (fleet.trucks.getD i default,
      { fleet with
        used := fleet.used.add i
        unUsed := if 1 < fleet.unUsed.size then fleet.unUsed.remove i else fleet.unUsed }) := by
  unfold unUsedFor at h
  unfold getTruck
  rw [h]

theorem getTruck_none (h : fleet.unUsedFor front = none) :
    fleet.getTruck front = (fleet.trucks.getD (fleet.trucks.length - 1) default, fleet) := by
  unfold unUsedFor at h
  unfold getTruck
  rw [h]
  simp only
  rw [List.getLastD_eq_getLast?, List.getLast?_eq_getElem?, List.getD_eq_getElem?_getD]

end Fleet

namespace InitialSolution

/-- The round can take no other truck than the next round, and the truck refuses every order. -/
def Stuck (m : Dmatrix) (kind : InitialsCode) (s : InitialSolution) : Prop :=
  ∃ front, s.unassigned.front? = some front ∧
    (s.trucks.unUsedFor front = none ∨ s.trucks.unUsed.size ≤ 1) ∧
    ∀ o ∈ (s.trucks.getTruck front).1.feasableOrders, o ∈ s.unassigned →
      Refuses m kind (s.trucks.getTruck front).1 o

/-- The round takes a real truck that has been taken before. -/
def Repeats (s : InitialSolution) : Prop :=
  ∃ front i, s.unassigned.front? = some front ∧ s.trucks.unUsedFor front = some i ∧
    i ∈ s.trucks.used ∧ i + 1 < s.trucks.trucks.length

/-- No truck but the phony one, which is the last one, has been filled twice. -/
def RealOnce (trucks : Nat) (fleet : List VehiclePickDeliver) : Prop :=
  ∀ i, i + 1 < trucks → (fleet.map fun w => w.idx).count i ≤ 1

/-- What holds between two rounds. -/
structure RunOk (m : Dmatrix) (p : PgrPickDeliver) (shape : List (Stop Nat) → Prop)
    (s : InitialSolution) : Prop where
  trucks : s.trucks.trucks = p.trucks.trucks
  filled : ∀ w ∈ s.fleet, ∃ i, Filled m p.orders shape i w
  all : ((s.fleet.flatMap fun w => w.ordersInVehicle.ids) ++ s.unassigned.ids).Perm
    (List.range p.orders.length)
  unUsed_lt : ∀ i ∈ s.trucks.unUsed, i < p.trucks.trucks.length
  used : ∀ i ∈ s.trucks.used, i ∈ s.fleet.map fun w => w.idx
  taken : ∀ w ∈ s.fleet, w.idx ∈ s.trucks.used ∨ w.idx + 1 = p.trucks.trucks.length
  fresh : 1 < s.trucks.unUsed.size → ∀ i ∈ s.trucks.unUsed, i ∉ s.trucks.used

variable {s s' : InitialSolution}

theorem RunOk.lt (h : RunOk m p shape s) {o : Nat} (ho : o ∈ s.unassigned) :
    o < p.orders.length :=
  List.mem_range.mp (h.all.subset (List.mem_append_right _ ho))

theorem start_ok (h : Accepted m p) : RunOk m p shape (start p) := by
  refine ⟨rfl, fun w hw => absurd hw List.not_mem_nil, List.Perm.refl _, ?_, ?_,
    fun w hw => absurd hw List.not_mem_nil, ?_⟩
  · intro i hi
    change i ∈ p.trucks.unUsed at hi
    rw [h.unUsed] at hi
    exact Identifiers.mem_ofSize.mp hi
  · intro i hi
    change i ∈ p.trucks.used at hi
    rw [h.used] at hi
    exact absurd hi Identifiers.not_mem_empty
  · intro _ i _
    show i ∉ p.trucks.used
    rw [h.used]
    exact Identifiers.not_mem_empty

/-- The truck of a round is ready, and what the round does to the used and the unused trucks. -/
theorem getTruck_ready (front : Nat) (hp : Accepted m p) (h : RunOk m p shape s) :
    ∃ i < p.trucks.trucks.length, ReadyTruck m p.orders i (s.trucks.getTruck front).1 ∧
      (s.trucks.getTruck front).2.trucks = s.trucks.trucks ∧
      (s.trucks.unUsedFor front = some i ∧ i ∈ s.trucks.unUsed ∧
          (s.trucks.getTruck front).2.used = s.trucks.used.add i ∧
          (s.trucks.getTruck front).2.unUsed =
            (if 1 < s.trucks.unUsed.size then s.trucks.unUsed.remove i else s.trucks.unUsed) ∨
        s.trucks.unUsedFor front = none ∧ i + 1 = p.trucks.trucks.length ∧
          (s.trucks.getTruck front).2 = s.trucks) := by
  cases hfor : s.trucks.unUsedFor front with
  | some i =>
    have hmem : i ∈ s.trucks.unUsed := List.mem_of_find?_eq_some hfor
    have hlt := h.unUsed_lt i hmem
    rw [Fleet.getTruck_some hfor]
    refine ⟨i, hlt, ?_, rfl, .inl ⟨rfl, hmem, rfl, rfl⟩⟩
    rw [h.trucks]
    exact hp.ready i hlt
  | none =>
    have hpos := List.length_pos_of_ne_nil hp.ne_nil
    rw [Fleet.getTruck_none hfor]
    refine ⟨p.trucks.trucks.length - 1, by omega, ?_, rfl, .inr ⟨rfl, by omega, rfl⟩⟩
    rw [h.trucks]
    exact hp.ready _ (by omega)

/-- One round of the loop. -/
theorem body_next (hb : body m kind s = .next s') : ∃ front, s.unassigned.front? = some front ∧
    s' =
      { trucks := (s.trucks.getTruck front).2
        unassigned := ((s.trucks.getTruck front).1.doWhileFeasable m kind s.unassigned
          s.assigned).unassigned
        assigned := ((s.trucks.getTruck front).1.doWhileFeasable m kind s.unassigned
          s.assigned).assigned
        fleet := s.fleet ++ [((s.trucks.getTruck front).1.doWhileFeasable m kind s.unassigned
          s.assigned).vehicle] } := by
  unfold body at hb
  split at hb
  · cases hb
  · rename_i front hfront
    exact ⟨front, hfront, (LoopStep.next.inj hb).symm⟩

/-- What a round keeps. -/
theorem body_ok (hp : Accepted m p) (hshape : KeepsShape m kind p.orders shape) (hnil : shape [])
    (h : RunOk m p shape s) (hb : body m kind s = .next s') : RunOk m p shape s' := by
  obtain ⟨front, hfront, rfl⟩ := body_next hb
  obtain ⟨i, hi, hready, htrucks, hcases⟩ := getTruck_ready front hp h
  have hend := (doWhileFeasable_ok s.assigned hp.valid hshape hnil hready
    fun o ho => h.lt ho).1
  generalize (s.trucks.getTruck front).1.doWhileFeasable m kind s.unassigned s.assigned = filled
    at hend
  refine ⟨htrucks.trans h.trucks, ?_, ?_, ?_, ?_, ?_, ?_⟩
  · -- The trucks that stand in the fleet are well formed, and so is the new one.
    intro w hw
    obtain hw | hw := List.mem_append.mp hw
    · exact h.filled w hw
    · rw [List.mem_singleton.mp hw]
      exact ⟨i, hend.filled⟩
  · -- An order is in one truck or still unassigned: the new truck only moves some over.
    have hsplit : (filled.vehicle.ordersInVehicle.ids ++ filled.unassigned.ids).Perm
        s.unassigned.ids := by
      apply (List.perm_ext_iff_of_nodup _ Identifiers.nodup).mpr
      · intro o
        rw [List.mem_append]
        exact or_comm.trans (hend.all o).symm
      · apply List.Nodup.append Identifiers.nodup Identifiers.nodup
        -- No order is on both sides.
        intro o ho hun
        exact hend.once o hun ho
    show (((s.fleet ++ [filled.vehicle]).flatMap fun w => w.ordersInVehicle.ids) ++
      filled.unassigned.ids).Perm _
    rw [List.flatMap_append, List.append_assoc, List.flatMap_singleton]
    exact (hsplit.append_left _).trans h.all
  · intro j hj
    obtain ⟨_, _, _, hunUsed⟩ | ⟨_, _, hsame⟩ := hcases
    · rw [hunUsed] at hj
      split at hj
      · exact h.unUsed_lt j (Identifiers.mem_remove.mp hj).1
      · exact h.unUsed_lt j hj
    · rw [hsame] at hj
      exact h.unUsed_lt j hj
  · intro j hj
    show j ∈ (s.fleet ++ [filled.vehicle]).map fun w => w.idx
    rw [List.map_append, List.mem_append]
    obtain ⟨_, _, hused, _⟩ | ⟨_, _, hsame⟩ := hcases
    · rw [hused, Identifiers.mem_add] at hj
      obtain rfl | hj := hj
      · right
        rw [List.map_singleton, hend.filled.idx]
        exact List.mem_singleton_self _
      · exact .inl (h.used j hj)
    · rw [hsame] at hj
      exact .inl (h.used j hj)
  · intro w hw
    obtain hw | hw := List.mem_append.mp hw
    · obtain htaken | hlast := h.taken w hw
      · left
        obtain ⟨_, _, hused, _⟩ | ⟨_, _, hsame⟩ := hcases
        · rw [hused, Identifiers.mem_add]
          exact .inr htaken
        · rw [hsame]
          exact htaken
      · exact .inr hlast
    · rw [List.mem_singleton.mp hw, hend.filled.idx]
      obtain ⟨_, _, hused, _⟩ | ⟨_, hlast, _⟩ := hcases
      · left
        rw [hused, Identifiers.mem_add]
        exact .inl rfl
      · exact .inr hlast
  · -- Two trucks left and more: the one that was taken is removed, so the others stay fresh.
    intro hsize j hj
    obtain ⟨_, hmem, hused, hunUsed⟩ | ⟨_, _, hsame⟩ := hcases
    · rw [hunUsed] at hsize hj
      rw [hused, Identifiers.mem_add, not_or]
      split at hj
      · rename_i hmany
        rw [Identifiers.mem_remove] at hj
        exact ⟨hj.2, h.fresh hmany j hj.1⟩
      · rename_i hone
        rw [if_neg hone] at hsize
        exact absurd hsize hone
    · rw [hsame] at hsize hj ⊢
      exact h.fresh hsize j hj

/-- A round that is not stuck assigns an order or uses up a truck. -/
theorem body_progress (hp : Accepted m p) (hshape : KeepsShape m kind p.orders shape)
    (hnil : shape []) (h : RunOk m p shape s) (hstuck : ¬ Stuck m kind s)
    (hb : body m kind s = .next s') :
    s'.unassigned.size + s'.trucks.unUsed.size < s.unassigned.size + s.trucks.unUsed.size := by
  obtain ⟨front, hfront, rfl⟩ := body_next hb
  obtain ⟨i, hi, hready, _, hcases⟩ := getTruck_ready front hp h
  obtain ⟨hend, hrefuses⟩ := doWhileFeasable_ok s.assigned hp.valid hshape hnil
    hready fun o ho => h.lt ho
  generalize (s.trucks.getTruck front).1.doWhileFeasable m kind s.unassigned s.assigned = filled
    at hend hrefuses
  have hsub : ∀ o ∈ filled.unassigned, o ∈ s.unassigned := fun o ho => (hend.all o).mpr (.inl ho)
  have hle := Identifiers.size_le hsub
  have hunUsed : (s.trucks.getTruck front).2.unUsed.size ≤ s.trucks.unUsed.size := by
    obtain ⟨_, hmem, _, hunUsed⟩ | ⟨_, _, hsame⟩ := hcases
    · rw [hunUsed]
      split
      · have hsize := Identifiers.size_remove hmem
        omega
      · exact Nat.le_refl _
    · rw [hsame]
  show filled.unassigned.size + (s.trucks.getTruck front).2.unUsed.size < _
  by_cases hsame : filled.unassigned = s.unassigned
  · -- No order has been assigned, so that a truck must be used up.
    obtain ⟨hfor, hmem, _, hless⟩ | ⟨hnone, _, _⟩ := hcases
    · have hmany : 1 < s.trucks.unUsed.size := by
        by_contra hone
        exact hstuck ⟨front, hfront, .inr (by omega), hrefuses.mp hsame⟩
      rw [if_pos hmany] at hless
      have hsize := Identifiers.size_remove hmem
      rw [← hless] at hsize
      omega
    · exact absurd ⟨front, hfront, .inl hnone, hrefuses.mp hsame⟩ hstuck
  · have hlt := Identifiers.size_lt hsub hsame
    omega

/-- A stuck round finds the next round stuck. -/
theorem Stuck.next (hp : Accepted m p) (hshape : KeepsShape m kind p.orders shape)
    (hnil : shape []) (h : RunOk m p shape s) (hstuck : Stuck m kind s)
    (hb : body m kind s = .next s') : Stuck m kind s' := by
  obtain ⟨front, hfront, rfl⟩ := body_next hb
  obtain ⟨front', hfront', hlast, hall⟩ := hstuck
  rw [hfront, Option.some.injEq] at hfront'
  rw [← hfront'] at hlast hall
  obtain ⟨i, hi, hready, htrucks, hcases⟩ := getTruck_ready front hp h
  obtain ⟨_, hrefuses⟩ := doWhileFeasable_ok s.assigned hp.valid hshape hnil
    hready fun o ho => h.lt ho
  have hsame := hrefuses.mpr hall
  have hunUsed : (s.trucks.getTruck front).2.unUsed = s.trucks.unUsed := by
    obtain ⟨hfor, _, _, hunUsed⟩ | ⟨_, _, hsame⟩ := hcases
    · obtain hnone | hone := hlast
      · rw [hnone] at hfor
        cases hfor
      · rw [hunUsed, if_neg (by omega)]
    · rw [hsame]
  have hfor : (s.trucks.getTruck front).2.unUsedFor front = s.trucks.unUsedFor front := by
    unfold Fleet.unUsedFor
    rw [hunUsed, htrucks]
  -- The round hands out the truck that the round before has handed out.
  have htruck : ((s.trucks.getTruck front).2.getTruck front).1 = (s.trucks.getTruck front).1 := by
    cases hnext : s.trucks.unUsedFor front with
    | some i => rw [Fleet.getTruck_some (hfor.trans hnext), Fleet.getTruck_some hnext]
    | none =>
      rw [Fleet.getTruck_none (hfor.trans hnext), htrucks, Fleet.getTruck_none hnext]
  refine ⟨front, ?_, ?_, ?_⟩
  · show Identifiers.front? _ = some front
    rw [hsame]
    exact hfront
  · show (s.trucks.getTruck front).2.unUsedFor front = none ∨
      (s.trucks.getTruck front).2.unUsed.size ≤ 1
    rw [hfor, hunUsed]
    exact hlast
  · show ∀ o ∈ ((s.trucks.getTruck front).2.getTruck front).1.feasableOrders, _
    rw [htruck]
    intro o ho hun
    apply hall o ho
    rw [← hsame]
    exact hun

/-- A loop that is stuck does not end. -/
theorem Stuck.runLoop (hp : Accepted m p) (hshape : KeepsShape m kind p.orders shape)
    (hnil : shape []) (h : RunOk m p shape s) (hstuck : Stuck m kind s) (n : Nat) :
    PgRouting.runLoop (body m kind) n s = none := by
  induction n generalizing s with
  | zero => rfl
  | succ n ih =>
    obtain ⟨front, hfront, _⟩ := id hstuck
    cases hb : body m kind s with
    | next s' =>
      rw [runLoop_next hb]
      exact ih (body_ok hp hshape hnil h hb) (hstuck.next hp hshape hnil h hb)
    | done r =>
      unfold body at hb
      rw [hfront] at hb
      cases hb

/-- The fleet only grows. -/
theorem body_fleet (hb : body m kind s = .next s') : s.fleet <+: s'.fleet := by
  obtain ⟨front, _, rfl⟩ := body_next hb
  exact List.prefix_append _ _

theorem RealOnce.of_prefix {n : Nat} {fleet fleet' : List VehiclePickDeliver}
    (h : RealOnce n fleet') (hpre : fleet <+: fleet') : RealOnce n fleet :=
  fun i hi => ((hpre.sublist.map _).count_le i).trans (h i hi)

/-- The vehicle that a round adds to the fleet. -/
theorem body_idx (hp : Accepted m p) (hshape : KeepsShape m kind p.orders shape)
    (hnil : shape []) (h : RunOk m p shape s) (hfront : s.unassigned.front? = some front)
    (hb : body m kind s = .next s') :
    ∃ w, s'.fleet = s.fleet ++ [w] ∧
      (s.trucks.unUsedFor front = some w.idx ∨
        s.trucks.unUsedFor front = none ∧ w.idx + 1 = p.trucks.trucks.length) := by
  obtain ⟨front', hfront', rfl⟩ := body_next hb
  rw [hfront, Option.some.injEq] at hfront'
  rw [← hfront']
  obtain ⟨i, hi, hready, _, hcases⟩ := getTruck_ready front hp h
  have hend := (doWhileFeasable_ok s.assigned hp.valid hshape hnil hready
    fun o ho => h.lt ho).1
  refine ⟨_, rfl, ?_⟩
  rw [hend.filled.idx]
  obtain ⟨hfor, _, _, _⟩ | ⟨hnone, hlast, _⟩ := hcases
  · exact .inl hfor
  · exact .inr ⟨hnone, hlast⟩

/-- A round that takes no real truck again keeps the real trucks different. -/
theorem RealOnce.next (hp : Accepted m p) (hshape : KeepsShape m kind p.orders shape)
    (hnil : shape []) (h : RunOk m p shape s) (hrepeats : ¬ Repeats s)
    (hb : body m kind s = .next s') (honce : RealOnce p.trucks.trucks.length s.fleet) :
    RealOnce p.trucks.trucks.length s'.fleet := by
  obtain ⟨front, hfront, _⟩ := body_next hb
  obtain ⟨w, hfleet, hcases⟩ := body_idx hp hshape hnil h hfront hb
  intro i hi
  have hi' := honce i hi
  rw [hfleet, List.map_append, List.count_append, List.map_singleton]
  by_cases hw : w.idx = i
  · have hfor : s.trucks.unUsedFor front = some i := by
      obtain hfor | ⟨_, hlast⟩ := hcases
      · rw [← hw]
        exact hfor
      · omega
    have hnot : i ∉ s.fleet.map fun w => w.idx := by
      intro hmem
      obtain ⟨w', hw', hidx⟩ := List.mem_map.mp hmem
      obtain hused | hlast := h.taken w' hw'
      · rw [hidx] at hused
        exact hrepeats ⟨front, i, hfront, hfor, hused, by rw [h.trucks]; exact hi⟩
      · omega
    rw [List.count_eq_zero_of_not_mem hnot, hw, List.count_singleton_self]
  · have hne : i ∉ [w.idx] := by
      rw [List.mem_singleton]
      exact fun heq => hw heq.symm
    rw [List.count_eq_zero_of_not_mem hne]
    exact hi'

/-- A round that takes a real truck again has it twice in the fleet. -/
theorem Repeats.next (hp : Accepted m p) (hshape : KeepsShape m kind p.orders shape)
    (hnil : shape []) (h : RunOk m p shape s) (hrepeats : Repeats s)
    (hb : body m kind s = .next s') : ¬ RealOnce p.trucks.trucks.length s'.fleet := by
  obtain ⟨front, i, hfront, hfor, hused, hreal⟩ := hrepeats
  obtain ⟨w, hfleet, hcases⟩ := body_idx hp hshape hnil h hfront hb
  have hidx : w.idx = i := by
    obtain hsame | ⟨hnone, _⟩ := hcases
    · rw [hfor, Option.some.injEq] at hsame
      exact hsame.symm
    · rw [hfor] at hnone
      cases hnone
  have hcount : 0 < (s.fleet.map fun w => w.idx).count i := List.count_pos_iff.mpr (h.used i hused)
  intro honce
  have hi := honce i (by rw [← h.trucks]; exact hreal)
  rw [hfleet, List.map_append, List.count_append, List.map_singleton, hidx,
    List.count_singleton_self] at hi
  omega

/-- Any shape of the stops. -/
theorem keepsShape_true {orders : PDOrders} : KeepsShape m kind orders fun _ => True :=
  fun _ _ => trivial

/-- The loop ends when no order is left. -/
theorem body_done (hdone : body m kind s = .done s') : s' = s ∧ s.unassigned.front? = none := by
  unfold body at hdone
  split at hdone
  · rename_i hend
    exact ⟨(LoopStep.done.inj hdone).symm, hend⟩
  · cases hdone

/-- What holds when the loop has ended. -/
theorem initialSolution_ok (hp : Accepted m p) (hshape : KeepsShape m kind p.orders shape)
    (hnil : shape []) {n : Nat} (hs : initialSolution m kind p n = some s) :
    RunOk m p shape s ∧ s.unassigned.front? = none := by
  obtain ⟨t, ht, hdone⟩ := runLoop_exit hs
  obtain ⟨rfl, hend⟩ := body_done hdone
  exact ⟨ht.invariant (fun _ _ hok hb => body_ok hp hshape hnil hok hb) (start_ok hp), hend⟩

/-- What has been filled when the loop has ended. -/
theorem RunOk.solution {Ok : VehiclePickDeliver → Prop} (h : RunOk m p shape s)
    (hend : s.unassigned.front? = none)
    (hok : ∀ {i w}, Filled m p.orders shape i w → Ok w) : IsSolution p.orders Ok s.fleet := by
  constructor
  · intro w hw
    obtain ⟨i, hfilled⟩ := h.filled w hw
    exact hok hfilled
  · have hnil : s.unassigned.ids = [] := List.head?_eq_none_iff.mp hend
    have hall := h.all
    rw [hnil, List.append_nil] at hall
    exact hall

theorem Filled.servesFeasible {w : VehiclePickDeliver} (h : Filled m p.orders shape i w) :
    ServesFeasible m p.orders w := by
  obtain ⟨sites, stops, hroute, _⟩ := h.onRoute
  exact ⟨h.feasible, sites, stops, hroute⟩

/-- The initial solution of an accepted problem is found, with every order in exactly one of its
    vehicles, every vehicle feasible and no real vehicle in it twice, if and only if no round of
    the loop is stuck with a truck that refuses every order and none takes a real truck again. -/
theorem initialSolution_iff (m : Dmatrix) (pdOrders : List OrdersT) (first : VehicleT)
    (others : List VehicleT) (factor : ℚ) (kind : InitialsCode) (p : PgrPickDeliver)
    (h : PgrPickDeliver.new m pdOrders first others factor = .ok p) :
    (∃ n s, initialSolution m kind p n = some s ∧
      IsSolution p.orders (ServesFeasible m p.orders) s.fleet ∧
      RealOnce p.trucks.trucks.length s.fleet) ↔
    ∀ s, Reaches (body m kind) (start p) s → ¬ Stuck m kind s ∧ ¬ Repeats s := by
  have hp := new_accepted h
  have hrun : ∀ s, Reaches (body m kind) (start p) s → RunOk m p (fun _ => True) s :=
    fun s hs => hs.invariant (fun s s' hok hb => body_ok hp keepsShape_true trivial hok hb)
      (start_ok hp)
  constructor
  · -- A round that is stuck never ends the loop, and one that repeats leaves a truck twice for
    -- good.
    intro hends s hs
    obtain ⟨n, r, hr, _, honce⟩ := hends
    obtain ⟨k, hk⟩ := hs.runLoop hr
    constructor
    · intro hstuck
      rw [hstuck.runLoop hp keepsShape_true trivial (hrun s hs) k] at hk
      cases hk
    · intro hrepeats
      obtain ⟨t, ht, hdone⟩ := runLoop_exit hk
      obtain ⟨front, i, hfront, _⟩ := id hrepeats
      obtain ⟨hr', hend⟩ := body_done hdone
      obtain rfl | ⟨s', hb, hs'⟩ := Relation.ReflTransGen.cases_head ht
      · rw [hfront] at hend
        cases hend
      · apply hrepeats.next hp keepsShape_true trivial (hrun s hs) hb
        apply honce.of_prefix
        rw [hr']
        exact Reaches.invariant (I := fun t => s'.fleet <+: t.fleet)
          (fun _ _ hpre hb => hpre.trans (body_fleet hb)) hs' (List.prefix_refl _)
  · -- Every round takes an order or a truck away.
    intro hfine
    have hstart : Reaches (body m kind) (start p) (start p) := .refl
    obtain ⟨r, hr⟩ := runLoop_of_measure
      (I := fun s => Reaches (body m kind) (start p) s)
      (fun s => s.unassigned.size + s.trucks.unUsed.size)
      (fun s s' hs hb => ⟨hs.tail hb,
        body_progress hp keepsShape_true trivial (hrun s hs) (hfine s hs).1 hb⟩)
      hstart (Nat.lt_succ_self _)
    obtain ⟨t, ht, hdone⟩ := runLoop_exit hr
    obtain ⟨_, honce⟩ := Reaches.invariant
      (I := fun t => Reaches (body m kind) (start p) t ∧ RealOnce p.trucks.trucks.length t.fleet)
      (fun s s' hs hb => ⟨hs.1.tail hb, hs.2.next hp keepsShape_true trivial (hrun s hs.1)
        (hfine s hs.1).2 hb⟩)
      ht ⟨hstart, fun i _ => Nat.zero_le 1⟩
    obtain ⟨rfl, hend⟩ := body_done hdone
    exact ⟨_, _, hr, (hrun _ ht).solution hend Filled.servesFeasible, honce⟩

/-! ## A real truck that is taken twice -/

/-- Three places on a line, the depot at 1. -/
def lineMatrix : Dmatrix where
  ids := [1, 2, 3]
  distance a b := ((a - b).natAbs : ℚ)

/-- One vehicle at the depot, for one unit. -/
def lineVehicle : VehicleT where
  id := 1
  capacity := ((1 : ℚ) : WithTop ℚ)
  speed := 1
  startNodeId := 1
  cantV := 1
  startOpenT := 0
  startCloseT := ((100 : ℚ) : WithTop ℚ)
  startServiceT := 0
  endNodeId := 1
  endOpenT := 0
  endCloseT := ((100 : ℚ) : WithTop ℚ)
  endServiceT := 0

/-- Two vehicles for two units each. -/
def pairVehicle : VehicleT :=
  { lineVehicle with capacity := ((2 : ℚ) : WithTop ℚ), cantV := 2 }

/-- An order from the depot to a place. -/
def lineOrder (id : Int) (demand : ℚ) (place : Int) : OrdersT where
  id := id
  demand := demand
  pickNodeId := 1
  pickOpenT := 0
  pickCloseT := ((100 : ℚ) : WithTop ℚ)
  pickServiceT := 0
  deliverNodeId := place
  deliverOpenT := 0
  deliverCloseT := ((100 : ℚ) : WithTop ℚ)
  deliverServiceT := 0

/-- The problem with some orders. -/
def lineProblem (orders : List OrdersT) : Except String PgrPickDeliver :=
  PgrPickDeliver.new lineMatrix orders lineVehicle [] 1

theorem eq_ok_of_isOk {α : Type} (x : Except String α) (h : x.isOk = true) :
    ∃ a, x = .ok a := by
  cases x with
  | error e => cases h
  | ok a => exact ⟨a, rfl⟩

/-- The first order is too much for the vehicle, so that the phony truck takes it. The vehicle is
    left as the only truck and takes each of the other two orders. -/
theorem initialSolution_repeats : ∃ p,
    lineProblem [lineOrder 1 2 2, lineOrder 2 1 2, lineOrder 3 1 2] = .ok p ∧
      ¬ ∃ n s, initialSolution lineMatrix .onePerTruck p n = some s ∧
        IsSolution p.orders (ServesFeasible lineMatrix p.orders) s.fleet ∧
        RealOnce p.trucks.trucks.length s.fleet := by
  obtain ⟨p, hp⟩ := eq_ok_of_isOk
    (lineProblem [lineOrder 1 2 2, lineOrder 2 1 2, lineOrder 3 1 2]) (by decide +kernel)
  have hrun : (lineProblem [lineOrder 1 2 2, lineOrder 2 1 2, lineOrder 3 1 2]).toOption.map
      (fun p => (p.trucks.trucks.length, (initialSolution lineMatrix .onePerTruck p 4).map
        fun s => s.fleet.map fun w => w.idx)) = some (2, some [1, 0, 0]) := by
    decide +kernel
  rw [hp] at hrun
  simp only [Except.toOption, Option.map_some, Option.some.injEq, Prod.mk.injEq,
    Option.map_eq_some_iff] at hrun
  obtain ⟨htrucks, r, hr, hidx⟩ := hrun
  refine ⟨p, hp, ?_⟩
  intro hends
  obtain ⟨n, s, hs, _, honce⟩ := hends
  have hsame : r = s := by
    have hr' := runLoop_mono hr (Nat.le_max_left 4 n)
    have hs' := runLoop_mono hs (Nat.le_max_right 4 n)
    rw [hr', Option.some.injEq] at hs'
    exact hs'
  have htwo := honce 0 (by omega)
  rw [← hsame, hidx] at htwo
  exact absurd htwo (by decide)

/-- Two of the orders fit into the first vehicle one after the other. The third one is too much for
    it and goes to one of the other two. -/
theorem initialSolution_iff_line : ∃ p,
    PgrPickDeliver.new lineMatrix [lineOrder 1 1 2, lineOrder 2 2 3, lineOrder 3 1 3] lineVehicle
      [pairVehicle] 1 = .ok p ∧
    (initialSolution lineMatrix .bestInsert p 4).map
      (fun s => s.fleet.map fun w => w.ordersInVehicle.ids) = some [[0, 2], [1]] ∧
    ((∃ n s, initialSolution lineMatrix .bestInsert p n = some s ∧
      IsSolution p.orders (ServesFeasible lineMatrix p.orders) s.fleet ∧
      RealOnce p.trucks.trucks.length s.fleet) ↔
    ∀ s, Reaches (body lineMatrix .bestInsert) (start p) s →
      ¬ Stuck lineMatrix .bestInsert s ∧ ¬ Repeats s) := by
  obtain ⟨p, hp⟩ := eq_ok_of_isOk (PgrPickDeliver.new lineMatrix
    [lineOrder 1 1 2, lineOrder 2 2 3, lineOrder 3 1 3] lineVehicle [pairVehicle] 1)
    (by decide +kernel)
  have hrun : (PgrPickDeliver.new lineMatrix
      [lineOrder 1 1 2, lineOrder 2 2 3, lineOrder 3 1 3] lineVehicle [pairVehicle] 1).toOption.map
        (fun p => (initialSolution lineMatrix .bestInsert p 4).map
          fun s => s.fleet.map fun w => w.ordersInVehicle.ids) = some (some [[0, 2], [1]]) := by
    decide +kernel
  rw [hp] at hrun
  simp only [Except.toOption, Option.map_some, Option.some.injEq] at hrun
  exact ⟨p, hp, hrun, initialSolution_iff lineMatrix _ lineVehicle [pairVehicle] 1 .bestInsert p hp⟩

end InitialSolution

end Vrp

end PgRouting
