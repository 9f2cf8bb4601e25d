import PgRouting.Native.PickDeliver
import PgRouting.Spec.Vehicle

/-!
# The place where an order is inserted

`insert` tries the pickup and the delivery at the positions within their limits, undoes every
try, and then inserts both at the best positions. Nothing here depends on how sums are rounded.

## Key results

- `searchPlace_onPath`: the search finds the best feasible place within the limits
- `Visits.insertsBest`: `insert` takes the best of the places within the limits
-/

namespace PgRouting

namespace Vrp

variable {K : Type} [Numbers K]

/-- The travel times at a speed satisfy the triangle inequality. -/
def TriangleInequality (m : Dmatrix K) (speed : K) : Prop :=
  ∀ a b c, m.distance a c / speed ≤ m.distance a b / speed + m.distance b c / speed

namespace Vehicle

variable {m : Dmatrix K} {w : Vehicle K} {node : TwNode K} {n k p : Nat}

/-! ## The limits of a node -/

variable (w node) in
theorem posLowLoop_le : w.posLowLoop m node n ≤ n := by
  induction n with
  | zero => exact le_refl 0
  | succ n ih =>
    unfold posLowLoop
    split
    · exact le_refl _
    · split <;> omega

theorem posHighLoop_le (nodeJ : TwNode K) {l : List (VehicleNode K)} {e : VehicleNode K}
    (high : Nat) (he : l[k]? = some e) (hend : e.type = .kEnd) :
    w.posHighLoop m nodeJ l high ≤ high + k := by
  induction l generalizing k high with
  | nil => simp at he
  | cons i rest ih =>
    unfold posHighLoop
    cases k with
    | zero =>
      have hi : i.type = .kEnd := by
        rw [List.getElem?_cons_zero, Option.some.injEq] at he
        rw [he]
        exact hend
      have hnot : nodeJ.isCompatibleIJ m i.toTwNode w.speed = false := by
        unfold TwNode.isCompatibleIJ
        rw [hi]
        simp
      rw [hnot]
      exact Nat.le_add_right _ _
    | succ k =>
      split
      · have hrest := ih (high + 1) (by simpa using he)
        omega
      · omega

theorem posLowLoop_pos {nodeI : TwNode K} {first : VehicleNode K}
    (hfirst : w.path[0]? = some first) (hstart : first.type = .kStart) (hn : 0 < n) :
    0 < w.posLowLoop m nodeI n := by
  induction n with
  | zero => exact absurd hn (lt_irrefl 0)
  | succ n ih =>
    unfold posLowLoop
    split
    · exact Nat.succ_pos n
    · rename_i j hj
      split
      · rename_i hcompatible
        apply ih
        -- The starting site stops the loop.
        apply Nat.pos_of_ne_zero
        intro hzero
        rw [hzero, hfirst, Option.some.injEq] at hj
        unfold TwNode.isCompatibleIJ at hcompatible
        rw [← hj, hstart] at hcompatible
        simp at hcompatible
      · exact Nat.succ_pos n

end Vehicle

namespace VehiclePickDeliver

open Vehicle

variable (m : Dmatrix K) (site finish : TwNode K)

/-- The vehicle with an evaluated path, from the one site along the nodes to the other. -/
def onPath (v : VehiclePickDeliver K) (nodes : List (TwNode K)) (ids : Identifiers Nat) :
    VehiclePickDeliver K :=
  { v with
    toVehicle := v.toVehicle.drive m site (nodes ++ [finish])
    ordersInVehicle := ids }

/-- The nodes with the order, its pickup at `p` and its delivery at `q`. -/
def withOrder (nodes : List (TwNode K)) (order : Order K) (p q : Nat) : List (TwNode K) :=
  (nodes.insertIdx p order.pickup.toTwNode).insertIdx q order.delivery.toTwNode

variable {m site finish} {v : VehiclePickDeliver K} {nodes : List (TwNode K)}
  {ids : Identifiers Nat} {order : Order K} {p q : Nat}

@[simp] theorem onPath_ids : (v.onPath m site finish nodes ids).ordersInVehicle = ids := rfl

@[simp] theorem onPath_speed : (v.onPath m site finish nodes ids).speed = v.speed := rfl

/-- No node, nor the ending site, adapts its demand. -/
def NoDump (finish : TwNode K) (nodes : List (TwNode K)) : Prop :=
  ∀ n ∈ nodes ++ [finish], n.type ≠ .kDump

omit [Numbers K] in
theorem NoDump.insertIdx (h : NoDump finish nodes) {n : TwNode K} (hn : n.type ≠ .kDump) :
    NoDump finish (nodes.insertIdx p n) := by
  intro x hx
  obtain hx | hx := List.mem_append.mp hx
  · obtain rfl | hx := List.eq_or_mem_of_mem_insertIdx hx
    · exact hn
    · exact h x (List.mem_append_left _ hx)
  · exact h x (List.mem_append_right _ hx)

section

variable (hsite : site.isStart = true) (hdump : NoDump finish nodes)
include hsite hdump

variable (v ids) in
theorem insertNode_onPath (n : VehicleNode K) (hp : p ≤ nodes.length) :
    (v.onPath m site finish nodes ids).insertNode m (p + 1) n =
      v.onPath m site finish (nodes.insertIdx p n.toTwNode) ids := by
  unfold insertNode onPath
  simp only
  rw [insert_drive hsite hdump, insertIdx_append_of_le hp]

variable (v ids) in
theorem eraseNodeAt_onPath (hp : p < nodes.length) :
    (v.onPath m site finish nodes ids).eraseNodeAt m (p + 1) =
      v.onPath m site finish (nodes.eraseIdx p) ids := by
  unfold eraseNodeAt onPath
  simp only
  rw [eraseAt_drive hsite hdump, List.eraseIdx_append_of_lt_length hp]

omit hsite in
variable (m site v ids) in
theorem onPath_nodes : (v.onPath m site finish nodes ids).path.map VehicleNode.toTwNode =
    site :: (nodes ++ [finish]) :=
  drive_nodes hdump

end

/-! ## The search -/

section

variable (m site finish v nodes order)

/-- Whether the vehicle is feasible with the order at the positions. -/
def Fitting (p q : Nat) : Prop :=
  (v.toVehicle.drive m site (withOrder nodes order p q ++ [finish])).isFeasable = true

/-- The duration with the order at the positions. -/
def durationAt (p q : Nat) : K :=
  (v.toVehicle.drive m site (withOrder nodes order p q ++ [finish])).duration

/-- The place is the best one of those that have been tried. -/
structure Best (d : K) (tried : Nat → Nat → Prop) (best : BestPlace K) : Prop where
  found : best.found = true → ∃ p q, tried p q ∧ v.Fitting m site finish nodes order p q ∧
    best.bestPickPos = p + 1 ∧ best.bestDeliverPos = q + 1 ∧
    best.minDeltaDuration = ((v.durationAt m site finish nodes order p q - d : K) : WithTop K)
  least : ∀ p q, tried p q → v.Fitting m site finish nodes order p q → best.found = true ∧
    ¬ ((v.durationAt m site finish nodes order p q - d : K) : WithTop K) < best.minDeltaDuration
  none : best.found = false → best.minDeltaDuration = ⊤

end

variable {d : K} {tried tried' : Nat → Nat → Prop} {best : BestPlace K}

theorem Best.congr (h : v.Best m site finish nodes order d tried best)
    (heq : ∀ p q, tried p q ↔ tried' p q) : v.Best m site finish nodes order d tried' best := by
  have hsame : tried = tried' := by
    funext p q
    exact propext (heq p q)
  exact hsame ▸ h

/-- Trying one more place. -/
theorem Best.step {b : Bool} {e : K} (h : v.Best m site finish nodes order d tried best) (p q : Nat)
    (hfit : b = true ↔ v.Fitting m site finish nodes order p q)
    (hduration : e = v.durationAt m site finish nodes order p q - d) :
    v.Best m site finish nodes order d (fun p' q' => tried p' q' ∨ p' = p ∧ q' = q)
      (if b && decide (((e : K) : WithTop K) < best.minDeltaDuration) then
        ⟨true, p + 1, q + 1, ((e : K) : WithTop K)⟩ else best) := by
  subst hduration
  split
  · -- The new place is feasible and shorter than the best so far.
    rename_i hnow
    rw [Bool.and_eq_true, decide_eq_true_eq] at hnow
    refine ⟨fun _ => ⟨p, q, .inr ⟨rfl, rfl⟩, hfit.mp hnow.1, rfl, rfl, rfl⟩, ?_, ?_⟩
    · rintro p' q' (htried | ⟨rfl, rfl⟩) hfeasible
      · refine ⟨rfl, fun hlt => ?_⟩
        exact (h.least p' q' htried hfeasible).2 (Numbers.withTop_lt_trans hlt hnow.2)
      · exact ⟨rfl, Numbers.withTop_lt_irrefl _⟩
    · intro hno
      exact absurd hno.symm Bool.false_ne_true
  · rename_i hnot
    refine ⟨fun hfound => ?_, ?_, h.none⟩
    · obtain ⟨p', q', htried, hrest⟩ := h.found hfound
      exact ⟨p', q', .inl htried, hrest⟩
    · rintro p' q' (htried | ⟨rfl, rfl⟩) hfeasible
      · exact h.least p' q' htried hfeasible
      · -- Not shorter than the best place, so there is one.
        have hge : ¬ ((v.durationAt m site finish nodes order p' q' - d : K) : WithTop K) <
            best.minDeltaDuration := by
          rw [Bool.and_eq_true, decide_eq_true_eq, not_and] at hnot
          exact hnot (hfit.mpr hfeasible)
        refine ⟨?_, hge⟩
        cases hfound : best.found with
        | true => rfl
        | false =>
          rw [h.none hfound] at hge
          exact absurd (WithTop.coe_lt_top _) hge

section

variable (hsite : site.isStart = true) (hdump : NoDump finish nodes)
  (hpickup : order.pickup.type ≠ .kDump) (hdelivery : order.delivery.type ≠ .kDump)
include hsite hdump hpickup hdelivery

omit hdelivery in
variable (v ids) in
/-- Both nodes of the order are inserted. -/
theorem insertNodes_onPath (hpq : p < q) (hq : q ≤ nodes.length + 1) :
    ((v.onPath m site finish nodes ids).insertNode m (p + 1) order.pickup).insertNode m (q + 1)
        order.delivery = v.onPath m site finish (withOrder nodes order p q) ids := by
  have hlen : (nodes.insertIdx p order.pickup.toTwNode).length = nodes.length + 1 :=
    List.length_insertIdx_of_le_length (by omega) _
  rw [insertNode_onPath v ids hsite hdump order.pickup (by omega),
    insertNode_onPath v ids hsite (hdump.insertIdx hpickup) order.delivery (by omega)]
  rfl

variable (v ids) in
/-- The inner loop tries the delivery at some positions and takes it out again. -/
theorem deliverLoop_onPath {n : Nat} (hpq : p < q) (hq : ∀ i < n, q + i ≤ nodes.length + 1)
    (hbest : v.Best m site finish nodes order d tried best) :
    ∃ ids' best', deliverLoop m order d (p + 1) n (q + 1)
        (v.onPath m site finish (nodes.insertIdx p order.pickup.toTwNode) ids) best =
          (v.onPath m site finish (nodes.insertIdx p order.pickup.toTwNode) ids', best') ∧
      (∀ x, x ≠ order.idx → (x ∈ ids' ↔ x ∈ ids)) ∧
      v.Best m site finish nodes order d
        (fun p' q' => tried p' q' ∨ p' = p ∧ q ≤ q' ∧ q' < q + n) best' := by
  induction n generalizing q ids best tried with
  | zero =>
    refine ⟨ids, best, rfl, fun x _ => Iff.rfl, hbest.congr fun p' q' => ?_⟩
    exact (or_iff_left fun h => by omega).symm
  | succ n ih =>
    have hqle : q ≤ nodes.length + 1 := hq 0 (Nat.succ_pos n)
    have hlen : (nodes.insertIdx p order.pickup.toTwNode).length = nodes.length + 1 :=
      List.length_insertIdx_of_le_length (by omega) _
    have hinsert := insertNode_onPath v ids (m := m) (p := q) hsite
      (hdump.insertIdx hpickup (p := p)) order.delivery (by omega)
    have herase := eraseNodeAt_onPath v (ids.add order.idx) (m := m) (p := q) hsite
      ((hdump.insertIdx hpickup (p := p)).insertIdx hdelivery (p := q))
      (by rw [List.length_insertIdx_of_le_length (by omega)]; omega)
    rw [List.eraseIdx_insertIdx_self] at herase
    unfold deliverLoop
    simp only
    rw [hinsert, onPath_ids]
    show ∃ ids' best', deliverLoop m order d (p + 1) n (q + 1 + 1)
      ((v.onPath m site finish (withOrder nodes order p q) (ids.add order.idx)).eraseNodeAt m
        (q + 1)) _ = _ ∧ _
    rw [show (v.onPath m site finish (withOrder nodes order p q) (ids.add order.idx)).eraseNodeAt m
      (q + 1) = _ from herase]
    -- The order is put into the set at every position and taken out by the caller.
    obtain ⟨ids', best', hloop, hids, hbest'⟩ := ih (ids.add order.idx) (Nat.lt_succ_of_lt hpq)
      (fun i hi => by
        have h := hq (i + 1) (Nat.succ_lt_succ hi)
        omega)
      (hbest.step p q Iff.rfl rfl)
    refine ⟨ids', best', hloop, fun x hx => ?_, hbest'.congr fun p' q' => ?_⟩
    · rw [hids x hx, Identifiers.mem_add]
      exact or_iff_right hx
    · constructor
      · rintro ((htried | ⟨rfl, rfl⟩) | ⟨rfl, hle, hlt⟩)
        · exact .inl htried
        · exact .inr ⟨rfl, le_refl _, by omega⟩
        · exact .inr ⟨rfl, by omega, by omega⟩
      · rintro (htried | ⟨rfl, hle, hlt⟩)
        · exact .inl (.inl htried)
        · obtain rfl | hlt' := Nat.eq_or_lt_of_le hle
          · exact .inl (.inr ⟨rfl, rfl⟩)
          · exact .inr ⟨rfl, hlt', by omega⟩

variable (v ids) in
/-- The outer loop leaves the vehicle as it was. -/
theorem pickLoop_onPath (limits : Nat × Nat) {n : Nat} (hids : order.idx ∉ ids)
    (hp : ∀ i < n, p + i ≤ nodes.length) (hlimits : limits.2 ≤ nodes.length + 2)
    (hbest : v.Best m site finish nodes order d tried best) :
    ∃ best', pickLoop m order d limits n (p + 1) (v.onPath m site finish nodes ids) best =
        (v.onPath m site finish nodes ids, best') ∧
      v.Best m site finish nodes order d (fun p' q' => tried p' q' ∨ p ≤ p' ∧ p' < p + n ∧ p' < q' ∧
        limits.1 ≤ q' + 1 ∧ q' + 1 ≤ limits.2) best' := by
  induction n generalizing p best tried with
  | zero =>
    refine ⟨best, rfl, hbest.congr fun p' q' => ?_⟩
    exact (or_iff_left fun h => by omega).symm
  | succ n ih =>
    have hple : p ≤ nodes.length := hp 0 (Nat.succ_pos n)
    -- The delivery is tried behind the pickup and from its lower limit on.
    obtain ⟨q, hfirst, hpq, hrange⟩ : ∃ q,
        (if limits.1 ≤ p + 1 then p + 1 + 1 else limits.1) = q + 1 ∧ p < q ∧
          ∀ q', q ≤ q' ↔ p < q' ∧ limits.1 ≤ q' + 1 := by
      split
      · exact ⟨p + 1, rfl, Nat.lt_succ_self p, fun q' => by omega⟩
      · exact ⟨limits.1 - 1, by omega, by omega, fun q' => by omega⟩
    obtain ⟨ids', best', hloop, hother, hbest'⟩ := deliverLoop_onPath v ids hsite hdump hpickup
      hdelivery hpq (n := limits.2 + 1 - (q + 1)) (fun i hi => by omega) hbest
    have herase := eraseNodeAt_onPath v ids' (m := m) (p := p) hsite (hdump.insertIdx hpickup)
      (by rw [List.length_insertIdx_of_le_length hple]; omega)
    rw [List.eraseIdx_insertIdx_self] at herase
    -- The pickup is taken out again.
    have hremove : ids'.remove order.idx = ids := by
      apply Identifiers.ext_mem
      intro x
      rw [Identifiers.mem_remove]
      by_cases hx : x = order.idx
      · rw [hx]
        exact iff_of_false (fun h => h.2 rfl) hids
      · rw [hother x hx]
        exact and_iff_left hx
    unfold pickLoop
    simp only
    rw [insertNode_onPath v ids hsite hdump order.pickup hple, hfirst, hloop]
    simp only
    rw [herase, onPath_ids, hremove]
    obtain ⟨best'', hrest, hbest''⟩ := ih (p := p + 1)
      (fun i hi => by
        have h := hp (i + 1) (Nat.succ_lt_succ hi)
        omega) hbest'
    refine ⟨best'', hrest, hbest''.congr fun p' q' => ?_⟩
    have hq := hrange q'
    constructor
    · rintro ((htried | ⟨rfl, hle, hlt⟩) | ⟨hle, hlt, hrest⟩)
      · exact .inl htried
      · have hlow := hq.mp hle
        exact .inr ⟨le_refl _, by omega, hlow.1, hlow.2, by omega⟩
      · exact .inr ⟨by omega, by omega, hrest⟩
    · rintro (htried | ⟨hle, hlt, hpq', hlow, hhigh⟩)
      · exact .inl (.inl htried)
      · obtain rfl | hlt' := Nat.eq_or_lt_of_le hle
        · exact .inl (.inr ⟨rfl, hq.mpr ⟨hpq', hlow⟩, by omega⟩)
        · exact .inr ⟨hlt', by omega, hpq', hlow, hhigh⟩

end

/-! ## The place that is found -/

/-- The positions are within the limits of the two nodes, the delivery behind the pickup. The limits
    of the delivery were found without the pickup. -/
def WithinLimits (m : Dmatrix K) (w : VehiclePickDeliver K) (order : Order K) (p q : Nat) : Prop :=
  p < q ∧ ((w.positionLimits m order.pickup.toTwNode).1 ≤ p ∧
      p ≤ (w.positionLimits m order.pickup.toTwNode).2) ∧
    (w.positionLimits m order.delivery.toTwNode).1 + 1 ≤ q ∧
      q ≤ (w.positionLimits m order.delivery.toTwNode).2 + 1

section

variable (hsite : site.isStart = true) (hfinish : finish.isEnd = true) (hdump : NoDump finish nodes)
include hsite hfinish hdump

omit hfinish in
variable (v ids) in
theorem limits_onPath (hfinish : finish.type = .kEnd) (node : TwNode K) :
    0 < ((v.onPath m site finish nodes ids).positionLimits m node).1 ∧
      ((v.onPath m site finish nodes ids).positionLimits m node).2 ≤ nodes.length + 1 := by
  have hstart : (v.toVehicle.depart site).type = .kStart := by
    rw [depart_toTwNode]
    exact (TwNode.isStart_iff.mp hsite).1
  refine ⟨posLowLoop_pos rfl hstart (Nat.succ_pos _), ?_⟩
  have hget : ((v.onPath m site finish nodes ids).path.map
      VehicleNode.toTwNode)[nodes.length + 1]? = some finish := by
    rw [onPath_nodes m site v ids hdump]
    simp
  rw [List.getElem?_map, Option.map_eq_some_iff] at hget
  obtain ⟨e, he, hend⟩ := hget
  have hle := posHighLoop_le (m := m) (w := (v.onPath m site finish nodes ids).toVehicle)
    node 0 he (by rw [hend]; exact hfinish)
  rw [Nat.zero_add] at hle
  exact hle

variable (hpickup : order.pickup.type ≠ .kDump) (hdelivery : order.delivery.type ≠ .kDump)
include hpickup hdelivery

variable (v ids) in
/-- The search leaves the vehicle as it was and finds the best place within the limits. -/
theorem searchPlace_onPath (hids : order.idx ∉ ids) :
    ∃ best, (v.onPath m site finish nodes ids).searchPlace m order =
        (v.onPath m site finish nodes ids, best) ∧
      v.Best m site finish nodes order (v.onPath m site finish nodes ids).duration
        (fun p q => WithinLimits m (v.onPath m site finish nodes ids) order (p + 1) (q + 1))
        best := by
  have hend := (TwNode.isEnd_iff.mp hfinish).1
  obtain ⟨hlowP, hhighP⟩ := limits_onPath v ids (m := m) hsite hdump hend order.pickup.toTwNode
  obtain ⟨_, hhighD⟩ := limits_onPath v ids (m := m) hsite hdump hend order.delivery.toTwNode
  -- Before the search no place has been tried.
  have hnone : v.Best m site finish nodes order (v.onPath m site finish nodes ids).duration
      (fun _ _ => False) ⟨false, (v.onPath m site finish nodes ids).path.length,
        (v.onPath m site finish nodes ids).path.length + 1, ⊤⟩ :=
    ⟨fun hfound => absurd hfound Bool.false_ne_true, fun _ _ h => h.elim, fun _ => rfl⟩
  unfold searchPlace
  simp only
  split
  · -- Empty limits: there is no place within them.
    rename_i hempty
    exact ⟨_, rfl, hnone.congr fun p q => ⟨False.elim, fun h => by
      unfold WithinLimits at h
      omega⟩⟩
  · split
    · rename_i hempty
      exact ⟨_, rfl, hnone.congr fun p q => ⟨False.elim, fun h => by
        unfold WithinLimits at h
        omega⟩⟩
    · obtain ⟨p, hp⟩ := Nat.exists_eq_succ_of_ne_zero hlowP.ne'
      rw [hp]
      obtain ⟨best, hloop, hbest⟩ := pickLoop_onPath v ids hsite hdump hpickup hdelivery
        (((v.onPath m site finish nodes ids).positionLimits m order.delivery.toTwNode).1 + 1,
          ((v.onPath m site finish nodes ids).positionLimits m order.delivery.toTwNode).2 + 1)
        (n := ((v.onPath m site finish nodes ids).positionLimits m order.pickup.toTwNode).2 + 1 -
          (p + 1)) (p := p) hids (fun i hi => by omega) (by omega) hnone
      refine ⟨best, hloop, hbest.congr fun p' q' => ?_⟩
      unfold WithinLimits
      rw [hp, false_or]
      constructor
      · rintro ⟨hle, hlt, hpq, hlow, hhigh⟩
        exact ⟨by omega, ⟨by omega, by omega⟩, by omega, by omega⟩
      · rintro ⟨hpq, ⟨hle, hlt⟩, hlow, hhigh⟩
        exact ⟨by omega, by omega, by omega, by omega, by omega⟩

variable (v ids) in
/-- `insert` places the order at the best place within the limits, or there is none and it leaves
    the vehicle as it was. -/
theorem insert_onPath (hids : order.idx ∉ ids) :
    ((v.onPath m site finish nodes ids).insert m order =
        (false, v.onPath m site finish nodes ids) ∧
      ∀ p q, WithinLimits m (v.onPath m site finish nodes ids) order (p + 1) (q + 1) →
        ¬ v.Fitting m site finish nodes order p q) ∨
      ∃ p q, WithinLimits m (v.onPath m site finish nodes ids) order (p + 1) (q + 1) ∧
        q ≤ nodes.length + 1 ∧ v.Fitting m site finish nodes order p q ∧
        (((v.onPath m site finish nodes ids).searchPlace m order).2.found = true ∧
          ((v.onPath m site finish nodes ids).searchPlace m order).2.bestPickPos = p + 1 ∧
          ((v.onPath m site finish nodes ids).searchPlace m order).2.bestDeliverPos = q + 1) ∧
        (v.onPath m site finish nodes ids).insert m order =
          (true, v.onPath m site finish (withOrder nodes order p q) (ids.add order.idx)) ∧
        ∀ p' q', WithinLimits m (v.onPath m site finish nodes ids) order (p' + 1) (q' + 1) →
          v.Fitting m site finish nodes order p' q' →
          ¬ v.durationAt m site finish nodes order p' q' -
              (v.onPath m site finish nodes ids).duration <
            v.durationAt m site finish nodes order p q -
              (v.onPath m site finish nodes ids).duration := by
  have hend := (TwNode.isEnd_iff.mp hfinish).1
  obtain ⟨_, hhigh⟩ := limits_onPath v ids (m := m) hsite hdump hend order.delivery.toTwNode
  obtain ⟨best, hsearch, hbest⟩ := searchPlace_onPath v ids (m := m) hsite hfinish hdump hpickup
    hdelivery hids
  unfold insert
  rw [hsearch]
  simp only
  -- What the search has found decides, and its best place is taken.
  cases hfound : best.found with
  | false =>
    left
    refine ⟨rfl, fun p q hin hfit => ?_⟩
    rw [(hbest.least p q hin hfit).1] at hfound
    exact Bool.false_ne_true hfound.symm
  | true =>
    obtain ⟨p, q, hin, hfit, hpick, hdeliver, hmin⟩ := hbest.found hfound
    have hpq : p < q := Nat.lt_of_succ_lt_succ hin.1
    have hq : q ≤ nodes.length + 1 := (Nat.le_of_succ_le_succ hin.2.2.2).trans hhigh
    right
    refine ⟨p, q, hin, hq, hfit, ⟨rfl, hpick, hdeliver⟩, ?_, fun p' q' hin' hfit' => ?_⟩
    · rw [hpick, hdeliver, insertNodes_onPath v ids hsite hdump hpickup hpq hq]
      rfl
    · have hge := (hbest.least p' q' hin' hfit').2
      rw [hmin, WithTop.coe_lt_coe] at hge
      exact hge

end

/-- A node where an order is picked up or delivered. -/
def IsSite (n : TwNode K) : Prop := n.isPickup = true ∨ n.isDelivery = true

theorem IsSite.serviceTime_nonneg {n : TwNode K} (h : IsSite n) : 0 ≤ n.serviceTime := by
  obtain h | h := h
  · exact TwNode.serviceTime_of_legalTimes (TwNode.isPickup_iff.mp h).2.1
  · exact TwNode.serviceTime_of_legalTimes (TwNode.isDelivery_iff.mp h).2.1

/-- The vehicle with the order inserted in its path, the pickup at the position `p` and then the
    delivery at `q`. -/
def insertBoth (m : Dmatrix K) (v : VehiclePickDeliver K) (order : Order K) (p q : Nat) :
    VehiclePickDeliver K :=
  (v.insertNode m p order.pickup).insertNode m q order.delivery

/-- An evaluated vehicle, from its starting site along the nodes of orders to its ending site. -/
structure Visits (m : Dmatrix K) (v : VehiclePickDeliver K) (site finish : TwNode K)
    (nodes : List (TwNode K)) : Prop where
  evaluated : v.toVehicle.evaluate m 0 = v.toVehicle
  path : v.path.map VehicleNode.toTwNode = site :: (nodes ++ [finish])
  isStart : site.isStart = true
  isEnd : finish.isEnd = true
  isSite : ∀ n ∈ nodes, IsSite n

/-- `insert` takes the best of the places, and only a feasible one: it inserts the order iff there
    is such a place, none of them makes the duration grow by less, and if it inserts nothing it
    leaves the vehicle as it was. -/
structure InsertsBest (m : Dmatrix K) (v : VehiclePickDeliver K) (order : Order K)
    (Place : Nat → Nat → Prop) : Prop where
  inserts_iff : (v.insert m order).1 = true ↔
    ∃ p q, Place p q ∧ (v.insertBoth m order p q).isFeasable = true
  inserted : (v.insert m order).1 = true → ∃ p q, Place p q ∧
    (v.insert m order).2 = { v.insertBoth m order p q with
      ordersInVehicle := v.ordersInVehicle.add order.idx } ∧
    (v.insert m order).2.path.map VehicleNode.toTwNode =
      ((v.path.map VehicleNode.toTwNode).insertIdx p order.pickup.toTwNode).insertIdx q
        order.delivery.toTwNode ∧
    (v.insert m order).2.isFeasable = true
  least : ∀ p q, Place p q → (v.insertBoth m order p q).isFeasable = true →
    ¬ (v.insertBoth m order p q).duration - v.duration <
      (v.insert m order).2.duration - v.duration
  unchanged : (v.insert m order).1 = false → (v.insert m order).2 = v

/-- Places where the vehicle would not be feasible do not matter. -/
theorem InsertsBest.congr {Place Place' : Nat → Nat → Prop} (h : InsertsBest m v order Place)
    (heq : ∀ p q, (v.insertBoth m order p q).isFeasable = true → (Place p q ↔ Place' p q)) :
    InsertsBest m v order Place' := by
  constructor
  · rw [h.inserts_iff]
    exact exists_congr fun p => exists_congr fun q => and_congr_left (heq p q)
  · intro hinserts
    obtain ⟨p, q, hplace, hvehicle, hpath, hfeasible⟩ := h.inserted hinserts
    have hboth : (v.insertBoth m order p q).isFeasable = true := by
      rw [hvehicle] at hfeasible
      exact hfeasible
    exact ⟨p, q, (heq p q hboth).mp hplace, hvehicle, hpath, hfeasible⟩
  · intro p q hplace hfeasible
    exact h.least p q ((heq p q hfeasible).mpr hplace) hfeasible
  · exact h.unchanged

end VehiclePickDeliver

end Vrp

end PgRouting
