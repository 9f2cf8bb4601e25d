import PgRouting.Spec.PickDeliver
import Mathlib.Data.List.Chain

/-!
# Runs of operations on a vehicle

Every operation evaluates the path again from some position on. The nodes before that
position keep what they have cached, and that is still right: a path is settled when its
first node is evaluated and every other node is evaluated behind the one before it, and
evaluating a settled path again changes nothing.

## Key results

- `evaluate_settled`: evaluating behind a settled part settles the path
- `Op.apply_evaluated`, `Op.apply_ends`: what one operation keeps
- `reaches_evaluated`: what every run keeps
-/

namespace PgRouting

namespace Vrp

namespace VehicleNode

variable {m : Dmatrix} {n pred : VehicleNode} {capacity : WithTop ℚ} {speed : ℚ}

/-- The first node is evaluated. -/
theorem evaluateFirst_evaluateFirst :
    (n.evaluateFirst capacity).evaluateFirst capacity = n.evaluateFirst capacity := by
  by_cases hstart : n.isStart = true
  · have hsame : (n.evaluateFirst capacity).isStart = true := by
      rw [evaluateFirst, if_pos hstart]
      exact hstart
    conv_lhs => rw [evaluateFirst, if_pos hsame]
    simp only [evaluateFirst, if_pos hstart]
    rfl
  · simp only [evaluateFirst, if_neg hstart]

/-- The demand that a node has behind `pred`. -/
def adapted (pred n : VehicleNode) : ℚ :=
  if n.isDump && 0 ≤ pred.cargo then -pred.cargo else n.demand

/-- The evaluation takes the adapted demand, and otherwise what the node had from the start. -/
theorem evaluate_eq_of_adapted {n' : VehicleNode}
    (h : { n.toTwNode with demand := adapted pred n } =
      { n'.toTwNode with demand := adapted pred n' }) :
    n.evaluate m pred capacity speed = n'.evaluate m pred capacity speed := by
  obtain ⟨⟨idx, id, opens, closes, serviceTime, demand, type⟩, _⟩ := n
  obtain ⟨⟨idx', id', opens', closes', serviceTime', demand', type'⟩, _⟩ := n'
  simp only [TwNode.mk.injEq] at h
  obtain ⟨rfl, rfl, rfl, rfl, rfl, hdemand, rfl⟩ := h
  unfold evaluate
  unfold adapted at hdemand
  simp only at hdemand ⊢
  rw [hdemand]
  rfl

/-- A dump site that has adapted its demand adapts it to the same load again. -/
theorem adapted_evaluate : adapted pred (n.evaluate m pred capacity speed) = adapted pred n := by
  have hdemand : (n.evaluate m pred capacity speed).demand = adapted pred n := rfl
  have hkind : (n.evaluate m pred capacity speed).isDump =
      (decide (n.type = .kDump) && n.legalTimes && decide (adapted pred n ≤ 0)) := rfl
  conv_lhs => unfold adapted
  rw [hdemand, hkind]
  by_cases hdump : (n.isDump && decide (0 ≤ pred.cargo)) = true
  · have hadapt : adapted pred n = -pred.cargo := if_pos hdump
    rw [hadapt]
    split <;> rfl
  · have hadapt : adapted pred n = n.demand := if_neg hdump
    rw [hadapt, if_neg]
    exact hdump

theorem evaluate_evaluate :
    (n.evaluate m pred capacity speed).evaluate m pred capacity speed =
      n.evaluate m pred capacity speed := by
  apply evaluate_eq_of_adapted
  rw [adapted_evaluate]
  rfl

end VehicleNode

namespace Vehicle

open VehicleNode

variable {m : Dmatrix} {v : Vehicle} {capacity : WithTop ℚ} {speed : ℚ} {pred : VehicleNode}
  {l path : List VehicleNode} {k : Nat}

/-! ## Settled paths -/

/-- The first node is evaluated, and every other one is evaluated behind the one before it. -/
structure Settled (m : Dmatrix) (capacity : WithTop ℚ) (speed : ℚ) (path : List VehicleNode) :
    Prop where
  first : ∀ n ∈ path.head?, n.evaluateFirst capacity = n
  chain : path.IsChain fun pred n => n.evaluate m pred capacity speed = n

theorem Settled.take (h : Settled m capacity speed path) :
    Settled m capacity speed (path.take k) := by
  refine ⟨fun n hn => h.first n ?_, h.chain.take k⟩
  cases k with
  | zero => simp at hn
  | succ k => rwa [List.head?_take, if_neg (Nat.succ_ne_zero k)] at hn

theorem isChain_evaluateLoop : (pred :: evaluateLoop m capacity speed pred l).IsChain
    fun pred n => n.evaluate m pred capacity speed = n := by
  induction l generalizing pred with
  | nil => exact .singleton pred
  | cons n l ih =>
    rw [evaluateLoop, List.isChain_cons_cons]
    exact ⟨evaluate_evaluate, ih⟩

/-- The loop changes nothing on a path that is settled behind `pred`. -/
theorem evaluateLoop_of_chain (h : (pred :: l).IsChain
    fun pred n => n.evaluate m pred capacity speed = n) :
    evaluateLoop m capacity speed pred l = l := by
  induction l generalizing pred with
  | nil => rfl
  | cons n l ih =>
    rw [List.isChain_cons_cons] at h
    rw [evaluateLoop, h.1]
    exact congrArg (n :: ·) (ih h.2)

@[simp] theorem evaluate_capacity : (v.evaluate m k).capacity = v.capacity := by
  unfold evaluate
  split <;> rfl

@[simp] theorem evaluate_speed : (v.evaluate m k).speed = v.speed := by
  unfold evaluate
  split <;> rfl

/-- Evaluating a path behind a settled part settles it. -/
theorem evaluate_settled (h : Settled m v.capacity v.speed (v.path.take k)) :
    Settled m v.capacity v.speed (v.evaluate m k).path := by
  unfold evaluate
  split
  · rename_i pred hpred
    obtain ⟨before, hbefore⟩ := List.getLast?_eq_some_iff.mp hpred
    rw [hbefore] at h ⊢
    constructor
    · intro n hn
      apply h.first n
      rw [List.append_assoc] at hn
      cases before with
      | nil => exact hn
      | cons b before => exact hn
    · rw [List.append_assoc, List.singleton_append, List.isChain_split]
      exact ⟨h.chain, isChain_evaluateLoop⟩
  · rename_i node rest hnone hpath
    constructor
    · intro n hn
      obtain rfl : node.evaluateFirst v.capacity = n := by simpa using hn
      exact evaluateFirst_evaluateFirst
    · exact isChain_evaluateLoop
  · rename_i hnone hpath
    rw [hpath, List.take_nil] at h
    rw [hpath]
    exact h

/-- Evaluating a settled path again changes nothing, and conversely. -/
theorem evaluate_eq_iff : v.evaluate m 0 = v ↔ Settled m v.capacity v.speed v.path := by
  constructor
  · intro h
    have hempty : Settled m v.capacity v.speed (v.path.take 0) := ⟨by simp, .nil⟩
    have hsettled := evaluate_settled hempty
    rwa [h] at hsettled
  · intro h
    obtain ⟨idx, id, path, capacity, mFactor, mSpeed⟩ := v
    cases path with
    | nil => rfl
    | cons node rest =>
      have hfirst : node.evaluateFirst capacity = node := h.first node rfl
      have hrest := evaluateLoop_of_chain h.chain
      simp only [evaluate, List.take_zero, List.getLast?_nil, hfirst]
      simp only at hrest
      rw [hrest]

/-- The nodes have cached what the evaluation of the whole path finds. -/
def Evaluated (m : Dmatrix) (v : Vehicle) : Prop := v.evaluate m 0 = v

/-- A path of which a part is left as it was, evaluated behind that part. -/
theorem Evaluated.evaluate_path (h : v.Evaluated m) (htake : path.take k = v.path.take k) :
    (({ v with path := path } : Vehicle).evaluate m k).Evaluated m := by
  have hsettled := evaluate_eq_iff.mp h
  rw [Evaluated, evaluate_eq_iff, evaluate_capacity, evaluate_speed]
  apply evaluate_settled
  show Settled m v.capacity v.speed (path.take k)
  rw [htake]
  exact hsettled.take

theorem new_evaluated {idx : Nat} {id : Int} {startingSite endingSite : VehicleNode}
    {factor : ℚ} : (new m idx id startingSite endingSite capacity speed factor).Evaluated m := by
  rw [Evaluated, evaluate_eq_iff, new, evaluate_capacity, evaluate_speed]
  exact evaluate_settled ⟨by simp, .nil⟩

theorem Evaluated.insert (h : v.Evaluated m) (pos : Nat) (node : VehicleNode) :
    (v.insert m pos node).Evaluated m :=
  h.evaluate_path (List.take_insertIdx_eq_take_of_le _ _ _ _ (le_refl _))

theorem Evaluated.eraseAt (h : v.Evaluated m) (pos : Nat) : (v.eraseAt m pos).Evaluated m :=
  h.evaluate_path (List.take_eraseIdx_eq_take_of_le _ _ _ (le_refl _))

theorem Evaluated.erase (h : v.Evaluated m) (node : VehicleNode) :
    (v.erase m node).Evaluated m := by
  unfold Vehicle.erase
  exact (h.eraseAt _).evaluate_path rfl

theorem Evaluated.swap (h : v.Evaluated m) (i j : Nat) : (v.swap m i j).Evaluated m := by
  apply h.evaluate_path
  have hle : (if i < j then i else j) ≤ i ∧ (if i < j then i else j) ≤ j := by
    split <;> omega
  rw [List.take_set_of_le hle.2, List.take_set_of_le hle.1]

/-! ## The ends of a path -/

@[simp] theorem length_evaluate : (v.evaluate m k).path.length = v.path.length := by
  unfold evaluate
  split
  · simp only [List.length_append, length_evaluateLoop]
    rw [← List.length_append, List.take_append_drop]
  · rename_i node rest _ hpath
    rw [hpath]
    simp only [List.length_cons, length_evaluateLoop]
  · rfl

/-- The node stands at the position. -/
def StandsAt (path : List VehicleNode) (i : Nat) (t : TwNode) : Prop :=
  ∃ n, path[i]? = some n ∧ n.toTwNode = t

variable {t s e : TwNode} {i : Nat}

theorem StandsAt.evaluateLoop (ht : t.type ≠ .kDump) (h : StandsAt l i t) :
    StandsAt (evaluateLoop m capacity speed pred l) i t := by
  obtain ⟨n, hn, rfl⟩ := h
  induction l generalizing pred i with
  | nil => simp at hn
  | cons a l ih =>
    cases i with
    | zero =>
      obtain rfl : a = n := by simpa using hn
      exact ⟨_, rfl, evaluate_toTwNode ht⟩
    | succ i => exact ih (by simpa using hn)

/-- The evaluation changes no node that is not a dump site. -/
theorem StandsAt.evaluate (ht : t.type ≠ .kDump) (h : StandsAt v.path i t) :
    StandsAt (v.evaluate m k).path i t := by
  unfold Vehicle.evaluate
  split
  · obtain ⟨n, hn, rfl⟩ := h
    by_cases hi : i < (v.path.take k).length
    · refine ⟨n, ?_, rfl⟩
      have hik : i < k := by rw [List.length_take] at hi; omega
      rw [List.getElem?_append_left hi, List.getElem?_take, if_pos hik, hn]
    · have hrest : StandsAt (v.path.drop k) (i - (v.path.take k).length) n.toTwNode := by
        refine ⟨n, ?_, rfl⟩
        have hlt := (List.getElem?_eq_some_iff.mp hn).1
        rw [List.length_take] at hi ⊢
        rw [List.getElem?_drop, show k + (i - min k v.path.length) = i by omega, hn]
      obtain ⟨n', hn', ht'⟩ := hrest.evaluateLoop ht
      refine ⟨n', ?_, ht'⟩
      rw [List.getElem?_append_right (not_lt.mp hi), hn']
  · rename_i node rest _ hpath
    rw [hpath] at h
    cases i with
    | zero =>
      obtain ⟨n, hn, rfl⟩ := h
      obtain rfl : node = n := by simpa using hn
      exact ⟨_, rfl, evaluateFirst_toTwNode⟩
    | succ i =>
      obtain ⟨n, hn, rfl⟩ := h
      exact StandsAt.evaluateLoop ht ⟨n, by simpa using hn, rfl⟩
  · exact h

/-- The path starts with the one node and ends with the other. -/
structure HasEnds (s e : TwNode) (path : List VehicleNode) : Prop where
  two : 2 ≤ path.length
  first : StandsAt path 0 s
  last : StandsAt path (path.length - 1) e

theorem HasEnds.insertIdx {pos : Nat} (h : HasEnds s e path) (node : VehicleNode) (hpos : 0 < pos)
    (hlt : pos < path.length) : HasEnds s e (path.insertIdx pos node) := by
  have hlen : (path.insertIdx pos node).length = path.length + 1 :=
    List.length_insertIdx_of_le_length hlt.le node
  refine ⟨by rw [hlen]; omega, ?_, ?_⟩
  · obtain ⟨n, hn, hns⟩ := h.first
    exact ⟨n, by rw [List.getElem?_insertIdx_of_lt hpos, hn], hns⟩
  · obtain ⟨n, hn, hne⟩ := h.last
    refine ⟨n, ?_, hne⟩
    rw [hlen, List.getElem?_insertIdx_of_gt (by omega), Nat.add_sub_cancel, hn]

variable (hs : s.type = .kStart) (he : e.type = .kEnd)
include hs he

theorem HasEnds.evaluate (h : HasEnds s e v.path) : HasEnds s e (v.evaluate m k).path := by
  refine ⟨by rw [length_evaluate]; exact h.two, h.first.evaluate (by simp [hs]), ?_⟩
  rw [length_evaluate]
  exact h.last.evaluate (by simp [he])

theorem HasEnds.insert {pos : Nat} (h : HasEnds s e v.path) (node : VehicleNode) (hpos : 0 < pos)
    (hlt : pos < v.path.length) : HasEnds s e (v.insert m pos node).path ∧
      (v.insert m pos node).path.length = v.path.length + 1 := by
  refine ⟨HasEnds.evaluate hs he (h.insertIdx node hpos hlt), ?_⟩
  unfold Vehicle.insert
  rw [length_evaluate]
  exact List.length_insertIdx_of_le_length hlt.le node

theorem HasEnds.eraseAt {pos : Nat} (h : HasEnds s e v.path) (hpos : 0 < pos)
    (hlt : pos + 1 < v.path.length) : HasEnds s e (v.eraseAt m pos).path ∧
      (v.eraseAt m pos).path.length = v.path.length - 1 := by
  have hlen : (v.path.eraseIdx pos).length = v.path.length - 1 :=
    List.length_eraseIdx_of_lt (by omega)
  refine ⟨HasEnds.evaluate hs he ⟨by rw [hlen]; omega, ?_, ?_⟩, ?_⟩
  · obtain ⟨n, hn, hns⟩ := h.first
    exact ⟨n, by rw [List.getElem?_eraseIdx, if_pos hpos, hn], hns⟩
  · obtain ⟨n, hn, hne⟩ := h.last
    refine ⟨n, ?_, hne⟩
    show (v.path.eraseIdx pos)[(v.path.eraseIdx pos).length - 1]? = some n
    rw [hlen, List.getElem?_eraseIdx, if_neg (by omega), ← hn]
    congr 1
    omega
  · unfold Vehicle.eraseAt
    rw [length_evaluate]
    exact hlen

theorem HasEnds.erase {node : VehicleNode} (h : HasEnds s e v.path)
    (hpos : 0 < v.path.findIdx fun n => node.idx = n.idx)
    (hlt : (v.path.findIdx fun n => node.idx = n.idx) + 1 < v.path.length) :
    HasEnds s e (v.erase m node).path :=
  HasEnds.evaluate hs he (h.eraseAt hs he hpos hlt).1

theorem HasEnds.swap {i j : Nat} (h : HasEnds s e v.path) (hi : 0 < i ∧ i + 1 < v.path.length)
    (hj : 0 < j ∧ j + 1 < v.path.length) : HasEnds s e (v.swap m i j).path := by
  apply HasEnds.evaluate hs he
  constructor
  · simpa using h.two
  · obtain ⟨n, hn, hns⟩ := h.first
    refine ⟨n, ?_, hns⟩
    show ((v.path.set i _).set j _)[0]? = some n
    rw [List.getElem?_set_ne (by omega), List.getElem?_set_ne (by omega), hn]
  · obtain ⟨n, hn, hne⟩ := h.last
    refine ⟨n, ?_, hne⟩
    show ((v.path.set i _).set j _)[((v.path.set i _).set j _).length - 1]? = some n
    rw [List.length_set, List.length_set, List.getElem?_set_ne (by omega),
      List.getElem?_set_ne (by omega), hn]

end Vehicle

namespace VehiclePickDeliver

open Vehicle

variable {m : Dmatrix} {v : VehiclePickDeliver} {order : Order} {best : BestPlace}
  {d : ℚ} {s e : TwNode} {n p q : Nat}

/-! ## The searches for a place -/

theorem deliverLoop_evaluated (h : v.Evaluated m) :
    (deliverLoop m order d p n q v best).1.Evaluated m := by
  induction n generalizing q v best with
  | zero => exact h
  | succ n ih => exact ih ((h.insert q order.delivery).eraseAt q)

theorem pickLoop_evaluated {limits : Nat × Nat} (h : v.Evaluated m) :
    (pickLoop m order d limits n p v best).1.Evaluated m := by
  induction n generalizing p v best with
  | zero => exact h
  | succ n ih => exact ih ((deliverLoop_evaluated (h.insert p order.pickup)).eraseAt p)

variable (order) in
theorem searchPlace_evaluated (h : v.Evaluated m) : (v.searchPlace m order).1.Evaluated m := by
  unfold searchPlace
  simp only
  split
  · exact h
  · split
    · exact h
    · exact pickLoop_evaluated h

theorem insert_evaluated (h : v.Evaluated m) : (v.insert m order).2.Evaluated m := by
  have hsearch := searchPlace_evaluated order h
  unfold VehiclePickDeliver.insert
  simp only
  split
  · exact hsearch
  · exact (hsearch.insert _ order.pickup).insert _ order.delivery

theorem pushBack_evaluated (h : v.Evaluated m) : (v.pushBack m order).Evaluated m := by
  apply h.evaluate_path
  -- The position is the one of the pickup, where the ending site was.
  have hone := List.length_insertIdx_le_succ (l := v.path) (x := order.pickup)
    (i := v.path.length - 1)
  have htwo := List.length_insertIdx_le_succ
    (l := v.path.insertIdx (v.path.length - 1) order.pickup) (x := order.delivery)
    (i := (v.path.insertIdx (v.path.length - 1) order.pickup).length - 1)
  rw [List.take_insertIdx_eq_take_of_le _ _ _ _ (by omega),
    List.take_insertIdx_eq_take_of_le _ _ _ _ (by omega)]

theorem pushFront_evaluated (h : v.Evaluated m) : (v.pushFront m order).Evaluated m := by
  apply h.evaluate_path
  rw [List.take_insertIdx_eq_take_of_le _ _ _ _ (le_refl _),
    List.take_insertIdx_eq_take_of_le _ _ _ _ (le_refl _)]

theorem erase_evaluated (h : v.Evaluated m) : (v.erase m order).Evaluated m :=
  (h.erase order.pickup).erase order.delivery

theorem semiLIFOLoop_evaluated (h : v.Evaluated m) :
    (semiLIFOLoop m order n q v).2.Evaluated m := by
  induction n generalizing q v with
  | zero => exact h.eraseAt 1
  | succ n ih =>
    unfold semiLIFOLoop
    simp only
    split
    · exact h.insert q order.delivery
    · exact ih ((h.insert q order.delivery).eraseAt q)

theorem semiLIFO_evaluated (h : v.Evaluated m) : (v.semiLIFO m order).2.Evaluated m := by
  have hpick := h.insert 1 order.pickup
  unfold semiLIFO
  simp only
  split
  · exact hpick.eraseAt 1
  · exact semiLIFOLoop_evaluated hpick

/-! ## Searches keep the ends -/

section

variable (hs : s.type = .kStart) (he : e.type = .kEnd)
include hs he

variable (order best d) in
theorem deliverLoop_ends {size : Nat} (h : HasEnds s e v.path) (hsize : v.path.length = size)
    (hq : 0 < q) (hlt : ∀ i < n, q + i < size) :
    HasEnds s e (deliverLoop m order d p n q v best).1.path ∧
      (deliverLoop m order d p n q v best).1.path.length = size := by
  induction n generalizing q v best with
  | zero => exact ⟨h, hsize⟩
  | succ n ih =>
    have hin : q < v.path.length := by
      rw [hsize]
      exact hlt 0 (Nat.succ_pos n)
    obtain ⟨hinsert, hlong⟩ := h.insert (m := m) hs he order.delivery hq hin
    obtain ⟨herase, hlen⟩ := hinsert.eraseAt (m := m) hs he hq (by omega)
    rw [hlong, Nat.add_sub_cancel, hsize] at hlen
    unfold deliverLoop
    refine ih _ herase hlen (Nat.succ_pos q) fun i hi => ?_
    have hnext := hlt (i + 1) (Nat.succ_lt_succ hi)
    omega

variable (order best d) in
theorem pickLoop_ends {size : Nat} (limits : Nat × Nat) (h : HasEnds s e v.path)
    (hsize : v.path.length = size) (hp : 0 < p) (hlt : ∀ i < n, p + i < size)
    (hlow : 0 < limits.1) (hhigh : limits.2 ≤ size) :
    HasEnds s e (pickLoop m order d limits n p v best).1.path ∧
      (pickLoop m order d limits n p v best).1.path.length = size := by
  induction n generalizing p v best with
  | zero => exact ⟨h, hsize⟩
  | succ n ih =>
    have hin : p < v.path.length := by
      rw [hsize]
      exact hlt 0 (Nat.succ_pos n)
    obtain ⟨hinsert, hlong⟩ := h.insert (m := m) hs he order.pickup hp hin
    rw [hsize] at hlong
    have hfirst : 0 < if limits.1 ≤ p then p + 1 else limits.1 := by split <;> omega
    unfold pickLoop
    simp only
    have hcount : ∀ i < limits.2 + 1 - (if limits.1 ≤ p then p + 1 else limits.1),
        (if limits.1 ≤ p then p + 1 else limits.1) + i < size + 1 := by
      intro i hi
      omega
    obtain ⟨hends, hlen⟩ := deliverLoop_ends (m := m) (p := p) order best d hs he
      (v := v.insertNode m p order.pickup) hinsert hlong hfirst hcount
    obtain ⟨herase, hback⟩ := hends.eraseAt (m := m) hs he hp (by omega)
    rw [hlen, Nat.add_sub_cancel] at hback
    refine ih _ herase hback (Nat.succ_pos p) fun i hi => ?_
    have hnext := hlt (i + 1) (Nat.succ_lt_succ hi)
    omega

/-- The place that has been found lies between the ends. -/
def Inside (size : Nat) (best : BestPlace) : Prop :=
  best.found = true → (0 < best.bestPickPos ∧ best.bestPickPos < size) ∧
    0 < best.bestDeliverPos ∧ best.bestDeliverPos < size + 1

omit hs he in
theorem deliverLoop_inside {size : Nat} (h : Inside size best) (hp : 0 < p ∧ p < size)
    (hq : 0 < q) (hlt : ∀ i < n, q + i < size + 1) :
    Inside size (deliverLoop m order d p n q v best).2 := by
  induction n generalizing q v best with
  | zero => exact h
  | succ n ih =>
    unfold deliverLoop
    refine ih ?_ (Nat.succ_pos q) fun i hi => ?_
    · split
      · exact fun _ => ⟨hp, hq, hlt 0 (Nat.succ_pos n)⟩
      · exact h
    · have hnext := hlt (i + 1) (Nat.succ_lt_succ hi)
      omega

omit hs he in
theorem pickLoop_inside {size : Nat} {limits : Nat × Nat} (h : Inside size best) (hp : 0 < p)
    (hlt : ∀ i < n, p + i < size) (hlow : 0 < limits.1) (hhigh : limits.2 ≤ size) :
    Inside size (pickLoop m order d limits n p v best).2 := by
  induction n generalizing p v best with
  | zero => exact h
  | succ n ih =>
    have hfirst : 0 < if limits.1 ≤ p then p + 1 else limits.1 := by split <;> omega
    unfold pickLoop
    refine ih (deliverLoop_inside h ⟨hp, hlt 0 (Nat.succ_pos n)⟩ hfirst fun i hi => by omega)
      (Nat.succ_pos p) fun i hi => ?_
    have hnext := hlt (i + 1) (Nat.succ_lt_succ hi)
    omega

theorem positionLimits_ends (node : TwNode) (h : HasEnds s e v.path) :
    0 < (v.positionLimits m node).1 ∧ (v.positionLimits m node).2 + 1 ≤ v.path.length := by
  obtain ⟨first, hfirst, hstart⟩ := h.first
  obtain ⟨last, hlast, hend⟩ := h.last
  have hle := posHighLoop_le (m := m) (w := v.toVehicle) node 0 hlast
    (by rw [show last.type = last.toTwNode.type from rfl, hend]; exact he)
  have htwo := h.two
  refine ⟨posLowLoop_pos hfirst
    (by rw [show first.type = first.toTwNode.type from rfl, hstart]; exact hs) (by omega), ?_⟩
  show v.posHighLoop m node v.path 0 + 1 ≤ v.path.length
  omega

variable (order) in
theorem searchPlace_ends (h : HasEnds s e v.path) :
    HasEnds s e (v.searchPlace m order).1.path ∧
      (v.searchPlace m order).1.path.length = v.path.length ∧
        Inside v.path.length (v.searchPlace m order).2 := by
  have hpick := positionLimits_ends (m := m) hs he order.pickup.toTwNode h
  have hdeliver := positionLimits_ends (m := m) hs he order.delivery.toTwNode h
  unfold searchPlace
  simp only
  split
  · exact ⟨h, rfl, fun hno => absurd hno Bool.false_ne_true⟩
  · split
    · exact ⟨h, rfl, fun hno => absurd hno Bool.false_ne_true⟩
    · have hcount : ∀ i < (v.positionLimits m order.pickup.toTwNode).2 + 1 -
          (v.positionLimits m order.pickup.toTwNode).1,
          (v.positionLimits m order.pickup.toTwNode).1 + i < v.path.length := by
        intro i hi
        omega
      obtain ⟨hends, hlen⟩ := pickLoop_ends (m := m) order
        ⟨false, v.path.length, v.path.length + 1, ⊤⟩ v.duration hs he
        ((v.positionLimits m order.delivery.toTwNode).1 + 1,
          (v.positionLimits m order.delivery.toTwNode).2 + 1)
        h rfl hpick.1 hcount (Nat.succ_pos _) hdeliver.2
      exact ⟨hends, hlen, pickLoop_inside (fun hno => absurd hno Bool.false_ne_true) hpick.1
        hcount (Nat.succ_pos _) hdeliver.2⟩

theorem insert_ends (h : HasEnds s e v.path) : HasEnds s e (v.insert m order).2.path := by
  obtain ⟨hends, hlen, hinside⟩ := searchPlace_ends (m := m) order hs he h
  unfold VehiclePickDeliver.insert
  simp only
  split
  · exact hends
  · rename_i hfound
    obtain ⟨hp, hq⟩ := hinside (by simpa using hfound)
    obtain ⟨hpick, hlong⟩ := hends.insert (m := m) hs he order.pickup hp.1
      (by rw [hlen]; exact hp.2)
    exact (hpick.insert hs he order.delivery hq.1 (by rw [hlong, hlen]; exact hq.2)).1

theorem pushBack_ends (h : HasEnds s e v.path) : HasEnds s e (v.pushBack m order).path := by
  have htwo := h.two
  have hpick := h.insertIdx order.pickup (show 0 < v.path.length - 1 by omega) (by omega)
  have hlong := hpick.two
  exact HasEnds.evaluate hs he (hpick.insertIdx order.delivery (by omega) (by omega))

theorem pushFront_ends (h : HasEnds s e v.path) : HasEnds s e (v.pushFront m order).path := by
  have hdeliver := h.insertIdx order.delivery Nat.one_pos h.two
  exact HasEnds.evaluate hs he (hdeliver.insertIdx order.pickup Nat.one_pos hdeliver.two)

omit hs he in
/-- A drop is stopped by a pickup too. -/
theorem posLowLoop_le_dropPosLowLoop {w : Vehicle} {nodeI : TwNode} :
    w.posLowLoop m nodeI n ≤ w.dropPosLowLoop m nodeI n := by
  induction n with
  | zero => exact le_refl 0
  | succ n ih =>
    unfold posLowLoop dropPosLowLoop
    cases hj : w.path[n]? with
    | none => exact le_refl _
    | some j =>
      simp only
      by_cases hcompatible : j.isCompatibleIJ m nodeI w.speed = true
      · rw [if_pos hcompatible]
        split
        · exact ih
        · have hle := posLowLoop_le (m := m) (n := n) w nodeI
          omega
      · simp [hcompatible]

theorem semiLIFOLoop_ends {size : Nat} (h : HasEnds s e v.path) (hsize : v.path.length = size)
    (hthree : 2 < size) (hn : n ≤ q) (hq : q < size) :
    HasEnds s e (semiLIFOLoop m order n q v).2.path := by
  induction n generalizing q v with
  | zero => exact (h.eraseAt hs he Nat.one_pos (by omega)).1
  | succ n ih =>
    obtain ⟨hinsert, hlong⟩ := h.insert (m := m) hs he order.delivery
      (show 0 < q by omega) (by omega)
    unfold semiLIFOLoop
    simp only
    split
    · exact hinsert
    · obtain ⟨herase, hlen⟩ := hinsert.eraseAt (m := m) hs he (show 0 < q by omega)
        (by omega)
      rw [hlong, Nat.add_sub_cancel, hsize] at hlen
      exact ih herase hlen (by omega) (by omega)

theorem semiLIFO_ends (h : HasEnds s e v.path) : HasEnds s e (v.semiLIFO m order).2.path := by
  obtain ⟨hpick, hlong⟩ := h.insert (m := m) hs he order.pickup Nat.one_pos h.two
  have htwo := h.two
  have hlen : (v.insertNode m 1 order.pickup).path.length = v.path.length + 1 := hlong
  have hlimits := positionLimits_ends (m := m) (v := v.insertNode m 1 order.pickup) hs he
    order.delivery.toTwNode hpick
  have hlow : 0 < (v.insertNode m 1 order.pickup).getDropPosLowLimit m order.delivery.toTwNode :=
    lt_of_lt_of_le hlimits.1 posLowLoop_le_dropPosLowLoop
  have hhigh := hlimits.2
  unfold semiLIFO
  simp only
  split
  · exact (hpick.eraseAt hs he Nat.one_pos (by omega)).1
  · refine semiLIFOLoop_ends hs he hpick hlong (by omega) ?_ ?_
    · show (v.insertNode m 1 order.pickup).getPosHighLimit m order.delivery.toTwNode + 1 -
        (v.insertNode m 1 order.pickup).getDropPosLowLimit m order.delivery.toTwNode ≤
        (v.insertNode m 1 order.pickup).getPosHighLimit m order.delivery.toTwNode
      omega
    · show (v.insertNode m 1 order.pickup).getPosHighLimit m order.delivery.toTwNode <
        v.path.length + 1
      exact hlen ▸ hhigh

end

/-! ## Runs -/

/-- The operations on the path of a vehicle. -/
inductive Op
  | insertAt (pos : Nat) (node : VehicleNode)
  | eraseAt (pos : Nat)
  | eraseNode (node : VehicleNode)
  | swap (i j : Nat)
  | pushBack (order : Order)
  | pushFront (order : Order)
  | insert (order : Order)
  | erase (order : Order)
  | semiLIFO (order : Order)

namespace Op

/-- The vehicle after an operation. -/
def apply (m : Dmatrix) : Op → VehiclePickDeliver → VehiclePickDeliver
  | insertAt pos node, v => v.insertNode m pos node
  | eraseAt pos, v => v.eraseNodeAt m pos
  | eraseNode node, v => { v with toVehicle := v.toVehicle.erase m node }
  | swap i j, v => { v with toVehicle := v.toVehicle.swap m i j }
  | pushBack order, v => v.pushBack m order
  | pushFront order, v => v.pushFront m order
  | insert order, v => (v.insert m order).2
  | erase order, v => v.erase m order
  | semiLIFO order, v => (v.semiLIFO m order).2

/-- The operation reads and writes positions of the path only. -/
def InRange (m : Dmatrix) : Op → VehiclePickDeliver → Prop
  | insertAt pos _, v => pos ≤ v.path.length
  | eraseAt pos, v => pos < v.path.length
  | eraseNode node, v => ∃ n ∈ v.path, node.idx = n.idx
  | swap i j, v => i < v.path.length ∧ j < v.path.length
  | erase order, v => (∃ n ∈ v.path, order.pickup.idx = n.idx) ∧
      ∃ n ∈ (v.toVehicle.erase m order.pickup).path, order.delivery.idx = n.idx
  | semiLIFO order, v => v.path ≠ [] ∧
      (v.insertNode m 1 order.pickup).getPosHighLimit m order.delivery.toTwNode ≤ v.path.length
  | pushBack _, v | pushFront _, v | insert _, v => v.path ≠ []

/-- The position lies between the ends of the path. -/
def Between (pos : Nat) (v : Vehicle) : Prop := 0 < pos ∧ pos + 1 < v.path.length

/-- The first node of the path with the position of this one in the problem lies between the
    ends. -/
def FoundBetween (node : VehicleNode) (v : Vehicle) : Prop :=
  Between (v.path.findIdx fun n => node.idx = n.idx) v

/-- The operation inserts between the ends of the path, and erases or swaps neither. -/
def Inside (m : Dmatrix) : Op → VehiclePickDeliver → Prop
  | insertAt pos _, v => 0 < pos ∧ pos < v.path.length
  | eraseAt pos, v => Between pos v.toVehicle
  | eraseNode node, v => FoundBetween node v.toVehicle
  | swap i j, v => Between i v.toVehicle ∧ Between j v.toVehicle
  | erase order, v => FoundBetween order.pickup v.toVehicle ∧
      FoundBetween order.delivery (v.toVehicle.erase m order.pickup)
  | pushBack _, _ | pushFront _, _ | insert _, _ | semiLIFO _, _ => True

theorem apply_evaluated (op : Op) (h : v.Evaluated m) : (op.apply m v).Evaluated m := by
  cases op with
  | insertAt pos node => exact Evaluated.insert h pos node
  | eraseAt pos => exact Evaluated.eraseAt h pos
  | eraseNode node => exact Evaluated.erase h node
  | swap i j => exact Evaluated.swap h i j
  | pushBack order => exact pushBack_evaluated h
  | pushFront order => exact pushFront_evaluated h
  | insert order => exact insert_evaluated h
  | erase order => exact erase_evaluated h
  | semiLIFO order => exact semiLIFO_evaluated h

theorem apply_ends (op : Op) (hs : s.type = .kStart) (he : e.type = .kEnd)
    (h : HasEnds s e v.path) (hinside : op.Inside m v) : HasEnds s e (op.apply m v).path := by
  cases op with
  | insertAt pos node => exact (h.insert hs he node hinside.1 hinside.2).1
  | eraseAt pos => exact (h.eraseAt hs he hinside.1 hinside.2).1
  | eraseNode node => exact h.erase hs he hinside.1 hinside.2
  | swap i j => exact h.swap hs he hinside.1 hinside.2
  | pushBack order => exact pushBack_ends hs he h
  | pushFront order => exact pushFront_ends hs he h
  | insert order => exact insert_ends hs he h
  | erase order =>
    have hpick := h.erase (m := m) hs he hinside.1.1 hinside.1.2
    exact hpick.erase hs he hinside.2.1 hinside.2.2
  | semiLIFO order => exact semiLIFO_ends hs he h

end Op

/-- What the vehicle becomes in a run of operations of a kind. -/
inductive Reaches (m : Dmatrix) (allowed : Op → VehiclePickDeliver → Prop)
    (v₀ : VehiclePickDeliver) : VehiclePickDeliver → Prop
  | start : Reaches m allowed v₀ v₀
  | step {v : VehiclePickDeliver} {op : Op} : Reaches m allowed v₀ v → allowed op v →
      Reaches m allowed v₀ (op.apply m v)

variable {v₀ : VehiclePickDeliver} {allowed : Op → VehiclePickDeliver → Prop}

theorem Reaches.evaluated (h : Reaches m allowed v₀ v) (hv₀ : v₀.Evaluated m) :
    v.Evaluated m := by
  induction h with
  | start => exact hv₀
  | step _ _ ih => exact Op.apply_evaluated _ ih

theorem Reaches.ends (h : Reaches m (fun op v => op.InRange m v ∧ op.Inside m v) v₀ v)
    (hs : s.type = .kStart) (he : e.type = .kEnd) (hv₀ : HasEnds s e v₀.path) :
    HasEnds s e v.path := by
  induction h with
  | start => exact hv₀
  | step _ hop ih => exact Op.apply_ends _ hs he ih hop.2

/-- Whatever the operations, the nodes of a vehicle have cached what the evaluation of the whole
    path finds. The path keeps its ends when every operation works between them. -/
theorem reaches_evaluated (m : Dmatrix) (v₀ : VehiclePickDeliver) (idx : Nat) (id : Int)
    (startingSite endingSite : VehicleNode) (capacity : WithTop ℚ) (speed factor : ℚ)
    (hv₀ : v₀.toVehicle = .new m idx id startingSite endingSite capacity speed factor)
    (hs : startingSite.type = .kStart) (he : endingSite.type = .kEnd) :
    (∀ v, Reaches m (Op.InRange m) v₀ v → v.toVehicle.evaluate m 0 = v.toVehicle) ∧
    ∀ v, Reaches m (fun op v => op.InRange m v ∧ op.Inside m v) v₀ v →
      HasEnds startingSite.toTwNode endingSite.toTwNode v.path := by
  constructor
  · intro v hv
    apply hv.evaluated
    rw [hv₀]
    exact new_evaluated
  · intro v hv
    apply hv.ends hs he
    rw [hv₀]
    exact HasEnds.evaluate hs he ⟨le_refl 2, ⟨startingSite, rfl, rfl⟩, ⟨endingSite, rfl, rfl⟩⟩

/-- A site that is open for a day. -/
def daySite (idx : Nat) (type : NodeType) : VehicleNode :=
  .ofTwNode { idx := idx, id := 1, opens := 0, closes := ((24 : ℚ) : WithTop ℚ), serviceTime := 0,
              demand := if type = .kPickup then 1 else if type = .kDelivery then -1 else 0,
              type := type }

/-- A matrix with one place. -/
def onePlace : Dmatrix where
  ids := [1]
  distance _ _ := 0

/-- An empty truck. -/
def dayTruck : VehiclePickDeliver where
  toVehicle := .new onePlace 0 7 (daySite 0 .kStart) (daySite 1 .kEnd) ⊤ 1 1
  ordersInVehicle := .empty
  orders := []
  feasableOrders := .empty

theorem reaches_evaluated_dayTruck :
    (∀ v, Reaches onePlace (Op.InRange onePlace) dayTruck v →
      v.toVehicle.evaluate onePlace 0 = v.toVehicle) ∧
    ∀ v, Reaches onePlace (fun op v => op.InRange onePlace v ∧ op.Inside onePlace v) dayTruck v →
      HasEnds (daySite 0 .kStart).toTwNode (daySite 1 .kEnd).toTwNode v.path :=
  reaches_evaluated onePlace dayTruck 0 7 (daySite 0 .kStart) (daySite 1 .kEnd) ⊤ 1 1 rfl rfl rfl

/-- Nothing stops an insertion in front of the starting site. -/
theorem reaches_without_start :
    ¬ ∀ v, Reaches onePlace (Op.InRange onePlace) dayTruck v →
      v.toVehicle.evaluate onePlace 0 = v.toVehicle ∧
      HasEnds (daySite 0 .kStart).toTwNode (daySite 1 .kEnd).toTwNode v.path := by
  intro hall
  have hstep : Reaches onePlace (Op.InRange onePlace) dayTruck
      ((Op.insertAt 0 (daySite 2 .kPickup)).apply onePlace dayTruck) :=
    .step .start (Nat.zero_le _)
  obtain ⟨_, hends⟩ := hall _ hstep
  obtain ⟨n, hn, hstart⟩ := hends.first
  have hpickup : (daySite 2 .kPickup).evaluateFirst ⊤ = n := Option.some.inj hn
  rw [← hpickup, VehicleNode.evaluateFirst_toTwNode] at hstart
  exact absurd (congrArg TwNode.idx hstart) (by decide)

end VehiclePickDeliver

end Vrp

end PgRouting
