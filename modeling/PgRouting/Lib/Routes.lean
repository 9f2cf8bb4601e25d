import Mathlib.Algebra.Order.BigOperators.Group.List
import Mathlib.Algebra.Order.Group.Defs
import Mathlib.Algebra.Order.Monoid.WithTop
import Mathlib.Data.List.Perm.Subperm
import Mathlib.Tactic.Abel

/-!
# Routes with time windows and loads

A route visits places one after the other. It arrives at a place after the travel from the
place before, waits for it to open and leaves it when it has been served; it must not arrive
after the place closes. A place may change the load that the route carries.

A stop picks an order up or delivers it. A route of stops picks every order up once, delivers
it once, and picks it up first.

## Key results

- `OnTime.sublist`: under the triangle inequality a route that leaves out places stays on time
- `IsPart.load_nonneg`: no part of a route delivers more than it has picked up
- `IsRoute.fits_without`: a route that leaves out an order carries no more than before
-/

namespace PgRouting

/-- Places to visit: the travel between them, when they open and close, and their service. -/
structure Windows (α K : Type*) where
  travel : α → α → K
  opens : α → K
  closes : α → WithTop K
  service : α → K

section Time

variable {α K : Type*} [AddCommGroup K] [LinearOrder K] [IsOrderedAddMonoid K]
variable (w : Windows α K)

/-- When a route that leaves `a` at the time `t` leaves the place `b`. -/
def Windows.leave (t : K) (a b : α) : K := max (t + w.travel a b) (w.opens b) + w.service b

/-- A route that leaves `a` at the time `t` comes to no place of the list too late. -/
def OnTime (t : K) (a : α) : List α → Prop
  | [] => True
  | b :: rest => ((t + w.travel a b : K) : WithTop K) ≤ w.closes b ∧ OnTime (w.leave t a b) b rest

variable {w} {t t' : K} {a b : α} {l l' : List α}

/-- What a route from `b` can do, a route from `a` can do that would be earlier everywhere. -/
theorem OnTime.of_earlier (h : OnTime w t' b l)
    (hle : ∀ c, t + w.travel a c ≤ t' + w.travel b c) : OnTime w t a l := by
  induction l generalizing a b t t' with
  | nil => trivial
  | cons c l ih =>
    have hleave : w.leave t a c ≤ w.leave t' b c :=
      add_le_add_left (max_le_max_right _ (hle c)) _
    constructor
    · exact le_trans (WithTop.coe_le_coe.mpr (hle c)) h.1
    · apply ih h.2
      intro e
      exact add_le_add_left hleave _

/-- Leaving places out never makes a route late. -/
theorem OnTime.sublist (htri : ∀ a b c, w.travel a c ≤ w.travel a b + w.travel b c)
    (hsub : l'.Sublist l) (hservice : ∀ b ∈ l, 0 ≤ w.service b) (h : OnTime w t a l) :
    OnTime w t a l' := by
  induction hsub generalizing a t with
  | slnil => trivial
  | @cons l' l b _ ih =>
    have hrest := ih (fun c hc => hservice c (List.mem_cons_of_mem b hc)) h.2
    apply hrest.of_earlier
    intro c
    have hleave : t + w.travel a b ≤ w.leave t a b :=
      le_add_of_le_of_nonneg (le_max_left _ _) (hservice b List.mem_cons_self)
    calc t + w.travel a c ≤ t + (w.travel a b + w.travel b c) := add_le_add_right (htri a b c) t
      _ = t + w.travel a b + w.travel b c := (add_assoc _ _ _).symm
      _ ≤ w.leave t a b + w.travel b c := add_le_add_left hleave _
  | @cons_cons _ _ b _ ih =>
    exact ⟨h.1, ih (fun c hc => hservice c (List.mem_cons_of_mem b hc)) h.2⟩

end Time

section Load

variable {α K : Type*} [AddCommGroup K] [LinearOrder K]

/-- The load stays within the capacity along the places, when it is `c` before them. -/
def Fits (capacity : WithTop K) (demand : α → K) (c : K) : List α → Prop
  | [] => True
  | b :: rest => (0 ≤ c + demand b ∧ ((c + demand b : K) : WithTop K) ≤ capacity) ∧
      Fits capacity demand (c + demand b) rest

variable {capacity : WithTop K} {demand : α → K} {c : K} {l : List α}

theorem fits_congr {β : Type*} {demand' : β → K} {l' : List β}
    (h : l.map demand = l'.map demand') :
    Fits capacity demand c l ↔ Fits capacity demand' c l' := by
  induction l generalizing c l' with
  | nil =>
    rw [List.map_nil, eq_comm, List.map_eq_nil_iff] at h
    rw [h]
    exact Iff.rfl
  | cons b l ih =>
    cases l' with
    | nil => exact absurd h (List.cons_ne_nil _ _)
    | cons b' l' =>
      obtain ⟨hb, hl⟩ := List.cons_eq_cons.mp h
      unfold Fits
      rw [hb, ih hl]

/-- The load is within the capacity behind every first part of the route. -/
theorem fits_iff : Fits capacity demand c l ↔ ∀ p, p <+: l → p ≠ [] →
    0 ≤ c + (p.map demand).sum ∧ ((c + (p.map demand).sum : K) : WithTop K) ≤ capacity := by
  induction l generalizing c with
  | nil => simp [Fits]
  | cons b l ih =>
    unfold Fits
    rw [ih]
    constructor
    · intro h p hp hne
      obtain rfl | ⟨q, rfl, hq⟩ := List.prefix_cons_iff.mp hp
      · exact absurd rfl hne
      · rw [List.map_cons, List.sum_cons, ← add_assoc]
        by_cases hnil : q = []
        · simpa [hnil] using h.1
        · exact h.2 q hq hnil
    · intro h
      constructor
      · simpa using h [b] (by simp) (by simp)
      · intro p hp _
        rw [add_assoc, ← List.sum_cons, ← List.map_cons]
        exact h (b :: p) (List.prefix_cons_iff.mpr (.inr ⟨p, rfl, hp⟩)) (List.cons_ne_nil _ _)

end Load

section Insert

variable {α : Type*} {l r : List α} {x y : α} {p q : Nat}

/-- Inserting at a position splits the list there. -/
theorem insertIdx_eq (h : p ≤ l.length) : l.insertIdx p x = l.take p ++ x :: l.drop p := by
  induction l generalizing p with
  | nil =>
    rw [List.length_nil, Nat.le_zero] at h
    rw [h]
    rfl
  | cons a l ih =>
    cases p with
    | zero => rfl
    | succ p =>
      rw [List.insertIdx_succ_cons, ih (Nat.le_of_succ_le_succ h)]
      rfl

theorem insertIdx_append_of_le (h : p ≤ l.length) :
    (l ++ r).insertIdx p x = l.insertIdx p x ++ r := by
  have hlong : p ≤ (l ++ r).length := by
    rw [List.length_append]
    omega
  rw [insertIdx_eq hlong, insertIdx_eq h, List.take_append_of_le_length h,
    List.drop_append_of_le_length h, List.append_assoc, List.cons_append]

/-- Two insertions, the second one behind the first. -/
theorem exists_insertIdx_insertIdx (hpq : p < q) (hq : q ≤ l.length + 1) :
    ∃ a b c, l = a ++ b ++ c ∧ a = l.take p ∧ c = l.drop (q - 1) ∧
      (l.insertIdx p x).insertIdx q y = a ++ x :: b ++ y :: c := by
  have hp : p ≤ l.length := by omega
  obtain ⟨k, rfl⟩ := Nat.exists_eq_add_of_lt hpq
  refine ⟨l.take p, (l.drop p).take k, (l.drop p).drop k, ?_, rfl, ?_, ?_⟩
  · rw [List.append_assoc, List.take_append_drop, List.take_append_drop]
  · rw [List.drop_drop]
    rfl
  · have hlen : (l.take p).length = p := List.length_take_of_le hp
    have hq' : p + k + 1 = (l.take p).length + (k + 1) := by omega
    have hlong : p + k + 1 ≤ (l.take p ++ x :: l.drop p).length := by
      simp only [List.length_append, List.length_cons, List.length_drop, hlen]
      omega
    rw [insertIdx_eq hp, insertIdx_eq hlong, hq', List.take_length_add_append,
      List.drop_length_add_append, List.take_succ_cons, List.drop_succ_cons]

end Insert

/-- A stop of a route. -/
inductive Stop (ι : Type*)
  | pickup (o : ι)
  | delivery (o : ι)
deriving DecidableEq

namespace Stop

variable {ι K : Type*}

/-- The order a stop is about. -/
def order : Stop ι → ι
  | pickup o => o
  | delivery o => o

@[simp] theorem order_pickup (o : ι) : (pickup o).order = o := rfl

@[simp] theorem order_delivery (o : ι) : (delivery o).order = o := rfl

/-- Whether an order is picked up at the stop. -/
def isPickup : Stop ι → Bool
  | pickup _ => true
  | delivery _ => false

/-- What a stop adds to the load. -/
def load [AddCommGroup K] (amount : ι → K) : Stop ι → K
  | pickup o => amount o
  | delivery o => -amount o

end Stop

section Stops

variable {ι : Type*}

/-- The orders that the stops pick up. -/
def picked : List (Stop ι) → List ι
  | [] => []
  | .pickup o :: rest => o :: picked rest
  | .delivery _ :: rest => picked rest

/-- The orders that the stops deliver. -/
def delivered : List (Stop ι) → List ι
  | [] => []
  | .pickup _ :: rest => delivered rest
  | .delivery o :: rest => o :: delivered rest

variable {l p : List (Stop ι)} {o : ι}

@[simp] theorem mem_picked : o ∈ picked l ↔ .pickup o ∈ l := by
  induction l with
  | nil => simp [picked]
  | cons s l ih => cases s <;> simp [picked, ih]

@[simp] theorem mem_delivered : o ∈ delivered l ↔ .delivery o ∈ l := by
  induction l with
  | nil => simp [delivered]
  | cons s l ih => cases s <;> simp [delivered, ih]

theorem nodup_picked (h : l.Nodup) : (picked l).Nodup := by
  induction l with
  | nil => exact List.nodup_nil
  | cons s l ih =>
    obtain ⟨hs, hl⟩ := List.nodup_cons.mp h
    cases s with
    | pickup o => exact List.nodup_cons.mpr ⟨fun ho => hs (mem_picked.mp ho), ih hl⟩
    | delivery o => exact ih hl

theorem nodup_delivered (h : l.Nodup) : (delivered l).Nodup := by
  induction l with
  | nil => exact List.nodup_nil
  | cons s l ih =>
    obtain ⟨hs, hl⟩ := List.nodup_cons.mp h
    cases s with
    | pickup o => exact ih hl
    | delivery o => exact List.nodup_cons.mpr ⟨fun ho => hs (mem_delivered.mp ho), ih hl⟩

/-- The stops of an order are none, or its pickup and then its delivery. -/
def IsRoute [DecidableEq ι] (l : List (Stop ι)) : Prop :=
  ∀ o, l.filter (fun s => s.order = o) = [] ∨
    l.filter (fun s => s.order = o) = [.pickup o, .delivery o]

/-- A part of a route: what it has delivered it has picked up. -/
structure IsPart (p : List (Stop ι)) : Prop where
  nodup : p.Nodup
  closed : ∀ o, .delivery o ∈ p → .pickup o ∈ p

theorem IsPart.filter (h : IsPart p) (keep : ι → Bool) :
    IsPart (p.filter fun s => keep s.order) := by
  constructor
  · exact h.nodup.filter _
  · intro o ho
    obtain ⟨ho, hkeep⟩ := List.mem_filter.mp ho
    exact List.mem_filter.mpr ⟨h.closed o ho, hkeep⟩

/-- Every pickup stands before every delivery. -/
def PickupsFirst (l : List (Stop ι)) : Prop :=
  l.Pairwise fun s t => t.isPickup = true → s.isPickup = true

theorem PickupsFirst.sublist (h : PickupsFirst l) (hsub : p.Sublist l) : PickupsFirst p :=
  List.Pairwise.sublist hsub h

/-- An order inserted at two positions keeps the pickups first iff no delivery stands before its
    pickup and no pickup behind its delivery. -/
theorem PickupsFirst.insertIdx_iff {p q : Nat} (h : PickupsFirst l) (hpq : p < q)
    (hq : q ≤ l.length + 1) :
    PickupsFirst ((l.insertIdx p (.pickup o)).insertIdx q (.delivery o)) ↔
      (∀ s ∈ l.take p, s.isPickup = true) ∧ ∀ s ∈ l.drop (q - 1), s.isPickup = false := by
  obtain ⟨a, b, c, hl, ha, hc, hinsert⟩ :=
    exists_insertIdx_insertIdx (x := Stop.pickup o) (y := .delivery o) hpq hq
  unfold PickupsFirst at h ⊢
  rw [hinsert, ← ha, ← hc]
  clear ha hc
  rw [hl] at h
  -- The other stops keep their order, and the new ones are a pickup and a delivery.
  simp only [List.pairwise_append, List.pairwise_cons, List.mem_append, List.mem_cons] at h ⊢
  obtain ⟨⟨ha, hb, hab⟩, hc, habc⟩ := h
  constructor
  · intro hall
    obtain ⟨⟨_, _, hbefore⟩, ⟨hbehind, _⟩, _⟩ := hall
    constructor
    · intro s hs
      exact hbefore s hs _ (.inl rfl) rfl
    · intro s hs
      exact Bool.eq_false_iff.mpr fun hpickup => Bool.false_ne_true (hbehind s hs hpickup)
  · intro hplace
    obtain ⟨hbefore, hbehind⟩ := hplace
    have hnot : ∀ t ∈ c, t.isPickup = true → False := by
      intro t ht hpickup
      rw [hbehind t ht] at hpickup
      exact Bool.false_ne_true hpickup
    refine ⟨⟨ha, ⟨fun _ _ _ => rfl, hb⟩, fun s hs _ _ _ => hbefore s hs⟩,
      ⟨fun t ht hpickup => (hnot t ht hpickup).elim, hc⟩, ?_⟩
    intro s _ t ht hpickup
    obtain rfl | ht := ht
    · exact absurd hpickup Bool.false_ne_true
    · exact (hnot t ht hpickup).elim

section Amount

variable {K : Type*} [AddCommGroup K] {amount : ι → K}

/-- The load of the stops is what they pick up less what they deliver. -/
theorem sum_load : (l.map (Stop.load amount)).sum =
    ((picked l).map amount).sum - ((delivered l).map amount).sum := by
  induction l with
  | nil => simp [picked, delivered]
  | cons s l ih =>
    rw [List.map_cons, List.sum_cons, ih]
    cases s <;> simp only [picked, delivered, Stop.load, List.map_cons, List.sum_cons] <;> abel

variable [LinearOrder K] [IsOrderedAddMonoid K]

/-- No more is delivered than has been picked up. -/
theorem IsPart.load_nonneg (h : IsPart p) (hamount : ∀ s ∈ p, 0 ≤ amount s.order) :
    0 ≤ (p.map (Stop.load amount)).sum := by
  have hsub : delivered p ⊆ picked p := by
    intro o ho
    exact mem_picked.mpr (h.closed o (mem_delivered.mp ho))
  obtain ⟨l, hperm, hl⟩ := List.subperm_of_subset (nodup_delivered h.nodup) hsub
  have hnonneg : ∀ x ∈ (picked p).map amount, 0 ≤ x := by
    intro x hx
    obtain ⟨o, ho, rfl⟩ := List.mem_map.mp hx
    exact hamount _ (mem_picked.mp ho)
  have hle : ((delivered p).map amount).sum ≤ ((picked p).map amount).sum := by
    rw [← (hperm.map amount).sum_eq]
    exact (hl.map amount).sum_le_sum hnonneg
  rw [sum_load]
  exact sub_nonneg.mpr hle

end Amount

namespace IsRoute

variable [DecidableEq ι]

/-- The pickup of a delivery stands before it. -/
theorem isPart (h : IsRoute l) (hp : p <+: l) : IsPart p := by
  constructor
  · apply hp.sublist.nodup
    apply List.nodup_iff_count.mpr
    intro s
    -- A stop occurs as often as among the stops of its order, which are none or one pair.
    have hcount : l.count s = (l.filter fun t => t.order = s.order).count s := by
      rw [List.count_filter (by simp)]
    rw [hcount]
    obtain hnil | hpair := h s.order
    · simp [hnil]
    · rw [hpair]
      cases s <;> simp
  · intro o ho
    have hpre := hp.filter fun s : Stop ι => s.order = o
    have hmem : Stop.delivery o ∈ p.filter fun s => s.order = o :=
      List.mem_filter.mpr ⟨ho, by simp⟩
    obtain hnil | hpair := h o
    · rw [hnil, List.prefix_nil] at hpre
      rw [hpre] at hmem
      exact absurd hmem List.not_mem_nil
    · rw [hpair] at hpre
      -- Of the pair a prefix that has the delivery has the pickup.
      have hhead : Stop.pickup o ∈ p.filter fun s => s.order = o := by
        obtain hnil | ⟨q, hq, _⟩ := List.prefix_cons_iff.mp hpre
        · rw [hnil] at hmem
          exact absurd hmem List.not_mem_nil
        · rw [hq]
          exact List.mem_cons_self
      exact (List.mem_filter.mp hhead).1

theorem nodup (h : IsRoute l) : l.Nodup := (h.isPart (List.prefix_refl l)).nodup

theorem delivery_mem_iff (h : IsRoute l) : .delivery o ∈ l ↔ .pickup o ∈ l := by
  have hmem : ∀ s : Stop ι, s ∈ l ↔ s ∈ l.filter fun t => t.order = s.order := by
    intro s
    simp
  rw [hmem (.delivery o), hmem (.pickup o)]
  rw [Stop.order_pickup, Stop.order_delivery]
  obtain hnil | hpair := h o
  · simp [hnil]
  · simp [hpair]

/-- A route without one of its orders is a route. -/
theorem without (h : IsRoute l) : IsRoute (l.filter fun s => s.order ≠ o) := by
  intro o'
  rw [List.filter_filter]
  by_cases heq : o' = o
  · left
    simp [heq]
  · have hsame : (l.filter fun s => decide (s.order = o') && decide (s.order ≠ o)) =
        l.filter fun s => s.order = o' := by
      apply List.filter_congr
      intro s _
      by_cases hs : s.order = o' <;> simp [hs, heq]
    rw [hsame]
    exact h o'

/-- A route with one more order is a route. -/
theorem insert {a b c : List (Stop ι)} (h : IsRoute (a ++ b ++ c))
    (hnew : ∀ s ∈ a ++ b ++ c, s.order ≠ o) :
    IsRoute (a ++ .pickup o :: b ++ .delivery o :: c) := by
  intro o'
  by_cases heq : o' = o
  · right
    -- The new order has no stop so far; the stops of the others do not change.
    have hnil : ∀ q, q ⊆ a ++ b ++ c → q.filter (fun s => s.order = o) = [] := by
      intro q hq
      apply List.filter_eq_nil_iff.mpr
      intro s hs
      simpa using hnew s (hq hs)
    have ha := hnil a (by simp)
    have hb := hnil b (by intro s hs; simp [hs])
    have hc := hnil c (by intro s hs; simp [hs])
    simp [heq, ha, hb, hc]
  · have hsame : (a ++ .pickup o :: b ++ .delivery o :: c).filter (fun s => s.order = o') =
        (a ++ b ++ c).filter fun s => s.order = o' := by
      simp [Ne.symm heq]
    rw [hsame]
    exact h o'

/-- A route with one more order, inserted by the positions of its stops. -/
theorem insertIdx {p q : Nat} (h : IsRoute l) (hnew : ∀ s ∈ l, s.order ≠ o) (hpq : p < q)
    (hq : q ≤ l.length + 1) :
    IsRoute ((l.insertIdx p (.pickup o)).insertIdx q (.delivery o)) := by
  obtain ⟨a, b, c, hl, _, _, hinsert⟩ :=
    exists_insertIdx_insertIdx (x := .pickup o) (y := .delivery o) hpq hq
  rw [hl] at h hnew
  rw [hinsert]
  exact h.insert hnew

variable {K : Type*} [AddCommGroup K] {amount : ι → K}

/-- At the end of a route everything has been delivered. -/
theorem sum_eq_zero (h : IsRoute l) : (l.map (Stop.load amount)).sum = 0 := by
  have hpicked : (picked l).Perm (delivered l) := by
    apply (List.perm_ext_iff_of_nodup (nodup_picked h.nodup) (nodup_delivered h.nodup)).mpr
    intro o
    rw [mem_picked, mem_delivered, h.delivery_mem_iff]
  rw [sum_load, (hpicked.map amount).sum_eq, sub_self]

variable [LinearOrder K] [IsOrderedAddMonoid K]

/-- A route that leaves out an order carries no more than before. -/
theorem fits_without {capacity : WithTop K} (h : IsRoute l)
    (hamount : ∀ s ∈ l, 0 ≤ amount s.order) (hfits : Fits capacity (Stop.load amount) 0 l) :
    Fits capacity (Stop.load amount) 0 (l.filter fun s => s.order ≠ o) := by
  rw [fits_iff] at hfits ⊢
  intro q hq hne
  obtain ⟨p, hp, rfl⟩ := List.prefix_filter_iff.mp hq
  have hpart := h.isPart hp
  have hnonneg : ∀ keep : ι → Bool,
      0 ≤ ((p.filter fun s => keep s.order).map (Stop.load amount)).sum := by
    intro keep
    apply (hpart.filter keep).load_nonneg
    intro s hs
    exact hamount s (hp.subset (List.mem_filter.mp hs).1)
  -- What is left out of a first part of the route weighs something or nothing.
  have hsplit := (List.filter_append_perm (fun s : Stop ι => decide (s.order ≠ o)) p).map
    (Stop.load amount)
  have hsum := hsplit.sum_eq
  rw [List.map_append, List.sum_append] at hsum
  have hout := hnonneg fun x => !decide (x ≠ o)
  have hpne : p ≠ [] := by
    intro hnil
    rw [hnil] at hne
    exact hne rfl
  rw [zero_add]
  constructor
  · exact hnonneg fun x => decide (x ≠ o)
  · have hcap := (hfits p hp hpne).2
    rw [zero_add, ← hsum] at hcap
    exact le_trans (WithTop.coe_le_coe.mpr (le_add_of_nonneg_right hout)) hcap

end IsRoute

end Stops

end PgRouting
