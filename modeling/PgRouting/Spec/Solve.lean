import PgRouting.Spec.BestPlace
import PgRouting.Spec.InitialSolution
import Mathlib.Tactic.IntervalCases

/-!
# Solving a problem

`Optimize` keeps every order in exactly one vehicle, and its best solution is never worse than
the first one. It does not evaluate a vehicle again that an order is taken out of: the vehicle
stays feasible where times are exact and satisfy the triangle inequality, while with doubles
the shortened route may come too late by a rounding.

## Key results

- `optimize_keeps_solution`: the best solution is a solution, and not worse than the first one
- `optimize_breaks_solution`: an infeasible best solution, with doubles
-/

namespace PgRouting

namespace Vrp

open InitialSolution VehiclePickDeliver Optimize

/-- `Optimize` ends; in its best solution every order is in exactly one vehicle, and the best
    solution has fewer vehicles than the first one or as many and not a longer duration. With exact
    times that satisfy the triangle inequality the vehicles stay feasible. -/
theorem optimize_keeps_solution :
    (∀ (m : Dmatrix Float) (kind : InitialsCode) (orders : PDOrders Float)
      (sort : List (VehiclePickDeliver Float) → List (VehiclePickDeliver Float)) (times n : Nat)
      (fleet : List (VehiclePickDeliver Float)), orders.Valid → orders ≠ [] →
      (∀ fleet, (sort fleet).Perm fleet) → IsSolution orders (Serves m orders) fleet →
      fleet.length * orders.length + 1 < n →
      ∃ r, optimize m kind sort times n fleet = some r ∧
        IsSolution orders (Serves m orders) r.best ∧ NotWorse r.best fleet) ∧
    ∀ (m : Dmatrix ℚ) (kind : InitialsCode) (orders : PDOrders ℚ)
      (sort : List (VehiclePickDeliver ℚ) → List (VehiclePickDeliver ℚ)) (times n : Nat)
      (fleet : List (VehiclePickDeliver ℚ)), orders.Valid → orders ≠ [] →
      (∀ fleet, (sort fleet).Perm fleet) → (∀ w ∈ fleet, TriangleInequality m w.speed) →
      IsSolution orders (ServesFeasible m orders) fleet →
      fleet.length * orders.length + 1 < n →
      ∃ r, optimize m kind sort times n fleet = some r ∧
        IsSolution orders (ServesFeasible m orders) r.best ∧ NotWorse r.best fleet := by
  constructor
  · intro m kind orders sort times n fleet hvalid hpos hsort h hn
    obtain ⟨r, hr, hsound⟩ := optimize_ok (fun _ _ => True) times
      (fun hw ho hd hnew _ => (hw.insert hvalid ho hd hnew).mono fun hserves => hserves.1.2)
      (moves_serves kind hvalid) hsort hpos h hn (fun _ _ => trivial)
    exact ⟨r, hr, hsound.best, hsound.better⟩
  · intro m kind orders sort times n fleet hvalid hpos hsort htri h hn
    have hsturdy : IsSolution orders (Sturdy m orders) fleet :=
      h.mono fun w hw hserves => ⟨hserves, htri w hw⟩
    obtain ⟨r, hr, hsound⟩ := optimize_ok (fun _ _ => True) times
      (fun hw ho hd hnew _ => Sturdy.takes hw.2 (hw.1.2.insert hvalid ho hd hnew))
      (moves_sturdy kind hvalid) hsort hpos hsturdy hn (fun _ _ => trivial)
    exact ⟨r, hr, hsound.best.mono fun w _ hw => hw.1, hsound.better⟩

/-! ## Two trucks on the road -/

section

variable {K : Type} [Numbers K] (tenths : Nat → K)

/-- An order with a sharp deadline, and three orders from the road to the place far away. -/
def roadOrders : PDOrders K :=
  [roadOrder tenths 0 1 3 8 9 12, roadOrder tenths 1 2 4 0 10000 10000,
    roadOrder tenths 2 2 4 0 10000 10000, roadOrder tenths 3 2 4 0 10000 10000]

/-- A truck that leaves late and has two orders. -/
def lateTruck : VehiclePickDeliver K :=
  roadTruck tenths 0 500 (roadOrders tenths)
    (([.pickup 2, .pickup 3, .delivery 2, .delivery 3] : List (Stop Nat)).map
      (roadOrders tenths).node) ((Identifiers.empty.add 2).add 3)

/-- A truck with the sharp deadline. On its way it picks up another order. -/
def sharpTruck : VehiclePickDeliver K :=
  roadTruck tenths 1 0 (roadOrders tenths)
    (([.pickup 0, .pickup 1, .delivery 0, .delivery 1] : List (Stop Nat)).map
      (roadOrders tenths).node) ((Identifiers.empty.add 0).add 1)

variable {tenths}

theorem roadOrders_built : (roadOrders tenths).Built where
  idx := by
    intro o ho
    change o < 4 at ho
    interval_cases o <;> rfl
  pickup_idx := by
    intro o ho
    change o < 4 at ho
    interval_cases o <;> rfl
  delivery_idx := by
    intro o ho
    change o < 4 at ho
    interval_cases o <;> rfl
  demand := by
    intro o ho
    change o < 4 at ho
    interval_cases o <;> rfl

/-- Where the trucks leave and come back to. -/
def roadSites (idx opens : Nat) (hstart : (roadStart tenths idx opens).isStart = true)
    (hend : (roadEnd tenths idx).isEnd = true) : Sites (roadOrders tenths) where
  start := roadStart tenths idx opens
  finish := roadEnd tenths idx
  isStart := hstart
  isEnd := hend
  start_idx s hs := by
    have hlt := roadOrders_built.node_lt hs
    change _ < 8 at hlt
    show 2 * idx + 100 ≠ _
    omega
  finish_idx s hs := by
    have hlt := roadOrders_built.node_lt hs
    change _ < 8 at hlt
    show 2 * idx + 101 ≠ _
    omega

theorem roadTruck_onRoute {idx opens : Nat} {stops : List (Stop Nat)} {ids : Identifiers Nat}
    (hstart : (roadStart tenths idx opens).isStart = true)
    (hend : (roadEnd tenths idx).isEnd = true) (hroute : IsRoute stops)
    (hknown : ∀ s ∈ stops, s.order < 4) (hids : ∀ o, o ∈ ids ↔ .pickup o ∈ stops) :
    (roadTruck tenths idx opens (roadOrders tenths) (stops.map (roadOrders tenths).node)
      ids).OnRoute (road tenths) (roadSites idx opens hstart hend) stops where
  table o ho := ⟨roadOrders_built.idx o ho, rfl, rfl⟩
  route := hroute
  known := hknown
  ids := hids
  path := rfl

/-- The two trucks serve the four orders. -/
theorem roadTrucks_solution
    (hlate : (roadStart tenths 0 500).isStart = true ∧ (roadEnd tenths 0).isEnd = true)
    (hsharp : (roadStart tenths 1 0).isStart = true ∧ (roadEnd tenths 1).isEnd = true) :
    IsSolution (roadOrders tenths) (Serves (road tenths) (roadOrders tenths))
      [lateTruck tenths, sharpTruck tenths] := by
  have hroute : ∀ a b : Nat, a ≠ b →
      IsRoute [Stop.pickup a, .pickup b, .delivery a, .delivery b] := by
    intro a b hab o
    by_cases ha : a = o
    · right
      simp [← ha, hab.symm]
    · by_cases hb : b = o
      · right
        simp [← hb, hab]
      · left
        simp [ha, hb]
  constructor
  · intro w hw
    obtain rfl | rfl : w = lateTruck tenths ∨ w = sharpTruck tenths := by simpa using hw
    · refine ⟨roadSites 0 500 hlate.1 hlate.2, _, roadTruck_onRoute hlate.1 hlate.2
        (hroute 2 3 (by decide)) (by decide) fun o => ?_⟩
      simp [Identifiers.mem_add, or_comm]
    · refine ⟨roadSites 1 0 hsharp.1 hsharp.2, _, roadTruck_onRoute hsharp.1 hsharp.2
        (hroute 0 1 (by decide)) (by decide) fun o => ?_⟩
      simp [Identifiers.mem_add, or_comm]
  · show List.Perm [2, 3, 0, 1] [0, 1, 2, 3]
    decide

end

theorem roadOrders_valid_decimal : (roadOrders decimal).Valid where
  idx := roadOrders_built.idx
  pickup := by decide +kernel
  delivery := by decide +kernel
  demand := roadOrders_built.demand
  node_idx _ _ hs ht heq := roadOrders_built.node_inj hs ht heq

theorem roadOrders_valid_tenth : (roadOrders tenth).Valid where
  idx := roadOrders_built.idx
  pickup := by decide +kernel
  delivery := by decide +kernel
  demand := roadOrders_built.demand
  node_idx _ _ hs ht heq := roadOrders_built.node_inj hs ht heq

/-- The late truck takes over the order that the sharp truck picks up on its way. Then the straight
    way of the sharp truck takes longer than its deadline by the rounding of 0.8 + 0.4. -/
theorem optimize_breaks_solution : ¬ ∀ (m : Dmatrix Float) (kind : InitialsCode)
    (orders : PDOrders Float)
    (sort : List (VehiclePickDeliver Float) → List (VehiclePickDeliver Float)) (times n : Nat)
    (fleet : List (VehiclePickDeliver Float)), orders.Valid → orders ≠ [] →
    (∀ fleet, (sort fleet).Perm fleet) → (∀ w ∈ fleet, TriangleInequality m w.speed) →
    IsSolution orders (ServesFeasible m orders) fleet → fleet.length * orders.length + 1 < n →
    ∃ r, optimize m kind sort times n fleet = some r ∧
      IsSolution orders (ServesFeasible m orders) r.best ∧ NotWorse r.best fleet := by
  intro hall
  have hsolution : IsSolution (roadOrders decimal)
      (ServesFeasible (road decimal) (roadOrders decimal))
      [lateTruck decimal, sharpTruck decimal] := by
    apply (roadTrucks_solution (by decide +kernel) (by decide +kernel)).mono
    intro w hw hserves
    obtain rfl | rfl : w = lateTruck decimal ∨ w = sharpTruck decimal := by simpa using hw
    · exact ⟨by decide +kernel, hserves⟩
    · exact ⟨by decide +kernel, hserves⟩
  obtain ⟨r, hr, hbest, _⟩ := hall (road decimal) .bestInsert (roadOrders decimal) id 1 10
    [lateTruck decimal, sharpTruck decimal] roadOrders_valid_decimal (List.cons_ne_nil _ _)
    (fun _ => List.Perm.refl _)
    (fun w hw => by
      obtain rfl | rfl : w = lateTruck decimal ∨ w = sharpTruck decimal := by simpa using hw
      · exact road_triangle_decimal
      · exact road_triangle_decimal)
    hsolution (by decide)
  have hrun : (optimize (road decimal) .bestInsert id 1 10
      [lateTruck decimal, sharpTruck decimal]).map (fun r => r.best.all fun w => w.isFeasable) =
        some false := by
    decide +kernel
  rw [hr, Option.map_some, Option.some.injEq, List.all_eq_false] at hrun
  obtain ⟨w, hw, hinfeasible⟩ := hrun
  exact hinfeasible (hbest.ok w hw).1

theorem optimize_keeps_solution_road :
    (∃ r, optimize (road decimal) .bestInsert id 1 10 [lateTruck decimal, sharpTruck decimal] =
        some r ∧
      IsSolution (roadOrders decimal) (Serves (road decimal) (roadOrders decimal)) r.best ∧
      NotWorse r.best [lateTruck decimal, sharpTruck decimal]) ∧
    decreaseCalls (road tenth) 10 (sortBySize id
      { fleet := [lateTruck tenth, sharpTruck tenth],
        best := [lateTruck tenth, sharpTruck tenth] }) ≠ [] ∧
    ∃ r, optimize (road tenth) .bestInsert id 1 10 [lateTruck tenth, sharpTruck tenth] = some r ∧
      IsSolution (roadOrders tenth) (ServesFeasible (road tenth) (roadOrders tenth)) r.best ∧
      NotWorse r.best [lateTruck tenth, sharpTruck tenth] := by
  have hcalls : (decreaseCalls (road tenth) 10 (sortBySize id
      { fleet := [lateTruck tenth, sharpTruck tenth],
        best := [lateTruck tenth, sharpTruck tenth] })).length = 2 := by
    decide +kernel
  refine ⟨?_, List.ne_nil_of_length_pos (by omega), ?_⟩
  · exact optimize_keeps_solution.1 (road decimal) .bestInsert (roadOrders decimal) id 1 10
      [lateTruck decimal, sharpTruck decimal] roadOrders_valid_decimal (List.cons_ne_nil _ _)
      (fun _ => List.Perm.refl _)
      (roadTrucks_solution (by decide +kernel) (by decide +kernel)) (by decide)
  · apply optimize_keeps_solution.2 (road tenth) .bestInsert (roadOrders tenth) id 1 10
      [lateTruck tenth, sharpTruck tenth] roadOrders_valid_tenth (List.cons_ne_nil _ _)
      (fun _ => List.Perm.refl _)
    · intro w hw
      obtain rfl | rfl : w = lateTruck tenth ∨ w = sharpTruck tenth := by simpa using hw
      · exact road_triangle_tenth
      · exact road_triangle_tenth
    · apply (roadTrucks_solution (by decide +kernel) (by decide +kernel)).mono
      intro w hw hserves
      obtain rfl | rfl : w = lateTruck tenth ∨ w = sharpTruck tenth := by simpa using hw
      · exact ⟨by decide +kernel, hserves⟩
      · exact ⟨by decide +kernel, hserves⟩
    · decide

end Vrp

end PgRouting
