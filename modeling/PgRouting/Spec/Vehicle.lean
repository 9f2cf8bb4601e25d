import PgRouting.Native.Vehicle
import PgRouting.Lib.Routes

/-!
# Evaluated vehicles

A vehicle whose path has been evaluated is determined by the nodes it visits. Every
operation on the path of such a vehicle is an operation on the list of nodes, and the vehicle
is feasible when the route along the nodes is on time and fits.

## Key results

- `insert_drive`, `eraseAt_drive`, `erase_drive`: the operations on the path
- `isFeasable_drive`: the violations that a path has counted are those of the route
-/

namespace PgRouting

namespace Vrp

/-- The time windows of the nodes, at a speed. -/
def TwNode.windows (m : Dmatrix) (speed : ℚ) : Windows TwNode ℚ where
  travel a b := a.travelTimeTo m b speed
  opens n := n.opens
  closes n := n.closes
  service n := n.serviceTime

variable {K : Type} [Numbers K]

namespace TwNode

variable {n : TwNode K}

theorem serviceTime_of_legalTimes (h : n.legalTimes = true) : 0 ≤ n.serviceTime := by
  simp only [legalTimes, Bool.and_eq_true, decide_eq_true_eq] at h
  exact h.2

theorem isStart_iff : n.isStart = true ↔
    n.type = .kStart ∧ n.legalTimes = true ∧ (n.demand == 0) = true := by
  simp only [isStart, Bool.and_eq_true, decide_eq_true_eq, and_assoc]

theorem isPickup_iff :
    n.isPickup = true ↔ n.type = .kPickup ∧ n.legalTimes = true ∧ 0 < n.demand := by
  simp only [isPickup, Bool.and_eq_true, decide_eq_true_eq, and_assoc]

theorem isDelivery_iff :
    n.isDelivery = true ↔ n.type = .kDelivery ∧ n.legalTimes = true ∧ n.demand < 0 := by
  simp only [isDelivery, Bool.and_eq_true, decide_eq_true_eq, and_assoc]

theorem isEnd_iff : n.isEnd = true ↔
    n.type = .kEnd ∧ n.legalTimes = true ∧ (n.demand == 0) = true := by
  simp only [isEnd, Bool.and_eq_true, decide_eq_true_eq, and_assoc]

end TwNode

namespace Numbers

/-- A closing time or a capacity may be infinite. -/
theorem withTop_lt_irrefl (a : WithTop K) : ¬ a < a := by
  cases a with
  | top => exact WithTop.not_top_lt _
  | coe a =>
    rw [WithTop.coe_lt_coe]
    exact Numbers.lt_irrefl a

theorem withTop_lt_trans {a b c : WithTop K} (hab : a < b) (hbc : b < c) : a < c := by
  cases a with
  | top => exact absurd hab (WithTop.not_top_lt _)
  | coe a =>
    cases b with
    | top => exact absurd hbc (WithTop.not_top_lt _)
    | coe b =>
      cases c with
      | top => exact WithTop.coe_lt_top a
      | coe c =>
        rw [WithTop.coe_lt_coe] at *
        exact Numbers.lt_trans hab hbc

end Numbers

namespace VehicleNode

variable {m : Dmatrix K} {n n' pred : VehicleNode K} {capacity : WithTop K} {speed : K}

@[simp] theorem ofTwNode_toTwNode {node : TwNode K} : (ofTwNode node).toTwNode = node := rfl

@[simp] theorem map_ofTwNode {nodes : List (TwNode K)} :
    (nodes.map ofTwNode).map toTwNode = nodes := by
  rw [List.map_map]
  exact List.map_id nodes

/-- The evaluation of a node overwrites what the node had cached. -/
theorem evaluate_congr (h : n.toTwNode = n'.toTwNode) :
    n.evaluate m pred capacity speed = n'.evaluate m pred capacity speed := by
  cases n
  cases n'
  cases h
  rfl

theorem evaluateFirst_congr (h : n.toTwNode = n'.toTwNode) (hstart : n.isStart = true) :
    n.evaluateFirst capacity = n'.evaluateFirst capacity := by
  cases n
  cases n'
  cases h
  unfold evaluateFirst
  rw [if_pos hstart, if_pos hstart]
  rfl

/-- Only a dump site adapts its demand. -/
theorem evaluate_toTwNode (h : n.type ≠ .kDump) :
    (n.evaluate m pred capacity speed).toTwNode = n.toTwNode := by
  have hdump : n.isDump = false := by
    unfold TwNode.isDump
    simp [h]
  simp only [evaluate, hdump, Bool.false_and]
  rfl

theorem evaluateFirst_toTwNode : (n.evaluateFirst capacity).toTwNode = n.toTwNode := by
  unfold evaluateFirst
  split <;> rfl

end VehicleNode

namespace Vehicle

open VehicleNode

variable {m : Dmatrix K} {v : Vehicle K} {capacity : WithTop K} {speed : K} {pred : VehicleNode K}
  {l l' : List (VehicleNode K)} {site node : TwNode K} {nodes : List (TwNode K)}

theorem evaluateLoop_congr (h : l.map toTwNode = l'.map toTwNode) :
    evaluateLoop m capacity speed pred l = evaluateLoop m capacity speed pred l' := by
  induction l generalizing pred l' with
  | nil =>
    rw [List.map_nil, eq_comm, List.map_eq_nil_iff] at h
    rw [h]
  | cons n l ih =>
    cases l' with
    | nil => exact absurd h (List.cons_ne_nil _ _)
    | cons n' l' =>
      obtain ⟨hn, hl⟩ := List.cons_eq_cons.mp h
      simp only [evaluateLoop]
      rw [evaluate_congr hn, ih hl]

theorem evaluateLoop_append : evaluateLoop m capacity speed pred (l ++ l') =
    evaluateLoop m capacity speed pred l ++
      evaluateLoop m capacity speed ((evaluateLoop m capacity speed pred l).getLastD pred) l' := by
  induction l generalizing pred with
  | nil => rfl
  | cons n l ih =>
    simp only [evaluateLoop, List.cons_append, List.getLastD_cons]
    rw [ih]

@[simp] theorem length_evaluateLoop :
    (evaluateLoop m capacity speed pred l).length = l.length := by
  induction l generalizing pred with
  | nil => rfl
  | cons n l ih => simp only [evaluateLoop, List.length_cons, ih]

theorem evaluateLoop_take {k : Nat} : (evaluateLoop m capacity speed pred l).take k =
    evaluateLoop m capacity speed pred (l.take k) := by
  induction l generalizing pred k with
  | nil => simp [evaluateLoop]
  | cons n l ih =>
    cases k with
    | zero => rfl
    | succ k => simp only [evaluateLoop, List.take_succ_cons, ih]

theorem evaluateLoop_toTwNode (h : ∀ n ∈ l, n.type ≠ .kDump) :
    (evaluateLoop m capacity speed pred l).map toTwNode = l.map toTwNode := by
  induction l generalizing pred with
  | nil => rfl
  | cons n l ih =>
    simp only [evaluateLoop, List.map_cons]
    rw [evaluate_toTwNode (h n List.mem_cons_self),
      ih fun n hn => h n (List.mem_cons_of_mem _ hn)]

variable (m v)

/-- The nodes behind `pred`, evaluated. -/
def along (pred : VehicleNode K) (nodes : List (TwNode K)) : List (VehicleNode K) :=
  evaluateLoop m v.capacity v.speed pred (nodes.map ofTwNode)

/-- The starting site, evaluated. -/
def depart (site : TwNode K) : VehicleNode K := (ofTwNode site).evaluateFirst v.capacity

/-- The vehicle with an evaluated path, from the site along the nodes. -/
def drive (site : TwNode K) (nodes : List (TwNode K)) : Vehicle K :=
  { v with path := v.depart site :: v.along m (v.depart site) nodes }

variable {m v}

@[simp] theorem drive_path :
    (v.drive m site nodes).path = v.depart site :: v.along m (v.depart site) nodes := rfl

@[simp] theorem drive_capacity : (v.drive m site nodes).capacity = v.capacity := rfl

@[simp] theorem drive_speed : (v.drive m site nodes).speed = v.speed := rfl

@[simp] theorem drive_drive {site' : TwNode K} {nodes' : List (TwNode K)} :
    (v.drive m site nodes).drive m site' nodes' = v.drive m site' nodes' := rfl

theorem depart_toTwNode : (v.depart site).toTwNode = site := evaluateFirst_toTwNode

/-- The nodes that a driven vehicle visits. -/
theorem drive_nodes (h : ∀ n ∈ nodes, n.type ≠ .kDump) :
    (v.drive m site nodes).path.map toTwNode = site :: nodes := by
  rw [drive_path, List.map_cons, depart_toTwNode]
  unfold along
  rw [evaluateLoop_toTwNode, map_ofTwNode]
  · intro n hn
    obtain ⟨node, hnode, rfl⟩ := List.mem_map.mp hn
    exact h node hnode

/-- Evaluating a path from a position on, when the nodes before it have been evaluated. -/
theorem evaluate_eq_drive {k : Nat} (hsite : site.isStart = true)
    (hpath : v.path.map toTwNode = site :: nodes)
    (htakes : v.path.take k = (v.drive m site nodes).path.take k) :
    v.evaluate m k = v.drive m site nodes := by
  obtain ⟨first, rest, hcons⟩ := List.exists_cons_of_ne_nil (l := v.path)
    (by intro hnil; rw [hnil] at hpath; exact absurd hpath.symm (List.cons_ne_nil _ _))
  rw [hcons, List.map_cons] at hpath
  obtain ⟨hfirst, hrest⟩ := List.cons_eq_cons.mp hpath
  cases k with
  | zero =>
    have hfirst' : first.evaluateFirst v.capacity = v.depart site :=
      evaluateFirst_congr hfirst (by rw [hfirst]; exact hsite)
    have hrest' : rest.map toTwNode = (nodes.map ofTwNode).map toTwNode := by
      rw [hrest, map_ofTwNode]
    simp only [evaluate, hcons, List.take_zero, List.getLast?_nil]
    rw [hfirst', evaluateLoop_congr hrest']
    rfl
  | succ k =>
    rw [hcons, drive_path, List.take_succ_cons, List.take_succ_cons] at htakes
    obtain ⟨hhead, htake⟩ := List.cons_eq_cons.mp htakes
    have hlast : (first :: rest.take k).getLast? = some ((rest.take k).getLastD first) := by
      simp [List.getLast?_cons]
    have hdrop : (rest.drop k).map toTwNode = ((nodes.drop k).map ofTwNode).map toTwNode := by
      rw [List.map_drop, hrest, map_ofTwNode]
    simp only [evaluate, hcons, List.take_succ_cons, List.drop_succ_cons, hlast]
    unfold drive along
    congr 1
    -- The loop over the nodes splits at the position.
    rw [← List.take_append_drop k nodes, List.map_append, evaluateLoop_append,
      evaluateLoop_congr hdrop, htake, hhead]
    unfold along
    rw [evaluateLoop_take, List.map_take]
    rfl

theorem along_take {k : Nat} : (v.along m pred nodes).take k = v.along m pred (nodes.take k) := by
  unfold along
  rw [evaluateLoop_take, List.map_take]

/-- A path that differs from a driven one behind a position only. -/
theorem evaluate_path {path : List (VehicleNode K)} {nodes' : List (TwNode K)} {k : Nat}
    (hsite : site.isStart = true) (hpath : path.map toTwNode = site :: nodes')
    (htakes : path.take (k + 1) = (v.drive m site nodes).path.take (k + 1))
    (hnodes : nodes'.take k = nodes.take k) :
    ({ v.drive m site nodes with path := path } : Vehicle K).evaluate m (k + 1) =
      v.drive m site nodes' := by
  apply evaluate_eq_drive hsite hpath
  show path.take (k + 1) = (v.drive m site nodes').path.take (k + 1)
  rw [htakes, drive_path, drive_path, List.take_succ_cons, List.take_succ_cons, along_take,
    along_take, hnodes]

/-- Inserting a node behind the starting site. -/
theorem insert_drive {n : VehicleNode K} {p : Nat} (hsite : site.isStart = true)
    (hnodes : ∀ n ∈ nodes, n.type ≠ .kDump) :
    (v.drive m site nodes).insert m (p + 1) n =
      v.drive m site (nodes.insertIdx p n.toTwNode) := by
  unfold insert
  apply evaluate_path hsite
  · rw [List.map_insertIdx, drive_nodes hnodes]
    rfl
  · rw [List.take_insertIdx_eq_take_of_le _ _ _ _ (le_refl _)]
  · rw [List.take_insertIdx_eq_take_of_le _ _ _ _ (le_refl _)]

/-- Erasing a node behind the starting site. -/
theorem eraseAt_drive {p : Nat} (hsite : site.isStart = true)
    (hnodes : ∀ n ∈ nodes, n.type ≠ .kDump) :
    (v.drive m site nodes).eraseAt m (p + 1) = v.drive m site (nodes.eraseIdx p) := by
  unfold eraseAt
  apply evaluate_path hsite
  · rw [← List.eraseIdx_map, drive_nodes hnodes]
    rfl
  · rw [List.take_eraseIdx_eq_take_of_le _ _ _ (le_refl _)]
  · rw [List.take_eraseIdx_eq_take_of_le _ _ _ (le_refl _)]

/-- An evaluated path stays as it is when it is evaluated again. -/
theorem evaluate_drive {k : Nat} (hsite : site.isStart = true)
    (hnodes : ∀ n ∈ nodes, n.type ≠ .kDump) :
    (v.drive m site nodes).evaluate m k = v.drive m site nodes :=
  evaluate_eq_drive hsite (drive_nodes hnodes) rfl

/-- Erasing the first element with a key, where no two elements have the same key. -/
theorem eraseIdx_findIdx {α β : Type*} [DecidableEq β] {f : α → β} {a : β} {l : List α}
    (h : (l.map f).Nodup) : l.eraseIdx (l.findIdx fun x => a = f x) =
      l.filter fun x => f x ≠ a := by
  induction l with
  | nil => rfl
  | cons x l ih =>
    rw [List.map_cons, List.nodup_cons] at h
    by_cases hx : a = f x
    · have hkeep : l.filter (fun y => f y ≠ a) = l := by
        apply List.filter_eq_self.mpr
        intro y hy
        rw [decide_eq_true_iff]
        intro heq
        exact h.1 (List.mem_map.mpr ⟨y, hy, heq.trans hx⟩)
      simp only [List.findIdx_cons, hx, decide_true, cond_true, List.eraseIdx_cons_zero]
      rw [← hx, List.filter_cons_of_neg (by simp [hx]), hkeep]
    · simp only [List.findIdx_cons, hx, decide_false, cond_false, List.eraseIdx_cons_succ]
      rw [ih h.2, List.filter_cons_of_pos (by simpa using Ne.symm hx)]

/-- Erasing a node by its position in the problem. -/
theorem erase_drive {n : VehicleNode K} (hsite : site.isStart = true)
    (hnodes : ∀ n ∈ nodes, n.type ≠ .kDump) (hidx : (nodes.map TwNode.idx).Nodup)
    (hother : site.idx ≠ n.idx) :
    (v.drive m site nodes).erase m n =
      v.drive m site (nodes.filter fun node => node.idx ≠ n.idx) := by
  have hfind : (v.drive m site nodes).path.findIdx (fun node => n.idx = node.idx) =
      nodes.findIdx (fun node => n.idx = node.idx) + 1 := by
    have hmap : (v.drive m site nodes).path.findIdx (fun node => n.idx = node.idx) =
        (site :: nodes).findIdx fun node => n.idx = node.idx := by
      rw [← drive_nodes (m := m) (v := v) hnodes, List.findIdx_map]
      rfl
    rw [hmap, List.findIdx_cons]
    simp [Ne.symm hother]
  unfold erase
  simp only [hfind]
  rw [eraseAt_drive hsite hnodes, eraseIdx_findIdx hidx]
  apply evaluate_drive hsite
  intro node hnode
  exact hnodes node (List.mem_filter.mp hnode).1

end Vehicle

/-! ## Feasible vehicles -/

namespace VehicleNode

variable {m : Dmatrix} {n pred : VehicleNode} {capacity : WithTop ℚ} {speed : ℚ}

theorem evaluate_departureTime : (n.evaluate m pred capacity speed).departureTime =
    (TwNode.windows m speed).leave pred.departureTime pred.toTwNode n.toTwNode := by
  simp only [evaluate, Windows.leave, TwNode.windows, TwNode.isEarlyArrival, decide_eq_true_eq]
  by_cases hearly : pred.departureTime + pred.travelTimeTo m n.toTwNode speed < n.opens
  · rw [if_pos hearly, max_eq_right hearly.le, add_sub_cancel]
  · rw [if_neg hearly, max_eq_left (not_lt.mp hearly), add_zero]

theorem evaluate_twvTot : (n.evaluate m pred capacity speed).twvTot = 0 ↔ pred.twvTot = 0 ∧
    ((pred.departureTime + pred.travelTimeTo m n.toTwNode speed : ℚ) : WithTop ℚ) ≤ n.closes := by
  simp only [evaluate, hasTwv, TwNode.isLateArrival, decide_eq_true_eq]
  by_cases hlate : n.closes <
      ((pred.departureTime + pred.travelTimeTo m n.toTwNode speed : ℚ) : WithTop ℚ)
  · rw [if_pos hlate]
    exact iff_of_false (Nat.succ_ne_zero _) fun h => absurd h.2 (not_le.mpr hlate)
  · rw [if_neg hlate]
    exact (and_iff_left (not_lt.mp hlate)).symm

theorem evaluate_cargo (hdump : n.type ≠ .kDump) :
    (n.evaluate m pred capacity speed).cargo = pred.cargo + n.demand := by
  have hnot : n.isDump = false := by
    unfold TwNode.isDump
    simp [hdump]
  simp [evaluate, hnot]

theorem hasCv_site (h : n.type = .kPickup ∨ n.type = .kDelivery) :
    n.hasCv capacity = false ↔ 0 ≤ n.cargo ∧ (n.cargo : WithTop ℚ) ≤ capacity := by
  have hnot : (n.isEnd || n.isStart) = false := by
    unfold TwNode.isEnd TwNode.isStart
    obtain h | h := h <;> simp [h]
  unfold hasCv
  rw [hnot]
  simp [and_comm]

theorem hasCv_end (h : n.isEnd = true) : n.hasCv capacity = false ↔ n.cargo = 0 := by
  unfold hasCv
  simp [h]

/-- The capacity is violated no more often than before. -/
theorem evaluate_cvTot : (n.evaluate m pred capacity speed).cvTot = 0 ↔
    pred.cvTot = 0 ∧ (n.evaluate m pred capacity speed).hasCv capacity = false := by
  have hcv : (n.evaluate m pred capacity speed).cvTot =
      if (n.evaluate m pred capacity speed).hasCv capacity then pred.cvTot + 1
      else pred.cvTot := rfl
  rw [hcv]
  split
  · rename_i hviolated
    simp [hviolated]
  · rename_i hfine
    simp [hfine]

end VehicleNode

namespace Vehicle

open VehicleNode

variable {m : Dmatrix} {v : Vehicle} {pred : VehicleNode} {site finish : TwNode}
  {nodes : List TwNode}

theorem along_cons {n : TwNode} : v.along m pred (n :: nodes) =
    (ofTwNode n).evaluate m pred v.capacity v.speed ::
      v.along m ((ofTwNode n).evaluate m pred v.capacity v.speed) nodes := rfl

/-- No time window is violated up to the end of the path iff its nodes are visited on time. -/
theorem along_twvTot (pred : VehicleNode) (hnodes : ∀ n ∈ nodes, n.type ≠ .kDump) :
    ((v.along m pred nodes).getLastD pred).twvTot = 0 ↔ pred.twvTot = 0 ∧
      OnTime (TwNode.windows m v.speed) pred.departureTime pred.toTwNode nodes := by
  induction nodes generalizing pred with
  | nil => simp [along, evaluateLoop, OnTime]
  | cons n nodes ih =>
    rw [along_cons, List.getLastD_cons, ih _ fun n hn => hnodes n (List.mem_cons_of_mem _ hn),
      evaluate_twvTot, evaluate_departureTime,
      evaluate_toTwNode (n := ofTwNode n) (hnodes n List.mem_cons_self), and_assoc]
    rfl

/-- The capacity is not violated up to the ending site iff the loads fit and nothing is left. -/
theorem along_cvTot (pred : VehicleNode)
    (hnodes : ∀ n ∈ nodes, n.type = .kPickup ∨ n.type = .kDelivery)
    (hfinish : finish.isEnd = true) :
    ((v.along m pred (nodes ++ [finish])).getLastD pred).cvTot = 0 ↔ pred.cvTot = 0 ∧
      Fits v.capacity TwNode.demand pred.cargo nodes ∧
        pred.cargo + (nodes.map TwNode.demand).sum = 0 := by
  have hend : finish.type = .kEnd ∧ finish.demand = 0 := by
    obtain ⟨htype, _, hdemand⟩ := TwNode.isEnd_iff.mp hfinish
    exact ⟨htype, beq_iff_eq.mp hdemand⟩
  -- No node is a dump, whose demand the evaluation would change.
  have hlast : (ofTwNode finish).type ≠ .kDump := by
    show finish.type ≠ .kDump
    simp [hend.1]
  induction nodes generalizing pred with
  | nil =>
    show ((ofTwNode finish).evaluate m pred v.capacity v.speed).cvTot = 0 ↔ _
    have hisEnd : ((ofTwNode finish).evaluate m pred v.capacity v.speed).isEnd = true := by
      rw [evaluate_toTwNode hlast]
      exact hfinish
    rw [evaluate_cvTot, hasCv_end hisEnd, evaluate_cargo hlast]
    simp [Fits, hend.2]
  | cons n nodes ih =>
    have hn := hnodes n List.mem_cons_self
    have hdump : (ofTwNode n).type ≠ .kDump := by
      show n.type ≠ .kDump
      obtain h | h := hn <;> simp [h]
    have htype : ((ofTwNode n).evaluate m pred v.capacity v.speed).type = .kPickup ∨
        ((ofTwNode n).evaluate m pred v.capacity v.speed).type = .kDelivery := by
      rw [evaluate_toTwNode hdump]
      exact hn
    have hrest := ih ((ofTwNode n).evaluate m pred v.capacity v.speed)
      fun n hn => hnodes n (List.mem_cons_of_mem _ hn)
    rw [List.cons_append, along_cons, List.getLastD_cons]
    apply hrest.trans
    rw [evaluate_cvTot, hasCv_site htype, evaluate_cargo hdump, List.map_cons, List.sum_cons,
      ← add_assoc]
    show (_ ∧ _) ∧ _ ∧ _ ↔ _ ∧ ((_ ∧ _) ∧ _) ∧ _
    tauto

theorem depart_eq (hsite : site.isStart = true) : (v.depart site).twvTot = 0 ∧
    (v.depart site).cvTot = 0 ∧ (v.depart site).cargo = 0 ∧
      (v.depart site).departureTime = site.opens + site.serviceTime := by
  have hdemand : site.demand = 0 := beq_iff_eq.mp (TwNode.isStart_iff.mp hsite).2.2
  have hstart : (ofTwNode site).isStart = true := hsite
  unfold depart evaluateFirst
  rw [if_pos hstart]
  refine ⟨rfl, ?_, hdemand, rfl⟩
  have hcv : ∀ n : VehicleNode, n.toTwNode = site → n.cargo = 0 →
      n.hasCv v.capacity = false := by
    intro n hn hcargo
    unfold hasCv
    simp [hn, hsite, hcargo]
  simp only
  rw [if_neg]
  rw [hcv _ rfl hdemand]
  exact Bool.false_ne_true

/-- A driven vehicle is feasible iff its route is on time, fits and ends without a load. -/
theorem isFeasable_drive (hsite : site.isStart = true) (hfinish : finish.isEnd = true)
    (hnodes : ∀ n ∈ nodes, n.type = .kPickup ∨ n.type = .kDelivery) :
    (v.drive m site (nodes ++ [finish])).isFeasable = true ↔
      OnTime (TwNode.windows m v.speed) (site.opens + site.serviceTime) site (nodes ++ [finish]) ∧
      Fits v.capacity TwNode.demand 0 nodes ∧ (nodes.map TwNode.demand).sum = 0 := by
  have hdump : ∀ n ∈ nodes ++ [finish], n.type ≠ .kDump := by
    intro n hn
    obtain hn | hn := List.mem_append.mp hn
    · obtain h | h := hnodes n hn <;> simp [h]
    · rw [List.mem_singleton.mp hn, (TwNode.isEnd_iff.mp hfinish).1]
      decide
  obtain ⟨htwv, hcv, hcargo, hdeparture⟩ := depart_eq (v := v) hsite
  have hend : (v.drive m site (nodes ++ [finish])).endSite =
      (v.along m (v.depart site) (nodes ++ [finish])).getLastD (v.depart site) := by
    unfold endSite
    rw [drive_path, List.getLastD_cons]
  unfold isFeasable twvTot cvTot
  rw [hend]
  have htimes := along_twvTot (m := m) (v := v) (v.depart site) hdump
  have hloads := along_cvTot (m := m) (v := v) (v.depart site) hnodes hfinish
  rw [htwv, hdeparture, depart_toTwNode] at htimes
  rw [hcv, hcargo, zero_add] at hloads
  simp only [true_and] at htimes hloads
  rw [← htimes, ← hloads]
  simp

end Vehicle

end Vrp

end PgRouting
