import PgRouting.Lib.Walk
import Mathlib.Algebra.Order.Monoid.WithTop
import Mathlib.Algebra.Order.BigOperators.Group.Finset

/-!
# Label-setting searches

A label-setting search keeps a label for every state (`⊤` when it has none), a
set of settled states and a queue of entries `(key, state)`. It takes a least
entry; if its state is not settled yet it settles the state and relaxes the arcs
leaving it, pushing an entry for every label it improves. Entries that have been
overtaken by a better label stay in the queue until they are taken and ignored.

`LabelSetting` is the invariant of such a search. Nothing here depends on how a
program stores the labels or the queue: a model shows that what it does to them
is a `Relaxed` step and then uses `LabelSetting.settle` or `LabelSetting.stale`.

## Key results

- `Relaxing.trans`, `Relaxing.relaxed`: relaxing arcs one by one is a `Relaxed` step
- `LabelSetting.settle`, `LabelSetting.stale`: the invariant survives a round
- `LabelSetting.exact`: the label of a settled state is its distance
- `LabelSetting.lower`: until it is settled, a state is no nearer than some entry
- `Ancestry.settle`: the parents of the settled states form a tree
- `Ancestry.trace`: induction along the parents
-/

namespace PgRouting

variable {V T : Type*}

/-- A walk of total weight `c` leads to `v` from a source; `src u a` says that the
    search may start in `u` with label `a`. -/
def Labelled [AddMonoid T] (A : V → V → T → Prop) (src : V → T → Prop) (v : V) (c : T) : Prop :=
  ∃ u a b, src u a ∧ Walk A u v b ∧ c = a + b

/-- The invariant of a label-setting search over the arcs `A` from the sources `src`. -/
structure LabelSetting [AddMonoid T] [LinearOrder T] [OrderTop T]
    (A : V → V → T → Prop) (src : V → T → Prop)
    (label : V → T) (settled : V → Prop) (queue : T → V → Prop) : Prop where
  /-- Every label is the weight of a walk. -/
  sound : ∀ v, label v ≠ ⊤ → Labelled A src v (label v)
  /-- Sources are labelled. -/
  source : ∀ v c, src v c → label v ≤ c
  /-- The arcs leaving a settled state have been relaxed. -/
  closed : ∀ u v w, settled u → A u v w → label v ≤ label u + w
  /-- A labelled state waits in the queue until it is settled. -/
  queued : ∀ v, label v ≠ ⊤ → ¬ settled v → queue (label v) v
  /-- No entry undercuts the label of its state. -/
  above : ∀ k v, queue k v → label v ≤ k
  /-- Settled states precede the queue. -/
  later : ∀ u k v, settled u → queue k v → label u ≤ k

/-- What taking the entry `(k₀, x)` and relaxing the arcs that leave `x` does to
    the labels and to the queue. -/
structure Relaxed [AddMonoid T] [LinearOrder T] (A : V → V → T → Prop) (k₀ : T) (x : V)
    (label label' : V → T) (queue queue' : T → V → Prop) : Prop where
  decrease : ∀ v, label' v ≤ label v
  arcs : ∀ v w, A x v w → label' v ≤ label x + w
  change : ∀ v, label' v = label v ∨ ∃ w, A x v w ∧ label' v = label x + w
  kept : ∀ k v, queue k v → (k = k₀ → v ≠ x) → queue' k v
  pushed : ∀ v, label' v ≠ label v → queue' (label' v) v
  only : ∀ k v, queue' k v →
    queue k v ∨ label' v ≠ label v ∧ label' v ≤ k ∧ ∃ w, A x v w ∧ k = label x + w

/-! ## Relaxing arcs one by one -/

/-- What relaxing the arcs `arcs` from a state whose label is `k₀` does to the labels and to
    the queue: `arcs v w` is an arc of weight `w` to `v`. -/
structure Relaxing [AddMonoid T] [LinearOrder T] (k₀ : T) (arcs : V → T → Prop)
    (label label' : V → T) (queue queue' : T → V → Prop) : Prop where
  decrease : ∀ v, label' v ≤ label v
  done : ∀ v w, arcs v w → label' v ≤ k₀ + w
  change : ∀ v, label' v = label v ∨ ∃ w, arcs v w ∧ label' v = k₀ + w
  kept : ∀ k v, queue k v → queue' k v
  pushed : ∀ v, label' v ≠ label v → queue' (label' v) v
  only : ∀ k v, queue' k v →
    queue k v ∨ label' v ≠ label v ∧ label' v ≤ k ∧ ∃ w, arcs v w ∧ k = k₀ + w

namespace Relaxing

variable [AddMonoid T] [LinearOrder T] {A : V → V → T → Prop} {k₀ : T} {x : V}
variable {arcs arcs' : V → T → Prop} {label label' label'' : V → T}
variable {queue queue' queue'' : T → V → Prop}

/-- Arcs that improve no label can be skipped. -/
theorem skip (h : ∀ v w, arcs v w → label v ≤ k₀ + w) :
    Relaxing k₀ arcs label label queue queue where
  decrease _ := le_refl _
  done := h
  change _ := .inl rfl
  kept _ _ h := h
  pushed _ h := absurd rfl h
  only _ _ h := .inl h

/-- An arc to `x` that improves the label of `x`. -/
theorem improve [DecidableEq V] {w : T} (hlt : k₀ + w < label x)
    (hqueue : ∀ k v, queue' k v ↔ (k = k₀ + w ∧ v = x) ∨ queue k v) :
    Relaxing k₀ (fun v w' => v = x ∧ w' = w) label (Function.update label x (k₀ + w))
      queue queue' := by
  -- The label of `x` is the only one that changes.
  have hne : ∀ v, Function.update label x (k₀ + w) v ≠ label v ↔ v = x := by
    intro v
    by_cases hv : v = x
    · subst hv
      simp [hlt.ne]
    · simp [hv]
  constructor
  case decrease =>
    intro v
    by_cases hv : v = x
    · subst hv
      rw [Function.update_self]
      exact hlt.le
    · rw [Function.update_of_ne hv]
  case done =>
    rintro v w' ⟨rfl, rfl⟩
    rw [Function.update_self]
  case change =>
    intro v
    by_cases hv : v = x
    · exact .inr ⟨w, ⟨hv, rfl⟩, by rw [hv, Function.update_self]⟩
    · exact .inl (Function.update_of_ne hv _ _)
  case kept => exact fun k v h => (hqueue k v).mpr (.inr h)
  case pushed =>
    intro v hv
    obtain rfl := (hne v).mp hv
    rw [Function.update_self]
    exact (hqueue _ _).mpr (.inl ⟨rfl, rfl⟩)
  case only =>
    intro k v hq
    obtain ⟨rfl, rfl⟩ | hq := (hqueue k v).mp hq
    · exact .inr ⟨(hne v).mpr rfl, by rw [Function.update_self], w, ⟨rfl, rfl⟩, rfl⟩
    · exact .inl hq

/-- Arcs can be relaxed one after the other. -/
theorem trans (h : Relaxing k₀ arcs label label' queue queue')
    (h' : Relaxing k₀ arcs' label' label'' queue' queue'') :
    Relaxing k₀ (fun v w => arcs v w ∨ arcs' v w) label label'' queue queue'' where
  decrease v := (h'.decrease v).trans (h.decrease v)
  done v w := by
    rintro (harc | harc)
    · exact (h'.decrease v).trans (h.done v w harc)
    · exact h'.done v w harc
  change v := by
    obtain heq' | ⟨w, harc, heq'⟩ := h'.change v
    · obtain heq | ⟨w, harc, heq⟩ := h.change v
      · exact .inl (heq'.trans heq)
      · exact .inr ⟨w, .inl harc, heq'.trans heq⟩
    · exact .inr ⟨w, .inr harc, heq'⟩
  kept k v hq := h'.kept k v (h.kept k v hq)
  pushed v hv := by
    by_cases heq : label'' v = label' v
    · rw [heq] at hv ⊢
      exact h'.kept _ _ (h.pushed v hv)
    · exact h'.pushed v heq
  only k v hq := by
    obtain hq | ⟨hne, hle, w, harc, hk⟩ := h'.only k v hq
    · obtain hq | ⟨hne, hle, w, harc, hk⟩ := h.only k v hq
      · exact .inl hq
      · have hlt : label'' v < label v :=
          (h'.decrease v).trans_lt (lt_of_le_of_ne (h.decrease v) hne)
        exact .inr ⟨hlt.ne, (h'.decrease v).trans hle, w, .inl harc, hk⟩
    · have hlt : label'' v < label v :=
        (lt_of_le_of_ne (h'.decrease v) hne).trans_le (h.decrease v)
      exact .inr ⟨hlt.ne, hle, w, .inr harc, hk⟩

theorem congr (harcs : ∀ v w, arcs v w ↔ arcs' v w)
    (h : Relaxing k₀ arcs label label' queue queue') :
    Relaxing k₀ arcs' label label' queue queue' := by
  obtain rfl : arcs = arcs' := by
    funext v w
    exact propext (harcs v w)
  exact h

/-- Taking the entry `(k₀, x)` and then relaxing the arcs that leave `x`. -/
theorem relaxed (h : Relaxing (label x) (A x) label label' queue' queue'')
    (hpop : ∀ k v, queue k v → (k = k₀ → v ≠ x) → queue' k v)
    (hold : ∀ k v, queue' k v → queue k v) :
    Relaxed A k₀ x label label' queue queue'' where
  decrease := h.decrease
  arcs := h.done
  change := h.change
  kept k v hq hne := h.kept k v (hpop k v hq hne)
  pushed := h.pushed
  only k v hq := (h.only k v hq).imp_left (hold k v)

end Relaxing

namespace LabelSetting

variable [AddCommMonoid T] [LinearOrder T] [IsOrderedAddMonoid T] [OrderTop T]
variable {A : V → V → T → Prop} {src : V → T → Prop}
variable {label label' : V → T} {settled : V → Prop} {queue queue' : T → V → Prop}
variable {k₀ : T} {x v : V} {c : T}

omit [IsOrderedAddMonoid T] in
/-- The least entry of a state that is not settled carries the state's label. -/
theorem key_eq (inv : LabelSetting A src label settled queue) (hmem : queue k₀ x)
    (hmin : ∀ k v, queue k v → k₀ ≤ k) (hx : ¬ settled x) : label x = k₀ := by
  have hle : label x ≤ k₀ := inv.above _ _ hmem
  by_cases htop : label x = ⊤
  · rw [htop] at hle ⊢
    exact (top_le_iff.mp hle).symm
  · exact le_antisymm hle (hmin _ _ (inv.queued x htop hx))

/-- Settling a state changes no label of a settled state. -/
theorem settled_label (inv : LabelSetting A src label settled queue) (hmem : queue k₀ x)
    (hmin : ∀ k v, queue k v → k₀ ≤ k) (hx : ¬ settled x)
    (hA : ∀ u v w, A u v w → 0 ≤ w) (hr : Relaxed A k₀ x label label' queue queue')
    {u : V} (hu : settled u ∨ u = x) : label' u = label u := by
  have hkey := inv.key_eq hmem hmin hx
  obtain heq | ⟨w, harc, heq⟩ := hr.change u
  · exact heq
  · refine le_antisymm (hr.decrease u) ?_
    have hle : label u ≤ label x := by
      obtain hs | rfl := hu
      · rw [hkey]; exact inv.later _ _ _ hs hmem
      · exact le_refl _
    calc label u ≤ label x := hle
      _ ≤ label x + w := le_add_of_nonneg_right (hA _ _ _ harc)
      _ = label' u := heq.symm

/-- A round that settles the state of the least entry keeps the invariant. -/
theorem settle (inv : LabelSetting A src label settled queue) (hmem : queue k₀ x)
    (hmin : ∀ k v, queue k v → k₀ ≤ k) (hx : ¬ settled x)
    (hA : ∀ u v w, A u v w → 0 ≤ w) (hr : Relaxed A k₀ x label label' queue queue') :
    LabelSetting A src label' (fun v => settled v ∨ v = x) queue' := by
  have hkey := inv.key_eq hmem hmin hx
  -- What is settled keeps its label: nothing in the queue is below it.
  have hsame : ∀ u, settled u ∨ u = x → label' u = label u :=
    fun u hu => inv.settled_label hmem hmin hx hA hr hu
  constructor
  case sound =>
    intro v hv
    obtain heq | ⟨w, harc, heq⟩ := hr.change v
    · rw [heq] at hv ⊢
      exact inv.sound v hv
    · have hxtop : label x ≠ ⊤ := by
        intro htop
        have hle : (⊤ : T) ≤ label x + w := by
          rw [← htop]; exact le_add_of_nonneg_right (hA _ _ _ harc)
        exact hv (heq.trans (top_le_iff.mp hle))
      obtain ⟨u, a, b, hsrc, hwalk, hsum⟩ := inv.sound x hxtop
      exact ⟨u, a, b + w, hsrc, hwalk.snoc harc, by rw [heq, hsum, add_assoc]⟩
  case source => exact fun v c hsrc => (hr.decrease v).trans (inv.source v c hsrc)
  case closed =>
    intro u v w hu harc
    rw [hsame u hu]
    obtain hs | rfl := hu
    · exact (hr.decrease v).trans (inv.closed u v w hs harc)
    · exact hr.arcs v w harc
  case queued =>
    intro v hv hnot
    by_cases heq : label' v = label v
    · rw [heq] at hv ⊢
      exact hr.kept _ _ (inv.queued v hv fun hs => hnot (.inl hs)) fun _ hvx => hnot (.inr hvx)
    · exact hr.pushed v heq
  case above =>
    intro k v hq
    obtain hq | ⟨_, hle, _⟩ := hr.only k v hq
    · exact (hr.decrease v).trans (inv.above k v hq)
    · exact hle
  case later =>
    intro u k v hu hq
    rw [hsame u hu]
    -- New entries come from `x`, whose label is the least key.
    have hle : label u ≤ label x := by
      obtain hs | rfl := hu
      · rw [hkey]; exact inv.later _ _ _ hs hmem
      · exact le_refl _
    refine hle.trans ?_
    obtain hq | ⟨_, _, w, harc, rfl⟩ := hr.only k v hq
    · rw [hkey]; exact hmin k v hq
    · exact le_add_of_nonneg_right (hA _ _ _ harc)

omit [IsOrderedAddMonoid T] in
/-- Relaxing the arcs of a settled state once more changes no label. -/
theorem stale_label (inv : LabelSetting A src label settled queue) (hx : settled x)
    (hr : Relaxed A k₀ x label label' queue queue') : label' = label := by
  funext v
  obtain heq | ⟨w, harc, heq⟩ := hr.change v
  · exact heq
  · exact le_antisymm (hr.decrease v) (heq ▸ inv.closed x v w hx harc)

omit [IsOrderedAddMonoid T] in
/-- A round that meets an entry of a settled state keeps the invariant. -/
theorem stale (inv : LabelSetting A src label settled queue) (hx : settled x)
    (hr : Relaxed A k₀ x label label' queue queue') :
    LabelSetting A src label' settled queue' := by
  have hsame : label' = label := inv.stale_label hx hr
  -- No label changes, so nothing comes into the queue.
  have hold : ∀ k v, queue' k v → queue k v := by
    intro k v hq
    obtain hq | ⟨hne, _⟩ := hr.only k v hq
    · exact hq
    · exact absurd (congrFun hsame v) hne
  subst hsame
  constructor
  case sound => exact inv.sound
  case source => exact inv.source
  case closed => exact inv.closed
  case queued =>
    intro v hv hnot
    refine hr.kept _ _ (inv.queued v hv hnot) ?_
    rintro - rfl
    exact hnot hx
  case above => exact fun k v hq => inv.above k v (hold k v hq)
  case later => exact fun u k v hu hq => inv.later u k v hu (hold k v hq)

omit [IsOrderedAddMonoid T] in
/-- Entries of a settled state can be dropped. -/
theorem drop (inv : LabelSetting A src label settled queue) (hx : settled x)
    (hkept : ∀ k v, queue k v → v ≠ x → queue' k v) (hold : ∀ k v, queue' k v → queue k v) :
    LabelSetting A src label settled queue' where
  sound := inv.sound
  source := inv.source
  closed := inv.closed
  queued v hv hnot := hkept _ _ (inv.queued v hv hnot) (by rintro rfl; exact hnot hx)
  above k v hq := inv.above k v (hold k v hq)
  later u k v hu hq := inv.later u k v hu (hold k v hq)

/-- A walk to `v` either shows that `v` is settled with a label at most its weight, or
    its weight is at least the key of some entry of an unsettled state. -/
theorem lower (inv : LabelSetting A src label settled queue) (hA : ∀ u v w, A u v w → 0 ≤ w)
    (hwalk : Labelled A src v c) (hc : c ≠ ⊤) :
    (settled v ∧ label v ≤ c) ∨ ∃ x, ¬ settled x ∧ queue (label x) x ∧ label x ≤ c := by
  obtain ⟨u, a, b, hsrc, hw, rfl⟩ := hwalk
  have hu : label u ≤ a := inv.source u a hsrc
  clear hsrc
  -- Induction on the walk: `a` bounds the label of its first state.
  induction hw generalizing a with
  | nil u =>
    rw [add_zero] at hc ⊢
    by_cases hs : settled u
    · exact .inl ⟨hs, hu⟩
    · have htop : label u ≠ ⊤ := fun h => hc (top_le_iff.mp (h ▸ hu))
      exact .inr ⟨u, hs, inv.queued u htop hs, hu⟩
  | @cons u y t w d arc rest ih =>
    by_cases hs : settled u
    · rw [← add_assoc] at hc ⊢
      exact ih (a + w) hc ((inv.closed u y w hs arc).trans (add_le_add hu (le_refl w)))
    · have hle : label u ≤ a + (w + d) := hu.trans
        (le_add_of_nonneg_right (add_nonneg (hA _ _ _ arc) (rest.nonneg hA)))
      have htop : label u ≠ ⊤ := fun h => hc (top_le_iff.mp (h ▸ hle))
      exact .inr ⟨u, hs, inv.queued u htop hs, hle⟩

/-- The label of a settled state is the least weight of a walk to it. -/
theorem exact (inv : LabelSetting A src label settled queue) (hA : ∀ u v w, A u v w → 0 ≤ w)
    (hv : settled v) (htop : label v ≠ ⊤) : IsLeast {c | Labelled A src v c} (label v) := by
  refine ⟨inv.sound v htop, fun c hc => ?_⟩
  by_cases hctop : c = ⊤
  · rw [hctop]; exact le_top
  · obtain ⟨_, hle⟩ | ⟨x, _, hq, hle⟩ := inv.lower hA hc hctop
    · exact hle
    · exact (inv.later v _ x hv hq).trans hle

end LabelSetting

/-! ## Parents

The settled states are listed in the order in which they were settled, the last
one first. -/

/-- The parent of every listed state is listed behind it. -/
def ParentsBehind (parent : V → Option V) : List V → Prop
  | [] => True
  | x :: rest => (∀ u, parent x = some u → u ∈ rest) ∧ ParentsBehind parent rest

/-- The parents recorded by a search: a labelled state is a source with its label as
    it started, or its label was set by relaxing an arc from its parent. -/
structure Ancestry [AddMonoid T] [LinearOrder T] [OrderTop T]
    (A : V → V → T → Prop) (src : V → T → Prop)
    (label : V → T) (parent : V → Option V) (order : List V) : Prop where
  origin : ∀ v, label v ≠ ⊤ → parent v = none → src v (label v)
  step : ∀ v u, label v ≠ ⊤ → parent v = some u →
    u ∈ order ∧ ∃ w, A u v w ∧ label v = label u + w
  behind : ParentsBehind parent order

theorem ParentsBehind.congr {parent parent' : V → Option V} {order : List V}
    (h : ParentsBehind parent order) (heq : ∀ v ∈ order, parent' v = parent v) :
    ParentsBehind parent' order := by
  induction order with
  | nil => trivial
  | cons x rest ih =>
    refine ⟨?_, ih h.2 fun v hv => heq v (List.mem_cons_of_mem _ hv)⟩
    rw [heq x List.mem_cons_self]
    exact h.1

/-- Settling a state keeps the recorded parents a tree. `hpar` says that the parent of a
    state changes with its label only, and then to the state whose arcs are relaxed. -/
theorem Ancestry.settle [AddMonoid T] [LinearOrder T] [OrderTop T]
    {A : V → V → T → Prop} {src : V → T → Prop} {label label' : V → T}
    {parent parent' : V → Option V} {order : List V} {x : V}
    (anc : Ancestry A src label parent order) (hx : label x ≠ ⊤)
    (hsame : ∀ u, u ∈ order ∨ u = x → label' u = label u)
    (hpar : ∀ v, label' v = label v ∧ parent' v = parent v ∨
      label' v ≠ label v ∧ parent' v = some x ∧ ∃ w, A x v w ∧ label' v = label x + w) :
    Ancestry A src label' parent' (x :: order) := by
  -- The labels of the settled states stay, and with them their parents.
  have hkeep : ∀ u, u ∈ order ∨ u = x → parent' u = parent u := by
    intro u hu
    obtain ⟨_, h⟩ | ⟨hne, _⟩ := hpar u
    · exact h
    · exact absurd (hsame u hu) hne
  constructor
  case origin =>
    intro v hv hnone
    obtain ⟨hl, hp⟩ | ⟨_, hp, _⟩ := hpar v
    · rw [hl] at hv ⊢
      exact anc.origin v hv (hp ▸ hnone)
    · rw [hp] at hnone
      cases hnone
  case step =>
    intro v u hv hsome
    obtain ⟨hl, hp⟩ | ⟨_, hp, w, harc, hl⟩ := hpar v
    · rw [hl] at hv ⊢
      obtain ⟨hmem, w, harc, heq⟩ := anc.step v u hv (hp ▸ hsome)
      exact ⟨List.mem_cons_of_mem _ hmem, w, harc, by rw [heq, hsame u (.inl hmem)]⟩
    · obtain rfl : x = u := Option.some.inj (hp.symm.trans hsome)
      exact ⟨List.mem_cons_self, w, harc, by rw [hl, hsame x (.inr rfl)]⟩
  case behind =>
    refine ⟨fun u hu => ?_, anc.behind.congr fun v hv => hkeep v (.inl hv)⟩
    exact (anc.step x u hx ((hkeep x (.inr rfl)) ▸ hu)).1

/-- Induction along the parents, which reaches every labelled state in at most as many steps
    as there are settled states. -/
theorem Ancestry.trace [AddMonoid T] [LinearOrder T] [OrderTop T]
    {A : V → V → T → Prop} {src : V → T → Prop} {label : V → T} {parent : V → Option V}
    {order : List V} (anc : Ancestry A src label parent order)
    (hlabel : ∀ u ∈ order, label u ≠ ⊤) {motive : Nat → V → Prop}
    (origin : ∀ v, label v ≠ ⊤ → parent v = none → motive 1 v)
    (step : ∀ n u v, label v ≠ ⊤ → parent v = some u → motive n u → motive (n + 1) v)
    {v : V} (hv : label v ≠ ⊤) : ∃ n ≤ order.length + 1, motive n v := by
  suffices h : ∀ l : List V, ParentsBehind parent l → (∀ u ∈ l, label u ≠ ⊤) →
      ∀ u ∈ l, ∃ n ≤ l.length, motive n u by
    refine h (v :: order) ⟨fun u hu => (anc.step v u hv hu).1, anc.behind⟩ (fun u hu => ?_) v
      List.mem_cons_self
    obtain rfl | hu := List.mem_cons.mp hu
    · exact hv
    · exact hlabel u hu
  -- Induction on the list: the parent of its first state is behind it.
  intro l
  induction l with
  | nil => exact fun _ _ u hu => nomatch hu
  | cons x rest ih =>
    intro hbehind hlab u hu
    have ih := ih hbehind.2 fun u hu => hlab u (List.mem_cons_of_mem _ hu)
    obtain rfl | hu := List.mem_cons.mp hu
    · cases hp : parent u with
      | none => exact ⟨1, by simp, origin u (hlab u List.mem_cons_self) hp⟩
      | some w =>
        obtain ⟨n, hn, hm⟩ := ih w (hbehind.1 w hp)
        exact ⟨n + 1, by simpa using hn, step n w u (hlab u List.mem_cons_self) hp hm⟩
    · obtain ⟨n, hn, hm⟩ := ih u hu
      exact ⟨n, hn.trans (by simp), hm⟩

/-! ## Termination

A search over finitely many states ends, because settling a state uses up the
arcs that leave it: `pending` counts the pushes that the unsettled states can
still cause. -/

/-- The pushes that states not yet settled can still cause, `deg v` of them by `v`. -/
def pending [DecidableEq V] (univ : Finset V) (deg : V → Nat) (settled : V → Bool) : Nat :=
  ∑ v ∈ univ with settled v = false, deg v

/-- Settling a state takes its pushes out of `pending`. -/
theorem pending_settle [DecidableEq V] (univ : Finset V) (deg : V → Nat)
    (settled settled' : V → Bool) {x : V} (hmem : x ∈ univ) (hx : settled x = false)
    (hset : ∀ v, settled' v = true ↔ settled v = true ∨ v = x) :
    pending univ deg settled' + deg x = pending univ deg settled := by
  have herase : univ.filter (fun v => settled' v = false)
      = (univ.filter fun v => settled v = false).erase x := by
    ext v
    have h := hset v
    simp only [Finset.mem_filter, Finset.mem_erase]
    cases hv : settled v <;> cases hv' : settled' v <;> simp_all
  unfold pending
  rw [herase]
  exact Finset.sum_erase_add _ _ (Finset.mem_filter.mpr ⟨hmem, hx⟩)

end PgRouting
