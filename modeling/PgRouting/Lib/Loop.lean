import Mathlib.Logic.Relation

/-!
# While loops

A loop is given by its body: from a state it either goes round once more
(`LoopStep.next`) or leaves with a result (`LoopStep.done`). `runLoop` executes
at most a given number of rounds, and `Reaches` relates a state to the states
the loop meets later on.

## Key results

- `runLoop_of_bound`, `runLoop_of_measure`: what every round lowers bounds the rounds
- `runLoop_of_wellFounded`: a loop ends that goes down in a well-founded order
- `runLoop_exit`: an invariant holds at the state from which the loop is left
- `foldlM_invariant`: an invariant holds after a loop over a list
- `runLoop_eventually`: a loop ends, also when its rounds themselves need enough fuel
- `runLoop_simulation`: two loops with related rounds have related results
- `runLoop_mono`: the result does not depend on the bound
-/

namespace PgRouting

variable {σ ρ : Type*}

/-- What one round of a loop does. -/
inductive LoopStep (σ ρ : Type*)
  | next (s : σ)
  | done (r : ρ)

/-- Run a loop for at most `n` rounds; `none` when it is still running then. -/
def runLoop (body : σ → LoopStep σ ρ) : Nat → σ → Option ρ
  | 0, _ => none
  | n + 1, s =>
    match body s with
    | .next s' => runLoop body n s'
    | .done r => some r

/-- The loop can be in state `s'` some rounds after state `s`. -/
def Reaches (body : σ → LoopStep σ ρ) : σ → σ → Prop :=
  Relation.ReflTransGen fun s s' => body s = .next s'

variable {body : σ → LoopStep σ ρ} {s s' : σ} {r : ρ} {n m : Nat}

theorem runLoop_next (h : body s = .next s') : runLoop body (n + 1) s = runLoop body n s' := by
  simp only [runLoop, h]

theorem runLoop_done (h : body s = .done r) : runLoop body (n + 1) s = some r := by
  simp only [runLoop, h]

/-- Allowing more rounds does not change the result. -/
theorem runLoop_mono (h : runLoop body n s = some r) (hle : n ≤ m) :
    runLoop body m s = some r := by
  induction n generalizing s m with
  | zero => simp only [runLoop] at h; cases h
  | succ n ih =>
    obtain ⟨k, rfl⟩ : ∃ k, m = k + 1 := ⟨m - 1, by omega⟩
    cases hb : body s with
    | next s' =>
      rw [runLoop_next hb] at h ⊢
      exact ih h (by omega)
    | done r' => rwa [runLoop_done hb] at h ⊢

/-- What every round preserves holds of every state reached. -/
theorem Reaches.invariant {I : σ → Prop} (hstep : ∀ s s', I s → body s = .next s' → I s')
    (h : Reaches body s s') (hs : I s) : I s' := by
  induction h with
  | refl => exact hs
  | tail _ hb ih => exact hstep _ _ ih hb

/-- A loop that returns does so from a state it has reached. -/
theorem runLoop_exit (h : runLoop body n s = some r) :
    ∃ s', Reaches body s s' ∧ body s' = .done r := by
  induction n generalizing s with
  | zero => simp only [runLoop] at h; cases h
  | succ n ih =>
    cases hb : body s with
    | next s' =>
      rw [runLoop_next hb] at h
      obtain ⟨t, ht, hd⟩ := ih h
      exact ⟨t, .head hb ht, hd⟩
    | done r' =>
      rw [runLoop_done hb] at h
      exact ⟨s, .refl, by rw [hb, Option.some.inj h]⟩

/-- A loop is left in one state. -/
theorem Reaches.exit_unique {s₁ s₂ : σ} {r₁ r₂ : ρ} (h₁ : Reaches body s s₁)
    (h₂ : Reaches body s s₂) (hdone₁ : body s₁ = .done r₁) (hdone₂ : body s₂ = .done r₂) :
    s₁ = s₂ := by
  have hstays : ∀ {a b : σ} {r : ρ}, Reaches body a b → body a = .done r → a = b := by
    intro a b r hab hdone
    obtain rfl | ⟨c, hnext, _⟩ := hab.cases_head
    · rfl
    · rw [hdone] at hnext
      cases hnext
  have hunique : Relator.RightUnique fun s s' => body s = .next s' := by
    intro a b c hb hc
    exact LoopStep.next.inj (hb.symm.trans hc)
  obtain h | h := Relation.ReflTransGen.total_of_right_unique hunique h₁ h₂
  · exact hstays h hdone₁
  · exact (hstays h hdone₂).symm

/-- A loop that returns has the same result from every state that it has reached. -/
theorem Reaches.runLoop (hs : Reaches body s s') (h : PgRouting.runLoop body n s = some r) :
    ∃ k, PgRouting.runLoop body k s' = some r := by
  induction hs with
  | refl => exact ⟨n, h⟩
  | tail _ hb ih =>
    obtain ⟨k, hk⟩ := ih
    cases k with
    | zero => simp only [PgRouting.runLoop] at hk; cases hk
    | succ k =>
      rw [runLoop_next hb] at hk
      exact ⟨k, hk⟩

/-- A bound that every round lowers is a bound on the rounds. -/
theorem runLoop_of_bound {B : Nat → σ → Prop}
    (hstep : ∀ m s s', B m s → body s = .next s' → ∃ m' < m, B m' s')
    (hs : B m s) (hn : m < n) : ∃ r, runLoop body n s = some r := by
  induction n generalizing s m with
  | zero => omega
  | succ n ih =>
    cases hb : body s with
    | next s' =>
      obtain ⟨m', hlt, hs'⟩ := hstep m s s' hs hb
      rw [runLoop_next hb]
      exact ih hs' (by omega)
    | done r => exact ⟨r, runLoop_done hb⟩

/-- A measure that every round decreases is a bound on the rounds. -/
theorem runLoop_of_measure {I : σ → Prop} (μ : σ → Nat)
    (hstep : ∀ s s', I s → body s = .next s' → I s' ∧ μ s' < μ s)
    (hs : I s) (hn : μ s < n) : ∃ r, runLoop body n s = some r := by
  refine runLoop_of_bound (B := fun m s => I s ∧ μ s = m) (fun m s s' hs hb => ?_)
    ⟨hs, rfl⟩ hn
  obtain ⟨hinv, hlt⟩ := hstep s s' hs.1 hb
  exact ⟨_, hs.2 ▸ hlt, hinv, rfl⟩

/-- A loop whose states cannot go down for ever, and go down in every round, ends. -/
theorem runLoop_of_wellFounded {I : σ → Prop} {r : σ → σ → Prop} (hwf : WellFounded r)
    (hstep : ∀ s s', I s → body s = .next s' → I s' ∧ r s' s) (hs : I s) :
    ∃ n r, runLoop body n s = some r := by
  induction s using hwf.induction with
  | _ s ih =>
    cases hb : body s with
    | next s' =>
      obtain ⟨hinv, hlt⟩ := hstep s s' hs hb
      obtain ⟨n, r, hrun⟩ := ih s' hlt hinv
      exact ⟨n + 1, r, (runLoop_next hb).trans hrun⟩
    | done r => exact ⟨1, r, runLoop_done hb⟩

/-- A loop whose rounds have a bound of their own ends with one result for all large bounds, if
    every round does and lowers the measure. -/
theorem runLoop_eventually {f : Nat → σ → LoopStep σ ρ} {I : σ → Prop} {Q : ρ → Prop}
    (μ : σ → Nat)
    (hstep : ∀ s, I s → (∃ s', I s' ∧ μ s' < μ s ∧ ∃ N, ∀ n ≥ N, f n s = .next s') ∨
      ∃ r, Q r ∧ ∃ N, ∀ n ≥ N, f n s = .done r)
    (hs : I s) : ∃ r, Q r ∧ ∃ N, ∀ n ≥ N, ∀ k ≥ N, runLoop (f n) k s = some r := by
  induction hk : μ s using Nat.strongRecOn generalizing s with
  | ind k ih =>
    obtain ⟨s', hs', hlt, N, hN⟩ | ⟨r, hr, N, hN⟩ := hstep s hs
    · obtain ⟨r, hr, N', hN'⟩ := ih (μ s') (hk ▸ hlt) hs' rfl
      refine ⟨r, hr, max N (N' + 1), fun n hn k hk => ?_⟩
      obtain ⟨j, rfl⟩ : ∃ j, k = j + 1 := ⟨k - 1, by omega⟩
      rw [runLoop_next (hN n (by omega))]
      exact hN' n (by omega) j (by omega)
    · refine ⟨r, hr, N + 1, fun n hn k hk => ?_⟩
      obtain ⟨j, rfl⟩ : ∃ j, k = j + 1 := ⟨k - 1, by omega⟩
      exact runLoop_done (hN n (by omega))

/-- The state in which the loop goes round once more. -/
def LoopStep.goesOn : LoopStep σ ρ → Option σ
  | .next s => some s
  | .done _ => none

/-- `P` holds in the states of at most `n` rounds, after which the loop is left. -/
def HoldsFor (body : σ → LoopStep σ ρ) (P : σ → Prop) : Nat → σ → Prop
  | 0, _ => False
  | n + 1, s => P s ∧ ∀ s' ∈ (body s).goesOn, HoldsFor body P n s'

instance HoldsFor.decidable {P : σ → Prop} [DecidablePred P] :
    ∀ (n : Nat) (s : σ), Decidable (HoldsFor body P n s)
  | 0, _ => isFalse id
  | n + 1, s =>
    have : ∀ s', Decidable (HoldsFor body P n s') := HoldsFor.decidable n
    inferInstanceAs (Decidable (P s ∧ ∀ s' ∈ (body s).goesOn, HoldsFor body P n s'))

theorem HoldsFor.reaches {P : σ → Prop} (h : HoldsFor body P n s) (hr : Reaches body s s') :
    P s' := by
  induction n generalizing s with
  | zero => exact h.elim
  | succ n ih =>
    obtain rfl | ⟨s₁, hnext, hrest⟩ := Relation.ReflTransGen.cases_head hr
    · exact h.1
    · refine ih (h.2 s₁ ?_) hrest
      rw [hnext]
      rfl

/-- A loop over a list whose rounds have a bound of their own. -/
theorem foldlM_eventually {α : Type*} {f : Nat → σ → α → Option σ} {I : σ → Prop} (l : List α)
    (hstep : ∀ s, I s → ∀ a, ∃ s', I s' ∧ ∃ N, ∀ n ≥ N, f n s a = some s') (hs : I s) :
    ∃ s', I s' ∧ ∃ N, ∀ n ≥ N, l.foldlM (f n) s = some s' := by
  induction l generalizing s with
  | nil => exact ⟨s, hs, 0, fun _ _ => rfl⟩
  | cons a l ih =>
    obtain ⟨s₁, hs₁, N₁, hN₁⟩ := hstep s hs a
    obtain ⟨s₂, hs₂, N₂, hN₂⟩ := ih hs₁
    refine ⟨s₂, hs₂, max N₁ N₂, fun n hn => ?_⟩
    rw [List.foldlM_cons, hN₁ n (by omega)]
    exact hN₂ n (by omega)

/-- What every round of a loop over a list preserves holds after the loop. -/
theorem foldlM_invariant {α : Type*} {f : σ → α → Option σ} {l : List α} {I : σ → Prop}
    (hstep : ∀ s a s', a ∈ l → I s → f s a = some s' → I s') (h : l.foldlM f s = some s')
    (hs : I s) : I s' := by
  induction l generalizing s with
  | nil => exact Option.some.inj h ▸ hs
  | cons a l ih =>
    rw [List.foldlM_cons, Option.bind_eq_bind, Option.bind_eq_some_iff] at h
    obtain ⟨s₁, h₁, h₂⟩ := h
    exact ih (fun s b s' hb => hstep s b s' (List.mem_cons_of_mem _ hb)) h₂
      (hstep s a s₁ List.mem_cons_self hs h₁)

/-- What each result of a loop over a list keeps, the list of the results keeps. -/
theorem map_of_mapM {α β γ : Type*} {f : α → Option β} {key : β → γ} {key' : α → γ} {l : List α}
    {l' : List β} (hf : ∀ a b, f a = some b → key b = key' a) (h : l.mapM f = some l') :
    l'.map key = l.map key' := by
  induction l generalizing l' with
  | nil =>
    obtain rfl := Option.some.inj h
    rfl
  | cons a l ih =>
    rw [List.mapM_cons, Option.bind_eq_bind, Option.bind_eq_some_iff] at h
    obtain ⟨b, hb, h⟩ := h
    obtain ⟨bs, hbs, heq⟩ := Option.bind_eq_some_iff.mp h
    obtain rfl := Option.some.inj heq
    rw [List.map_cons, List.map_cons, hf a b hb, ih hbs]

/-- A loop over a list that collects one result for each entry. -/
theorem length_of_mapM {α β : Type*} {f : α → Option β} {l : List α} {l' : List β}
    (h : l.mapM f = some l') : l'.length = l.length := by
  have hmap : l'.map (fun _ => ()) = l.map fun _ => () := map_of_mapM (fun _ _ _ => rfl) h
  simpa using congrArg List.length hmap

/-- A loop over a list every round of which has a result collects all of them. -/
theorem mapM_eq_map {α β : Type*} {f : α → Option β} {g : α → β} {l : List α}
    (h : ∀ a ∈ l, f a = some (g a)) : l.mapM f = some (l.map g) := by
  induction l with
  | nil => rfl
  | cons a l ih =>
    rw [List.mapM_cons, h a List.mem_cons_self, ih fun b hb => h b (List.mem_cons_of_mem _ hb)]
    rfl

/-- A loop over a list whose rounds change nothing or let the measure grow changes nothing when no
    round does from the start. -/
theorem foldl_eq_self_iff {α : Type*} {f : σ → α → σ} {l : List α} (μ : σ → Nat)
    (hstep : ∀ s a, f s a = s ∨ μ s < μ (f s a)) : l.foldl f s = s ↔ ∀ a ∈ l, f s a = s := by
  have hgrow : ∀ (l : List α) (s : σ), μ s ≤ μ (l.foldl f s) := by
    intro l
    induction l with
    | nil => exact fun s => Nat.le_refl (μ s)
    | cons a l ih =>
      intro s
      rw [List.foldl_cons]
      refine Nat.le_trans ?_ (ih (f s a))
      obtain hsame | hlt := hstep s a
      · exact Nat.le_of_eq (congrArg μ hsame).symm
      · exact Nat.le_of_lt hlt
  induction l with
  | nil => simp
  | cons a l ih =>
    rw [List.foldl_cons, List.forall_mem_cons]
    obtain hsame | hlt := hstep s a
    · rw [hsame]
      exact ih.trans (and_iff_right rfl).symm
    · have hne : f s a ≠ s := fun heq => absurd hlt (by rw [heq]; exact Nat.lt_irrefl _)
      -- The measure has grown and does not fall again.
      have hafter : l.foldl f (f s a) ≠ s := by
        intro heq
        have hle := hgrow l (f s a)
        rw [heq] at hle
        omega
      exact iff_of_false hafter fun h => hne h.1

/-! ## Simulations -/

/-- Two loops over one list whose rounds are related end in related states. -/
theorem foldlM_rel {α σ' : Type*} {f : σ → α → Option σ} {f' : σ' → α → Option σ'} {l : List α}
    {R : σ → σ' → Prop} (hstep : ∀ s t a, R s t → Option.Rel R (f s a) (f' t a)) {t : σ'}
    (h : R s t) : Option.Rel R (l.foldlM f s) (l.foldlM f' t) := by
  induction l generalizing s t with
  | nil => exact .some h
  | cons a l ih =>
    rw [List.foldlM_cons, List.foldlM_cons]
    have hfst := hstep s t a h
    revert hfst
    cases f s a with
    | none =>
      cases f' t a with
      | none => exact fun _ => .none
      | some t₁ => exact fun hfst => nomatch hfst
    | some s₁ =>
      cases f' t a with
      | none => exact fun hfst => nomatch hfst
      | some t₁ =>
        rintro (h₁ | _)
        exact ih h₁

/-- Two loops with related rounds have related results, also when the second loop does extra
    rounds that lower its rank. -/
theorem runLoop_simulation {σ' ρ' : Type*} (body : σ → LoopStep σ ρ)
    (body' : σ' → LoopStep σ' ρ') {R : σ → σ' → Prop} {Q : ρ → ρ' → Prop} (rank : σ' → Nat)
    (hstep : ∀ s t, R s t →
      (∃ t', body' t = .next t' ∧ R s t' ∧ rank t' < rank t) ∨
      (∃ s' t', body s = .next s' ∧ body' t = .next t' ∧ R s' t') ∨
      ∃ r r', body s = .done r ∧ body' t = .done r' ∧ Q r r') {t : σ'} (h : R s t) :
    (∀ n r, runLoop body n s = some r → ∃ m r', runLoop body' m t = some r' ∧ Q r r') ∧
    ∀ n r', runLoop body' n t = some r' → ∃ m r, runLoop body m s = some r ∧ Q r r' := by
  constructor
  · intro n
    induction n generalizing s t with
    | zero =>
      intro r hr
      cases hr
    | succ n ih =>
      intro r hr
      -- The extra rounds are done first; their number is bounded by the rank.
      induction hk : rank t using Nat.strongRecOn generalizing t with
      | ind k ihk =>
        obtain ⟨t', hb', hR, hlt⟩ | ⟨s', t', hb, hb', hR⟩ | ⟨a, r', hb, hb', hQ⟩ := hstep s t h
        · obtain ⟨m, r', hm, hQ⟩ := ihk _ (hk ▸ hlt) hR rfl
          exact ⟨m + 1, r', (runLoop_next hb').trans hm, hQ⟩
        · rw [runLoop_next hb] at hr
          obtain ⟨m, r', hm, hQ⟩ := ih hR r hr
          exact ⟨m + 1, r', (runLoop_next hb').trans hm, hQ⟩
        · rw [runLoop_done hb] at hr
          exact ⟨1, r', runLoop_done hb', Option.some.inj hr ▸ hQ⟩
  · intro n
    induction n generalizing s t with
    | zero =>
      intro r hr
      cases hr
    | succ n ih =>
      intro r' hr'
      obtain ⟨t', hb', hR, _⟩ | ⟨s', t', hb, hb', hR⟩ | ⟨r, a, hb, hb', hQ⟩ := hstep s t h
      · rw [runLoop_next hb'] at hr'
        exact ih hR r' hr'
      · rw [runLoop_next hb'] at hr'
        obtain ⟨m, r, hm, hQ⟩ := ih hR r' hr'
        exact ⟨m + 1, r, (runLoop_next hb).trans hm, hQ⟩
      · rw [runLoop_done hb'] at hr'
        exact ⟨1, r, runLoop_done hb, Option.some.inj hr' ▸ hQ⟩

end PgRouting
