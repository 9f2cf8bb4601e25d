import PgRouting.Native.ShortestPath
import PgRouting.Spec.NearestPairs

/-!
# The pairs of a request

`get_combinations` puts the rows of a query and two arrays into a `std::map` of sets. The arrays
replace what the rows have under the same key, and an array alone is joined with itself.

## Key results

- `update_spec`: one access to the map
- `getCombinations_spec`: the pairs that the map holds
-/

namespace PgRouting

namespace ShortestPathDriver

variable {a b i j key : Int} {f : List Int → List Int} {l set : List Int}
variable {c : Int × List Int} {m : List (Int × List Int)}

/-! ## Sets -/

theorem mem_insertInt : j ∈ insertInt i l ↔ j = i ∨ j ∈ l := by
  induction l with
  | nil => exact List.mem_singleton.trans (by simp)
  | cons k l ih =>
    rw [insertInt]
    split
    · exact List.mem_cons
    · split
      · rename_i heq
        rw [heq, List.mem_cons]
        exact or_self_left.symm
      · rw [List.mem_cons, ih, List.mem_cons]
        exact or_left_comm

theorem insertInt_sorted (h : l.Pairwise (· < ·)) : (insertInt i l).Pairwise (· < ·) := by
  induction l with
  | nil => exact List.pairwise_singleton _ _
  | cons k l ih =>
    obtain ⟨hk, hl⟩ := List.pairwise_cons.mp h
    rw [insertInt]
    split
    · rename_i hlt
      refine List.pairwise_cons.mpr ⟨fun j hj => ?_, h⟩
      obtain rfl | hj := List.mem_cons.mp hj
      · exact hlt
      · exact hlt.trans (hk j hj)
    · split
      · exact h
      · refine List.pairwise_cons.mpr ⟨fun j hj => ?_, ih hl⟩
        obtain rfl | hj := mem_insertInt.mp hj
        · omega
        · exact hk j hj

theorem foldr_insertInt_sorted (l : List Int) : (l.foldr insertInt []).Pairwise (· < ·) := by
  induction l with
  | nil => exact .nil
  | cons i l ih => exact insertInt_sorted ih

theorem mem_foldr_insertInt : j ∈ l.foldr insertInt [] ↔ j ∈ l := by
  induction l with
  | nil => exact Iff.rfl
  | cons i l ih => rw [List.foldr_cons, mem_insertInt, ih, List.mem_cons]

theorem mem_getIntSet {arr : Option (List Int)} : i ∈ getIntSet arr ↔ i ∈ arr.getD [] :=
  mem_foldr_insertInt

theorem getIntSet_eq_nil {arr : Option (List Int)} : getIntSet arr = [] ↔ arr.getD [] = [] := by
  simp only [List.eq_nil_iff_forall_not_mem, mem_getIntSet]

/-! ## Maps of sets -/

/-- The keys of a map and the elements of its sets are in order. -/
structure SetMap (m : List (Int × List Int)) : Prop where
  keys : (m.map Prod.fst).Pairwise (· < ·)
  sets : ∀ c ∈ m, c.2.Pairwise (· < ·)

/-- The map holds a pair. -/
def Holds (m : List (Int × List Int)) (a b : Int) : Prop := ∃ c ∈ m, c.1 = a ∧ b ∈ c.2

theorem setMap_nil : SetMap [] := ⟨.nil, fun _ hc => nomatch hc⟩

theorem SetMap.isMap (h : SetMap m) : DijkstraNear.IsMap m :=
  ⟨h.keys.imp fun hlt => hlt.ne, fun c hc => (h.sets c hc).imp fun hlt => hlt.ne⟩

theorem SetMap.cons_iff : SetMap (c :: m) ↔
    (∀ c' ∈ m, c.1 < c'.1) ∧ c.2.Pairwise (· < ·) ∧ SetMap m := by
  constructor
  · intro h
    obtain ⟨hc, hm⟩ := List.pairwise_cons.mp h.keys
    exact ⟨fun c' hc' => hc _ (List.mem_map_of_mem hc'), h.sets c List.mem_cons_self, hm,
      fun c' hc' => h.sets c' (List.mem_cons_of_mem c hc')⟩
  · intro h
    refine ⟨List.pairwise_cons.mpr ⟨fun k hk => ?_, h.2.2.keys⟩, fun c' hc' => ?_⟩
    · obtain ⟨c', hc', rfl⟩ := List.mem_map.mp hk
      exact h.1 c' hc'
    · obtain rfl | hc' := List.mem_cons.mp hc'
      · exact h.2.1
      · exact h.2.2.sets c' hc'

variable (key) in
/-- One access to the map changes the set under its key, which may be new. -/
theorem update_spec (h : SetMap m) (hf : ∀ l : List Int, l.Pairwise (· < ·) →
    (f l).Pairwise (· < ·)) :
    SetMap (update key f m) ∧ ∃ set, (∀ b, b ∈ set ↔ Holds m key b) ∧
      ∀ c, c ∈ update key f m ↔ c ∈ m ∧ c.1 ≠ key ∨ c = (key, f set) := by
  induction m with
  | nil =>
    refine ⟨SetMap.cons_iff.mpr ⟨fun _ hc => absurd hc List.not_mem_nil, hf [] .nil, setMap_nil⟩,
      [], ?_, ?_⟩
    · exact fun b => iff_of_false (nomatch ·) fun ⟨_, hc, _⟩ => nomatch hc
    · intro c
      rw [update, List.mem_singleton]
      exact ⟨.inr, fun hc => hc.resolve_left fun hc => absurd hc.1 List.not_mem_nil⟩
  | cons c₀ m ih =>
    obtain ⟨hfirst, hset, hm⟩ := SetMap.cons_iff.mp h
    obtain ⟨k, set₀⟩ := c₀
    rw [update]
    split
    · -- The key is new, and the first one.
      rename_i hlt
      have hkeys : ∀ c ∈ (k, set₀) :: m, key < c.1 := by
        intro c hc
        obtain rfl | hc := List.mem_cons.mp hc
        · exact hlt
        · exact hlt.trans (hfirst c hc)
      refine ⟨SetMap.cons_iff.mpr ⟨hkeys, hf [] .nil, h⟩, [], ?_, ?_⟩
      · exact fun b => iff_of_false (nomatch ·) fun ⟨c, hc, hkey, _⟩ => (hkeys c hc).ne hkey.symm
      · intro c
        rw [List.mem_cons, or_comm]
        exact or_congr_left ⟨fun hc => ⟨hc, (hkeys c hc).ne'⟩, fun hc => hc.1⟩
    · split
      · -- The key is the first one, and its set changes.
        rename_i heq
        refine ⟨SetMap.cons_iff.mpr ⟨hfirst, hf set₀ hset, hm⟩, set₀, ?_, ?_⟩
        · intro b
          constructor
          · exact fun hb => ⟨_, List.mem_cons_self, heq.symm, hb⟩
          · intro hb
            obtain ⟨c, hc, hkey, hb⟩ := hb
            obtain rfl | hc := List.mem_cons.mp hc
            · exact hb
            · exact absurd (heq.symm.trans hkey.symm) (hfirst c hc).ne
        · intro c
          rw [List.mem_cons, or_comm, ← heq]
          apply or_congr_left
          constructor
          · exact fun hc => ⟨List.mem_cons_of_mem _ hc, fun hkey =>
              (hfirst c hc).ne (heq.symm.trans hkey.symm)⟩
          · intro hc
            obtain rfl | hmem := List.mem_cons.mp hc.1
            · exact absurd rfl (heq ▸ hc.2)
            · exact hmem
      · -- The key comes later.
        rename_i hlt hne
        obtain ⟨hmap, set, hset', hmem⟩ := ih hm
        have hlater : ∀ c ∈ update key f m, k < c.1 := by
          intro c hc
          obtain ⟨hc, _⟩ | rfl := (hmem c).mp hc
          · exact hfirst c hc
          · show k < key
            omega
        refine ⟨SetMap.cons_iff.mpr ⟨hlater, hset, hmap⟩, set, ?_, ?_⟩
        · intro b
          rw [hset']
          constructor
          · exact fun ⟨c, hc, hb⟩ => ⟨c, List.mem_cons_of_mem _ hc, hb⟩
          · intro hb
            obtain ⟨c, hc, hkey, hb⟩ := hb
            obtain rfl | hc := List.mem_cons.mp hc
            · exact absurd hkey.symm hne
            · exact ⟨c, hc, hkey, hb⟩
        · intro c
          rw [List.mem_cons, hmem, List.mem_cons, or_and_right, or_assoc]
          apply or_congr_left
          exact ⟨fun hc => ⟨hc, hc ▸ fun hkey => hne hkey.symm⟩, fun hc => hc.1⟩

variable (key) in
/-- The pairs after an access to the map. -/
theorem holds_update (h : SetMap m) (hf : ∀ l : List Int, l.Pairwise (· < ·) →
    (f l).Pairwise (· < ·)) : ∃ set, (∀ b, b ∈ set ↔ Holds m key b) ∧
      ∀ a b, Holds (update key f m) a b ↔ if a = key then b ∈ f set else Holds m a b := by
  obtain ⟨_, set, hset, hmem⟩ := update_spec key h hf
  refine ⟨set, hset, fun a b => ?_⟩
  constructor
  · intro hold
    obtain ⟨c, hc, rfl, hb⟩ := hold
    obtain ⟨hc, hne⟩ | rfl := (hmem c).mp hc
    · rw [if_neg hne]
      exact ⟨c, hc, rfl, hb⟩
    · rwa [if_pos rfl]
  · intro hold
    split at hold
    · rename_i heq
      exact ⟨_, (hmem _).mpr (.inr rfl), heq.symm, hold⟩
    · rename_i hne
      obtain ⟨c, hc, rfl, hb⟩ := hold
      exact ⟨c, (hmem c).mpr (.inl ⟨hc, hne⟩), rfl, hb⟩

theorem update_ne_nil : update key f m ≠ [] := by
  cases m with
  | nil => exact List.cons_ne_nil _ _
  | cons c m =>
    obtain ⟨k, set⟩ := c
    rw [update]
    split
    · exact List.cons_ne_nil _ _
    · split <;> exact List.cons_ne_nil _ _

/-! ## The map of a request -/

/-- The rows of the query. -/
theorem foldl_insert_spec (rows : List (Int × Int)) (h : SetMap m) :
    let result := rows.foldl (fun result row => update row.1 (insertInt row.2) result) m
    SetMap result ∧ (result = [] ↔ m = [] ∧ rows = []) ∧
      ∀ a b, Holds result a b ↔ (a, b) ∈ rows ∨ Holds m a b := by
  induction rows generalizing m with
  | nil => exact ⟨h, (and_iff_left rfl).symm, fun a b => (or_iff_right (nomatch ·)).symm⟩
  | cons row rows ih =>
    have hf : ∀ l : List Int, l.Pairwise (· < ·) → (insertInt row.2 l).Pairwise (· < ·) :=
      fun l hl => insertInt_sorted hl
    obtain ⟨hmap, hnil, hhold⟩ := ih (update_spec row.1 h hf).1
    obtain ⟨set, hset, hupdate⟩ := holds_update row.1 h hf
    refine ⟨hmap, ?_, fun a b => ?_⟩
    · exact hnil.trans (iff_of_false (fun hnil => update_ne_nil hnil.1) fun hnil =>
        List.cons_ne_nil _ _ hnil.2)
    · refine (hhold a b).trans ?_
      rw [hupdate, List.mem_cons]
      by_cases heq : a = row.1
      · rw [if_pos heq, mem_insertInt, hset, heq]
        have hrow : (row.1, b) = row ↔ b = row.2 := by
          rw [Prod.ext_iff]
          exact and_iff_right rfl
        rw [hrow, or_left_comm, or_assoc]
      · have hrow : (a, b) ≠ row := fun hrow => heq (congrArg Prod.fst hrow)
        rw [if_neg heq, or_iff_right hrow]

/-- The arrays. -/
theorem foldl_assign_spec (starts : List Int) {ends : List Int} (hends : ends.Pairwise (· < ·))
    (h : SetMap m) :
    let result := starts.foldl (fun result s => update s (fun _ => ends) result) m
    SetMap result ∧ (result = [] ↔ m = [] ∧ starts = []) ∧
      ∀ a b, Holds result a b ↔ if a ∈ starts then b ∈ ends else Holds m a b := by
  induction starts generalizing m with
  | nil => exact ⟨h, (and_iff_left rfl).symm, fun a b => Iff.rfl⟩
  | cons s starts ih =>
    have hf : ∀ l : List Int, l.Pairwise (· < ·) → ends.Pairwise (· < ·) := fun _ _ => hends
    obtain ⟨hmap, hnil, hhold⟩ := ih (update_spec s h hf).1
    obtain ⟨set, _, hupdate⟩ := holds_update s h hf
    refine ⟨hmap, ?_, fun a b => ?_⟩
    · exact hnil.trans (iff_of_false (fun hnil => update_ne_nil hnil.1) fun hnil =>
        List.cons_ne_nil _ _ hnil.2)
    · refine (hhold a b).trans ?_
      rw [hupdate]
      by_cases hstarts : a ∈ starts
      · rw [if_pos hstarts, if_pos (List.mem_cons_of_mem s hstarts)]
      · rw [if_neg hstarts]
        by_cases heq : a = s
        · rw [if_pos heq, if_pos (heq ▸ List.mem_cons_self)]
        · rw [if_neg heq, if_neg fun hmem => (List.mem_cons.mp hmem).elim heq hstarts]

namespace Request

variable (r : Request)

/-- The rows of the query on pairs. -/
def rows : List (Int × Int) := r.combinationsSql.getD []

/-- The ends from which the search goes. -/
def searchStarts : List Int := if r.normal then getIntSet r.starts else getIntSet r.ends

/-- The ends to which the search goes: those of an array alone are joined with themselves. -/
def searchEnds : List Int :=
  let ends := if r.ends.isSome then
    (if r.normal then getIntSet r.ends else getIntSet r.starts) else []
  if r.rows = [] ∧ ends = [] then r.searchStarts else ends

/-- The pairs that are looked for. -/
def Searches (a b : Int) : Prop :=
  if a ∈ r.searchStarts then b ∈ r.searchEnds else (a, b) ∈ r.rows

theorem searchStarts_sorted : r.searchStarts.Pairwise (· < ·) := by
  rw [searchStarts]
  split <;> exact foldr_insertInt_sorted _

theorem searchEnds_sorted : r.searchEnds.Pairwise (· < ·) := by
  have hends : (if r.ends.isSome then (if r.normal then getIntSet r.ends else getIntSet r.starts)
      else []).Pairwise (· < ·) := by
    split
    · split <;> exact foldr_insertInt_sorted _
    · exact .nil
  rw [searchEnds]
  exact iteInduction (fun _ => r.searchStarts_sorted) fun _ => hends

/-- The two loops of `get_combinations`. -/
theorem combinations_eq : r.combinations =
    r.searchStarts.foldl (fun result s => update s (fun _ => r.searchEnds) result)
      (r.rows.foldl (fun result row => update row.1 (insertInt row.2) result) []) := by
  let ends := if r.ends.isSome then
    (if r.normal then getIntSet r.ends else getIntSet r.starts) else []
  have hends : (if r.rows.isEmpty ∧ !r.searchStarts.isEmpty ∧ ends.isEmpty then r.searchStarts
      else ends) = r.searchEnds := by
    show _ = if r.rows = [] ∧ ends = [] then r.searchStarts else ends
    simp only [List.isEmpty_iff, Bool.not_eq_true', List.isEmpty_eq_false_iff]
    by_cases hrows : r.rows = [] ∧ ends = []
    · rw [if_pos hrows]
      by_cases hstarts : r.searchStarts = []
      · rw [if_neg fun h => h.2.1 hstarts, hrows.2, hstarts]
      · rw [if_pos ⟨hrows.1, hstarts, hrows.2⟩]
    · rw [if_neg hrows, if_neg fun h => hrows ⟨h.1, h.2.2⟩]
  rw [← hends]
  rfl

/-- The map holds the pairs that are looked for. -/
theorem getCombinations_spec : SetMap r.combinations ∧
    (r.combinations = [] ↔ r.rows = [] ∧ r.searchStarts = []) ∧
    ∀ a b, Holds r.combinations a b ↔ r.Searches a b := by
  obtain ⟨hmap, hnil, hhold⟩ := foldl_insert_spec r.rows setMap_nil
  obtain ⟨hmap', hnil', hhold'⟩ := foldl_assign_spec r.searchStarts r.searchEnds_sorted hmap
  rw [combinations_eq]
  refine ⟨hmap', hnil'.trans (and_congr_left' (hnil.trans (and_iff_right rfl))), fun a b => ?_⟩
  have hrows := (hhold a b).trans (or_iff_left fun ⟨_, hc, _⟩ => nomatch hc)
  refine (hhold' a b).trans ?_
  rw [Searches, hrows]

end Request

end ShortestPathDriver

end PgRouting
