import Mathlib.Data.Tree.Basic
import Mathlib.Data.List.Induction
import Mathlib.Data.List.Pairwise

/-!
# Ordered sets as search trees

An ordered set is a binary search tree with a comparison of its own. The way of a new element
leads down from the root, to the left of the elements that it is less than and to the right of
the others. Where it ends the element is inserted, unless the element before that place is not
less than the new one.

Balancing the tree keeps the order of the elements, so that each insertion can meet any tree
with the elements that are there in their order. Nothing is assumed about the comparison.

## Key results

- `insertDown_cases`: the element is inserted, or an equivalent one is there
- `inorder_insertDown`: the insertion as a scan of the elements in their order
- `insertScan_sorted`: with a transitive comparison the elements stay sorted
-/

namespace PgRouting

variable {α : Type*}

/-- The elements of a tree in their order. -/
def inorder : BinaryTree α → List α
  | .nil => []
  | .node x left right => inorder left ++ x :: inorder right

section Insertion

variable (less : α → α → Bool) (x : α)

/-- The way of `x` down a tree. The elements of the tree come after `prev`, when there is one. -/
def insertDown : Option α → BinaryTree α → BinaryTree α
  | prev, .nil => if prev.all (less · x) then .node x .nil .nil else .nil
  | prev, .node y left right =>
    if less x y then .node y (insertDown prev left) right
    else .node y left (insertDown (some y) right)

/-- The same for elements in their order: the place is before the first one that `x` is less
    than. -/
def insertScan : Option α → List α → List α
  | prev, [] => if prev.all (less · x) then [x] else []
  | prev, y :: l =>
    if less x y then
      if prev.all (less · x) then x :: y :: l else y :: l
    else y :: insertScan (some y) l

end Insertion

/-- The insertion of the elements, one after the other, can leave the tree. -/
inductive Inserts (less : α → α → Bool) : List α → BinaryTree α → Prop
  | nil : Inserts less [] .nil
  | snoc {l : List α} {t t' : BinaryTree α} {x : α} (h : Inserts less l t)
      (hbalance : inorder t' = inorder (insertDown less x none t)) : Inserts less (l ++ [x]) t'

variable {less : α → α → Bool} {x y z : α} {prev : Option α} {l l' : List α} {t : BinaryTree α}

/-- Without any balancing. -/
theorem inserts_foldl (less : α → α → Bool) (l : List α) :
    Inserts less l (l.foldl (fun t x => insertDown less x none t) .nil) := by
  induction l using List.reverseRecOn with
  | nil => exact .nil
  | append_singleton l x ih =>
    rw [List.foldl_append]
    exact .snoc ih rfl

/-- Either the element is inserted, or the tree stays and has an element that is neither less
    nor greater. -/
theorem insertDown_cases (t : BinaryTree α) (hprev : ∀ y ∈ prev, less x y = false) :
    (inorder (insertDown less x prev t)).Perm (x :: inorder t) ∨
      inorder (insertDown less x prev t) = inorder t ∧
        ∃ y, (y ∈ prev ∨ y ∈ inorder t) ∧ less x y = false ∧ less y x = false := by
  induction t generalizing prev with
  | nil =>
    rw [insertDown]
    by_cases hall : prev.all (less · x)
    · rw [if_pos hall]
      exact .inl (List.Perm.refl _)
    · rw [if_neg hall]
      refine .inr ⟨rfl, ?_⟩
      cases prev with
      | none => exact absurd rfl hall
      | some y => exact ⟨y, .inl rfl, hprev y rfl, by simpa using hall⟩
  | node y left right ihl ihr =>
    rw [insertDown]
    by_cases hlt : less x y
    · rw [if_pos hlt]
      simp only [inorder]
      obtain hperm | ⟨heq, z, hz, hxz⟩ := ihl hprev
      · exact .inl (hperm.append_right _)
      · refine .inr ⟨by rw [heq], z, hz.imp id fun hz => ?_, hxz⟩
        exact List.mem_append_left _ hz
    · rw [if_neg hlt]
      simp only [inorder]
      have hy : ∀ z ∈ some y, less x z = false := by
        intro z hz
        obtain rfl := Option.mem_some.mp hz
        simpa using hlt
      obtain hperm | ⟨heq, z, hz, hxz⟩ := ihr hy
      · -- Below the node the new element is its neighbour on the left or on the right.
        have hmid : (y :: inorder (insertDown less x (some y) right)).Perm
            (x :: y :: inorder right) := (hperm.cons y).trans (List.Perm.swap x y _)
        exact .inl ((hmid.append_left _).trans List.perm_middle)
      · refine .inr ⟨by rw [heq], z, .inr ?_, hxz⟩
        obtain hz | hz := hz
        · rw [Option.mem_some.mp hz]
          exact List.mem_append_right _ List.mem_cons_self
        · exact List.mem_append_right _ (List.mem_cons_of_mem y hz)

/-- The same from the root of the tree. -/
theorem insertDown_none_cases (less : α → α → Bool) (x : α) (t : BinaryTree α) :
    (inorder (insertDown less x none t)).Perm (x :: inorder t) ∨
      inorder (insertDown less x none t) = inorder t ∧
        ∃ y ∈ inorder t, less x y = false ∧ less y x = false := by
  have hprev : ∀ y ∈ (none : Option α), less x y = false := by simp
  obtain hperm | ⟨heq, y, hy, hxy⟩ := insertDown_cases t hprev
  · exact .inl hperm
  · exact .inr ⟨heq, y, hy.resolve_left (by simp), hxy⟩

/-- Nothing is in the tree but the elements that have been inserted. -/
theorem Inserts.mem (h : Inserts less l t) : ∀ y ∈ inorder t, y ∈ l := by
  induction h with
  | nil => exact fun y hy => hy
  | @snoc l t t' x h hbalance ih =>
    intro y hy
    rw [hbalance] at hy
    obtain hperm | ⟨heq, _⟩ := insertDown_none_cases less x t
    · obtain rfl | hy := List.mem_cons.mp (hperm.mem_iff.mp hy)
      · exact List.mem_append_right l List.mem_cons_self
      · exact List.mem_append_left _ (ih y hy)
    · exact List.mem_append_left _ (ih y (heq ▸ hy))

/-- For every element inserted the tree has that one, or one that is neither less nor greater. -/
theorem Inserts.exists_equivalent (hirrefl : ∀ y ∈ l, less y y = false) (h : Inserts less l t) :
    ∀ y ∈ l, ∃ z ∈ inorder t, less y z = false ∧ less z y = false := by
  induction h with
  | nil => exact fun y hy => nomatch hy
  | @snoc l t t' x h hbalance ih =>
    have hold := ih fun y hy => hirrefl y (List.mem_append_left _ hy)
    intro y hy
    rw [hbalance]
    obtain hperm | ⟨heq, z, hz, hxz⟩ := insertDown_none_cases less x t
    · obtain hy' | hy' := List.mem_append.mp hy
      · obtain ⟨z, hz, hyz⟩ := hold y hy'
        exact ⟨z, hperm.mem_iff.mpr (List.mem_cons_of_mem x hz), hyz⟩
      · refine ⟨y, hperm.mem_iff.mpr (List.mem_cons.mpr (.inl (List.mem_singleton.mp hy'))), ?_⟩
        exact ⟨hirrefl y hy, hirrefl y hy⟩
    · rw [heq]
      obtain hy' | hy' := List.mem_append.mp hy
      · exact hold y hy'
      · rw [List.mem_singleton.mp hy']
        exact ⟨z, hz, hxz⟩

/-! ## The elements in their order -/

theorem insertScan_append_of_less (l : List α) (hy : less x y = true) :
    insertScan less x prev (l ++ y :: l') = insertScan less x prev l ++ y :: l' := by
  induction l generalizing prev with
  | nil =>
    simp only [List.nil_append, insertScan, hy, if_true]
    split <;> rfl
  | cons z l ih =>
    simp only [List.cons_append, insertScan, ih]
    split
    · split <;> rfl
    · rfl

theorem insertScan_append_of_not_less (l : List α) (hl : ∀ z ∈ l, less x z = false)
    (hy : less x y = false) :
    insertScan less x prev (l ++ y :: l') = l ++ y :: insertScan less x (some y) l' := by
  induction l generalizing prev with
  | nil => simp [insertScan, hy]
  | cons z l ih =>
    simp only [List.cons_append, insertScan, hl z List.mem_cons_self,
      ih fun w hw => hl w (List.mem_cons_of_mem z hw)]
    rfl

/-- When `x` stays less than all that comes after something it is less than, its way down ends
    where the scan stops. -/
theorem inorder_insertDown (t : BinaryTree α)
    (hup : (inorder t).Pairwise fun y z => less x y = true → less x z = true) :
    inorder (insertDown less x prev t) = insertScan less x prev (inorder t) := by
  induction t generalizing prev with
  | nil =>
    simp only [insertDown, inorder, insertScan]
    split <;> rfl
  | node y left right ihl ihr =>
    rw [inorder, List.pairwise_append] at hup
    obtain ⟨hleft, hright, hcross⟩ := hup
    rw [insertDown, inorder]
    by_cases hlt : less x y
    · rw [if_pos hlt, insertScan_append_of_less _ hlt, inorder, ihl hleft]
    · rw [if_neg hlt, insertScan_append_of_not_less _ _ (by simpa using hlt), inorder,
        ihr (List.pairwise_cons.mp hright).2]
      intro z hz
      by_contra hxz
      exact hlt (hcross z hz y List.mem_cons_self (by simpa using hxz))

section Transitive

variable {X : α → Prop}
variable (htrans : ∀ x y z, X x → X y → X z → less x y = true → less y z = true → less x z = true)
variable (hx : X x) (hl : ∀ y ∈ l, X y)

include htrans hx hl

theorem mem_insertScan (hprev : ∀ y ∈ prev, X y ∧ ∀ z ∈ l, less y z = true)
    (hsorted : l.Pairwise (less · ·)) (hz : z ∈ insertScan less x prev l) :
    z ∈ l ∨ z = x ∧ prev.all (less · x) := by
  induction l generalizing prev with
  | nil =>
    rw [insertScan] at hz
    split at hz
    · rename_i hall
      exact .inr ⟨List.mem_singleton.mp hz, hall⟩
    · cases hz
  | cons y l ih =>
    obtain ⟨hy, hrest⟩ := List.pairwise_cons.mp hsorted
    rw [insertScan] at hz
    split at hz
    · split at hz
      · rename_i hall
        exact (List.mem_cons.mp hz).symm.imp id fun h => ⟨h, hall⟩
      · exact .inl hz
    · obtain rfl | hz := List.mem_cons.mp hz
      · exact .inl List.mem_cons_self
      · -- The element that was passed is the predecessor from here on.
        have hsome : ∀ w ∈ some y, X w ∧ ∀ z ∈ l, less w z = true := by
          intro w hw
          obtain rfl := Option.mem_some.mp hw
          exact ⟨hl y List.mem_cons_self, hy⟩
        obtain hz | ⟨rfl, hyx⟩ :=
          ih (fun w hw => hl w (List.mem_cons_of_mem y hw)) hsome hrest hz
        · exact .inl (List.mem_cons_of_mem y hz)
        · refine .inr ⟨rfl, ?_⟩
          -- By transitivity the predecessor before it is less than the new element too.
          cases prev with
          | none => rfl
          | some w =>
            obtain ⟨hw, hall⟩ := hprev w rfl
            exact htrans w y z hw (hl y List.mem_cons_self) hx (hall y List.mem_cons_self) hyx

/-- With a transitive comparison the elements stay sorted. -/
theorem insertScan_sorted (hprev : ∀ y ∈ prev, X y ∧ ∀ z ∈ l, less y z = true)
    (hsorted : l.Pairwise (less · ·)) : (insertScan less x prev l).Pairwise (less · ·) := by
  induction l generalizing prev with
  | nil =>
    rw [insertScan]
    split
    · exact List.pairwise_singleton _ x
    · exact .nil
  | cons y l ih =>
    obtain ⟨hy, hrest⟩ := List.pairwise_cons.mp hsorted
    have hXy := hl y List.mem_cons_self
    have hl' : ∀ z ∈ l, X z := fun z hz => hl z (List.mem_cons_of_mem y hz)
    rw [insertScan]
    split
    · rename_i hxy
      split
      · apply List.pairwise_cons.mpr ⟨fun z hz => ?_, hsorted⟩
        obtain rfl | hz := List.mem_cons.mp hz
        · exact hxy
        · exact htrans x y z hx hXy (hl' z hz) hxy (hy z hz)
      · exact hsorted
    · have hsome : ∀ w ∈ some y, X w ∧ ∀ z ∈ l, less w z = true := by
        intro w hw
        obtain rfl := Option.mem_some.mp hw
        exact ⟨hXy, hy⟩
      apply List.pairwise_cons.mpr ⟨fun z hz => ?_, ih hl' hsome hrest⟩
      -- What stands behind `y` afterwards stood there before, or it is the new element, which goes
      -- in only where its predecessor is less.
      obtain hz | ⟨rfl, hyx⟩ := mem_insertScan htrans hx hl' hsome hrest hz
      · exact hy z hz
      · exact hyx

end Transitive

/-- With a comparison that is transitive on the elements inserted, the tree has its elements in
    ascending order. -/
theorem Inserts.sorted (h : Inserts less l t)
    (htrans : ∀ x ∈ l, ∀ y ∈ l, ∀ z ∈ l, less x y = true → less y z = true → less x z = true) :
    (inorder t).Pairwise (less · ·) := by
  induction h with
  | nil => exact .nil
  | @snoc l t t' x h hbalance ih =>
    have hx : x ∈ l ++ [x] := List.mem_append_right l List.mem_cons_self
    have hl : ∀ y ∈ inorder t, y ∈ l ++ [x] := fun y hy => List.mem_append_left _ (h.mem y hy)
    have hsorted := ih fun a ha b hb c hc => htrans a (List.mem_append_left _ ha) b
      (List.mem_append_left _ hb) c (List.mem_append_left _ hc)
    have hup : (inorder t).Pairwise fun y z => less x y = true → less x z = true := by
      apply hsorted.imp_of_mem
      intro y z hy hz hyz hxy
      exact htrans x hx y (hl y hy) z (hl z hz) hxy hyz
    rw [hbalance, inorder_insertDown t hup]
    exact insertScan_sorted (fun a b c ha hb hc => htrans a ha b hb c hc) hx hl
      (by simp) hsorted

end PgRouting
