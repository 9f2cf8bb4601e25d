import Mathlib.Data.Finset.Card
import Mathlib.Data.List.Nodup
import Mathlib.Data.Finset.Dedup

/-!
# Walks in multigraphs

Several arcs may lead from one vertex to another, so a walk is a list of arcs.

Where as many arcs leave a vertex as enter it, a walk along unused arcs that has entered the
vertex once more than it has left it can go on.

## Key results

- `Joins.exists_leaving`: a walk out of a set of vertices
- `Joins.not_loop`: a path without a repeated vertex does not go along a loop
- `exists_unused`: a vertex that has been entered more often than left has an unused arc
-/

namespace PgRouting

/-- A graph whose arcs have a source and a target. -/
structure Multigraph (V E : Type*) where
  source : E → V
  target : E → V

namespace Multigraph

variable {V E : Type*} (G : Multigraph V E) {s u v w : V} {e : E} {p q : List E}

/-- The arcs lead from one vertex to the other. -/
def Joins : V → List E → V → Prop
  | u, [], v => u = v
  | u, e :: p, v => G.source e = u ∧ Joins (G.target e) p v

variable {G}

/-- A walk out of a set of vertices leaves it on some arc. -/
theorem Joins.exists_leaving {R : V → Prop} (h : G.Joins u p v) (hu : R u) (hv : ¬ R v) :
    ∃ e ∈ p, R (G.source e) ∧ ¬ R (G.target e) := by
  induction p generalizing u with
  | nil => exact absurd (h ▸ hu) hv
  | cons e p ih =>
    obtain ⟨hsource, hrest⟩ := h
    by_cases hR : R (G.target e)
    · obtain ⟨e', he', hleaves⟩ := ih hrest hR
      exact ⟨e', List.mem_cons_of_mem _ he', hleaves⟩
    · exact ⟨e, List.mem_cons_self, hsource ▸ hu, hR⟩

/-- A walk ends where its last arc leads. -/
theorem Joins.getLastD_target (h : G.Joins u p v) : (p.map G.target).getLastD u = v := by
  induction p generalizing u with
  | nil => exact h
  | cons e p ih =>
    rw [List.map_cons, List.getLastD_cons]
    exact ih h.2

/-- A path without a repeated vertex does not go along a loop. -/
theorem Joins.not_loop (h : G.Joins u p v) (hsimple : (u :: p.map G.target).Nodup)
    (he : G.source e = G.target e) : e ∉ p := by
  induction p generalizing u with
  | nil => exact List.not_mem_nil
  | cons a p ih =>
    intro hmem
    obtain rfl | hmem := List.mem_cons.mp hmem
    · refine (List.nodup_cons.mp hsimple).1 ?_
      rw [← h.1, he]
      exact List.mem_cons_self
    · exact ih h.2 (List.nodup_cons.mp hsimple).2 hmem

/-! ## Walks along unused arcs -/

section Arcs

variable [DecidableEq V]

variable (G) in
/-- The arcs out of a vertex. -/
def outArcs (F : Finset E) (v : V) : Finset E := {e ∈ F | G.source e = v}

variable (G) in
/-- The arcs into a vertex. -/
def inArcs (F : Finset E) (v : V) : Finset E := {e ∈ F | G.target e = v}

/-- Adding an element adds it to the part that has the property. -/
theorem card_filter_insert [DecidableEq E] {used : Finset E} (he : e ∉ used) (q : E → Prop)
    [DecidablePred q] :
    ((insert e used).filter q).card = (used.filter q).card + if q e then 1 else 0 := by
  rw [Finset.filter_insert]
  split
  · exact Finset.card_insert_of_notMem fun hmem => he (Finset.mem_of_mem_filter e hmem)
  · rfl

/-- Where more used arcs enter a vertex than leave it, another one leaves it. -/
theorem exists_unused {used F : Finset E} (h : (G.outArcs used v).card < (G.inArcs used v).card)
    (hsub : used ⊆ F) (hF : (G.inArcs F v).card = (G.outArcs F v).card) :
    ∃ e ∈ F, e ∉ used ∧ G.source e = v := by
  by_contra hnone
  push Not at hnone
  have hall : G.outArcs F v ⊆ G.outArcs used v := by
    intro e he
    obtain ⟨heF, hsource⟩ := Finset.mem_filter.mp he
    refine Finset.mem_filter.mpr ⟨?_, hsource⟩
    by_contra hused
    exact hnone e heF hused hsource
  have hout := Finset.card_le_card hall
  have hin : (G.inArcs used v).card ≤ (G.inArcs F v).card :=
    Finset.card_le_card (Finset.filter_subset_filter _ hsub)
  omega

end Arcs

end Multigraph

end PgRouting
