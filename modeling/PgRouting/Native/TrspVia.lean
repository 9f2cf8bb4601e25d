import PgRouting.Native.DijkstraVia
import PgRouting.Native.Identifiers
import PgRouting.Native.TrspHandler

/-!
# Turn restricted paths along a list of vertices

`pgr_do_trspVia`: `dijkstraVia` looks for the legs; those that are empty or break a
rule are cleared and looked for again by one `TrspHandler`, which is given their
pairs as a map of sets; and the legs are then put into the order of the list.
-/

namespace PgRouting

namespace Path

/-- `clear` -/
def clear (_ : Path) : Path := {}

end Path

/-- `std::map<int64_t, std::set<int64_t>>`: pairs in ascending order. -/
abbrev Combinations := Identifiers (Int ×ₗ Int)

namespace Utilities

/-- The loop over the precedences of a rule, which follow each other from the iterator on. -/
def ruleBreaker : List Int → List Int → Option Bool
  | _, [] => some true
  | [], _ :: _ => none
  | x :: edgesList, e :: precedences =>
    if x ≠ e then some false else ruleBreaker edgesList precedences

/-- The rule is found in the list of edges, from the first place where its first edge is. -/
def findRule (edgesList : List Int) (r : Rule) : Option Bool := do
  let front ← r.all.head?
  match edgesList.dropWhile (· ≠ front) with
  | [] => pure false
  | ptr => ruleBreaker ptr r.all

/-- The list of the edges of a path, which has as many zeros before them. -/
def edgesList (p : Path) : List Int :=
  List.replicate p.path.length 0 ++ p.path.map (·.edge)

/-- The loop over the rules, for one path. -/
def checkRules (edgesList : List Int) : List Rule → Path → Combinations →
    Option (Path × Combinations)
  | [], p, newCombinations => some (p, newCombinations)
  | r :: ruleList, p, newCombinations => do
    if ← findRule edgesList r then
      checkRules edgesList ruleList p.clear (newCombinations.add (toLex (p.startId, p.endId)))
    else checkRules edgesList ruleList p newCombinations

/-- The body of the loop over the paths. -/
def checkPath (ruleList : List Rule) (p : Path) (newCombinations : Combinations) :
    Option (Path × Combinations) :=
  if p.path.isEmpty then some (p, newCombinations.add (toLex (p.startId, p.endId)))
  else checkRules (edgesList p) ruleList p newCombinations

/-- The loop over the paths. -/
def combinationsLoop (ruleList : List Rule) : List Path → Combinations →
    Option (List Path × Combinations)
  | [], newCombinations => some ([], newCombinations)
  | p :: paths, newCombinations => do
    let (p, newCombinations) ← checkPath ruleList p newCombinations
    let (paths, newCombinations) ← combinationsLoop ruleList paths newCombinations
    pure (p :: paths, newCombinations)

/-- `get_combinations(paths, ruleList)`: the paths that are left and the pairs of the others. -/
def getCombinations (paths : List Path) (ruleList : List Rule) :
    Option (List Path × Combinations) := do
  let (paths, newCombinations) ← combinationsLoop ruleList paths .empty
  pure (paths.filter fun p => !p.path.isEmpty, newCombinations)

end Utilities

namespace TrspVia

variable (boost : BoostDijkstra BasicVertex BasicEdge)

end TrspVia

end PgRouting
