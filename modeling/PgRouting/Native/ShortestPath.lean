import PgRouting.Native.DijkstraNear
import PgRouting.Native.WithPoints

/-!
# The driver of the shortest paths

`do_shortestPath`, which answers `pgr_dijkstra`, `pgr_withPoints` and their variants: the points
divide the edges that they lie on, `algorithms::dijkstra` looks for the paths, and the rows at
points that are passed are taken out again.

The two queries on the edges are modelled by what they select. The log is left out.
-/

namespace PgRouting

/-- `eliminate_details`, after the first row: the node and the edge of the row that is being put
    together, and its cost so far. -/
def PgPointsGraph.eliminateDetailsLoop (currentNode currentEdge : Int) (cost : ℚ) :
    List PathT → Path → Path
  | [], newPath => newPath.pushBack ⟨currentNode, currentEdge, cost, 0⟩
  | pathstop :: rest, newPath =>
    if pathstop.edge = currentEdge then
      eliminateDetailsLoop currentNode currentEdge (cost + pathstop.cost) rest newPath
    else
      eliminateDetailsLoop pathstop.node pathstop.edge pathstop.cost rest
        (newPath.pushBack ⟨currentNode, currentEdge, cost, 0⟩)

/-- `eliminate_details` -/
def PgPointsGraph.eliminateDetails (path : Path) : Path :=
  match path.path with
  | [] => path
  | first :: rest =>
    (eliminateDetailsLoop first.node first.edge 0 (first :: rest)
      (.new path.startId path.endId)).recalculateAggCost

namespace ShortestPathDriver

/-- What the driver answers. -/
inductive Answer
  | paths (paths : List Path)
  | notice (message : String)
  | error (message log : String)

/-- `estimate_drivingSide`; `none` is the blank of the functions without points. -/
def estimateDrivingSide (drivingSide : Char) (which : Int) :
    Except (String × String) (Option Side) :=
  let dSide := drivingSide.toLower
  let side : Option Side :=
    if dSide = 'r' then some .right
    else if dSide = 'l' then some .left
    else if dSide = 'b' then some .both
    else none
  if which = 0 then .ok none
  else if which = 1 then
    match side with
    | none => .error ("Invalid value of 'driving side'", "Valid value are 'r', 'l', 'b'")
    | some side => .ok (some side)
  -- The old signature takes every other letter for both sides.
  else if side = some .right ∨ side = some .left then .ok side
  else .ok (some .both)

/-- What `fetch_edge` makes of a row of the edges. -/
def fetchEdge (normal : Bool) (row : EdgeT) : EdgeT :=
  if normal then row else { row with source := row.target, target := row.source }

/-- `edges_of_points_query`, whose rows are distinct -/
def edgesOfPointsQuery (edges : List EdgeT) (points : List PointOnEdge) : List EdgeT :=
  (edges.filter fun edge => points.any fun point => edge.id = point.edgeId).dedup

/-- `edges_no_points_query` -/
def edgesNoPointsQuery (edges : List EdgeT) (points : List PointOnEdge) : List EdgeT :=
  edges.filter fun edge => !points.any fun point => edge.id = point.edgeId

/-- The number of goals that is looked for. -/
def goalsOf (nGoals : Int) : Nat := if nGoals ≤ 0 then DijkstraNear.sizeMax else nGoals.toNat

/-! ## `get_combinations` -/

/-- What `std::map::operator[]` finds or makes under a key, after `f` has changed it. -/
def update (key : Int) (f : List Int → List Int) : List (Int × List Int) → List (Int × List Int)
  | [] => [(key, f [])]
  | (k, set) :: rest =>
    if key < k then (key, f []) :: (k, set) :: rest
    else if key = k then (k, f set) :: rest
    else (k, set) :: update key f rest

/-- `std::set::insert` -/
def insertInt (i : Int) : List Int → List Int
  | [] => [i]
  | j :: rest => if i < j then i :: j :: rest else if i = j then j :: rest
    else j :: insertInt i rest

/-- `get_intSet`; without an array the set is empty. -/
def getIntSet (arr : Option (List Int)) : List Int := (arr.getD []).foldr insertInt []

/-- `get_combinations(combinations_sql, startsArr, endsArr, normal)`, where `combinations_sql` may
    be a null pointer. The arrays only count together. -/
def getCombinationsSql (combinationsSql : Option (List (Int × Int))) (startsArr endsArr :
    Option (List Int)) (normal : Bool) : List (Int × List Int) :=
  let (starts, ends) := if startsArr.isSome ∧ endsArr.isSome then
    if normal then (getIntSet startsArr, getIntSet endsArr)
    else (getIntSet endsArr, getIntSet startsArr) else ([], [])
  let combinations := combinationsSql.getD []
  let result := combinations.foldl (fun result row => update row.1 (insertInt row.2) result) []
  starts.foldl (fun result s => update s (fun _ => ends) result) result

/-- `get_combinations(combinations_sql, startsArr, endsArr, normal, is_matrix)`, where the starts
    are also the ends when there are no others. -/
def getCombinations (combinationsSql : Option (List (Int × Int))) (startsArr endsArr :
    Option (List Int)) (normal : Bool) : List (Int × List Int) :=
  let starts := if normal then getIntSet startsArr else getIntSet endsArr
  let ends := if endsArr.isSome then
    (if normal then getIntSet endsArr else getIntSet startsArr) else []
  let combinations := combinationsSql.getD []
  let ends := if combinations.isEmpty ∧ !starts.isEmpty ∧ ends.isEmpty then starts else ends
  let result := combinations.foldl (fun result row => update row.1 (insertInt row.2) result) []
  starts.foldl (fun result s => update s (fun _ => ends) result) result

/-! ## `do_shortestPath` -/

variable (boost : BoostDijkstraVisits BasicVertex BasicEdge)

/-- The arguments of `do_shortestPath`, with the rows of its queries. A query that is not given is
    `none`. -/
structure Request where
  edges : List EdgeT
  points : Option (List PointOnEdge)
  combinationsSql : Option (List (Int × Int))
  starts : Option (List Int)
  ends : Option (List Int)
  directed : Bool
  onlyCost : Bool
  normal : Bool
  nGoals : Int
  isGlobal : Bool
  drivingSide : Char
  details : Bool
  which : Int

/-- The pairs that the driver looks for. -/
def Request.combinations (r : Request) : List (Int × List Int) :=
  getCombinations r.combinationsSql r.starts r.ends r.normal

/-- The rows of the edges that the driver reads: the edges without points, and those with. -/
def Request.read (r : Request) : List EdgeT × List EdgeT :=
  match r.points with
  | none => (r.edges.map (fetchEdge r.normal), [])
  | some points => ((edgesNoPointsQuery r.edges points).map (fetchEdge r.normal),
    (edgesOfPointsQuery r.edges points).map (fetchEdge r.normal))

/-- The paths, once the points have divided the edges. -/
def findPaths (unset : Nat → Nat → ℚ) (r : Request) (edges : List EdgeT) : Option (List Path) := do
  let n := goalsOf r.nGoals
  let graph := (PgrBaseGraph.empty r.directed).insertEdges edges true
  let paths ← if r.which = 0 ∨ r.which = 101 ∨ r.which = 1 then
      DijkstraNear.dijkstra boost graph unset r.combinations r.onlyCost n
    else some []
  let paths := DijkstraNear.postProcess paths r.onlyCost r.normal n r.isGlobal
  pure (if r.details then paths else paths.map PgPointsGraph.eliminateDetails)

/-- `do_shortestPath` -/
def doShortestPath (unset : Nat → Nat → ℚ) (r : Request) : Option Answer :=
  if r.combinations.isEmpty ∧ r.combinationsSql.isSome then
    some (.notice "No (source, target) pairs found")
  else
    let (edges, edgesOfPoints) := r.read
    if r.points.isSome ∧ edges.isEmpty ∧ edgesOfPoints.isEmpty then
      some (.notice "No edges found")
    else
      match estimateDrivingSide r.drivingSide r.which with
      | .error (message, log) => some (.error message log)
      | .ok side =>
        let pgGraph := PgPointsGraph.new (r.points.getD []) edgesOfPoints r.normal
          (side.getD .both) r.directed
        if pgGraph.error ≠ "" then some (.error pgGraph.error "")
        else
          let edges := edges ++ pgGraph.newEdges
          if edges.isEmpty then some (.notice "No edges found")
          else (findPaths boost unset r edges).map .paths

end ShortestPathDriver

end PgRouting
