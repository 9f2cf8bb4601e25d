import PgRouting.Lib.Loop
import PgRouting.Lib.PriorityQueue
import PgRouting.Lib.DoubleOrder
import PgRouting.Lib.OrderedSet
import PgRouting.Lib.SearchTree
import PgRouting.Lib.Nearest
import PgRouting.Lib.Picking
import PgRouting.Lib.Bins
import PgRouting.Lib.Walk
import PgRouting.Lib.Reduced
import PgRouting.Lib.LabelSetting
import PgRouting.Lib.LabelCorrecting
import PgRouting.Lib.Deviations
import PgRouting.Lib.ParentTree
import PgRouting.Lib.Components
import PgRouting.Lib.SpanningTree
import PgRouting.Lib.SpanningForest
import PgRouting.Lib.Multigraph
import PgRouting.Lib.Flow
import PgRouting.Lib.Routes
import PgRouting.Native.Identifiers
import PgRouting.Native.BaseGraph
import PgRouting.Native.Path
import PgRouting.Native.PathOps
import PgRouting.Native.Dijkstra
import PgRouting.Native.Bidirectional
import PgRouting.Native.BdDijkstra
import PgRouting.Native.BdAstar
import PgRouting.Native.QueueSearch
import PgRouting.Native.DijkstraVia
import PgRouting.Native.DijkstraNear
import PgRouting.Native.DrivingDistance
import PgRouting.Native.Yen
import PgRouting.Native.TurnRestrictedPath
import PgRouting.Native.TrspHandler
import PgRouting.Native.TrspVia
import PgRouting.Native.Contraction
import PgRouting.Native.ContractionHierarchies
import PgRouting.Native.LineGraphFull
import PgRouting.Native.Components
import PgRouting.Native.Prim
import PgRouting.Native.Mst
import PgRouting.Native.Tsp
import PgRouting.Native.WithPoints
import PgRouting.Native.ShortestPath
import PgRouting.Native.MaxFlow
import PgRouting.Native.Vehicle
import PgRouting.Native.PickDeliver
import PgRouting.Native.Optimize
import PgRouting.Native.InitialSolution
import PgRouting.Spec.BaseGraph
import PgRouting.Spec.Undirected
import PgRouting.Spec.RestoreGraph
import PgRouting.Spec.Disconnected
import PgRouting.Spec.PathTotal
import PgRouting.Spec.PathOrder
import PgRouting.Spec.Dijkstra
import PgRouting.Spec.GraphRows
import PgRouting.Spec.JoinedPaths
import PgRouting.Spec.HalfSearch
import PgRouting.Spec.Bidirectional
import PgRouting.Spec.BdDijkstra
import PgRouting.Spec.MeetingPath
import PgRouting.Spec.BdAstar
import PgRouting.Spec.QueueSearch
import PgRouting.Spec.DijkstraNear
import PgRouting.Spec.SearchVisits
import PgRouting.Spec.Route
import PgRouting.Spec.RouteParts
import PgRouting.Spec.DijkstraVia
import PgRouting.Spec.NearestPairs
import PgRouting.Spec.NearestPaths
import PgRouting.Spec.DrivingDistance
import PgRouting.Spec.CheapestEdges
import PgRouting.Spec.YenSpurs
import PgRouting.Spec.YenSearch
import PgRouting.Spec.Yen
import PgRouting.Spec.TurnRestrictedPath
import PgRouting.Spec.TrspGraph
import PgRouting.Spec.TrspQuery
import PgRouting.Spec.TrspRestriction
import PgRouting.Spec.TrspSearch
import PgRouting.Spec.TrspOptimal
import PgRouting.Spec.TrspQueries
import PgRouting.Spec.TrspDijkstra
import PgRouting.Spec.TrspFinds
import PgRouting.Spec.TrspPaths
import PgRouting.Spec.TrspVia
import PgRouting.Spec.RestrictedLegs
import PgRouting.Spec.ContractionGraph
import PgRouting.Spec.Contraction
import PgRouting.Spec.ContractionRun
import PgRouting.Spec.ContractionFixpoint
import PgRouting.Spec.ContractedVertices
import PgRouting.Spec.ContractionOrder
import PgRouting.Spec.ContractionHierarchies
import PgRouting.Spec.LineGraphFull
import PgRouting.Spec.Bridges
import PgRouting.Spec.TableBridges
import PgRouting.Spec.PrimGraph
import PgRouting.Spec.Prim
import PgRouting.Spec.TreeRows
import PgRouting.Spec.SpanningTrees
import PgRouting.Spec.TspGraph
import PgRouting.Spec.TspCosts
import PgRouting.Spec.TspDummy
import PgRouting.Spec.TspRows
import PgRouting.Spec.TspEnds
import PgRouting.Spec.TspTrees
import PgRouting.Spec.PointOrder
import PgRouting.Spec.SplitEdges
import PgRouting.Spec.SplitArcs
import PgRouting.Spec.SpoiledSplits
import PgRouting.Spec.SplitNetwork
import PgRouting.Spec.PointNetwork
import PgRouting.Spec.PointVertices
import PgRouting.Spec.PointTables
import PgRouting.Spec.RequestPairs
import PgRouting.Spec.EliminateDetails
import PgRouting.Spec.ShortestPath
import PgRouting.Spec.SameAnswers
import PgRouting.Spec.RefusedRequests
import PgRouting.Spec.FlowGraph
import PgRouting.Spec.UnitFlow
import PgRouting.Spec.DisjointPaths
import PgRouting.Spec.EdgeDisjoint
import PgRouting.Spec.EdgeDisjointRows
import PgRouting.Spec.FlowRows
import PgRouting.Spec.MaxFlow
import PgRouting.Spec.Vehicle
import PgRouting.Spec.VehicleRun
import PgRouting.Spec.PickDeliver
import PgRouting.Spec.PickDeliverProblem
import PgRouting.Spec.Insertion
import PgRouting.Spec.BestPlace
import PgRouting.Spec.Optimize
import PgRouting.Spec.Solutions
import PgRouting.Spec.FillTruck
import PgRouting.Spec.InitialSolution
import PgRouting.Spec.OneDepot
import PgRouting.Spec.Solve
