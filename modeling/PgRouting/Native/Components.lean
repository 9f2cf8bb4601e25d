import PgRouting.Native.BaseGraph
import PgRouting.Native.Identifiers

/-!
# Bridges

`algorithms::bridges`. It looks at the edges between articulation points and
vertices of degree one, takes each of them that has no parallel out of the graph,
counts the components and puts an edge without properties back.
-/

namespace PgRouting

namespace AdjacencyList

variable {V E : Type} (g : AdjacencyList V E)

/-- `boost::remove_edge(e, g)` for the edge that `edge u v` finds. -/
def removeFound (u v : Nat) : AdjacencyList V E := { g with edges := g.edges.eraseP (g.joins u v) }

end AdjacencyList

namespace Algorithms

/-- The graph and the sets that `bridges` changes. -/
structure Bridges where
  graph : AdjacencyList BasicVertex BasicEdge
  bridgeEdges : Identifiers Int
  processedEdges : Identifiers Int

variable (unset : BasicEdge)
variable (connectedComponents : AdjacencyList BasicVertex BasicEdge → Nat)
variable (articulationPoints : AdjacencyList BasicVertex BasicEdge → List Nat)

/-- The body of the two loops of `bridges`. -/
def bridgesStep (iniComps : Nat) (st : Bridges) (u v : Nat) : Bridges :=
  if u < v then st
  else
    match st.graph.edge u v with
    | none => st
    | some edge =>
      let id := edge.bundle.id
      if st.processedEdges.has id then st
      else
        let st : Bridges := { st with processedEdges := st.processedEdges.add id }
        let parallelCount := ((st.graph.outEdges u).filter fun e => e.target = v).length
        if parallelCount = 1 then
          let removed := st.graph.removeFound u v
          let nowComps := connectedComponents removed
          -- The edge that is put back has none of the properties of the one removed.
          let st : Bridges := { st with graph := removed.addEdge edge.source edge.target unset }
          if nowComps > iniComps then { st with bridgeEdges := st.bridgeEdges.add id } else st
        else st

/-- The vertices between which `bridges` looks for edges. -/
def candidates (g : AdjacencyList BasicVertex BasicEdge) : List Nat :=
  articulationPoints g ++ (List.range g.numVertices).filter fun v => (g.outEdges v).length = 1

/-- `bridges` -/
def bridges (g : PgrBaseGraph BasicVertex BasicEdge) : Identifiers Int :=
  let iniComps := connectedComponents g.graph
  let artPoints := candidates articulationPoints g.graph
  (artPoints.foldl (fun st u =>
    artPoints.foldl (fun st v => bridgesStep unset connectedComponents iniComps st u v) st)
    { graph := g.graph, bridgeEdges := .empty, processedEdges := .empty }).bridgeEdges

end Algorithms

end PgRouting
