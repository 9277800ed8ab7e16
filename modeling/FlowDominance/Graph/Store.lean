import FlowDominance.Graph.Adjacency
import FlowDominance.Graph.EdgeList
import FlowDominance.Graph.Neighbours
import FlowDominance.Graph.View

/-!
# Stores

The three ways in which a graph is kept, and what changes each of them allows.
-/

namespace FlowDominance

/-- What may be asked of a graph that grows.  A link is an edge between the nodes of a neighbour
store. -/
inductive Growth where
  | vertex (v : Value)
  | entry (v : Value)
  | exit (v : Value)
  | edge (source target : Value)
  | link (source target : Value)
  deriving DecidableEq, Repr

def Growth.operation : Growth → String
  | .vertex _ => "add_vertex"
  | .entry _ => "set_entry"
  | .exit _ => "set_exit"
  | .edge _ _ => "add_edge"
  | .link _ _ => "nxgraph"

inductive Store where
  | adjacency (g : Adjacency)
  | neighbours (g : LinkedGraph Neighbours)
  | edgeList (g : EdgeList)

namespace Store

def graph : Store → FlowGraph
  | .adjacency g => g.graph
  | .neighbours g => g.graph Neighbours.library
  | .edgeList g => g.graph

def form : Store → String
  | .adjacency _ => "AdjacencyGraph"
  | .neighbours _ => "NetworkXGraph"
  | .edgeList _ => "EdgeListGraph"

def growAdjacency (g : Adjacency) (c : Change Adjacency (Option Edge)) :
    Except Fault (Option Edge) × Store :=
  let (outcome, g) := c.apply g
  (outcome, .adjacency g)

def growNeighbours (g : LinkedGraph Neighbours) (c : Change Neighbours Unit) :
    Except Fault (Option Edge) × Store :=
  let (outcome, store) := c.apply g.store
  (outcome.map fun () => none, .neighbours { g with store })

def grow (growth : Growth) : Change Store (Option Edge) :=
  ExceptT.mk fun store =>
    match store, growth with
    | .adjacency g, .vertex v => growAdjacency g (do Adjacency.addVertex v; return none)
    | .adjacency g, .entry v => growAdjacency g (do Adjacency.setEntry v; return none)
    | .adjacency g, .exit v => growAdjacency g (do Adjacency.setExit v; return none)
    | .adjacency g, .edge source target =>
        growAdjacency g (some <$> Adjacency.addEdge source target)
    | .neighbours g, .link source target => growNeighbours g (Neighbours.addLink source target)
    | store, growth => (.error (.notOffered store.form growth.operation), store)

/-- A store that is seen through reversals does not grow. -/
def growBehind (reversals : Nat) (growth : Growth) : Change Store (Option Edge) :=
  match reversals with
  | 0 => grow growth
  | _ + 1 => throw (.notOffered "ReversedGraph" growth.operation)

def literal : Store → Except Fault String
  | .adjacency g => .ok g.literal
  | store => .error (.notOffered store.form "__repr__")

def reversedLiteral (store : Store) : Nat → Except Fault String
  | 0 => store.literal
  | m + 1 => do return "ReversedGraph(" ++ (← reversedLiteral store m) ++ ")"

end Store

end FlowDominance
