import FlowDominance.Change
import FlowDominance.Graph.Basic
import FlowDominance.Table

/-!
# Adjacency lists

A graph that can grow.  It keeps, for every vertex, the list of its outgoing and the list of its
incoming edges; vertices stay in the order of their first mention, parallel edges and loops are
kept.
-/

namespace FlowDominance

structure Adjacency where
  outgoing : Table (List Edge)
  incoming : Table (List Edge)
  entry? : Option Value
  exit? : Option Value

namespace Adjacency

def empty : Adjacency := ⟨.empty, .empty, none, none⟩

def withVertex (g : Adjacency) (v : Value) : Adjacency :=
  if g.outgoing.contains v then g
  else { g with outgoing := g.outgoing.insert v [], incoming := g.incoming.insert v [] }

def withEdge (g : Adjacency) (e : Edge) : Adjacency :=
  { g with
    outgoing := g.outgoing.modify e.source (· ++ [e])
    incoming := g.incoming.modify e.target (· ++ [e]) }

/-! ## Changes -/

def addVertex (v : Value) : Change Adjacency Unit :=
  match v with
  | .null => throw .nullVertex
  | v => modify (·.withVertex v)

/-- The source is added before the target is looked at, and stays if the target is refused. -/
def addEdge (source target : Value) : Change Adjacency Edge := do
  addVertex source
  addVertex target
  modify (·.withEdge ⟨source, target⟩)
  return ⟨source, target⟩

def setEntry (v : Value) : Change Adjacency Unit := do
  addVertex v
  modify ({ · with entry? := some v })

def setExit (v : Value) : Change Adjacency Unit := do
  addVertex v
  modify ({ · with exit? := some v })

/-! ## Construction -/

def designated (entry exit : Option Value) : Change Adjacency Unit := do
  entry.forM setEntry
  exit.forM setExit

/-- The entry is mentioned first, then the listed vertices, then the edges, then the exit. -/
def fill (edges : List Value) (entry : Value) (exit : Option Value) (vertices : List Value) :
    Change Adjacency Unit := do
  addVertex entry
  vertices.forM addVertex
  edges.forM fun given => do
    let e ← Change.lift (Edge.ofValue given)
    discard <| addEdge e.source e.target
  setEntry entry
  exit.forM setExit

def build (c : Change Adjacency Unit) : Except Fault Adjacency :=
  match c.apply empty with
  | (.ok (), g) => .ok g
  | (.error fault, _) => .error fault

def ofEdges (edges : List Value) (entry : Value) (exit : Option Value) (vertices : List Value) :
    Except Fault Adjacency :=
  build (fill edges entry exit vertices)

/-! ## Reading -/

def row (rows : Table (List Edge)) (v : Value) : Except Fault (List Edge) :=
  match rows.get? v with
  | some es => .ok es
  | none => .error (.missingKey v)

def graph (g : Adjacency) : FlowGraph where
  vertices := g.outgoing.keys
  inEdges := row g.incoming
  outEdges := row g.outgoing
  entry := g.entry?.elim (.error .noEntry) .ok
  exit := g.exit?.elim (.error .noExit) .ok
  hasExit := g.exit?.isSome

def contains (g : Adjacency) (v : Value) : Bool := g.outgoing.contains v

def size (g : Adjacency) : Nat := g.outgoing.size

theorem contains_graph (g : Adjacency) (v : Value) : g.graph.contains v = g.contains v := rfl

theorem size_graph (g : Adjacency) : g.graph.size = g.size := List.length_map ..

def literal (g : Adjacency) : String :=
  "AdjacencyGraph(" ++ toString g.outgoing.size ++ " vertices, entry="
    ++ (Value.ofOption g.entry?).literal ++ ", exit=" ++ (Value.ofOption g.exit?).literal ++ ")"

end Adjacency

end FlowDominance
