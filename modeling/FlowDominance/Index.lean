import FlowDominance.Graph.Basic
import FlowDominance.Slots

/-!
# Dense numbering

An index numbers distinct vertices 0, 1, 2, … in the order of their first mention.  Seen through an
index, a graph becomes rows of numbers; a neighbour that the index does not know is a fault of its
own place in the row, met only when the row is read up to it.
-/

namespace FlowDominance

structure Index where
  vertices : List Value
  distinct : Distinct vertices

namespace Index

def ofList (vs : List Value) : Index := ⟨Value.firsts vs, distinct_firsts vs⟩

def count (index : Index) : Nat := index.vertices.length

def contains (index : Index) (v : Value) : Bool := v.occursIn index.vertices

def position (index : Index) (v : Value) : Except Fault Nat :=
  match index.vertices.findIdx? v.same with
  | some i => .ok i
  | none => .error (.missingKey v)

def vertex (index : Index) (i : Nat) : Except Fault Value :=
  match index.vertices[i]? with
  | some v => .ok v
  | none => .error .indexOutOfRange

def vertexAt (index : Index) : Value → Except Fault Value
  | .int i => do index.vertex (← Slots.place index.count i)
  | .bool b => do index.vertex (← Slots.place index.count (if b then 1 else 0))
  | v => .error (.notPosition v)

end Index

abbrev Link := Except Fault Nat

structure Numbered where
  count : Nat
  successors : Nat → Except Fault (List Link)
  predecessors : Nat → Except Fault (List Link)

def FlowGraph.numbered (g : FlowGraph) (index : Index) : Numbered where
  count := index.count
  successors i := do
    return (← g.successors (← index.vertex i)).map index.position
  predecessors i := do
    return (← g.predecessors (← index.vertex i)).map index.position

end FlowDominance
