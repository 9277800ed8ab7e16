import FlowDominance.Graph.Basic

/-!
# Edge lists

A graph given by a list of vertices, repeats included, and a list of edges.  The edges may mention
values that are no listed vertex, and a value that no edge mentions has no edges.
-/

namespace FlowDominance

structure EdgeList where
  vertices : List Value
  edges : List Edge
  entry? : Option Value
  exit? : Option Value

namespace EdgeList

def ofValues (edges : List Value) (entry exit : Option Value) (vertices : List Value) :
    Except Fault EdgeList := do
  return ⟨vertices, ← edges.mapM Edge.ofValue, entry, exit⟩

def graph (g : EdgeList) : FlowGraph where
  vertices := g.vertices
  inEdges v := .ok (g.edges.filter (v.same ·.target))
  outEdges v := .ok (g.edges.filter (v.same ·.source))
  entry := g.entry?.elim (.error .noEntry) .ok
  exit := g.exit?.elim (.error .noExit) .ok
  hasExit := g.exit?.isSome

end EdgeList

end FlowDominance
