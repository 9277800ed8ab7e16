import FlowDominance.Graph.Linked

/-!
# Neighbour stores

A library of nodes and links that groups the links of a node by neighbour.  A store without parallel
links shows each neighbour once; a store with them shows it as often as it was linked.  Either way
the neighbours of a node come in the order of their first link with it, each in the spelling of that
link, while the node itself is spelled as it was asked for.
-/

namespace FlowDominance

structure Neighbours where
  kind : LinkKind
  nodes : List Value
  links : List Edge
  deriving Repr

namespace Neighbours

def empty (kind : LinkKind) : Neighbours := ⟨kind, [], []⟩

def addNode (v : Value) : Change Neighbours Unit :=
  match v with
  | .null => throw .nullNode
  | v => modify fun s => if v.occursIn s.nodes then s else { s with nodes := s.nodes ++ [v] }

def addLink (source target : Value) : Change Neighbours Unit := do
  addNode source
  addNode target
  modify fun s => { s with links := s.links ++ [⟨source, target⟩] }

def addLinks (edges : List Value) : Change Neighbours Unit :=
  edges.forM fun given => do
    let e ← Change.lift (Edge.ofValue given)
    addLink e.source e.target

/-! ## Grouping -/

def arranged (s : Neighbours) (vs : List Value) : List Value :=
  if s.kind.parallel then Value.grouped vs else Value.firsts vs

def successorsOf (s : Neighbours) (v : Value) : List Value :=
  s.arranged ((s.links.filter (v.same ·.source)).map Edge.target)

def predecessorsOf (s : Neighbours) (v : Value) : List Value :=
  s.arranged ((s.links.filter (v.same ·.target)).map Edge.source)

def read {α : Type} (s : Neighbours) (v : Value) (row : α) : Except Fault α :=
  if v.occursIn s.nodes then .ok row else .error (.missingKey v)

def library : LinkLibrary Neighbours where
  empty := empty
  addNode := addNode
  addLinks := addLinks
  isDirected s := s.kind.directed
  contains s v := v.occursIn s.nodes
  count s := s.nodes.length
  nodes := nodes
  inLinks s v := s.read v ((s.predecessorsOf v).map fun u => (u, v))
  outLinks s v := s.read v ((s.successorsOf v).map fun w => (v, w))

end Neighbours

end FlowDominance
