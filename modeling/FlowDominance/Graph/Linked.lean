import FlowDominance.Change
import FlowDominance.Graph.Basic

/-!
# Linked graphs

Nodes and links may be kept by a library of its own, which is known here by its calls only.  A linked
graph is a store of such a library with an entry and possibly an exit chosen among its nodes.
-/

namespace FlowDominance

structure LinkKind where
  directed : Bool
  parallel : Bool
  deriving DecidableEq, Repr

/-- The calls of a library that keeps nodes and links in stores of the type `σ`. -/
structure LinkLibrary (σ : Type) where
  empty : LinkKind → σ
  addNode : Value → Change σ Unit
  addLinks : List Value → Change σ Unit
  isDirected : σ → Bool
  contains : σ → Value → Bool
  count : σ → Nat
  nodes : σ → List Value
  inLinks : σ → Value → Except Fault (List (Value × Value))
  outLinks : σ → Value → Except Fault (List (Value × Value))

structure LinkedGraph (σ : Type) where
  store : σ
  entry : Value
  exit? : Option Value

namespace LinkedGraph

variable {σ : Type} (library : LinkLibrary σ)

def designate (store : σ) (entry : Value) (exit : Option Value) :
    Except Fault (LinkedGraph σ) :=
  if !library.isDirected store then .error .undirected
  else if !library.contains store entry then .error (.entryOutside entry)
  else
    match exit with
    | none => .ok ⟨store, entry, none⟩
    | some x =>
        if library.contains store x then .ok ⟨store, entry, some x⟩ else .error (.exitOutside x)

def build (kind : LinkKind) (c : Change σ Unit) (entry : Value) (exit : Option Value) :
    Except Fault (LinkedGraph σ) :=
  match c.apply (library.empty kind) with
  | (.ok (), store) => designate library store entry exit
  | (.error fault, _) => .error fault

def ofEdges (edges : List Value) (entry : Value) (exit : Option Value) (parallel : Bool) :
    Except Fault (LinkedGraph σ) :=
  let c : Change σ Unit := do
    library.addNode entry
    library.addLinks edges
    exit.forM library.addNode
  build library ⟨true, parallel⟩ c entry exit

/-- The listed nodes are mentioned first, then the edges; entry and exit have to be among them. -/
def ofParts (kind : LinkKind) (nodes edges : List Value) (entry : Value) (exit : Option Value) :
    Except Fault (LinkedGraph σ) :=
  let c : Change σ Unit := do
    nodes.forM library.addNode
    library.addLinks edges
  build library kind c entry exit

def contains (g : LinkedGraph σ) (v : Value) : Bool := library.contains g.store v

def size (g : LinkedGraph σ) : Nat := library.count g.store

def graph (g : LinkedGraph σ) : FlowGraph where
  vertices := library.nodes g.store
  inEdges v := (library.inLinks g.store v).map (List.map fun link => ⟨link.1, link.2⟩)
  outEdges v := (library.outLinks g.store v).map (List.map fun link => ⟨link.1, link.2⟩)
  entry := .ok g.entry
  exit := g.exit?.elim (.error .noExit) .ok
  hasExit := g.exit?.isSome

end LinkedGraph

end FlowDominance
