import FlowDominance.Change
import FlowDominance.Dot.Field
import FlowDominance.Signature

/-!
# Drawings

A drawing is a list of nodes and a list of arrows between them, all with attributes.  Node names are
unique, and an arrow joins nodes that were there before it.
-/

namespace FlowDominance.Dot

structure Attribute where
  name : String
  value : String
  deriving DecidableEq, Repr

/-- Attributes are handed over by name; their values are taken in their display form. -/
def attributes (signature : Signature) (given : Table Value) : Except Fault (List Attribute) := do
  return (← signature.accept given).map fun (name, value) => ⟨name, value.display⟩

def style (given : Table Value) : Except Fault (List Attribute) := do
  (← Signature.accept ⟨"Style", []⟩ given).mapM fun
    | (name, .str value) => .ok ⟨name, value⟩
    | _ => .error .notText

def attributeChars (a : Attribute) : List Char := a.name.toList ++ '=' :: field a.value

def bracketedChars : List Attribute → List Char
  | [] => []
  | attrs => ' ' :: '[' :: (List.intercalate [',', ' '] (attrs.map attributeChars) ++ [']'])

structure Node where
  name : String
  attrs : List Attribute
  deriving DecidableEq, Repr

structure Arrow where
  source : String
  target : String
  attrs : List Attribute
  deriving DecidableEq, Repr

def Node.signature : Signature := ⟨"Node.__init__", ["self", "name"]⟩

def Arrow.signature : Signature := ⟨"Edge.__init__", ["self", "source", "target"]⟩

def Node.make (name : Value) (given : Table Value) : Except Fault Node := do
  let attrs ← attributes Node.signature given
  match name with
  | .str s => return ⟨s, attrs⟩
  | _ => throw .notText

def Arrow.make (source target : String) (given : Table Value) : Except Fault Arrow := do
  return ⟨source, target, ← attributes Arrow.signature given⟩

def Node.chars (indent : List Char) (n : Node) : List Char :=
  indent ++ field n.name ++ bracketedChars n.attrs ++ [';', '\n']

def Arrow.chars (indent : List Char) (a : Arrow) : List Char :=
  indent ++ field a.source ++ " -> ".toList ++ field a.target ++ bracketedChars a.attrs
    ++ [';', '\n']

structure Digraph where
  name : String
  attrs : List Attribute
  nodes : List Node
  arrows : List Arrow
  deriving DecidableEq, Repr

namespace Digraph

def new (name : String) (attrs : List Attribute) : Digraph := ⟨name, attrs, [], []⟩

/-- A drawing that is given no name may find it among its attributes. -/
def make (name : Option String) (given : Table Value) : Except Fault Digraph := do
  match name with
  | some name => return new name (← attributes ⟨"Digraph.__init__", ["self", "name"]⟩ given)
  | none =>
      let attrs ← attributes ⟨"Digraph.__init__", ["self"]⟩ given
      let named := attrs.find? (·.name = "name")
      return new (named.elim "G" Attribute.value) (attrs.filter (·.name ≠ "name"))

def hasNode (d : Digraph) (name : String) : Bool := d.nodes.any (·.name = name)

def addNode (node : Node) : Change Digraph Unit := do
  if (← get).hasNode node.name then throw (.duplicateNode node.name)
  modify fun d => { d with nodes := d.nodes ++ [node] }

def requireNode (name : String) : Change Digraph Unit := do
  unless (← get).hasNode name do throw (.unknownNode name)

def addArrow (arrow : Arrow) : Change Digraph Unit := do
  requireNode arrow.source
  requireNode arrow.target
  modify fun d => { d with arrows := d.arrows ++ [arrow] }

def drawNode (name : String) (given : Table Value) : Change Digraph Unit := do
  let attrs ← Change.lift (attributes ⟨"Digraph.node", ["self", "name"]⟩ given)
  addNode ⟨name, attrs⟩

/-- The names of the attributes are looked at twice: before the nodes, and as those of an arrow
behind them. -/
def drawArrow (source target : String) (given : Table Value) : Change Digraph Unit := do
  discard <| Change.lift (attributes ⟨"Digraph.edge", ["self", "n1", "n2"]⟩ given)
  requireNode source
  requireNode target
  addArrow (← Change.lift (Arrow.make source target given))

def settingChars (a : Attribute) : List Char :=
  '\t' :: (a.name.toList ++ " = ".toList ++ field a.value ++ ['\n'])

def chars (d : Digraph) : List Char :=
  "digraph ".toList ++ field d.name ++ " \x7b\n".toList
    ++ d.attrs.flatMap settingChars
    ++ d.nodes.flatMap (Node.chars ['\t'])
    ++ d.arrows.flatMap (Arrow.chars ['\t'])
    ++ "\x7d\n".toList

def text (d : Digraph) : String := String.ofList d.chars

end Digraph

end FlowDominance.Dot
