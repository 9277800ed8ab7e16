import FlowDominance.Fault

/-!
# Flow graphs

What an analysis may ask of a graph: its vertices in a stable order, the edges into and out of a
vertex, its entry and its exit.  The reversed graph answers the same questions with every edge
turned round and entry and exit swapped.
-/

namespace FlowDominance

structure Edge where
  source : Value
  target : Value
  deriving DecidableEq, Repr

namespace Edge

def reversed (e : Edge) : Edge := ⟨e.target, e.source⟩

@[simp] theorem reversed_reversed (e : Edge) : e.reversed.reversed = e := rfl

def same (e f : Edge) : Bool := e.source.same f.source && e.target.same f.target

def literal (e : Edge) : String :=
  "Edge(source=" ++ e.source.literal ++ ", target=" ++ e.target.literal ++ ")"

/-- An edge is given by a value of two parts; the parts of a text are its characters. -/
def ofValue : Value → Except Fault Edge
  | .tuple [source, target] => .ok ⟨source, target⟩
  | .tuple [] => .error (.tooFewParts 0)
  | .tuple [_] => .error (.tooFewParts 1)
  | .tuple _ => .error .tooManyParts
  | .str s =>
      match s.toList with
      | [source, target] => .ok ⟨.str source.toString, .str target.toString⟩
      | [] => .error (.tooFewParts 0)
      | [_] => .error (.tooFewParts 1)
      | _ => .error .tooManyParts
  | v => .error (.noParts v)

end Edge

structure FlowGraph where
  vertices : List Value
  inEdges : Value → Except Fault (List Edge)
  outEdges : Value → Except Fault (List Edge)
  entry : Except Fault Value
  exit : Except Fault Value
  hasExit : Bool

namespace FlowGraph

def contains (g : FlowGraph) (v : Value) : Bool := v.occursIn g.vertices

def size (g : FlowGraph) : Nat := g.vertices.length

def predecessors (g : FlowGraph) (v : Value) : Except Fault (List Value) :=
  (g.inEdges v).map (List.map Edge.source)

def successors (g : FlowGraph) (v : Value) : Except Fault (List Value) :=
  (g.outEdges v).map (List.map Edge.target)

def edges (g : FlowGraph) : Except Fault (List Edge) :=
  (g.vertices.mapM g.outEdges).map List.flatten

/-- The graph with every edge turned round.  Its exit is the entry of `g`, so it always claims to
have one; its entry is the exit of `g`. -/
def reversed (g : FlowGraph) : FlowGraph where
  vertices := g.vertices
  inEdges v := (g.outEdges v).map (List.map Edge.reversed)
  outEdges v := (g.inEdges v).map (List.map Edge.reversed)
  entry := if g.hasExit then g.exit else .error .noReversedEntry
  exit := g.entry
  hasExit := true

theorem contains_reversed (g : FlowGraph) (v : Value) : g.reversed.contains v = g.contains v := rfl

theorem size_reversed (g : FlowGraph) : g.reversed.size = g.size := rfl

end FlowGraph

end FlowDominance
