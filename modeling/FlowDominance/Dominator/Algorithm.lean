import FlowDominance.Dominator.Iterative
import FlowDominance.Dominator.LengauerTarjan
import FlowDominance.Table

/-!
# Immediate dominators

Both algorithms work on the numbers of an index and on a spanning tree from the entry.  The answer
names, for every indexed vertex, its immediate dominator, or nothing for the entry and for what the
entry does not reach.
-/

namespace FlowDominance

abbrev IdomMap := Table (Option Value)

inductive Algorithm where
  | lengauerTarjan
  | iterative
  deriving DecidableEq, Repr

namespace Algorithm

def name : Algorithm → String
  | .lengauerTarjan => "lengauer-tarjan"
  | .iterative => "iterative"

def ofName? : Value → Option Algorithm
  | .str "lengauer-tarjan" => some .lengauerTarjan
  | .str "iterative" => some .iterative
  | _ => none

@[simp] theorem ofName?_name (a : Algorithm) : ofName? (.str a.name) = some a := by
  cases a <;> rfl

def idoms : Algorithm → Numbered → SpanningTree → Except Fault (Array (Option Nat))
  | .lengauerTarjan => Dominator.LengauerTarjan.idoms
  | .iterative => Dominator.Iterative.idoms

end Algorithm

/-- The dominator in slot `i`, by name.  Null as a dominator reads as none. -/
def Index.dominator (index : Index) (idom : Array (Option Nat)) (i : Nat) :
    Except Fault (Option Value) := do
  match ← Slots.read idom i with
  | none => return none
  | some d => return (← index.vertex d).present?

def Index.idomMap (index : Index) (idom : Array (Option Nat)) : Except Fault IdomMap := do
  return .ofList (← index.vertices.zipIdx.mapM fun (v, i) => do
    return (v, ← index.dominator idom i))

def findIdoms (g : FlowGraph) (entry : Value) (algorithm : Algorithm) (index : Index) :
    Except Fault IdomMap := do
  let tree ← g.spanningTree index entry
  index.idomMap (← algorithm.idoms (g.numbered index) tree)

/-- As `findIdoms`, with the algorithm given by name; a wrong name is found out after the search. -/
def findIdomsNamed (g : FlowGraph) (entry name : Value) (index : Index) : Except Fault IdomMap := do
  match Algorithm.ofName? name with
  | some algorithm => findIdoms g entry algorithm index
  | none =>
      discard <| g.spanningTree index entry
      throw (.unknownAlgorithm name)

end FlowDominance
