import FlowDominance.Dominator.Meet
import FlowDominance.SpanningTree

/-!
# Dominators by iteration

Reachable vertices are numbered in reverse postorder.  Every vertex keeps one candidate, and passes
over the vertices replace it by the point where the chains of all its predecessors meet, until a
pass changes nothing.
-/

namespace FlowDominance.Dominator.Iterative

/-- Candidates by reverse postorder number; the first vertex is its own. -/
abbrev Candidates := Array (Option Nat)

/-! ## Predecessors in reverse postorder numbers -/

def ranks (count : Nat) (order : Array Nat) : Array (Option Nat) :=
  (Array.range count).map order.idxOf?

/-- Predecessors out of reach and the vertex itself do not constrain it. -/
def predecessorRanks (n : Numbered) (rank : Array (Option Nat)) (i v : Nat) :
    Except Fault (List Nat) := do
  let ranked ← (← n.predecessors v).mapM fun link => do Slots.read rank (← link)
  return (ranked.filterMap id).filter (· ≠ i)

def predecessorRows (n : Numbered) (order : Array Nat) : Except Fault (Array (List Nat)) := do
  let rank := ranks n.count order
  let rows ← order.toList.zipIdx.mapM fun (v, i) => predecessorRanks n rank i v
  return rows.toArray

/-! ## Passes -/

def up (doms : Candidates) (i : Nat) : Except Fault Nat := do
  match ← Slots.read doms i with
  | some d => .ok d
  | none => .error .unsetDominator

def meet (doms : Candidates) (a b : Nat) : Except Fault Nat := climb (up doms) (a + b) a b

def start (doms : Candidates) (preds : List Nat) (i : Nat) : Except Fault Nat := do
  match ← Slots.read doms i with
  | some d => .ok d
  | none =>
      match preds.min? with
      | none => .error .noPredecessor
      | some p => if p < i then .ok p else .error .lateDominator

def refine (doms : Candidates) (candidate p : Nat) : Except Fault Nat := do
  match ← Slots.read doms p with
  | some _ => meet doms candidate p
  | none => .ok candidate

def relax (preds : Array (List Nat)) (doms : Candidates) (i : Nat) : Except Fault Candidates := do
  let row ← Slots.read preds i
  let candidate ← row.foldlM (refine doms) (← start doms row i)
  Slots.write doms i (some candidate)

def pass (preds : Array (List Nat)) (doms : Candidates) : Except Fault Candidates :=
  (List.range' 1 (doms.size - 1)).foldlM (relax preds) doms

/-- A vertex without candidate weighs more than any candidate. -/
def weight (doms : Candidates) : Nat :=
  doms.toList.foldr (fun d sum => d.getD doms.size + sum) 0

/-- Repeat passes until one changes nothing.  Candidates only ever get smaller. -/
def settle (preds : Array (List Nat)) (doms : Candidates) : Except Fault Candidates :=
  match pass preds doms with
  | .error fault => .error fault
  | .ok doms' =>
      if doms' = doms then .ok doms
      else if weight doms' < weight doms then settle preds doms'
      else .error .endless
termination_by weight doms

def initial (count : Nat) : Candidates := (Array.replicate count none).setIfInBounds 0 (some 0)

/-! ## Result -/

def named (count : Nat) (order : Array Nat) (doms : Candidates) :
    Except Fault (Array (Option Nat)) :=
  (List.range' 1 (doms.size - 1)).foldlM
    (fun idom i => do
      Slots.write idom (← Slots.read order i) (some (← Slots.read order (← up doms i))))
    (Array.replicate count none)

def idoms (n : Numbered) (tree : SpanningTree) : Except Fault (Array (Option Nat)) := do
  let order := tree.reversePostorder
  let preds ← predecessorRows n order
  let doms ← settle preds (initial order.size)
  named n.count order doms

end FlowDominance.Dominator.Iterative
