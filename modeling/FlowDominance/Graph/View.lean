import FlowDominance.Graph.Basic

/-!
# Views

A view is a graph seen through a number of reversals.  Reversing a view takes the outermost one away
if there is one; wrapping always adds one.
-/

namespace FlowDominance

structure View where
  base : FlowGraph
  reversals : Nat

namespace View

def of (g : FlowGraph) : View := ⟨g, 0⟩

def wrap (v : View) : View := { v with reversals := v.reversals + 1 }

def reverse (v : View) : View :=
  match v.reversals with
  | 0 => v.wrap
  | m + 1 => { v with reversals := m }

def through (g : FlowGraph) : Nat → FlowGraph
  | 0 => g
  | m + 1 => (through g m).reversed

def graph (v : View) : FlowGraph := through v.base v.reversals

end View

end FlowDominance
