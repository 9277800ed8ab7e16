import FlowDominance.Dominator.Forest
import FlowDominance.SpanningTree

/-!
# Dominators by semidominators

Vertices are numbered by their first visit.  One sweep from the last visit down to the second finds
the semidominator of each vertex, links the vertex below its tree parent and resolves the vertices
that wait in the bucket of that parent; what a vertex cannot know yet it takes over in a last round.
-/

namespace FlowDominance.Dominator.LengauerTarjan

structure Sweep where
  forest : Forest
  bucket : Array (List Nat)
  idom : Array (Option Nat)
  samedom : Array (Option Nat)
  deriving DecidableEq, Repr

def Sweep.initial (count : Nat) : Sweep :=
  ⟨.initial count, Array.replicate count [], Array.replicate count none, Array.replicate count none⟩

/-! ## Reading the graph in visit numbers -/

def predecessors (n : Numbered) (tree : SpanningTree) (w : Nat) : Except Fault (List Nat) := do
  let row ← n.predecessors (← Slots.read tree.preorder w)
  let visits ← row.mapM fun link => do Slots.read tree.dfnum (← link)
  return visits.filterMap id

def parentOf (tree : SpanningTree) (w : Nat) : Except Fault Nat := do
  let v ← Slots.read tree.preorder w
  Slots.readFilled tree.dfnum (← Slots.readFilled tree.parent v)

/-! ## The sweep -/

def offer (w : Nat) : Nat × Forest → Nat → Except Fault (Nat × Forest)
  | (s, forest), v =>
      if v ≤ w then .ok (min s v, forest)
      else do
        let (candidate, forest) ← forest.evalSemi v
        return (min s candidate, forest)

def semidominator (forest : Forest) (w p : Nat) (preds : List Nat) :
    Except Fault (Nat × Forest) :=
  preds.foldlM (offer w) (p, forest)

/-- Settle `v`, which waited for its semidominator `p`, or put it off. -/
def resolve (p : Nat) (s : Sweep) (v : Nat) : Except Fault Sweep := do
  let (y, forest) ← s.forest.eval v
  if (← Slots.read forest.semi y) = (← Slots.read forest.semi v) then
    return { s with forest, idom := ← Slots.write s.idom v (some p) }
  else
    return { s with forest, samedom := ← Slots.write s.samedom v (some y) }

def step (n : Numbered) (tree : SpanningTree) (s : Sweep) (w : Nat) : Except Fault Sweep := do
  let p ← parentOf tree w
  let (semi, forest) ← semidominator s.forest w p (← predecessors n tree w)
  let forest ← forest.setSemi w semi
  let bucket ← Slots.write s.bucket semi ((← Slots.read s.bucket semi) ++ [w])
  let forest ← forest.link p w
  let waiting ← Slots.read bucket p
  let s ← waiting.foldlM (resolve p) { s with forest, bucket }
  return { s with bucket := ← Slots.write s.bucket p [] }

def sweep (n : Numbered) (tree : SpanningTree) : Nat → Sweep → Except Fault Sweep
  | 0, s => .ok s
  | w + 1, s => do sweep n tree w (← step n tree s (w + 1))

/-! ## Last round and result -/

/-- A vertex that was put off has the dominator of the vertex that it was put off for. -/
def takeOver (s : Sweep) (w : Nat) : Except Fault Sweep := do
  match ← Slots.read s.samedom w with
  | none => .ok s
  | some y => return { s with idom := ← Slots.write s.idom w (← Slots.read s.idom y) }

def compute (n : Numbered) (tree : SpanningTree) : Except Fault Sweep := do
  let count := tree.preorder.size
  let s ← sweep n tree (count - 1) (.initial count)
  (List.range' 1 (count - 1)).foldlM takeOver s

def named (count : Nat) (tree : SpanningTree) (s : Sweep) : Except Fault (Array (Option Nat)) :=
  (List.range' 1 (tree.preorder.size - 1)).foldlM
    (fun idom w => do
      let d ← Slots.readFilled s.idom w
      Slots.write idom (← Slots.read tree.preorder w) (some (← Slots.read tree.preorder d)))
    (Array.replicate count none)

def idoms (n : Numbered) (tree : SpanningTree) : Except Fault (Array (Option Nat)) := do
  named n.count tree (← compute n tree)

end FlowDominance.Dominator.LengauerTarjan
