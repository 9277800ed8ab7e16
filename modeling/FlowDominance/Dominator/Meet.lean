import FlowDominance.Slots

/-!
# Meeting points

Two fingers climb towards the root of a tree in which parents have smaller numbers: the finger with
the larger number steps until both rest on one node.
-/

namespace FlowDominance.Dominator

variable {α : Type} [DecidableEq α] [LT α] [DecidableLT α]

def climb (up : α → Except Fault α) : Nat → α → α → Except Fault α
  | 0, a, b => if a = b then .ok a else .error .endless
  | fuel + 1, a, b =>
      if a = b then .ok a
      else if b < a then do climb up fuel (← up a) b
      else do climb up fuel a (← up b)

def signedRead (doms : Array Int) (i : Int) : Except Fault Int := do
  Slots.read doms (← Slots.place doms.size i)

/-- The node where the chains of `a` and `b` meet.  The fingers rest on entries of `doms` or where
they started, so a run that visits more pairs than there are never ends. -/
def intersect (doms : Array Int) (a b : Int) : Except Fault Int :=
  climb (signedRead doms) ((doms.size + 1) * (doms.size + 1)) a b

end FlowDominance.Dominator
