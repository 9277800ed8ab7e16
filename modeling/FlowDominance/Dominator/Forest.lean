import FlowDominance.Slots

/-!
# Linked forests with path compression

Nodes are linked one by one below nodes with smaller numbers.  A query for a linked node gives,
among the node and its ancestors short of the root, one with the least `semi`; it also shortens the
paths that it went along, remembering in `best` what the skipped part held.
-/

namespace FlowDominance.Dominator

structure Forest where
  semi : Array Nat
  ancestor : Array (Option Nat)
  best : Array Nat
  deriving DecidableEq, Repr

namespace Forest

def initial (count : Nat) : Forest :=
  ⟨Array.range count, Array.replicate count none, Array.range count⟩

def setSemi (f : Forest) (w s : Nat) : Except Fault Forest := do
  return { f with semi := ← Slots.write f.semi w s }

def link (f : Forest) (p w : Nat) : Except Fault Forest := do
  return { f with
    ancestor := ← Slots.write f.ancestor w (some p)
    best := ← Slots.write f.best w w }

def shorten (f : Forest) (x : Nat) : Except Fault Forest := do
  let a ← Slots.readFilled f.ancestor x
  let above ← Slots.read f.best a
  let own ← Slots.read f.best x
  let best ←
    if (← Slots.read f.semi above) < (← Slots.read f.semi own) then Slots.write f.best x above
    else pure f.best
  let ancestor ← Slots.write f.ancestor x (← Slots.read f.ancestor a)
  return { f with best, ancestor }

/-- Shorten the path of `u`, from the top down, until everything on it hangs below the root. -/
def compress (f : Forest) (u : Nat) : Except Fault Forest :=
  match Slots.readFilled f.ancestor u with
  | .error fault => .error fault
  | .ok a =>
      match Slots.read f.ancestor a with
      | .error fault => .error fault
      | .ok none => .ok f
      | .ok (some _) =>
          if a < u then do (← f.compress a).shorten u else .error .indexOutOfRange
termination_by u

def eval (f : Forest) (v : Nat) : Except Fault (Nat × Forest) := do
  let f ← f.compress v
  return (← Slots.read f.best v, f)

def evalSemi (f : Forest) (v : Nat) : Except Fault (Nat × Forest) := do
  let (y, f) ← f.eval v
  return (← Slots.read f.semi y, f)

end Forest

end FlowDominance.Dominator
