import FlowDominance.Fault

/-!
# Numbered slots

Reading and writing the slots of an array, where a number without a slot is a fault.  A position may
also count from the end, if it is negative.
-/

namespace FlowDominance.Slots

variable {α : Type}

def read (xs : Array α) (i : Nat) : Except Fault α :=
  match xs[i]? with
  | some a => .ok a
  | none => .error .indexOutOfRange

def write (xs : Array α) (i : Nat) (a : α) : Except Fault (Array α) :=
  if h : i < xs.size then .ok (xs.set i a h) else .error .indexOutOfRange

def readFilled (xs : Array (Option α)) (i : Nat) : Except Fault α := do
  match ← read xs i with
  | some a => .ok a
  | none => .error .indexOutOfRange

/-- The slot at a position among `size` slots.  Beyond 64 bits a position has a fault of its own. -/
def place (size : Nat) (i : Int) : Except Fault Nat :=
  if 0 ≤ i ∧ i < size then .ok i.toNat
  else if i < 0 ∧ 0 ≤ i + size then .ok (i + size).toNat
  else if -(Nat.pow 2 63 : Int) ≤ i ∧ i < Nat.pow 2 63 then .error .indexOutOfRange
  else .error .positionTooWide

end FlowDominance.Slots
