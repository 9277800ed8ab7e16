import FlowDominance.Fault

/-!
# Changes

A change works on a state and may fault; what it did to the state before the fault stays done.
-/

namespace FlowDominance

abbrev Change (σ α : Type) := ExceptT Fault (StateM σ) α

namespace Change

variable {σ τ α : Type}

def apply (c : Change σ α) (s : σ) : Except Fault α × σ := StateT.run (ExceptT.run c) s

def lift (r : Except Fault α) : Change σ α := ExceptT.mk (pure r)

def within (get : τ → σ) (set : τ → σ → τ) (c : Change σ α) : Change τ α :=
  ExceptT.mk fun t =>
    let (outcome, s) := c.apply (get t)
    (outcome, set t s)

end Change

end FlowDominance
