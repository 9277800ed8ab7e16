import FlowDominance.Fault
import FlowDominance.Number.Significant

/-!
# Durations

A duration in seconds is written in the unit that suits its size.
-/

namespace FlowDominance

inductive Duration where
  | whole (seconds : Int)
  | real (seconds : Float)

namespace Duration

/-- Four significant digits in five columns, positionally from 0.0001 on. -/
def format : Number.GeneralFormat := ⟨4, 5, -4⟩

def textOfReal (t : Float) : String :=
  if t < 1.0 then Number.general format (t * 1000.0) ++ " ms"
  else if t < 60.0 then Number.general format t ++ " s"
  else if t < 3600.0 then Number.general format (t / 60.0) ++ " m"
  else Number.general format (t / 3600.0) ++ " h"

def text : Duration → Except Fault String
  | .real t => .ok (textOfReal t)
  | .whole n =>
      match Number.Double.nearest? (n < 0) n.natAbs 1 with
      | some t => .ok (textOfReal t)
      | none => .error .overflow

end Duration

end FlowDominance
