/-!
# Journals

A journal takes records from several channels and keeps those that reach its threshold.
-/

namespace FlowDominance

inductive Severity where
  | debug
  | info
  | warning
  deriving DecidableEq, Repr

def Severity.rank : Severity → Nat
  | .debug => 10
  | .info => 20
  | .warning => 30

inductive Channel where
  | dominators
  | frontiers
  | console
  | reports
  | other (name : String)
  deriving DecidableEq, Repr

structure Record where
  channel : Channel
  severity : Severity
  message : String
  deriving DecidableEq, Repr

structure Journal where
  threshold : Severity
  records : List Record
  deriving DecidableEq, Repr

namespace Journal

def log (j : Journal) (channel : Channel) (severity : Severity) (message : String) : Journal :=
  if j.threshold.rank ≤ severity.rank then
    { j with records := j.records ++ [⟨channel, severity, message⟩] }
  else j

def logAll (j : Journal) (channel : Channel) (severity : Severity) (messages : List String) :
    Journal :=
  messages.foldl (fun j message => j.log channel severity message) j

end Journal

end FlowDominance
