import FlowDominance.Monitor.Basic

/-!
# Console scripts

Steps on a console, nested through scope blocks, and what is seen after each of them.  A step that
faults does not stop the steps behind it.
-/

namespace FlowDominance.Monitor

inductive Step where
  | enter (name : String)
  | leave
  | output (text : String)
  | verbose (value : Bool)
  | block (name : String) (steps : List Step) (raises : Bool)

inductive Sight where
  | mk (outcome : Except Fault Unit) (path : String) (atRoot : Bool) (inner : Option (List Sight))

def sight (m : Monitor) (outcome : Except Fault Unit) (inner : Option (List Sight)) : Sight :=
  .mk outcome m.console.pathText m.console.atRoot inner

/-- The outcome of a block: a fault in ending it, or else one raised in it. -/
def blockOutcome (name : String) (raises : Bool) : Except Fault Unit → Except Fault Unit
  | .error fault => .error fault
  | .ok () => if raises then .error (.raised name) else .ok ()

mutual

def perform : Step → Monitor → Sight × Monitor
  | .enter name, m =>
      let m := m.enter name
      (m.sight (.ok ()) none, m)
  | .leave, m =>
      let (outcome, m) := leave.apply m
      (m.sight outcome none, m)
  | .output text, m =>
      let m := m.output text
      (m.sight (.ok ()) none, m)
  | .verbose value, m =>
      let m := { m with console.verbose := value }
      (m.sight (.ok ()) none, m)
  | .block name steps raises, m =>
      let (inner, m) := performAll steps (m.enter name)
      let (ended, m) := leave.apply m
      (m.sight (blockOutcome name raises ended) (some inner), m)

def performAll : List Step → Monitor → List Sight × Monitor
  | [], m => ([], m)
  | step :: rest, m =>
      let (seen, m) := perform step m
      let (later, m) := performAll rest m
      (seen :: later, m)

end

end FlowDominance.Monitor
