import FlowDominance.Change
import FlowDominance.Monitor.Console

/-!
# Monitors

A monitor watches over a run: the console in use, the journal and the clock.  A phase is a scope
around a part of the run; it is ended however that part ends, and a fault in ending it takes the
place of the outcome.
-/

namespace FlowDominance

structure Clock where
  reading : Nat → Float
  taken : Nat

def Clock.steady : Clock := ⟨fun k => k.toFloat * 0.25, 0⟩

def Clock.ofReadings (readings : List Float) : Clock :=
  ⟨fun k => (readings[min k (readings.length - 1)]?).getD 0.0, 0⟩

structure Monitor where
  console : Console
  journal : Journal
  clock : Clock

namespace Monitor

def new (console : Console) (threshold : Severity) (clock : Clock) : Monitor :=
  ⟨console, ⟨threshold, []⟩, clock⟩

def now (m : Monitor) : Float := m.clock.reading m.clock.taken

def tick (m : Monitor) : Monitor := { m with clock.taken := m.clock.taken + 1 }

def log (m : Monitor) (channel : Channel) (severity : Severity) (message : String) : Monitor :=
  { m with journal := m.journal.log channel severity message }

def logAll (m : Monitor) (channel : Channel) (severity : Severity) (messages : List String) :
    Monitor :=
  { m with journal := m.journal.logAll channel severity messages }

def output (m : Monitor) (text : String) : Monitor :=
  m.log m.console.channel m.console.severity text

def push (m : Monitor) (scope : Scope) : Monitor :=
  { m with console.scopes := scope :: m.console.scopes }

def pop (m : Monitor) (elapsed : Float) : Monitor :=
  { m with
    console.scopes := m.console.scopes.tail
    console.history := m.console.history ++ [⟨m.console.path, elapsed⟩] }

def enter (name : String) (m : Monitor) : Monitor :=
  let m := m.tick.push ⟨name, m.now⟩
  m.output ("begin " ++ m.console.pathText)

/-- End the innermost scope.  The clock is read even if there is none. -/
def leave : Change Monitor Unit :=
  ExceptT.mk fun m =>
    match m.console.scopes with
    | [] => (.error .endAtRoot, m.tick)
    | scope :: _ =>
        let elapsed := m.now - scope.started
        let text := "end   " ++ m.console.pathText ++ " " ++ Duration.textOfReal elapsed
        (.ok (), (m.tick.output text).pop elapsed)

end Monitor

class Monitored (σ : Type) where
  monitor : σ → Monitor
  withMonitor : σ → Monitor → σ

instance : Monitored Monitor := ⟨id, fun _ m => m⟩

namespace Monitored

variable {σ α : Type} [Monitored σ]

def watch (c : Change Monitor α) : Change σ α := c.within monitor withMonitor

def note (channel : Channel) (severity : Severity) (messages : List String) : Change σ Unit :=
  watch (modify (·.logAll channel severity messages))

def phase (name : String) (body : Change σ α) : Change σ α :=
  ExceptT.mk fun s =>
    let (outcome, s) := body.apply (withMonitor s ((monitor s).enter name))
    let (ended, s) := (watch Monitor.leave : Change σ Unit).apply s
    match ended with
    | .ok () => (outcome, s)
    | .error fault => (.error fault, s)

end Monitored

end FlowDominance
