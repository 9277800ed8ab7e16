import FlowDominance.Duration
import FlowDominance.Monitor.Journal

/-!
# Consoles

A console has a stack of open scopes and a history of the scopes that ended, each with its path from
the outermost scope and the time it took.
-/

namespace FlowDominance

structure Scope where
  name : String
  started : Float

structure Ended where
  path : List String
  elapsed : Float

structure Console where
  verbose : Bool
  channel : Channel
  /-- Open scopes, the innermost first. -/
  scopes : List Scope
  history : List Ended

namespace Console

def new (verbose : Bool) (channel : Channel) : Console := ⟨verbose, channel, [], []⟩

def path (c : Console) : List String := (c.scopes.map Scope.name).reverse

def pathText (c : Console) : String := "[ " ++ " | ".intercalate c.path ++ " ]"

def atRoot (c : Console) : Bool := c.scopes.isEmpty

def severity (c : Console) : Severity := if c.verbose then .info else .debug

end Console

def Ended.text (e : Ended) : String := Duration.textOfReal e.elapsed

end FlowDominance
