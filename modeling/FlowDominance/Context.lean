import FlowDominance.Config
import FlowDominance.Monitor.Basic

/-!
# Contexts

A context is a choice of options together with a console.  An analysis may be given a context, or
only the options, in one of several forms, and then gets a console of its own.
-/

namespace FlowDominance

structure Context where
  config : Config
  console : Console

def Context.ofConfig (config : Config) : Context := ⟨config, .new config.verbose .console⟩

inductive Setting where
  | standard
  | config (c : Config)
  | options (table : Table Value)
  | context (c : Context)

namespace Setting

def resolve : Setting → Except Fault Context
  | .standard => .ok (.ofConfig .default)
  | .config c => .ok (.ofConfig c)
  | .options table => (Config.ofOptions table).map Context.ofConfig
  | .context c => .ok c

def isContext : Setting → Bool
  | .context _ => true
  | _ => false

def isConfig : Setting → Bool
  | .config _ => true
  | _ => false

def openUp (setting : Setting) : Change Monitor Config := do
  let context ← Change.lift setting.resolve
  modify ({ · with console := context.console })
  return context.config

end Setting

end FlowDominance
