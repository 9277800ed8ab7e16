import FlowDominance.Fault
import FlowDominance.Table

/-!
# Signatures

A signature lists parameters that have their values already.  More values may be handed over by
name: every name has to be a text, and none may be that of a parameter.
-/

namespace FlowDominance

structure Signature where
  title : String
  parameters : List String
  deriving DecidableEq, Repr

namespace Signature

variable {α : Type}

def textName (entry : Value × α) : Except Fault (String × α) :=
  match entry.1 with
  | .str name => .ok (name, entry.2)
  | _ => .error .nameNotText

/-- The values by name.  All names are looked at before any of them is compared with a parameter. -/
def accept (s : Signature) (given : Table α) : Except Fault (List (String × α)) := do
  let named ← given.entries.mapM textName
  match named.find? (fun entry => s.parameters.contains entry.1) with
  | some entry => throw (.nameTaken s.title entry.1)
  | none => return named

end Signature

end FlowDominance
