import FlowDominance.Frontier

/-!
# Summaries

One line per vertex on its dominator or its frontier, with vertices written by a label function.
-/

namespace FlowDominance.Report

abbrev Label := Value → String

def nodeSet (label : Label) (nodes : List Value) : String :=
  "\x7b" ++ String.join (nodes.map fun v => label v ++ ";") ++ "\x7d"

def idomLine (label : Label) (v : Value) : Option Value → String
  | some d => label d ++ " is the immediate dominator of " ++ label v
  | none => label v ++ " is not dominated by anyone!"

def idomLines (label : Label) (idoms : IdomMap) : List String :=
  idoms.entries.map fun (v, d) => idomLine label v d

def frontierLines (label : Label) (frontiers : FrontierMap) : List String :=
  frontiers.entries.map fun (v, frontier) => label v ++ "=" ++ nodeSet label frontier

end FlowDominance.Report
