import FlowDominance.Analysis.Builder
import FlowDominance.Context
import FlowDominance.Graph.View

/-!
# Analyses

The questions that can be asked of a graph: dominators, frontiers, and the same of the reversed
graph from its exit.  Each says in which order its arguments are looked at, so that of two faults
the right one is reported.
-/

namespace FlowDominance

namespace Analysis

open Monitored

def entryOr (g : FlowGraph) : Option Value → Except Fault Value
  | some entry => .ok entry
  | none => g.entry

def idoms (v : View) (entry : Value) (setting : Setting) : Change Monitor IdomMap := do
  let config ← setting.openUp
  Workbench.employ v.graph entry config (Workbench.buildIdoms v.graph)

def frontiers (v : View) (entry : Option Value) (setting : Setting) :
    Change Monitor FrontierMap := do
  let entry ← Change.lift (entryOr v.graph entry)
  let config ← setting.openUp
  note .frontiers .debug ["Dominance Frontiers"]
  phase "dominance" do
    Workbench.employ v.graph entry config (Workbench.construct v.graph)

def frontiersFrom (v : View) (idoms : Option IdomMap) (entry : Option Value) (setting : Setting) :
    Change Monitor FrontierMap := do
  let entry ← Change.lift (entryOr v.graph entry)
  let config ← setting.openUp
  Workbench.employ v.graph entry config do
    modify ({ · with builder.idoms? := idoms })
    Workbench.buildFrontiers v.graph

def frontiersAlong (v : View) (groups : FrontierMap) (entry : Option Value) (setting : Setting) :
    Change Monitor FrontierMap := do
  let entry ← Change.lift (entryOr v.graph entry)
  let config ← setting.openUp
  Workbench.employ v.graph entry config (Workbench.buildFrontiersAlong v.graph groups)

/-- Nothing is post-dominated in a graph without exit. -/
def postIdoms (v : View) (setting : Setting) : Change Monitor IdomMap := do
  if v.graph.hasExit then
    let entry ← Change.lift v.reverse.graph.entry
    idoms v.reverse entry setting
  else
    note .frontiers .debug ["graph has no exit, skipping post-dominator tree"]
    return .empty

def postFrontiers (v : View) (setting : Setting) : Change Monitor FrontierMap := do
  if v.graph.hasExit then
    let g := v.reverse.graph
    let config ← setting.openUp
    note .frontiers .debug ["Post-Dominance Frontiers"]
    phase "post-dominance" do
      let entry ← Change.lift g.entry
      Workbench.employ g entry config (Workbench.construct g)
  else
    note .frontiers .debug ["graph has no exit, skipping post-dominance frontiers"]
    return .empty

end Analysis

/-! ## Queries -/

inductive Query where
  | idoms (entry : Value)
  | frontiers (entry : Option Value)
  | frontiersFrom (known : Option IdomMap) (entry : Option Value)
  | frontiersAlong (groups : FrontierMap) (entry : Option Value)
  | postIdoms
  | postFrontiers

inductive Answer where
  | idoms (map : IdomMap)
  | frontiers (map : FrontierMap)

def Query.run (v : View) (setting : Setting) : Query → Change Monitor Answer
  | .idoms entry => .idoms <$> Analysis.idoms v entry setting
  | .frontiers entry => .frontiers <$> Analysis.frontiers v entry setting
  | .frontiersFrom known entry => .frontiers <$> Analysis.frontiersFrom v known entry setting
  | .frontiersAlong groups entry => .frontiers <$> Analysis.frontiersAlong v groups entry setting
  | .postIdoms => .idoms <$> Analysis.postIdoms v setting
  | .postFrontiers => .frontiers <$> Analysis.postFrontiers v setting

def Query.answer (v : View) (setting : Setting) (q : Query) : Except Fault Answer :=
  ((q.run v setting).apply (.new (.new false .console) .warning .steady)).1

end FlowDominance
