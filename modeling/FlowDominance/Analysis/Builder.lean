import FlowDominance.Config
import FlowDominance.Frontier.Groups
import FlowDominance.Monitor.Basic
import FlowDominance.Report.Summary

/-!
# Frontier builders

A builder holds what one analysis has found so far.  Its index is made once, when it is set up; the
graph is handed to every step anew and may have grown in between.
-/

namespace FlowDominance

structure Builder where
  entry : Value
  index : Index
  config : Config
  idoms? : Option IdomMap
  frontiers? : Option FrontierMap

def Builder.new (g : FlowGraph) (entry : Value) (config : Config) : Except Fault Builder :=
  if g.contains entry then .ok ⟨entry, .ofList g.vertices, config, none, none⟩
  else .error (.invalidEntry entry)

structure Workbench where
  builder : Builder
  monitor : Monitor

instance : Monitored Workbench := ⟨Workbench.monitor, fun w monitor => { w with monitor }⟩

namespace Workbench

open Monitored

def buildIdoms (g : FlowGraph) : Change Workbench IdomMap :=
  phase "dominator tree" do
    let b := (← get).builder
    let idoms ← Change.lift (findIdoms g b.entry b.config.algorithm b.index)
    note .dominators .debug (Report.idomLines Value.display idoms)
    modify ({ · with builder.idoms? := some idoms })
    return idoms

def currentIdoms (g : FlowGraph) : Change Workbench IdomMap := do
  match (← get).builder.idoms? with
  | some idoms => return idoms
  | none => buildIdoms g

def walk (frontiersFor : Builder → Except Fault FrontierMap) : Change Workbench FrontierMap := do
  let frontiers ← phase "dominance frontier" do
    let frontiers ← Change.lift (frontiersFor (← get).builder)
    modify ({ · with builder.frontiers? := some frontiers })
    return frontiers
  note .frontiers .debug (Report.frontierLines Value.display frontiers)
  return frontiers

def buildFrontiers (g : FlowGraph) : Change Workbench FrontierMap := do
  let idoms ← currentIdoms g
  walk fun b => walkFrontiers g b.entry idoms b.config.pruneEmpty

/-- Frontiers from a frontier map that stands in for the dominators. -/
def buildFrontiersAlong (g : FlowGraph) (groups : FrontierMap) : Change Workbench FrontierMap :=
  walk fun b => walkFrontiersAlong g groups b.config.pruneEmpty

def construct (g : FlowGraph) : Change Workbench FrontierMap := do
  discard <| buildIdoms g
  buildFrontiers g

def employ {α : Type} (g : FlowGraph) (entry : Value) (config : Config)
    (work : Change Workbench α) : Change Monitor α :=
  ExceptT.mk fun monitor =>
    match Builder.new g entry config with
    | .error fault => (.error fault, monitor)
    | .ok builder =>
        let (outcome, w) := work.apply ⟨builder, monitor⟩
        (outcome, w.monitor)

end Workbench

end FlowDominance
