import FlowDominance.Analysis.Query
import FlowDominance.Graph.Store

/-!
# Builders at work

Steps on one builder and on the graph it was set up for.  A step that faults keeps what it had done.
-/

namespace FlowDominance

structure Bench where
  store : Store
  reversals : Nat
  work : Workbench

namespace Bench

inductive Step where
  | buildIdoms
  | buildFrontiers
  | construct
  | setIdoms (idoms : Option IdomMap)
  | setOption (name value : Value)
  | addEdge (source target : Value)

def graph (b : Bench) : FlowGraph := View.through b.store.graph b.reversals

def new (store : Store) (reversals : Nat) (entry : Value) (context : Context) (clock : Clock) :
    Except Fault Bench := do
  let builder ← Builder.new (View.through store.graph reversals) entry context.config
  return ⟨store, reversals, builder, .new context.console .warning clock⟩

def employ {α : Type} (work : FlowGraph → Change Workbench α) : Change Bench α := do
  let g := (← get).graph
  Change.within Bench.work (fun b work => { b with work }) (work g)

def setOption (name value : Value) : Change Bench Unit := do
  let config ← Change.lift ((← get).work.builder.config.setOption name value)
  modify ({ · with work.builder.config := config })

def addEdge (source target : Value) : Change Bench Unit := do
  let reversals := (← get).reversals
  Change.within Bench.store (fun b store => { b with store })
    (discard <| Store.growBehind reversals (.edge source target))

def perform : Step → Change Bench (Option Answer)
  | .buildIdoms => do return some (.idoms (← employ Workbench.buildIdoms))
  | .buildFrontiers => do return some (.frontiers (← employ Workbench.buildFrontiers))
  | .construct => do return some (.frontiers (← employ Workbench.construct))
  | .setIdoms idoms => do
      modify ({ · with work.builder.idoms? := idoms })
      return none
  | .setOption name value => do
      setOption name value
      return none
  | .addEdge source target => do
      addEdge source target
      return none

def performAll : List Step → Bench → List (Except Fault (Option Answer) × Bench)
  | [], _ => []
  | step :: rest, b =>
      let (outcome, b) := (perform step).apply b
      (outcome, b) :: performAll rest b

def phases (b : Bench) : List (List String) := b.work.monitor.console.history.map Ended.path

end Bench

end FlowDominance
