import FlowDominance.Dot.Digraph
import FlowDominance.Report.Summary
import FlowDominance.Text.Json

/-!
# Findings

A graph with its dominators and frontiers, ready to be reported in three forms.  The drawing and the
snapshot refer to vertices by their position, so vertices with equal labels stay apart.  Positions
are settled when the findings are put together, and stay if the graph grows.
-/

namespace FlowDominance.Report

structure Findings where
  graph : FlowGraph
  idoms : IdomMap
  frontiers : FrontierMap
  label : Label
  index : Index := .ofList graph.vertices

namespace Findings

/-! ## Text -/

def document (f : Findings) (title : String) : String :=
  let heading := if title.isEmpty then "Dominance" else "Dominance: " ++ title
  let rule (width : Nat) (c : Char) : String := String.ofList (List.replicate width c)
  let indented (lines : List String) : String :=
    String.join (lines.map fun line => "  " ++ line ++ "\n")
  heading ++ "\n" ++ rule 60 '=' ++ "\n\n"
    ++ "Immediate Dominators:\n" ++ rule 40 '-' ++ "\n"
    ++ indented (idomLines f.label f.idoms)
    ++ "\nDominance Frontiers:\n" ++ rule 40 '-' ++ "\n"
    ++ indented (frontierLines f.label f.frontiers)

/-! ## Snapshot -/

end Findings

/-- Findings with every vertex replaced by its position.  As the key of a table, a position is written
out in digits. -/
structure Snapshot where
  title : String
  vertices : List (Nat × String)
  entry : Nat
  idoms : Table (Option Nat)
  frontiers : Table (List Nat)

namespace Findings

def position? (index : Index) : Option Value → Except Fault (Option Nat)
  | none => .ok none
  | some v => (index.position v).map some

def positionKey (i : Nat) : Value := .str (toString i)

def snapshot (f : Findings) (title : String) : Except Fault Snapshot := do
  let index := f.index
  let vertices := index.vertices.zipIdx.map fun (v, i) => (i, f.label v)
  let entry ← index.position (← f.graph.entry)
  let idoms ← f.idoms.entries.mapM fun (v, d) => do
    return (positionKey (← index.position v), ← position? index d)
  let frontiers ← f.frontiers.entries.mapM fun (v, frontier) => do
    return (positionKey (← index.position v), ← frontier.mapM index.position)
  return { title, vertices, entry, idoms := .ofList idoms, frontiers := .ofList frontiers }

end Findings

namespace Snapshot

open Text (Json)

def vertexRecord (id : Nat) (label : String) : Json :=
  .record [("id", .number id), ("label", .text label)]

def tableRecord {α : Type} (data : α → Json) (t : Table α) : Json :=
  .record (t.entries.map fun (k, a) => (k.display, data a))

def json (s : Snapshot) : Json :=
  .record
    [("title", .text s.title),
     ("vertices", .list (s.vertices.map fun (id, label) => vertexRecord id label)),
     ("entry", .number s.entry),
     ("idoms", tableRecord (·.elim .null .number) s.idoms),
     ("frontiers", tableRecord (fun frontier => .list (frontier.map .number)) s.frontiers)]

end Snapshot

/-! ## Drawing -/

open Dot in
def graphStyle : List Attribute := [⟨"color", "black"⟩]

open Dot in
def treeStyle : List Attribute := [⟨"style", "dashed"⟩, ⟨"color", "blue"⟩]

open Dot in
def frontierStyle : List Attribute :=
  [⟨"style", "dotted"⟩, ⟨"color", "red"⟩, ⟨"constraint", "false"⟩]

def nodeName (i : Nat) : String := "n" ++ toString i

namespace Findings

open Dot (Digraph)

def drawNode (f : Findings) (v : Value) (i : Nat) : Change Digraph Unit := do
  let entry ← Change.lift f.graph.entry
  let shape := if v.same entry then "doublecircle" else "ellipse"
  Digraph.addNode ⟨nodeName i, [⟨"label", f.label v⟩, ⟨"shape", shape⟩]⟩

def drawArrow (index : Index) (source target : Value) (style : List Dot.Attribute) :
    Change Digraph Unit := do
  let source ← Change.lift (index.position source)
  let target ← Change.lift (index.position target)
  Digraph.addArrow ⟨nodeName source, nodeName target, style⟩

def draw (f : Findings) : Change Digraph Unit := do
  let index := f.index
  index.vertices.zipIdx.forM fun (v, i) => f.drawNode v i
  (← Change.lift f.graph.edges).forM fun e => drawArrow index e.source e.target graphStyle
  f.idoms.entries.forM fun (v, d) => d.forM fun d => drawArrow index d v treeStyle
  f.frontiers.entries.forM fun (v, frontier) =>
    frontier.forM fun w => drawArrow index v w frontierStyle

def drawing (f : Findings) (title : String) : Except Fault Digraph :=
  match f.draw.apply (.new (if title.isEmpty then "dominance" else title) []) with
  | (.ok (), d) => .ok d
  | (.error fault, _) => .error fault

end Findings

end FlowDominance.Report
