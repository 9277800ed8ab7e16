import FlowDominance.Analysis.Query
import FlowDominance.Graph.Store

/-!
# Workspaces

A workspace keeps graphs under handles.  A handle leads to a store, possibly through reversals;
several handles may lead to one store, and what one of them changes the others see.  Every reversal
that is put up gets a stamp of its own, so two handles are bound to the very same graph exactly
when they lead to the same store through reversals with the same stamps.
-/

namespace FlowDominance

structure Handle where
  store : Nat
  /-- Stamps of the reversals, the outermost first. -/
  stamps : List Nat
  deriving DecidableEq, Repr

structure Workspace where
  stores : List Store
  handles : List (String × Handle)
  answers : List (String × Answer)
  nextStamp : Nat

namespace Workspace

def empty : Workspace := ⟨[], [], [], 0⟩

/-! ## Names -/

def unbound {α : Type} (name : String) (entries : List (String × α)) : List (String × α) :=
  entries.filter (·.1 ≠ name)

def bound {α : Type} (name : String) (a : α) (entries : List (String × α)) : List (String × α) :=
  (name, a) :: unbound name entries

def lookup {α : Type} (name : String) (entries : List (String × α)) : Except Fault α :=
  match entries.find? (·.1 = name) with
  | some entry => .ok entry.2
  | none => .error (.missingKey (.str name))

def store (w : Workspace) (h : Handle) : Except Fault Store :=
  match w.stores[h.store]? with
  | some store => .ok store
  | none => .error .indexOutOfRange

def view (w : Workspace) (h : Handle) : Except Fault View := do
  return ⟨(← w.store h).graph, h.stamps.length⟩

def aliases (w : Workspace) (name : String) (h : Handle) : List String :=
  ((unbound name w.handles).filter (·.2 = h)).map Prod.fst
    |>.mergeSort fun a b => !decide (b < a)

/-! ## Changes -/

def freshStamp : Change Workspace Nat := do
  let stamp := (← get).nextStamp
  modify ({ · with nextStamp := stamp + 1 })
  return stamp

def bind (name : String) (h : Handle) : Change Workspace Unit :=
  modify fun w => { w with handles := bound name h w.handles }

/-- Bind a new graph.  An older graph of that name is let go even if the new one cannot be made. -/
def create (name : String) (made : Except Fault (Store × Nat)) : Change Workspace Unit := do
  modify fun w => { w with handles := unbound name w.handles }
  let (store, reversals) ← Change.lift made
  let stamps ← (List.range reversals).mapM fun _ => freshStamp
  let source := (← get).stores.length
  modify fun w => { w with stores := w.stores ++ [store] }
  bind name ⟨source, stamps⟩

def grow (h : Handle) (growth : Growth) : Change Workspace (Option Edge) := do
  let store ← Change.lift ((← get).store h)
  let (outcome, store) := (Store.growBehind h.stamps.length growth).apply store
  modify fun w => { w with stores := w.stores.set h.store store }
  Change.lift outcome

/-- Take the outermost reversal away, or put the first one up. -/
def reversed (h : Handle) : Change Workspace Handle := do
  match h.stamps with
  | [] => return { h with stamps := [← freshStamp] }
  | _ :: inner => return { h with stamps := inner }

def wrapped (h : Handle) : Change Workspace Handle := do
  return { h with stamps := (← freshStamp) :: h.stamps }

/-! ## Commands -/

inductive Request where
  | idoms (entry : Value)
  | frontiers (entry : Option Value)
  | frontiersFrom (kept : Option String) (known : Option IdomMap) (entry : Option Value)
  | postIdoms
  | postFrontiers

inductive Question where
  | vertices
  | edges
  | size
  | entry
  | exit
  | hasExit
  | contains (v : Value)
  | inEdges (v : Value)
  | outEdges (v : Value)
  | predecessors (v : Value)
  | successors (v : Value)

inductive Command where
  | create (made : Except Fault (Store × Nat))
  | grow (growth : Growth)
  | reverse (newName : String)
  | wrap (newName : String)
  | literal
  | read (question : Question)
  | ask (request : Request) (setting : Except Fault Setting) (keep : Option String)

inductive Reply where
  | done
  | edge (e : Edge)
  | aliases (names : List String)
  | values (vs : List Value)
  | edges (es : List Edge)
  | number (n : Nat)
  | value (v : Value)
  | flag (b : Bool)
  | text (s : String)
  | answer (a : Answer)

def kept? (w : Workspace) (name : Option String) : Option Answer :=
  name.bind fun name => (lookup name w.answers).toOption

def Request.query (w : Workspace) : Request → Query
  | .idoms entry => .idoms entry
  | .frontiers entry => .frontiers entry
  | .frontiersFrom kept known entry =>
      match w.kept? kept with
      | some (.idoms map) => .frontiersFrom (some map) entry
      | some (.frontiers map) => .frontiersAlong map entry
      | none => .frontiersFrom known entry
  | .postIdoms => .postIdoms
  | .postFrontiers => .postFrontiers

def ask (v : View) (request : Request) (setting : Except Fault Setting) (keep : Option String) :
    Change Workspace Reply := do
  let setting ← Change.lift setting
  let query := request.query (← get)
  let answer ← Change.lift (query.answer v setting)
  keep.forM fun name => modify fun w => { w with answers := bound name answer w.answers }
  return .answer answer

def Question.reply (g : FlowGraph) : Question → Except Fault Reply
  | .vertices => .ok (.values g.vertices)
  | .edges => g.edges.map .edges
  | .size => .ok (.number g.size)
  | .entry => g.entry.map .value
  | .exit => g.exit.map .value
  | .hasExit => .ok (.flag g.hasExit)
  | .contains v => .ok (.flag (g.contains v))
  | .inEdges v => (g.inEdges v).map .edges
  | .outEdges v => (g.outEdges v).map .edges
  | .predecessors v => (g.predecessors v).map .values
  | .successors v => (g.successors v).map .values

def handle (name : String) : Change Workspace Handle := do
  Change.lift (lookup name (← get).handles)

def perform (name : String) : Command → Change Workspace Reply
  | .create made => do
      create name made
      return .done
  | .grow growth => do
      return (← grow (← handle name) growth).elim .done .edge
  | .reverse newName => do
      let h ← reversed (← handle name)
      bind newName h
      return .aliases ((← get).aliases newName h)
  | .wrap newName => do
      bind newName (← wrapped (← handle name))
      return .done
  | .literal => do
      let h ← handle name
      let store ← Change.lift ((← get).store h)
      return .text (← Change.lift (store.reversedLiteral h.stamps.length))
  | .ask request setting keep => do
      let h ← handle name
      ask (← Change.lift ((← get).view h)) request setting keep
  | .read question => do
      let h ← handle name
      let v ← Change.lift ((← get).view h)
      Change.lift (question.reply v.graph)

/-- The outcomes of a list of commands; a command that faults does not stop those behind it. -/
def performAll : List (String × Command) → Workspace → List (Except Fault Reply)
  | [], _ => []
  | (name, command) :: rest, w =>
      let (outcome, w) := (perform name command).apply w
      outcome :: performAll rest w

end Workspace

end FlowDominance
