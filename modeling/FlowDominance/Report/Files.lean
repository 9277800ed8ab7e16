import FlowDominance.Monitor.Journal
import FlowDominance.Report.Findings
import FlowDominance.Report.Place

/-!
# Report files

Findings written to files, in one form or in several, in a directory of their own.
-/

namespace FlowDominance.Report

inductive Format where
  | text
  | dot
  | json
  deriving DecidableEq, Repr

def Format.ofName? : Value → Option Format
  | .str "text" => some .text
  | .str "dot" => some .dot
  | .str "json" => some .json
  | _ => none

def formatNames : List Value := [.str "text", .str "dot", .str "json"]

/-- The outcome of writing a file, and the content it was left with if it was opened at all. -/
structure Written where
  outcome : Except Fault Unit
  content? : Option String

/-- A drawing is finished before its file is opened; the file of a snapshot is opened first. -/
def Findings.write (f : Findings) (format : Value) (title : String) : Written :=
  match Format.ofName? format with
  | none => ⟨.error (.unsupportedFormat format), none⟩
  | some .text => ⟨.ok (), some (f.document title)⟩
  | some .dot =>
      match f.drawing title with
      | .ok d => ⟨.ok (), some d.text⟩
      | .error fault => ⟨.error fault, none⟩
  | some .json =>
      match f.snapshot title with
      | .ok s => ⟨.ok (), some s.json.render⟩
      | .error fault => ⟨.error fault, some ""⟩

/-! ## Folders -/

structure File where
  place : Place
  content : String
  deriving DecidableEq, Repr

structure Shelf where
  folders : List Place
  files : List File
  journal : Journal

namespace Shelf

def empty : Shelf := ⟨[], [], ⟨.info, []⟩⟩

/-- The starting folder and those above it are always there. -/
def hasFolder (s : Shelf) (p : Place) : Bool := p.down.isEmpty || s.folders.contains p

def put (s : Shelf) (file : File) : Shelf :=
  if s.files.any (·.place = file.place) then
    { s with files := s.files.map fun f => if f.place = file.place then file else f }
  else { s with files := s.files ++ [file] }

def listing (s : Shelf) : List (String × String) :=
  ((s.files.filter (·.place.up = 0)).map fun f => (f.place.path, f.content))
    |>.mergeSort fun a b => !decide (b.1 < a.1)

def checkPath (path : String) : Change Shelf Unit := do
  if path.toList.contains '\x00' then throw .nullInPath

def makeFolders (path : String) : Change Shelf Unit := do
  checkPath path
  modify fun s => { s with folders := s.folders ++ placesAlong .start (parts path) }

def locate (path : String) : Change Shelf Place := do
  checkPath path
  let s ← get
  let way := parts path
  unless (placesAlong .start way.dropLast).all s.hasFolder do throw (.missingFolder path)
  return way.foldl Place.step .start

end Shelf

def Findings.shelve (f : Findings) (directory name : String) (format : Value) :
    Change Shelf String := do
  let path := joined directory (name ++ "_dominance." ++ format.display)
  let written := f.write format name
  match written.content? with
  | none =>
      Change.lift written.outcome
      return path
  | some content =>
      let place ← Shelf.locate path
      modify (·.put ⟨place, content⟩)
      Change.lift written.outcome
      modify fun s =>
        { s with journal := s.journal.log .reports .info ("dominance dumped to: " ++ path) }
      return place.path

/-- Write the listed formats, or all of them if none is listed, to a folder given by its parts. -/
def Findings.shelveAll (f : Findings) (directory : List String) (name : String)
    (formats : List Value) : Change Shelf (List String) := do
  let directory := directory.foldl joined ""
  Shelf.makeFolders directory
  (if formats.isEmpty then formatNames else formats).mapM (f.shelve directory name)

end FlowDominance.Report
