/-!
# Places

A path is a text of parts between slashes.  Taken from a starting folder it leads to a place: some
levels up, then down by names.  Empty parts and single dots stay where they are, double dots go one
level up.
-/

namespace FlowDominance.Report

structure Place where
  up : Nat
  down : List String
  deriving DecidableEq, Repr

namespace Place

def start : Place := ⟨0, []⟩

def parent (p : Place) : Place :=
  if p.down.isEmpty then ⟨p.up + 1, []⟩ else ⟨p.up, p.down.dropLast⟩

def step (p : Place) (part : String) : Place :=
  if part = "" || part = "." then p
  else if part = ".." then p.parent
  else ⟨p.up, p.down ++ [part]⟩

def path (p : Place) : String := "/".intercalate (List.replicate p.up ".." ++ p.down)

end Place

/-! ## Paths -/

def parts (path : String) : List String := path.splitOn "/"

/-- The path with one more part behind it; a slash is set between them unless one is there. -/
def joined (path part : String) : String :=
  if path.isEmpty || path.endsWith "/" then path ++ part else path ++ "/" ++ part

def placesAlong (p : Place) : List String → List Place
  | [] => []
  | part :: rest => p.step part :: placesAlong (p.step part) rest

end FlowDominance.Report
