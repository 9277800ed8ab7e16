import FlowDominance.Dominator.Algorithm
import FlowDominance.Signature

/-!
# Options of an analysis

Options are set by name; a name or value that does not fit is refused and changes nothing.
-/

namespace FlowDominance

structure Config where
  algorithm : Algorithm
  pruneEmpty : Bool
  verbose : Bool
  deriving DecidableEq, Repr

namespace Config

def default : Config := ⟨.lengauerTarjan, false, false⟩

def setOption (c : Config) (name value : Value) : Except Fault Config :=
  match name with
  | .str "algorithm" =>
      match Algorithm.ofName? value with
      | some algorithm => .ok { c with algorithm }
      | none => .error (.badAlgorithm value)
  | .str "prune_empty" =>
      match value with
      | .bool pruneEmpty => .ok { c with pruneEmpty }
      | _ => .error (.notBoolean name value)
  | .str "verbose" =>
      match value with
      | .bool verbose => .ok { c with verbose }
      | _ => .error (.notBoolean name value)
  | _ => .error (.unknownOption name)

def getOption (c : Config) (name : Value) : Except Fault Value :=
  match name with
  | .str "algorithm" => .ok (.str c.algorithm.name)
  | .str "prune_empty" => .ok (.bool c.pruneEmpty)
  | .str "verbose" => .ok (.bool c.verbose)
  | _ => .error (.unknownOption name)

def signature : Signature := ⟨"DominanceConfig.__init__", ["self"]⟩

/-- Options are set in the order of the table; the first that does not fit ends it. -/
def ofOptions (options : Table Value) : Except Fault Config := do
  (← signature.accept options).foldlM (fun c option => c.setOption (.str option.1) option.2) default

def options (c : Config) : List (String × Value) :=
  [("algorithm", .str c.algorithm.name), ("prune_empty", .bool c.pruneEmpty),
   ("verbose", .bool c.verbose)]

def literal (c : Config) : String :=
  "DominanceConfig("
    ++ ", ".intercalate (c.options.map fun o => o.1 ++ "=" ++ o.2.literal) ++ ")"

end Config

end FlowDominance
