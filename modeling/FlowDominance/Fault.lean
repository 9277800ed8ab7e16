import FlowDominance.Value.Text

/-!
# Faults

Everything that can go wrong, by cause, with its wording and the family it belongs to.
-/

namespace FlowDominance

/-! ## Families -/

/-- Families of faults; the first six are this library's own, the others are general. -/
inductive Family where
  | dominance
  | invalidEntry
  | missingExit
  | graph
  | config
  | internal
  | key
  | lookup
  | value
  | index
  | type
  | attribute
  | overflow
  | assertion
  | missingFile
  | any
  deriving DecidableEq, Repr

def Family.ancestors : Family → List Family
  | .dominance => [.dominance, .any]
  | .invalidEntry => [.invalidEntry, .dominance, .key, .lookup, .any]
  | .missingExit => [.missingExit, .dominance, .any]
  | .graph => [.graph, .dominance, .any]
  | .config => [.config, .dominance, .value, .any]
  | .internal => [.internal, .dominance, .any]
  | .key => [.key, .lookup, .any]
  | .lookup => [.lookup, .any]
  | .value => [.value, .any]
  | .index => [.index, .lookup, .any]
  | .type => [.type, .any]
  | .attribute => [.attribute, .any]
  | .overflow => [.overflow, .any]
  | .assertion => [.assertion, .any]
  | .missingFile => [.missingFile, .any]
  | .any => [.any]

/-! ## Causes -/

inductive Fault where
  | missingKey (key : Value)
  | indexOutOfRange
  | positionTooWide
  | notPosition (value : Value)
  | nullVertex
  | nullNode
  | noEntry
  | noExit
  | noReversedEntry
  | undirected
  | notOffered (form operation : String)
  | entryOutside (entry : Value)
  | exitOutside (exit : Value)
  | invalidEntry (entry : Value)
  | unknownAlgorithm (name : Value)
  /-- A dominator chain went on for more steps than there are vertices. -/
  | brokenChain (start : Value)
  | groupInChain
  | raised (scope : String)
  | nameNotText
  | nameTaken (title name : String)
  | unknownOption (name : Value)
  | badAlgorithm (value : Value)
  | notBoolean (name value : Value)
  | unsupportedFormat (format : Value)
  | tooFewParts (count : Nat)
  | tooManyParts
  | noParts (value : Value)
  | endAtRoot
  | overflow
  | notText
  | duplicateNode (name : String)
  | unknownNode (name : String)
  | noPredecessor
  | lateDominator
  | unsetDominator
  | nullInPath
  | missingFolder (path : String)
  | endless
  deriving DecidableEq, Repr

namespace Fault

def family : Fault → Family
  | .missingKey _ => .key
  | .indexOutOfRange | .positionTooWide => .index
  | .nullVertex | .noEntry | .undirected | .entryOutside _ | .exitOutside _ => .graph
  | .nullNode | .tooFewParts _ | .tooManyParts | .noPredecessor | .nullInPath => .value
  | .noExit | .noReversedEntry => .missingExit
  | .invalidEntry _ => .invalidEntry
  | .unknownAlgorithm _ | .brokenChain _ | .raised _ | .endless => .internal
  | .unknownOption _ | .badAlgorithm _ | .notBoolean _ _ | .unsupportedFormat _ => .config
  | .noParts _ | .endAtRoot | .unsetDominator | .notPosition _ | .nameNotText | .nameTaken _ _
  | .groupInChain => .type
  | .notOffered _ _ => .attribute
  | .missingFolder _ => .missingFile
  | .overflow => .overflow
  | .notText | .duplicateNode _ | .unknownNode _ | .lateDominator => .assertion

def kindName : Value → String
  | .null => "NoneType"
  | .bool _ => "bool"
  | .int _ => "int"
  | .str _ => "str"
  | .tuple _ => "tuple"

def message : Fault → String
  | .missingKey key => key.literal
  | .indexOutOfRange => "list index out of range"
  | .positionTooWide => "cannot fit 'int' into an index-sized integer"
  | .notPosition value => "list indices must be integers or slices, not " ++ kindName value
  | .nullVertex => "None cannot be used as a vertex"
  | .nullNode => "None cannot be a node"
  | .noEntry => "graph has no entry vertex"
  | .noExit => "graph has no exit vertex"
  | .noReversedEntry => "reversed graph needs an exit to use as entry"
  | .undirected => "dominance requires a directed graph"
  | .notOffered form operation =>
      "'" ++ form ++ "' object has no attribute '" ++ operation ++ "'"
  | .entryOutside entry => "entry " ++ entry.literal ++ " is not in the graph"
  | .exitOutside exit => "exit " ++ exit.literal ++ " is not in the graph"
  | .invalidEntry entry => "entry " ++ entry.literal ++ " is not a vertex of the graph"
  | .unknownAlgorithm name => "unknown dominator algorithm " ++ name.literal
  | .brokenChain start => "dominator chain from " ++ start.literal ++ " does not reach the entry"
  | .groupInChain => "unhashable type: 'list'"
  | .raised scope => "raised in " ++ scope
  | .nameNotText => "keywords must be strings"
  | .nameTaken title name => title ++ "() got multiple values for argument '" ++ name ++ "'"
  | .unknownOption name => "unknown option " ++ name.literal
  | .badAlgorithm value =>
      "algorithm must be one of lengauer-tarjan, iterative, got " ++ value.literal
  | .notBoolean name value =>
      "option " ++ name.literal ++ " expects a bool, got " ++ value.literal
  | .unsupportedFormat format => "Unsupported format: " ++ format.display
  | .tooFewParts count =>
      "not enough values to unpack (expected 2, got " ++ toString count ++ ")"
  | .tooManyParts => "too many values to unpack (expected 2)"
  | .noParts value => "cannot unpack non-iterable " ++ kindName value ++ " object"
  | .endAtRoot => "unsupported operand type(s) for -: 'float' and 'NoneType'"
  | .overflow => "int too large to convert to float"
  | .notText => ""
  | .duplicateNode name => name
  | .unknownNode name => "Cannot find node " ++ name
  | .noPredecessor => "min() arg is an empty sequence"
  | .lateDominator => ""
  | .unsetDominator => "dominator read before it was set"
  | .nullInPath => "embedded null byte"
  | .missingFolder path => "[Errno 2] No such file or directory: " ++ (Value.str path).literal
  | .endless => "no end in sight"

end Fault

def Family.describe (family : Family) (subject : Value) : String :=
  match family with
  | .invalidEntry => (Fault.invalidEntry subject).message
  | .key => (Fault.missingKey subject).message
  | _ => subject.display

end FlowDominance
