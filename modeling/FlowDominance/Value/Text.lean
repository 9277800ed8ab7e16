import FlowDominance.Value
import FlowDominance.Text.Quoted

/-!
# Written values

A value has a *literal* form, in which texts are quoted, and a *display* form, in which a text
stands for itself.  Only at the outermost level do the two differ.
-/

namespace FlowDominance.Value

mutual

def literal : Value → String
  | .null => "None"
  | .bool true => "True"
  | .bool false => "False"
  | .int n => toString n
  | .str s => Text.quoted s
  | .tuple [] => "()"
  | .tuple (v :: rest) => "(" ++ v.literal ++ literalRest (rest.isEmpty) rest ++ ")"

/-- The items behind the first one; a tuple of one item ends in a comma. -/
def literalRest (single : Bool) : List Value → String
  | [] => if single then "," else ""
  | v :: rest => ", " ++ v.literal ++ literalRest false rest

end

def display : Value → String
  | .str s => s
  | v => v.literal

end FlowDominance.Value
