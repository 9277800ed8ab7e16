import FlowDominance.Index
import FlowDominance.Slots

/-!
# Depth-first spanning trees

The search keeps a stack of vertices, each with the part of its row that it has not looked at yet.
The tree records the order of first visits, the order of completion, and for every vertex the number
of its visit and the vertex from which it was found.
-/

namespace FlowDominance

structure SpanningTree where
  preorder : Array Nat
  postorder : Array Nat
  dfnum : Array (Option Nat)
  parent : Array (Option Nat)
  deriving DecidableEq, Repr

namespace SpanningTree

def empty (count : Nat) : SpanningTree :=
  ⟨#[], #[], Array.replicate count none, Array.replicate count none⟩

def visit (t : SpanningTree) (i : Nat) (parent : Option Nat) : SpanningTree where
  preorder := t.preorder.push i
  postorder := t.postorder
  dfnum := t.dfnum.setIfInBounds i (some t.preorder.size)
  parent := t.parent.setIfInBounds i parent

def finish (t : SpanningTree) (i : Nat) : SpanningTree :=
  { t with postorder := t.postorder.push i }

def unvisited (t : SpanningTree) : Nat := t.dfnum.count none

def pending (stack : List (Nat × List Link)) : Nat :=
  stack.foldr (fun frame left => frame.2.length + 1 + left) 0

theorem unvisited_visit (t : SpanningTree) (i : Nat) (parent : Option Nat)
    (h : t.dfnum[i]? = some none) : (t.visit i parent).unvisited < t.unvisited := by
  obtain ⟨hi, hnone⟩ := Array.getElem?_eq_some_iff.1 h
  have hmem : none ∈ t.dfnum := hnone ▸ Array.getElem_mem hi
  have hpos : 0 < t.dfnum.count none := Array.count_pos_iff.2 hmem
  simp only [unvisited, visit, Array.setIfInBounds_def, dif_pos hi, Array.count_set hi, hnone]
  simp only [beq_self_eq_true, if_true, reduceCtorEq, beq_iff_eq, if_false]
  omega

def grow (n : Numbered) (t : SpanningTree) (stack : List (Nat × List Link)) :
    Except Fault SpanningTree :=
  match stack with
  | [] => .ok t
  | (node, []) :: rest => grow n (t.finish node) rest
  | (_, .error fault :: _) :: _ => .error fault
  | (node, .ok child :: links) :: rest =>
      match _unseen : t.dfnum[child]? with
      | none => .error .indexOutOfRange
      | some (some _) => grow n t ((node, links) :: rest)
      | some none =>
          match n.successors child with
          | .error fault => .error fault
          | .ok row => grow n (t.visit child (some node)) ((child, row) :: (node, links) :: rest)
termination_by (t.unvisited, pending stack)
decreasing_by
  · exact Prod.Lex.right _ (by simp [pending])
  · exact Prod.Lex.right _ (by simp [pending])
  · exact Prod.Lex.left _ _ (unvisited_visit t child (some node) (by assumption))

def search (n : Numbered) (root : Nat) (row : List Link) : Except Fault SpanningTree :=
  grow n ((empty n.count).visit root none) [(root, row)]

def reversePostorder (t : SpanningTree) : Array Nat := t.postorder.reverse

def reachable (t : SpanningTree) (i : Nat) : Bool := (t.dfnum[i]?.join).isSome

end SpanningTree

def FlowGraph.spanningTree (g : FlowGraph) (index : Index) (start : Value) :
    Except Fault SpanningTree := do
  let root ← index.position start
  let children ← g.successors start
  SpanningTree.search (g.numbered index) root (children.map index.position)

end FlowDominance
