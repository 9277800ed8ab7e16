import FlowDominance.Dominator.Algorithm

/-!
# Dominance frontiers

For every edge `p → n` the chain of dominators is climbed from `p` until it reaches the immediate
dominator of `n`, or `n` itself, or its end; every vertex passed gets `n` into its frontier.  The
map of dominators may be any map: a chain that leaves it, or leaves the graph, is a missing key,
and a chain that takes more steps than there are vertices is reported as broken.
-/

namespace FlowDominance

abbrev FrontierMap := Table (List Value)

namespace Frontier

def lookup {α : Type} (t : Table α) (v : Value) : Except Fault α :=
  match t.get? v with
  | some a => .ok a
  | none => .error (.missingKey v)

def add (n : Value) (frontier : List Value) : List Value :=
  if n.occursIn frontier then frontier else frontier ++ [n]

def stops (idom : Option Value) (n runner : Value) : Bool :=
  runner.same n || idom.any runner.same

def climb (idoms : IdomMap) (n : Value) (idom : Option Value) (start : Value) :
    Nat → Option Value → FrontierMap → Except Fault FrontierMap
  | _, none, frontiers => .ok frontiers
  | left, some runner, frontiers =>
      if stops idom n runner then .ok frontiers
      else do
        discard <| lookup frontiers runner
        let next ← lookup idoms runner
        match left with
        | 0 => .error (.brokenChain start)
        | left + 1 => climb idoms n idom start left next (frontiers.modify runner (add n))

/-- A vertex without dominator counts only if it is the entry. -/
def skipped (entry v : Value) (idom : Option Value) : Bool := idom.isNone && !v.same entry

def walkEdge (entry : Value) (idoms : IdomMap) (n : Value) (idom : Option Value)
    (frontiers : FrontierMap) (e : Edge) : Except Fault FrontierMap := do
  if skipped entry e.source (← lookup idoms e.source) then return frontiers
  climb idoms n idom e.source frontiers.size e.source.present? frontiers

def walkVertex (g : FlowGraph) (entry : Value) (idoms : IdomMap) (frontiers : FrontierMap)
    (n : Value) : Except Fault FrontierMap := do
  let idom ← lookup idoms n
  if skipped entry n idom then return frontiers
  (← g.inEdges n).foldlM (walkEdge entry idoms n idom) frontiers

def bare (g : FlowGraph) : FrontierMap := .ofList (g.vertices.map fun v => (v, []))

end Frontier

def FrontierMap.prune (frontiers : FrontierMap) : FrontierMap :=
  frontiers.filter fun _ frontier => !frontier.isEmpty

def walkFrontiers (g : FlowGraph) (entry : Value) (idoms : IdomMap) (pruneEmpty : Bool) :
    Except Fault FrontierMap := do
  let frontiers ← g.vertices.foldlM (Frontier.walkVertex g entry idoms) (Frontier.bare g)
  return if pruneEmpty then frontiers.prune else frontiers

end FlowDominance
