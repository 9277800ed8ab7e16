import FlowDominance.Frontier

/-!
# Frontiers along groups

A frontier map may stand in for the map of dominators.  Then every vertex leads on to a group, and a
group leads nowhere: the climb from `p` along an edge `p → n` passes `p` alone and has to end there,
at a group like that of `n`.
-/

namespace FlowDominance

namespace Frontier

def sameGroup : List Value → List Value → Bool
  | [], [] => true
  | v :: vs, w :: ws => v.same w && sameGroup vs ws
  | _, _ => false

def walkGroupEdge (groups : FrontierMap) (n : Value) (group : List Value)
    (frontiers : FrontierMap) (e : Edge) : Except Fault FrontierMap := do
  let next ← lookup groups e.source
  match e.source with
  | .null => return frontiers
  | p =>
      if p.same n then return frontiers
      discard <| lookup frontiers p
      if sameGroup next group then return frontiers.modify p (add n)
      throw .groupInChain

def walkGroupVertex (g : FlowGraph) (groups frontiers : FrontierMap) (n : Value) :
    Except Fault FrontierMap := do
  let group ← lookup groups n
  (← g.inEdges n).foldlM (walkGroupEdge groups n group) frontiers

end Frontier

def walkFrontiersAlong (g : FlowGraph) (groups : FrontierMap) (pruneEmpty : Bool) :
    Except Fault FrontierMap := do
  let frontiers ← g.vertices.foldlM (Frontier.walkGroupVertex g groups) (Frontier.bare g)
  return if pruneEmpty then frontiers.prune else frontiers

end FlowDominance
