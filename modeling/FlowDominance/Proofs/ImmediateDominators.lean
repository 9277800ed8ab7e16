import FlowDominance.Proofs.DominatorTree
import FlowDominance.Proofs.Iterative
import FlowDominance.Proofs.LengauerTarjan

/-!
# Both algorithms find the immediate dominators

On a well-formed graph and from any of its vertices, the map that either algorithm returns is the
dominator tree of the graph in terms of its paths.
-/

namespace FlowDominance

open Dominator.Iterative (predecessorRows settle initial GreatestFixed exists_settled)

variable {g : FlowGraph} {entry : Value}

theorem Algorithm.lengauerTarjan_findsIdoms : Algorithm.lengauerTarjan.FindsIdoms := by
  intro n tree root h hsources
  exact Dominator.LengauerTarjan.exists_idoms_ok h fun v _ hreach => hsources v hreach

theorem Algorithm.iterative_findsIdoms : Algorithm.iterative.FindsIdoms := by
  intro n tree root h hsources
  exact Dominator.Iterative.exists_idoms_ok h hsources

theorem findIdomsNamed_name (g : FlowGraph) (entry : Value) (a : Algorithm) (index : Index) :
    findIdomsNamed g entry (.str a.name) index = findIdoms g entry a index := by
  simp [findIdomsNamed]

/-- Two ways into a loop without a header, a vertex with a loop of its own that occurs twice, and a
vertex that nothing leads to.  The entry is listed under two spellings. -/
def twoWayLoop : EdgeList where
  vertices := [.int 0, .int 1, .int 2, .int 3, .int 4, .bool false]
  edges :=
    [⟨.int 0, .int 1⟩, ⟨.bool false, .int 2⟩, ⟨.int 1, .int 2⟩, ⟨.int 2, .bool true⟩,
      ⟨.int 1, .int 3⟩, ⟨.int 2, .int 3⟩, ⟨.int 3, .int 3⟩, ⟨.int 3, .int 3⟩, ⟨.int 4, .int 3⟩]
  entry? := some (.int 0)
  exit? := none

theorem twoWayLoop_wellFormed : twoWayLoop.graph.WellFormed :=
  twoWayLoop.graph_wellFormed (by decide) (by decide)

theorem lengauerTarjan_dominatorTree (hwf : g.WellFormed) (hentry : g.contains entry = true) :
    ∃ idoms, findIdomsNamed g entry (.str "lengauer-tarjan") (.ofList g.vertices) = .ok idoms ∧
      g.DominatorTree entry idoms := by
  have hname := findIdomsNamed_name g entry .lengauerTarjan (.ofList g.vertices)
  obtain ⟨idoms, hrun, htree⟩ :=
    Algorithm.lengauerTarjan_findsIdoms.exists_dominatorTree hwf hentry
  exact ⟨idoms, hname.trans hrun, htree⟩

theorem lengauerTarjan_dominatorTree_twoWayLoop :
    twoWayLoop.graph.WellFormed ∧ twoWayLoop.graph.contains (.bool false) = true ∧
      ∃ idoms, findIdomsNamed twoWayLoop.graph (.bool false) (.str "lengauer-tarjan")
          (.ofList twoWayLoop.graph.vertices) = .ok idoms ∧
        twoWayLoop.graph.DominatorTree (.bool false) idoms :=
  ⟨twoWayLoop_wellFormed, by decide,
    lengauerTarjan_dominatorTree twoWayLoop_wellFormed (by decide)⟩

/-- The passes come to rest with the dominator tree, from which every other fixed point is made by
leaving out dominators. -/
theorem iterative_dominatorTree (hwf : g.WellFormed) (hentry : g.contains entry = true) :
    (∃ idoms, findIdomsNamed g entry (.str "iterative") (.ofList g.vertices) = .ok idoms ∧
      g.DominatorTree entry idoms) ∧
    ∃ tree preds doms, g.spanningTree (.ofList g.vertices) entry = .ok tree ∧
      predecessorRows (g.numbered (.ofList g.vertices)) tree.reversePostorder = .ok preds ∧
      settle preds (initial tree.reversePostorder.size) = .ok doms ∧
      GreatestFixed preds doms := by
  constructor
  · have hname := findIdomsNamed_name g entry .iterative (.ofList g.vertices)
    obtain ⟨idoms, hrun, htree⟩ := Algorithm.iterative_findsIdoms.exists_dominatorTree hwf hentry
    exact ⟨idoms, hname.trans hrun, htree⟩
  · obtain ⟨root, outs, tree, -, -, htree, hsearched, hsources⟩ :=
      FlowGraph.exists_searching hwf hentry
    obtain ⟨preds, doms, hpreds, hsettle, -, hgreatest, -⟩ := exists_settled hsearched hsources
    exact ⟨tree, preds, doms, htree, hpreds, hsettle, hgreatest⟩

theorem iterative_dominatorTree_twoWayLoop :
    twoWayLoop.graph.WellFormed ∧ twoWayLoop.graph.contains (.bool false) = true ∧
    (∃ idoms, findIdomsNamed twoWayLoop.graph (.bool false) (.str "iterative")
        (.ofList twoWayLoop.graph.vertices) = .ok idoms ∧
      twoWayLoop.graph.DominatorTree (.bool false) idoms) ∧
    ∃ tree preds doms,
      twoWayLoop.graph.spanningTree (.ofList twoWayLoop.graph.vertices) (.bool false) = .ok tree ∧
      predecessorRows (twoWayLoop.graph.numbered (.ofList twoWayLoop.graph.vertices))
        tree.reversePostorder = .ok preds ∧
      settle preds (initial tree.reversePostorder.size) = .ok doms ∧
      GreatestFixed preds doms :=
  ⟨twoWayLoop_wellFormed, by decide, iterative_dominatorTree twoWayLoop_wellFormed (by decide)⟩

end FlowDominance
