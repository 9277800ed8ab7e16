import FlowDominance.Proofs.Adjacency
import FlowDominance.Proofs.DominanceFrontiers

/-!
# Post-dominance

Post-dominators lie on every path to the exit.  They are the dominators of the reversed graph, since
both ways to read the edges of a well-formed graph tell of the same edges.
-/

namespace FlowDominance

namespace FlowGraph

variable {g : FlowGraph} {a b d exit n u v x : Value} {idoms : IdomMap}

/-! ## Definitions -/

def PostDominates (g : FlowGraph) (exit d v : Value) : Prop :=
  ∀ p, g.IsPath v exit p → d.occursIn p = true

structure ImmediatePostDominator (g : FlowGraph) (exit d v : Value) : Prop where
  not_same : d.same v = false
  postDominates : g.PostDominates exit d v
  closest : ∀ u, u.same v = false → g.PostDominates exit u v → g.PostDominates exit u d

structure PostDominatorTree (g : FlowGraph) (exit : Value) (idoms : IdomMap) : Prop where
  keys : idoms.keys = g.vertices
  at_exit : idoms.get? exit = some none
  endless : ∀ v, g.contains v = true → ¬g.Reaches v exit → idoms.get? v = some none
  ending : ∀ v, g.contains v = true → v.same exit = false → g.Reaches v exit →
    ∃ d ∈ g.vertices, idoms.get? v = some (some d) ∧ g.ImmediatePostDominator exit d v

structure InPostFrontier (g : FlowGraph) (exit x n : Value) : Prop where
  ending : g.Reaches n exit
  not_same : n.same x = false
  exists_target : ∃ s, g.Adjacent n s ∧ g.Reaches s exit ∧ g.PostDominates exit x s
  not_strict : ¬(x.same n = false ∧ g.PostDominates exit x n)

noncomputable def postFrontierAmong (g : FlowGraph) (exit x : Value) (vs : List Value) :
    List Value :=
  open Classical in vs.filter fun n => decide (g.InPostFrontier exit x n)

/-! ## Turning the edges round -/

theorem countP_reversed (e : Edge) (row : List Edge) :
    (row.map Edge.reversed).countP e.same = row.countP e.reversed.same := by
  rw [List.countP_map]
  congr 1
  funext f
  simp [Edge.same, Edge.reversed, Bool.and_comm]

theorem reversed_outEdges {row : List Edge} (h : g.inEdges v = .ok row) :
    g.reversed.outEdges v = .ok (row.map Edge.reversed) := by
  simp [reversed, h, Except.map]

theorem reversed_inEdges {row : List Edge} (h : g.outEdges v = .ok row) :
    g.reversed.inEdges v = .ok (row.map Edge.reversed) := by
  simp [reversed, h, Except.map]

theorem WellFormed.reversed (h : g.WellFormed) : g.reversed.WellFormed where
  null_not_mem := h.null_not_mem
  exists_out := by
    intro u hu
    obtain ⟨row, hrow, hall⟩ := h.exists_in u hu
    refine ⟨_, reversed_outEdges hrow, ?_⟩
    intro e he
    obtain ⟨f, hf, rfl⟩ := List.mem_map.1 he
    exact hall f hf
  exists_in := by
    intro v hv
    obtain ⟨row, hrow, hall⟩ := h.exists_out v hv
    refine ⟨_, reversed_inEdges hrow, ?_⟩
    intro e he
    obtain ⟨f, hf, rfl⟩ := List.mem_map.1 he
    exact hall f hf
  mirrored := by
    intro e outs ins hsource htarget houts hins
    obtain ⟨back, hback, -⟩ := h.exists_in e.source hsource
    obtain ⟨forth, hforth, -⟩ := h.exists_out e.target htarget
    rw [reversed_outEdges hback, Except.ok.injEq] at houts
    rw [reversed_inEdges hforth, Except.ok.injEq] at hins
    rw [← houts, ← hins, countP_reversed, countP_reversed]
    exact (h.mirrored e.reversed forth back htarget hsource hforth hback).symm

section Reversed

variable (hwf : g.WellFormed)
include hwf

theorem reversed_adjacent_iff (hu : g.contains u = true) (hv : g.contains v = true) :
    g.reversed.Adjacent v u ↔ g.Adjacent u v := by
  obtain ⟨ins, hins, -⟩ := hwf.exists_in v hv
  rw [hwf.adjacent_iff hu hv hins]
  constructor
  · rintro ⟨row, hrow, e, he, hsame⟩
    rw [reversed_outEdges hins, Except.ok.injEq] at hrow
    rw [← hrow] at he
    obtain ⟨f, hf, rfl⟩ := List.mem_map.1 he
    exact ⟨f, hf, hsame⟩
  · rintro ⟨f, hf, hsame⟩
    exact ⟨_, reversed_outEdges hins, f.reversed, List.mem_map_of_mem hf, hsame⟩

theorem reversed_canonEdge : g.reversed.canonEdge = flip g.canonEdge := by
  funext b a
  apply propext
  constructor
  · rintro ⟨v, u, hv, hvb, hua, hedge⟩
    have hu : g.contains u = true := hwf.reversed.contains_of_adjacent hv hedge
    exact ⟨u, v, hu, hua, hvb, (reversed_adjacent_iff hwf hu hv).1 hedge⟩
  · rintro ⟨u, v, hu, hua, hvb, hedge⟩
    have hv : g.contains v = true := hwf.contains_of_adjacent hu hedge
    exact ⟨v, u, hv, hvb, hua, (reversed_adjacent_iff hwf hu hv).2 hedge⟩

theorem reversed_reaches_iff (ha : g.contains a = true) (hb : g.contains b = true) :
    g.reversed.Reaches b a ↔ g.Reaches a b := by
  rw [reaches_iff hwf.reversed hb, reversed_canonEdge hwf, reaches_iff hwf ha]
  exact through_flip

theorem reversed_dominates_iff (hexit : g.contains exit = true) (hv : g.contains v = true) :
    g.reversed.Dominates exit d v ↔ g.PostDominates exit d v := by
  rw [dominates_iff hwf.reversed hexit, reversed_canonEdge hwf, dominates_flip]
  exact (dominates_iff hwf hv).symm

/-! ## Trees and frontiers -/

theorem ImmediateDominator.turned (hexit : g.contains exit = true) (hd : g.contains d = true)
    (hv : g.contains v = true) (h : g.reversed.ImmediateDominator exit d v) :
    g.ImmediatePostDominator exit d v where
  not_same := h.not_same
  postDominates := (reversed_dominates_iff hwf hexit hv).1 h.dominates
  closest := by
    intro u hne hu
    have := h.closest u hne ((reversed_dominates_iff hwf hexit hv).2 hu)
    exact (reversed_dominates_iff hwf hexit hd).1 this

theorem DominatorTree.turned (hdistinct : Distinct g.vertices) (hexit : g.contains exit = true)
    (h : g.reversed.DominatorTree exit idoms) : g.PostDominatorTree exit idoms := by
  have hfirsts : Value.firsts g.reversed.vertices = g.vertices :=
    Value.firsts_of_distinct hdistinct
  exact {
    keys := h.keys.trans hfirsts
    at_exit := h.at_entry
    endless := by
      intro v hv hnot
      exact h.unreachable v hv fun hreach => hnot ((reversed_reaches_iff hwf hv hexit).1 hreach)
    ending := by
      intro v hv hne hreach
      obtain ⟨d, hd, hget, himm⟩ :=
        h.reachable v hne ((reversed_reaches_iff hwf hv hexit).2 hreach)
      rw [hfirsts] at hd
      exact ⟨d, hd, hget, himm.turned hwf hexit (contains_of_mem hd) hv⟩ }

theorem reversed_inFrontier_iff (hexit : g.contains exit = true) (hn : g.contains n = true) :
    g.reversed.InFrontier exit x n ↔ g.InPostFrontier exit x n := by
  constructor
  · rintro ⟨hreach, hne, ⟨s, hedge, hs, hdom⟩, hnot⟩
    have hmem := contains_of_reaches hwf.reversed hexit hs
    refine ⟨(reversed_reaches_iff hwf hn hexit).1 hreach, hne, ⟨s, ?_, ?_, ?_⟩, ?_⟩
    · exact (reversed_adjacent_iff hwf hn hmem).1 hedge
    · exact (reversed_reaches_iff hwf hmem hexit).1 hs
    · exact (reversed_dominates_iff hwf hexit hmem).1 hdom
    · rw [← reversed_dominates_iff hwf hexit hn]
      exact hnot
  · rintro ⟨hreach, hne, ⟨s, hedge, hs, hdom⟩, hnot⟩
    have hmem := hwf.contains_of_adjacent hn hedge
    refine ⟨(reversed_reaches_iff hwf hn hexit).2 hreach, hne, ⟨s, ?_, ?_, ?_⟩, ?_⟩
    · exact (reversed_adjacent_iff hwf hn hmem).2 hedge
    · exact (reversed_reaches_iff hwf hmem hexit).2 hs
    · exact (reversed_dominates_iff hwf hexit hmem).2 hdom
    · rw [← reversed_dominates_iff hwf hexit hn] at hnot
      exact hnot

theorem reversed_frontierAmong (hexit : g.contains exit = true) (x : Value) :
    g.reversed.frontierAmong exit x g.vertices = g.postFrontierAmong exit x g.vertices := by
  unfold frontierAmong postFrontierAmong
  apply List.filter_congr
  intro n hn
  rw [decide_eq_decide]
  exact reversed_inFrontier_iff hwf hexit (contains_of_mem hn)

end Reversed

end FlowGraph

open Adjacency

variable {g : Adjacency} {exit : Value} {setting : Setting} {context : Context}

theorem postDominance_by_definition (m : Monitor) (hg : g.Reached) (hexit : g.exit? = some exit)
    (hresolve : setting.resolve = .ok context) :
    (∃ idoms, ((Analysis.postIdoms (.of g.graph) setting).apply m).1 = .ok idoms ∧
      g.graph.PostDominatorTree exit idoms) ∧
    (context.config.pruneEmpty = false →
      ∃ frontiers, ((Analysis.postFrontiers (.of g.graph) setting).apply m).1 = .ok frontiers ∧
        frontiers.entries = g.graph.vertices.map fun x =>
          (x, g.graph.postFrontierAmong exit x g.graph.vertices)) ∧
    ∀ x, Distinct (g.graph.postFrontierAmong exit x g.graph.vertices) := by
  obtain ⟨log, hlog⟩ := hg.exists_logged
  have hwf := hlog.wellFormed
  have hmem : g.graph.contains exit = true := hlog.exit_mem exit hexit
  have hhas : g.graph.hasExit = true := by simp [graph, hexit]
  have hentry : (View.of g.graph).reverse.graph.entry = .ok exit := by
    change g.graph.reversed.entry = .ok exit
    simp [FlowGraph.reversed, graph, hexit]
  refine ⟨?_, ?_, fun x => g.distinct_vertices.sublist List.filter_sublist⟩
  · obtain ⟨idoms, hfind, htree⟩ :=
      Analysis.exists_findFrom_ok context.config hwf.reversed hmem
    refine ⟨idoms, ?_, htree.turned hwf g.distinct_vertices hmem⟩
    rw [Analysis.postIdoms_outcome (.of g.graph) hhas, hentry, ok_bind, hresolve, ok_bind]
    exact hfind
  · intro hprune
    obtain ⟨frontiers, hwalk, hshows⟩ :=
      Analysis.exists_walkFrom_ok hwf.reversed g.distinct_vertices hmem hprune
    refine ⟨frontiers, ?_, ?_⟩
    · rw [Analysis.postFrontiers_outcome (.of g.graph) hhas, hresolve, ok_bind, hentry, ok_bind]
      exact hwalk
    · simp only [← FlowGraph.reversed_frontierAmong hwf hmem]
      exact hshows

/-- A branch that never ends, an exit that is left again and met under two spellings, and parallel
edges. -/
def endlessBranch : List Value :=
  [.tuple [.str "a", .str "b"], .tuple [.str "a", .str "spin"], .tuple [.str "spin", .str "spin"],
    .tuple [.str "b", .int 1], .tuple [.str "b", .bool true], .tuple [.int 1, .str "a"]]

/-- The source of the last edge is added, its target is refused. -/
def refusedEdge : Adjacency :=
  ((addEdge (.str "lost") .null).apply
    ((fill endlessBranch (.str "a") (some (.int 1)) []).apply .empty).2).2

theorem refusedEdge_reached : refusedEdge.Reached :=
  .addEdge _ _ (.ofEdges endlessBranch (.str "a") (some (.int 1)) [] rfl)

theorem postDominance_by_definition_refusedEdge :
    refusedEdge.Reached ∧ refusedEdge.exit? = some (.int 1) ∧
    refusedEdge.graph.vertices = [.str "a", .str "b", .str "spin", .int 1, .str "lost"] ∧
    (∃ idoms, ((Analysis.postIdoms (.of refusedEdge.graph) .standard).apply
        (.new (.new false .console) .warning .steady)).1 = .ok idoms ∧
      refusedEdge.graph.PostDominatorTree (.int 1) idoms) ∧
    (∃ frontiers, ((Analysis.postFrontiers (.of refusedEdge.graph) .standard).apply
        (.new (.new false .console) .warning .steady)).1 = .ok frontiers ∧
      frontiers.entries = refusedEdge.graph.vertices.map fun x =>
        (x, refusedEdge.graph.postFrontierAmong (.int 1) x refusedEdge.graph.vertices)) := by
  have hexit : refusedEdge.exit? = some (.int 1) := by decide
  have hresolve : Setting.standard.resolve = .ok (.ofConfig .default) := rfl
  obtain ⟨htree, hfrontiers, -⟩ := postDominance_by_definition
    (.new (.new false .console) .warning .steady) refusedEdge_reached hexit hresolve
  exact ⟨refusedEdge_reached, hexit, by decide, htree, hfrontiers rfl⟩

end FlowDominance
