import FlowDominance.Proofs.Analysis
import FlowDominance.Proofs.Frontier
import FlowDominance.Proofs.ImmediateDominators

/-!
# Analyses answer by the definition

On a well-formed graph an analysis from one of the vertices does not fail.  With either algorithm its
dominators are those of the graph, and its frontiers are the vertices in order, filtered by the
definition.
-/

namespace FlowDominance

variable {g : FlowGraph} {v : View} {entry x : Value} {given : Option Value} {config : Config}
variable {setting : Setting} {context : Context}

theorem Algorithm.findsIdoms (a : Algorithm) : a.FindsIdoms := by
  cases a with
  | lengauerTarjan => exact lengauerTarjan_findsIdoms
  | iterative => exact iterative_findsIdoms

namespace Analysis

theorem exists_findFrom_ok (config : Config) (hwf : g.WellFormed)
    (hentry : g.contains entry = true) :
    ∃ idoms, findFrom g entry config = .ok idoms ∧ g.DominatorTree entry idoms := by
  obtain ⟨idoms, hrun, htree⟩ := config.algorithm.findsIdoms.exists_dominatorTree hwf hentry
  exact ⟨idoms, (findFrom_known config hentry).trans hrun, htree⟩

theorem walkFrom_eq (config : Config) (hwf : g.WellFormed) (hentry : g.contains entry = true) :
    walkFrom g entry config = .ok (if config.pruneEmpty then (g.frontierTable entry).prune
      else g.frontierTable entry) := by
  obtain ⟨idoms, hfind, htree⟩ := exists_findFrom_ok config hwf hentry
  rw [walkFrom, hfind, ok_bind, Frontier.walkFrontiers_eq hwf hentry htree]

theorem exists_walkFrom_ok (hwf : g.WellFormed) (hdistinct : Distinct g.vertices)
    (hentry : g.contains entry = true) (hprune : config.pruneEmpty = false) :
    ∃ frontiers, walkFrom g entry config = .ok frontiers ∧
      Frontier.Shows g (fun x => g.frontierAmong entry x g.vertices) frontiers := by
  refine ⟨g.frontierTable entry, by simp [walkFrom_eq config hwf hentry, hprune], ?_⟩
  simp [Frontier.Shows, FlowGraph.frontierTable, Value.firsts_of_distinct hdistinct]

end Analysis

theorem FlowGraph.frontierAmong_eq_nil (hwf : g.WellFormed) (hentry : g.contains entry = true)
    (hx : ¬g.Reaches entry x) (vs : List Value) : g.frontierAmong entry x vs = [] := by
  rw [List.eq_nil_iff_forall_not_mem]
  intro n hn
  obtain ⟨p, -, hp, hdom⟩ := (mem_frontierAmong.1 hn).2.exists_source
  exact hx (hdom.reaches hwf hentry hp)

theorem frontiers_by_definition (m : Monitor) (hwf : v.graph.WellFormed)
    (hdistinct : Distinct v.graph.vertices) (hgiven : Analysis.entryOr v.graph given = .ok entry)
    (hentry : v.graph.contains entry = true) (hresolve : setting.resolve = .ok context)
    (hprune : context.config.pruneEmpty = false) :
    (∃ frontiers, ((Analysis.frontiers v given setting).apply m).1 = .ok frontiers ∧
      frontiers.entries = v.graph.vertices.map fun x =>
        (x, v.graph.frontierAmong entry x v.graph.vertices)) ∧
    (∀ x, ¬v.graph.Reaches entry x → v.graph.frontierAmong entry x v.graph.vertices = []) ∧
    ∀ x n, n ∈ v.graph.frontierAmong entry x v.graph.vertices →
      v.graph.Reaches entry n ∧ n.same x = false := by
  refine ⟨?_, ?_, ?_⟩
  · obtain ⟨frontiers, hwalk, hshows⟩ :=
      Analysis.exists_walkFrom_ok hwf hdistinct hentry hprune
    refine ⟨frontiers, ?_, hshows⟩
    rw [Analysis.frontiers_outcome, hgiven, ok_bind, hresolve, ok_bind, hwalk]
  · intro x hx
    exact FlowGraph.frontierAmong_eq_nil hwf hentry hx v.graph.vertices
  · intro x n hn
    have hin := (FlowGraph.mem_frontierAmong.1 hn).2
    exact ⟨hin.reachable, hin.not_same⟩

/-- A loop back to the entry, a loop at one vertex, parallel edges, and an edge out of a vertex that
nothing leads to. -/
def loopToEntry : EdgeList where
  vertices := [.str "a", .str "b", .int 1, .str "d", .str "lost"]
  edges :=
    [⟨.str "a", .str "b"⟩, ⟨.str "a", .bool true⟩, ⟨.str "b", .str "d"⟩, ⟨.int 1, .str "d"⟩,
      ⟨.int 1, .str "d"⟩, ⟨.str "d", .str "d"⟩, ⟨.str "d", .str "a"⟩, ⟨.str "lost", .str "b"⟩]
  entry? := some (.str "a")
  exit? := none

theorem loopToEntry_wellFormed : loopToEntry.graph.WellFormed :=
  loopToEntry.graph_wellFormed (by decide) (by decide)

theorem frontiers_by_definition_loopToEntry :
    loopToEntry.graph.WellFormed ∧ Distinct loopToEntry.graph.vertices ∧
    (∃ frontiers, ((Analysis.frontiers (.of loopToEntry.graph) none
        (.config ⟨.iterative, false, false⟩)).apply
          (.new (.new false .console) .warning .steady)).1 = .ok frontiers ∧
      frontiers.entries = loopToEntry.graph.vertices.map fun x =>
        (x, loopToEntry.graph.frontierAmong (.str "a") x loopToEntry.graph.vertices)) ∧
    (∀ x, ¬loopToEntry.graph.Reaches (.str "a") x →
      loopToEntry.graph.frontierAmong (.str "a") x loopToEntry.graph.vertices = []) ∧
    ∀ x n, n ∈ loopToEntry.graph.frontierAmong (.str "a") x loopToEntry.graph.vertices →
      loopToEntry.graph.Reaches (.str "a") n ∧ n.same x = false := by
  have hdistinct : Distinct loopToEntry.graph.vertices := by
    unfold Distinct
    decide
  exact ⟨loopToEntry_wellFormed, hdistinct,
    frontiers_by_definition (v := .of loopToEntry.graph) _ loopToEntry_wellFormed hdistinct rfl
      (by decide) rfl rfl⟩

end FlowDominance
