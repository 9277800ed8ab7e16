import FlowDominance.Proofs.LinkLaws
import FlowDominance.Proofs.LiveEdges
import FlowDominance.Proofs.PostDominance

/-!
# Interchangeable stores

Adjacency lists keep every edge in the order of the log; a link library shows a neighbour once, or
brings its parallel links together.  Filled with the same edges they list the same vertices, in the
order of their first mention, and join the same ones.  Searches go other ways in them, but their
analyses come to the same.
-/

namespace FlowDominance

/-! ## Graphs that present the same -/

namespace FlowGraph

variable {g h : FlowGraph} {vs : List Value} {log : List Edge} {entry x : Value}
variable {exit : Option Value}

/-- What a graph tells of a log, whatever keeps it: the order and the number of the edges are left
open. -/
structure Presents (g : FlowGraph) (vs : List Value) (log : List Edge) (entry : Value)
    (exit : Option Value) : Prop where
  wellFormed : g.WellFormed
  vertices_eq : g.vertices = vs
  edge_iff : ∀ a b, g.canonEdge a b ↔ ∃ e ∈ log, e.source.canon = a ∧ e.target.canon = b
  entry_eq : g.entry = .ok entry
  exit_eq : g.exit = exit.elim (.error .noExit) .ok
  hasExit_eq : g.hasExit = exit.isSome
  entry_mem : entry.occursIn vs = true
  exit_mem : ∀ x ∈ exit, x.occursIn vs = true

theorem Presents.contains_entry (hg : g.Presents vs log entry exit) :
    g.contains entry = true := by
  rw [contains, hg.vertices_eq, hg.entry_mem]

theorem Presents.alikeFrom (hg : g.Presents vs log entry exit)
    (hh : h.Presents vs log entry exit) : g.AlikeFrom h entry := by
  refine alikeFrom_of_canonEdge_eq hg.wellFormed hh.wellFormed ?_ ?_ hg.contains_entry
  · rw [hg.vertices_eq, hh.vertices_eq]
  · funext a b
    rw [hg.edge_iff, hh.edge_iff]

theorem Presents.reversed (hg : g.Presents vs log entry (some x)) :
    g.reversed.Presents vs (log.map Edge.reversed) x (some entry) where
  wellFormed := hg.wellFormed.reversed
  vertices_eq := hg.vertices_eq
  edge_iff := by
    intro a b
    rw [reversed_canonEdge hg.wellFormed, flip, hg.edge_iff]
    simp [Edge.reversed, and_comm]
  entry_eq := by simp [FlowGraph.reversed, hg.hasExit_eq, hg.exit_eq]
  exit_eq := hg.entry_eq
  hasExit_eq := rfl
  entry_mem := hg.exit_mem x rfl
  exit_mem := by
    rintro y ⟨⟩
    exact hg.entry_mem

theorem Presents.exists_idoms (hg : g.Presents vs log entry exit) (config : Config) :
    ∃ idoms, ∀ h : FlowGraph, h.Presents vs log entry exit →
      Analysis.findFrom h entry config = .ok idoms := by
  obtain ⟨idoms, hfind, -⟩ := Analysis.exists_findFrom_ok config hg.wellFormed hg.contains_entry
  refine ⟨idoms, ?_⟩
  intro h hh
  obtain ⟨idoms', hfind', hsame⟩ := Analysis.exists_findFrom_alike config config
    (hg.alikeFrom hh) hg.wellFormed hg.contains_entry hh.wellFormed
  rw [hsame, ← hfind', hfind]

theorem Presents.exists_frontiers (hg : g.Presents vs log entry exit) (config : Config) :
    ∃ frontiers, ∀ h : FlowGraph, h.Presents vs log entry exit →
      Analysis.walkFrom h entry config = .ok frontiers := by
  have hwalk := Analysis.walkFrom_eq config hg.wellFormed hg.contains_entry
  refine ⟨_, fun h hh => Eq.trans ?_ hwalk⟩
  exact Analysis.walkFrom_alike (hh.alikeFrom hg) hh.wellFormed hh.contains_entry hg.wellFormed rfl

end FlowGraph

namespace Query

variable {g : FlowGraph} {vs : List Value} {log : List Edge} {entry : Value}
variable {exit : Option Value} {setting : Setting} {context : Context} {q : Query}

def ofGraph (entry : Value) : List Query :=
  [.idoms entry, .frontiers none, .frontiers (some entry), .postIdoms, .postFrontiers]

theorem exists_answer_idoms (hg : g.Presents vs log entry exit)
    (hresolve : setting.resolve = .ok context) : ∃ answer, ∀ h : FlowGraph,
      h.Presents vs log entry exit →
        ∀ m, (((idoms entry).run (.of h) setting).apply m).1 = .ok answer := by
  obtain ⟨found, hall⟩ := hg.exists_idoms context.config
  refine ⟨.idoms found, ?_⟩
  intro h hh m
  have hfind : Analysis.findFrom (View.of h).graph entry context.config = .ok found := hall h hh
  rw [run, Change.outcome_map, Analysis.idoms_outcome, hresolve, ok_bind, hfind]
  rfl

theorem exists_answer_frontiers {given : Option Value} (hg : g.Presents vs log entry exit)
    (hresolve : setting.resolve = .ok context) (hgiven : ∀ e ∈ given, e = entry) :
    ∃ answer, ∀ h : FlowGraph, h.Presents vs log entry exit →
      ∀ m, (((frontiers given).run (.of h) setting).apply m).1 = .ok answer := by
  obtain ⟨found, hall⟩ := hg.exists_frontiers context.config
  refine ⟨.frontiers found, ?_⟩
  intro h hh m
  have hentry : Analysis.entryOr (View.of h).graph given = .ok entry := by
    cases given with
    | none => exact hh.entry_eq
    | some e => rw [Analysis.entryOr, hgiven e rfl]
  have hwalk : Analysis.walkFrom (View.of h).graph entry context.config = .ok found := hall h hh
  rw [run, Change.outcome_map, Analysis.frontiers_outcome, hentry, ok_bind, hresolve, ok_bind,
    hwalk]
  rfl

theorem exists_answer_postIdoms (hg : g.Presents vs log entry exit)
    (hresolve : setting.resolve = .ok context) : ∃ answer, ∀ h : FlowGraph,
      h.Presents vs log entry exit →
        ∀ m, ((postIdoms.run (.of h) setting).apply m).1 = .ok answer := by
  cases exit with
  | none =>
      refine ⟨.idoms .empty, ?_⟩
      intro h hh m
      rw [run, Change.outcome_map, Analysis.postIdoms_without_exit (.of h) hh.hasExit_eq]
      rfl
  | some x =>
      obtain ⟨found, hall⟩ := hg.reversed.exists_idoms context.config
      refine ⟨.idoms found, ?_⟩
      intro h hh m
      have hentry : (View.of h).reverse.graph.entry = .ok x := hh.reversed.entry_eq
      have hfind : Analysis.findFrom (View.of h).reverse.graph x context.config = .ok found :=
        hall h.reversed hh.reversed
      rw [run, Change.outcome_map, Analysis.postIdoms_outcome (.of h) hh.hasExit_eq, hentry,
        ok_bind, hresolve, ok_bind, hfind]
      rfl

theorem exists_answer_postFrontiers (hg : g.Presents vs log entry exit)
    (hresolve : setting.resolve = .ok context) : ∃ answer, ∀ h : FlowGraph,
      h.Presents vs log entry exit →
        ∀ m, ((postFrontiers.run (.of h) setting).apply m).1 = .ok answer := by
  cases exit with
  | none =>
      refine ⟨.frontiers .empty, ?_⟩
      intro h hh m
      rw [run, Change.outcome_map, Analysis.postFrontiers_without_exit (.of h) hh.hasExit_eq]
      rfl
  | some x =>
      obtain ⟨found, hall⟩ := hg.reversed.exists_frontiers context.config
      refine ⟨.frontiers found, ?_⟩
      intro h hh m
      have hentry : (View.of h).reverse.graph.entry = .ok x := hh.reversed.entry_eq
      have hwalk : Analysis.walkFrom (View.of h).reverse.graph x context.config = .ok found :=
        hall h.reversed hh.reversed
      rw [run, Change.outcome_map, Analysis.postFrontiers_outcome (.of h) hh.hasExit_eq, hresolve,
        ok_bind, hentry, ok_bind, hwalk]
      rfl

theorem exists_answer (hg : g.Presents vs log entry exit) (hresolve : setting.resolve = .ok context)
    (hq : q ∈ ofGraph entry) : ∃ answer, ∀ h : FlowGraph, h.Presents vs log entry exit →
      ∀ m, ((q.run (.of h) setting).apply m).1 = .ok answer := by
  simp only [ofGraph, List.mem_cons, List.not_mem_nil, or_false] at hq
  rcases hq with rfl | rfl | rfl | rfl | rfl
  · exact exists_answer_idoms hg hresolve
  · exact exists_answer_frontiers hg hresolve (by simp)
  · exact exists_answer_frontiers hg hresolve (by simp)
  · exact exists_answer_postIdoms hg hresolve
  · exact exists_answer_postFrontiers hg hresolve

end Query

/-! ## Three stores -/

section Stores

variable {es : List Edge} {entry : Value} {exit : Option Value}
variable (hends : ∀ e ∈ es, ∀ v ∈ e.ends, v ≠ .null) (hentry : entry ≠ .null)
variable (hexit : ∀ x ∈ exit, x ≠ .null)
include hends hentry hexit

theorem Adjacency.exists_ofEdges_ok : ∃ g, Adjacency.ofEdges (es.map Edge.pair) entry exit [] = .ok g ∧
    g.graph.Presents (Edge.mentioned entry es exit) es entry exit := by
  obtain ⟨u, g, hrun, hfilled⟩ :=
    Adjacency.records_fill hends hentry hexit (by simp : ∀ v ∈ ([] : List Value), v ≠ .null)
      .empty [] [] filled_empty
  have hkeys : g.outgoing.keys = Edge.mentioned entry es exit := by
    have hkeys := hfilled.keys_eq
    simp only [List.nil_append, ← List.cons_append] at hkeys
    rw [hkeys, Value.firsts_append_cons (Value.occursIn_of_mem (by simp))]
    rfl
  have hlog := hfilled.logged
  rw [List.nil_append] at hlog
  refine ⟨g, by simp only [ofEdges, build, hrun], ?_⟩
  exact {
    wellFormed := hlog.wellFormed
    vertices_eq := hkeys
    edge_iff := fun a b => FlowGraph.canonEdge_iff_of_log hlog.ends fun u hu => by
      simp [graph, row, hlog.outgoing_filed u hu]
    entry_eq := by simp [graph, hfilled.entry_eq]
    exit_eq := by simp [graph, hfilled.exit_eq]
    hasExit_eq := by simp [graph, hfilled.exit_eq]
    entry_mem := Edge.entry_mentioned
    exit_mem := Edge.exit_mentioned }

theorem LinkedGraph.exists_ofEdges_ok {σ : Type} {library : LinkLibrary σ} (h : library.Lawful)
    (parallel : Bool) :
    ∃ g, LinkedGraph.ofEdges library (es.map Edge.pair) entry exit parallel = .ok g ∧
      (g.graph library).Presents (Edge.mentioned entry es exit) es entry exit := by
  obtain ⟨s, hrun, hs⟩ := exists_ofEdges h hends hentry hexit parallel
  have hshows := showsLog (g := ⟨s, entry, exit⟩) h hs
    (Edge.null_not_mem_mentioned hends hentry hexit) Edge.ends_mentioned
  refine ⟨_, hrun, ?_⟩
  exact {
    wellFormed := hshows.wellFormed
    vertices_eq := h.nodes_by_first_mention hs
    edge_iff := fun a b => hshows.canonEdge_iff
    entry_eq := rfl
    exit_eq := rfl
    hasExit_eq := rfl
    entry_mem := Edge.entry_mentioned
    exit_mem := Edge.exit_mentioned }

end Stores

/-- With any library that keeps the laws, a linked graph answers as adjacency lists do, whether its
links are single or parallel. -/
theorem stores_interchangeable {σ : Type} {library : LinkLibrary σ} (hlibrary : library.Lawful)
    {es : List Edge} {entry : Value} {exit : Option Value} {setting : Setting} {context : Context}
    (hends : ∀ e ∈ es, ∀ v ∈ e.ends, v ≠ .null) (hentry : entry ≠ .null)
    (hexit : ∀ x ∈ exit, x ≠ .null) (hresolve : setting.resolve = .ok context) :
    ∃ lists single parallel,
      Adjacency.ofEdges (es.map Edge.pair) entry exit [] = .ok lists ∧
      LinkedGraph.ofEdges library (es.map Edge.pair) entry exit false = .ok single ∧
      LinkedGraph.ofEdges library (es.map Edge.pair) entry exit true = .ok parallel ∧
      lists.graph.vertices = Edge.mentioned entry es exit ∧
      (single.graph library).vertices = Edge.mentioned entry es exit ∧
      (parallel.graph library).vertices = Edge.mentioned entry es exit ∧
      ∀ q ∈ Query.ofGraph entry, ∃ answer, ∀ m,
        ((q.run (.of lists.graph) setting).apply m).1 = .ok answer ∧
        ((q.run (.of (single.graph library)) setting).apply m).1 = .ok answer ∧
        ((q.run (.of (parallel.graph library)) setting).apply m).1 = .ok answer := by
  obtain ⟨lists, hlists, hpresents⟩ := Adjacency.exists_ofEdges_ok hends hentry hexit
  obtain ⟨single, hsingle, hpresents₁⟩ :=
    LinkedGraph.exists_ofEdges_ok hends hentry hexit hlibrary false
  obtain ⟨parallel, hparallel, hpresents₂⟩ :=
    LinkedGraph.exists_ofEdges_ok hends hentry hexit hlibrary true
  refine ⟨lists, single, parallel, hlists, hsingle, hparallel, hpresents.vertices_eq,
    hpresents₁.vertices_eq, hpresents₂.vertices_eq, ?_⟩
  intro q hq
  obtain ⟨answer, hanswer⟩ := Query.exists_answer hpresents hresolve hq
  exact ⟨answer, fun m => ⟨hanswer _ hpresents m, hanswer _ hpresents₁ m,
    hanswer _ hpresents₂ m⟩⟩

/-- Parallel edges that stand apart and spell a vertex in two ways, and a vertex out of reach. -/
def spelledTwice : List Edge :=
  [⟨.str "a", .int 1⟩, ⟨.str "a", .str "b"⟩, ⟨.str "b", .bool true⟩, ⟨.str "a", .bool true⟩,
    ⟨.int 1, .str "a"⟩, ⟨.str "lost", .int 1⟩]

theorem stores_interchangeable_spelledTwice :
    Neighbours.library.Lawful ∧ (∀ e ∈ spelledTwice, ∀ v ∈ e.ends, v ≠ .null) ∧
    ∃ lists single parallel,
      Adjacency.ofEdges (spelledTwice.map Edge.pair) (.str "a") (some (.bool true)) [] =
        .ok lists ∧
      LinkedGraph.ofEdges Neighbours.library (spelledTwice.map Edge.pair) (.str "a")
        (some (.bool true)) false = .ok single ∧
      LinkedGraph.ofEdges Neighbours.library (spelledTwice.map Edge.pair) (.str "a")
        (some (.bool true)) true = .ok parallel ∧
      lists.graph.vertices = [.str "a", .int 1, .str "b", .str "lost"] ∧
      (single.graph Neighbours.library).vertices = [.str "a", .int 1, .str "b", .str "lost"] ∧
      (parallel.graph Neighbours.library).vertices = [.str "a", .int 1, .str "b", .str "lost"] ∧
      ∀ q ∈ Query.ofGraph (.str "a"), ∃ answer, ∀ m,
        ((q.run (.of lists.graph) .standard).apply m).1 = .ok answer ∧
        ((q.run (.of (single.graph Neighbours.library)) .standard).apply m).1 = .ok answer ∧
        ((q.run (.of (parallel.graph Neighbours.library)) .standard).apply m).1 = .ok answer := by
  have hends : ∀ e ∈ spelledTwice, ∀ v ∈ e.ends, v ≠ .null := by decide
  have hresolve : Setting.standard.resolve = .ok (.ofConfig .default) := rfl
  exact ⟨Neighbours.library_lawful, hends,
    stores_interchangeable Neighbours.library_lawful hends (by decide) (by decide) hresolve⟩

end FlowDominance
