import FlowDominance.Proofs.DominanceFrontiers

/-!
# Live edges

An edge bears on dominance only if it joins two different vertices and its source can be reached.
Graphs that list the same vertices and share these live edges have the same paths up to waiting at a
vertex, hence the same dominators and the same frontiers.  Neither the order nor the number of the
edges matters, although a search goes another way and meets other semidominators.
-/

namespace FlowDominance

namespace FlowGraph

variable {g h : FlowGraph} {entry d n u v x : Value} {P : Value → Prop} {idoms idoms' : IdomMap}

/-- An edge to another vertex, out of a vertex that the entry reaches. -/
def Live (g : FlowGraph) (entry u v : Value) : Prop :=
  u.same v = false ∧ g.Reaches entry u ∧ g.Adjacent u v

structure AlikeFrom (g h : FlowGraph) (entry : Value) : Prop where
  vertices_eq : g.vertices = h.vertices
  live_iff : ∀ u v, g.Live entry u v ↔ h.Live entry u v

namespace AlikeFrom

theorem symm (halike : g.AlikeFrom h entry) : h.AlikeFrom g entry :=
  ⟨halike.vertices_eq.symm, fun u v => (halike.live_iff u v).symm⟩

theorem contains_eq (halike : g.AlikeFrom h entry) (v : Value) : g.contains v = h.contains v := by
  rw [contains, contains, halike.vertices_eq]

end AlikeFrom

/-! ## Paths along live edges -/

section Alike

variable (halike : g.AlikeFrom h entry) (hg : g.WellFormed) (hentry : g.contains entry = true)

namespace AlikeFrom

include halike hg hentry in
theorem through (hpath : Through g.canonEdge P entry.canon x) :
    Through h.canonEdge P entry.canon x := by
  refine hpath.of_live ?_
  rintro _ _ hne hreach ⟨u, v, hu, rfl, rfl, huv⟩
  have hlive : h.Live entry u v := by
    rw [← halike.live_iff]
    exact ⟨by simpa [Value.same] using hne, (reaches_iff hg hentry).2 hreach, huv⟩
  exact ⟨u, v, halike.contains_eq u ▸ hu, rfl, rfl, hlive.2.2⟩

variable (hh : h.WellFormed)
include halike hg hentry hh

theorem through_iff : Through g.canonEdge P entry.canon x ↔ Through h.canonEdge P entry.canon x :=
  ⟨halike.through hg hentry,
    halike.symm.through hh (halike.contains_eq entry ▸ hentry)⟩

theorem reaches_iff : g.Reaches entry v ↔ h.Reaches entry v := by
  rw [FlowGraph.reaches_iff hg hentry,
    FlowGraph.reaches_iff hh (halike.contains_eq entry ▸ hentry)]
  exact halike.through_iff hg hentry hh

theorem dominates_iff : g.Dominates entry d v ↔ h.Dominates entry d v := by
  rw [FlowGraph.dominates_iff hg hentry,
    FlowGraph.dominates_iff hh (halike.contains_eq entry ▸ hentry)]
  exact not_congr (halike.through_iff hg hentry hh)

/-! ## Dominators and frontiers -/

theorem immediateDominator (himm : g.ImmediateDominator entry d v) :
    h.ImmediateDominator entry d v where
  not_same := himm.not_same
  dominates := (halike.dominates_iff hg hentry hh).1 himm.dominates
  closest := by
    intro u hne hdom
    rw [← halike.dominates_iff hg hentry hh] at hdom ⊢
    exact himm.closest u hne hdom

theorem dominatorTree (htree : g.DominatorTree entry idoms) : h.DominatorTree entry idoms where
  keys := halike.vertices_eq ▸ htree.keys
  at_entry := htree.at_entry
  unreachable := by
    intro v hv hnot
    rw [← halike.contains_eq] at hv
    rw [← halike.reaches_iff hg hentry hh] at hnot
    exact htree.unreachable v hv hnot
  reachable := by
    intro v hne hreach
    rw [← halike.reaches_iff hg hentry hh] at hreach
    obtain ⟨d, hd, hget, himm⟩ := htree.reachable v hne hreach
    exact ⟨d, halike.vertices_eq ▸ hd, hget, halike.immediateDominator hg hentry hh himm⟩

theorem inFrontier (hin : g.InFrontier entry x n) : h.InFrontier entry x n := by
  obtain ⟨p, hedge, hp, hdom⟩ := hin.exists_source
  have hlive : g.Live entry p n := by
    refine ⟨?_, hp, hedge⟩
    rw [Bool.eq_false_iff]
    intro hsame
    refine hin.not_strict ⟨?_, ?_⟩
    · rw [Value.same_comm]
      exact hin.not_same
    · exact (dominates_congr hg hentry rfl (Value.same_iff.1 hsame)).1 hdom
  obtain ⟨-, hp', hedge'⟩ := (halike.live_iff p n).1 hlive
  exact {
    reachable := (halike.reaches_iff hg hentry hh).1 hin.reachable
    not_same := hin.not_same
    exists_source := ⟨p, hedge', hp', (halike.dominates_iff hg hentry hh).1 hdom⟩
    not_strict := fun hstrict => hin.not_strict
      ⟨hstrict.1, (halike.dominates_iff hg hentry hh).2 hstrict.2⟩ }

theorem frontierAmong_eq (x : Value) (vs : List Value) :
    g.frontierAmong entry x vs = h.frontierAmong entry x vs := by
  unfold frontierAmong
  apply List.filter_congr
  intro n _
  rw [decide_eq_decide]
  exact ⟨halike.inFrontier hg hentry hh,
    halike.symm.inFrontier hh (halike.contains_eq entry ▸ hentry) hg⟩

theorem frontierTable_eq : g.frontierTable entry = h.frontierTable entry := by
  simp only [frontierTable, halike.vertices_eq, halike.frontierAmong_eq hg hentry hh]

end AlikeFrom

end Alike

/-! ## Closed parts -/

/-- It is enough to compare the edges inside a part of the graphs that holds the entry and is not
left. -/
theorem live_of_closed (S : Value → Prop) (hg : g.WellFormed) (hh : h.WellFormed)
    (hentry : g.contains entry = true) (hentry' : h.contains entry = true) (hS : S entry.canon)
    (hclosed : ∀ a b, S a → g.canonEdge a b → S b ∧ (a ≠ b → h.canonEdge a b))
    (hlive : g.Live entry u v) : h.Live entry u v := by
  obtain ⟨hne, hreach, hedge⟩ := hlive
  have hinside : ∀ b, FlowDominance.Reaches g.canonEdge entry.canon b →
      S b ∧ FlowDominance.Reaches h.canonEdge entry.canon b := by
    intro b hb
    induction hb with
    | refl _ => exact ⟨hS, .refl trivial⟩
    | @step b c _ hbc _ ih =>
        obtain ⟨hc, hmoved⟩ := hclosed b c ih.1 hbc
        by_cases heq : b = c
        · exact heq ▸ ih
        · exact ⟨hc, ih.2.step (hmoved heq) trivial⟩
  obtain ⟨hu, hreach'⟩ := hinside u.canon ((reaches_iff hg hentry).1 hreach)
  have hcontains := contains_of_reaches hg hentry hreach
  obtain ⟨w, x, hw, hwu, hxv, hwx⟩ := (hclosed u.canon v.canon hu ⟨u, v, hcontains, rfl, rfl, hedge⟩).2
    (by simpa [Value.same] using hne)
  exact ⟨hne, (reaches_iff hh hentry').2 hreach', hh.adjacent_congr hw hwu hxv hwx⟩

theorem alikeFrom_of_canonEdge_eq (hg : g.WellFormed) (hh : h.WellFormed)
    (hvertices : g.vertices = h.vertices) (hedges : g.canonEdge = h.canonEdge)
    (hentry : g.contains entry = true) : g.AlikeFrom h entry := by
  have hentry' : h.contains entry = true := by rwa [contains, ← hvertices]
  refine ⟨hvertices, fun u v => ⟨?_, ?_⟩⟩
  · refine live_of_closed (fun _ => True) hg hh hentry hentry' trivial ?_
    intro a b _ hab
    exact ⟨trivial, fun _ => hedges ▸ hab⟩
  · refine live_of_closed (fun _ => True) hh hg hentry' hentry trivial ?_
    intro a b _ hab
    exact ⟨trivial, fun _ => hedges ▸ hab⟩

theorem DominatorTree.unique (hwf : g.WellFormed) (hentry : g.contains entry = true)
    (htree : g.DominatorTree entry idoms) (htree' : g.DominatorTree entry idoms') :
    idoms = idoms' := by
  apply Table.ext_get? (htree.keys.trans htree'.keys.symm)
  intro v hv
  rw [htree.keys] at hv
  have hcontains : g.contains v = true :=
    contains_of_mem ((Value.firsts_sublist g.vertices).subset hv)
  cases hsame : v.same entry with
  | true =>
      have hcanon := Value.same_iff.1 hsame
      rw [Table.get?_congr hcanon, Table.get?_congr hcanon, htree.at_entry, htree'.at_entry]
  | false =>
      by_cases hreach : g.Reaches entry v
      · obtain ⟨d, hd, hget, himm⟩ := htree.reachable v hsame hreach
        obtain ⟨d', hd', hget', himm'⟩ := htree'.reachable v hsame hreach
        have hcanon : d.canon = d'.canon :=
          (himm'.closest d himm.not_same himm.dominates).antisymm hwf hentry
            (himm.closest d' himm'.not_same himm'.dominates)
            (himm'.dominates.reaches hwf hentry hreach)
        rw [hget, hget', (distinct_firsts g.vertices).eq_of_canon hd hd' hcanon]
      · rw [htree.unreachable v hcontains hreach, htree'.unreachable v hcontains hreach]

end FlowGraph

theorem EdgeList.live_of_edges {g h : EdgeList} {entry u v : Value} (S : List Value)
    (hg : Value.null ∉ g.vertices ∧ ∀ e ∈ g.edges,
      e.source.occursIn g.vertices = true ∧ e.target.occursIn g.vertices = true)
    (hh : Value.null ∉ h.vertices ∧ ∀ e ∈ h.edges,
      e.source.occursIn h.vertices = true ∧ e.target.occursIn h.vertices = true)
    (hentry : entry.occursIn g.vertices = true) (hentry' : entry.occursIn h.vertices = true)
    (hS : entry.canon ∈ S)
    (hedges : ∀ e ∈ g.edges, e.source.canon ∈ S → e.target.canon ∈ S ∧
      (e.source.canon ≠ e.target.canon →
        ∃ f ∈ h.edges, f.source.canon = e.source.canon ∧ f.target.canon = e.target.canon))
    (hlive : g.graph.Live entry u v) : h.graph.Live entry u v := by
  refine FlowGraph.live_of_closed (· ∈ S) (g.graph_wellFormed hg.1 hg.2)
    (h.graph_wellFormed hh.1 hh.2) hentry hentry' hS ?_ hlive
  intro a b ha hab
  obtain ⟨e, he, rfl, rfl⟩ := (FlowGraph.canonEdge_iff_of_log hg.2 fun _ _ => rfl).1 hab
  obtain ⟨hb, hmoved⟩ := hedges e he ha
  refine ⟨hb, ?_⟩
  intro hne
  exact (FlowGraph.canonEdge_iff_of_log hh.2 fun _ _ => rfl).2 (hmoved hne)

/-! ## Analyses -/

namespace Analysis

variable {g h : FlowGraph} {entry : Value}

theorem exists_findFrom_alike (config config' : Config) (halike : g.AlikeFrom h entry)
    (hg : g.WellFormed) (hentry : g.contains entry = true) (hh : h.WellFormed) :
    ∃ idoms, findFrom g entry config = .ok idoms ∧ findFrom h entry config' = .ok idoms := by
  have hentry' : h.contains entry = true := halike.contains_eq entry ▸ hentry
  obtain ⟨idoms, hfind, htree⟩ := exists_findFrom_ok config hg hentry
  obtain ⟨idoms', hfind', htree'⟩ := exists_findFrom_ok config' hh hentry'
  have heq := (halike.dominatorTree hg hentry hh htree).unique hh hentry' htree'
  exact ⟨idoms, hfind, heq ▸ hfind'⟩

theorem walkFrom_alike {config config' : Config} (halike : g.AlikeFrom h entry)
    (hg : g.WellFormed) (hentry : g.contains entry = true) (hh : h.WellFormed)
    (hprune : config.pruneEmpty = config'.pruneEmpty) :
    walkFrom g entry config = walkFrom h entry config' := by
  rw [walkFrom_eq config hg hentry, walkFrom_eq config' hh (halike.contains_eq entry ▸ hentry),
    halike.frontierTable_eq hg hentry hh, hprune]

end Analysis

variable {v w : View} {entry : Value} {given given' : Option Value} {setting setting' : Setting}
variable {context context' : Context}

theorem analyses_by_live_edges (m m' : Monitor) (hv : v.graph.WellFormed)
    (hw : w.graph.WellFormed) (halike : v.graph.AlikeFrom w.graph entry)
    (hentry : v.graph.contains entry = true)
    (hgiven : Analysis.entryOr v.graph given = .ok entry)
    (hgiven' : Analysis.entryOr w.graph given' = .ok entry)
    (hresolve : setting.resolve = .ok context) (hresolve' : setting'.resolve = .ok context') :
    (∃ idoms, ((Analysis.idoms v entry setting).apply m).1 = .ok idoms ∧
      ((Analysis.idoms w entry setting').apply m').1 = .ok idoms) ∧
    (context.config.pruneEmpty = context'.config.pruneEmpty →
      ∃ frontiers, ((Analysis.frontiers v given setting).apply m).1 = .ok frontiers ∧
        ((Analysis.frontiers w given' setting').apply m').1 = .ok frontiers) := by
  constructor
  · simp only [Analysis.idoms_outcome, hresolve, hresolve', ok_bind]
    exact Analysis.exists_findFrom_alike _ _ halike hv hentry hw
  · intro hprune
    simp only [Analysis.frontiers_outcome, hgiven, hgiven', hresolve, hresolve', ok_bind]
    rw [← Analysis.walkFrom_alike halike hv hentry hw hprune]
    exact ⟨_, Analysis.walkFrom_eq _ hv hentry, Analysis.walkFrom_eq _ hv hentry⟩

/-- The edges of `loopToEntry` in another order, one of them twice, with the loop at another vertex and
other edges out of the vertex that nothing leads to. -/
def loopToEntryShuffled : EdgeList where
  vertices := [.str "a", .str "b", .int 1, .str "d", .str "lost"]
  edges :=
    [⟨.str "d", .str "a"⟩, ⟨.int 1, .str "d"⟩, ⟨.str "b", .str "d"⟩, ⟨.str "b", .str "d"⟩,
      ⟨.str "lost", .str "d"⟩, ⟨.str "a", .int 1⟩, ⟨.str "b", .str "b"⟩, ⟨.str "a", .str "b"⟩,
      ⟨.str "lost", .str "lost"⟩]
  entry? := some (.str "a")
  exit? := none

theorem loopToEntryShuffled_alike :
    loopToEntry.graph.AlikeFrom loopToEntryShuffled.graph (.str "a") where
  vertices_eq := rfl
  live_iff := by
    intro u v
    constructor
    · exact EdgeList.live_of_edges [.str "a", .str "b", .int 1, .str "d"] (by decide) (by decide)
        (by decide) (by decide) (by decide) (by decide)
    · exact EdgeList.live_of_edges [.str "a", .str "b", .int 1, .str "d"] (by decide) (by decide)
        (by decide) (by decide) (by decide) (by decide)

theorem analyses_by_live_edges_loopToEntry :
    loopToEntry.graph.AlikeFrom loopToEntryShuffled.graph (.str "a") ∧
    (∃ idoms, ((Analysis.idoms (.of loopToEntry.graph) (.str "a") .standard).apply
        (.new (.new false .console) .warning .steady)).1 = .ok idoms ∧
      ((Analysis.idoms (.of loopToEntryShuffled.graph) (.str "a")
        (.config ⟨.iterative, false, true⟩)).apply
          (.new (.new true .console) .debug .steady)).1 = .ok idoms) ∧
    ∃ frontiers, ((Analysis.frontiers (.of loopToEntry.graph) none .standard).apply
        (.new (.new false .console) .warning .steady)).1 = .ok frontiers ∧
      ((Analysis.frontiers (.of loopToEntryShuffled.graph) (some (.str "a"))
        (.config ⟨.iterative, false, true⟩)).apply
          (.new (.new true .console) .debug .steady)).1 = .ok frontiers := by
  have hstandard : Setting.standard.resolve = .ok (.ofConfig .default) := rfl
  have hiterative : (Setting.config ⟨.iterative, false, true⟩).resolve =
      .ok (.ofConfig ⟨.iterative, false, true⟩) := rfl
  have hwf : loopToEntryShuffled.graph.WellFormed :=
    loopToEntryShuffled.graph_wellFormed (by decide) (by decide)
  have hboth := analyses_by_live_edges (v := .of loopToEntry.graph)
    (w := .of loopToEntryShuffled.graph) (.new (.new false .console) .warning .steady)
    (.new (.new true .console) .debug .steady) loopToEntry_wellFormed hwf
    loopToEntryShuffled_alike (by decide) (rfl : Analysis.entryOr loopToEntry.graph none = _)
    (rfl : Analysis.entryOr loopToEntryShuffled.graph (some (.str "a")) = _) hstandard hiterative
  exact ⟨loopToEntryShuffled_alike, hboth.1, hboth.2 rfl⟩

end FlowDominance
