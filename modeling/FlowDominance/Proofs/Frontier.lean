import FlowDominance.Proofs.FrontierWalk

/-!
# Frontiers and their definition

The walk never asks for dominance.  It climbs the dominator tree from the source of every edge `p → n`
and stops at `n` or at its immediate dominator.  Up to there it passes exactly the dominators of `p`
that do not dominate `n`.
-/

namespace FlowDominance

namespace FlowGraph

variable {g : FlowGraph} {entry d n r v x : Value} {idoms : IdomMap}

def StrictlyDominates (g : FlowGraph) (entry d v : Value) : Prop :=
  d.same v = false ∧ g.Dominates entry d v

structure InFrontier (g : FlowGraph) (entry x n : Value) : Prop where
  reachable : g.Reaches entry n
  not_same : n.same x = false
  exists_source : ∃ p, g.Adjacent p n ∧ g.Reaches entry p ∧ g.Dominates entry x p
  not_strict : ¬g.StrictlyDominates entry x n

noncomputable def frontierAmong (g : FlowGraph) (entry x : Value) (vs : List Value) : List Value :=
  open Classical in vs.filter fun n => decide (g.InFrontier entry x n)

theorem mem_frontierAmong {vs : List Value} :
    n ∈ g.frontierAmong entry x vs ↔ n ∈ vs ∧ g.InFrontier entry x n := by
  simp [frontierAmong]

noncomputable def frontierTable (g : FlowGraph) (entry : Value) : FrontierMap where
  entries := (Value.firsts g.vertices).map fun x =>
    (x, g.frontierAmong entry x (Value.firsts g.vertices))
  distinct := by simpa [Function.comp_def] using distinct_firsts g.vertices

theorem InFrontier.congr (hwf : g.WellFormed) (hentry : g.contains entry = true)
    (h : g.InFrontier entry x n) (hnv : n.canon = v.canon) : g.InFrontier entry x v := by
  obtain ⟨p, hedge, hp, hdom⟩ := h.exists_source
  exact {
    reachable := (reaches_congr hwf hentry hnv).1 h.reachable
    not_same := by
      have := h.not_same
      rwa [Value.same, hnv] at this
    exists_source :=
      ⟨p, hwf.adjacent_congr (contains_of_reaches hwf hentry hp) rfl hnv hedge, hp, hdom⟩
    not_strict := by
      rintro ⟨hne, hstrict⟩
      refine h.not_strict ⟨?_, (dominates_congr hwf hentry rfl hnv).2 hstrict⟩
      rwa [Value.same, hnv] }

/-! ## Depth in the dominator tree -/

noncomputable def depth (g : FlowGraph) (entry v : Value) : Nat :=
  open Classical in g.vertices.countP fun x => decide (g.Dominates entry x v)

theorem countP_lt {p q : Value → Bool} {vs : List Value} (h : ∀ x ∈ vs, p x = true → q x = true)
    (hx : x ∈ vs) (hp : p x = false) (hq : q x = true) : vs.countP p < vs.countP q := by
  obtain ⟨before, after, rfl⟩ := List.append_of_mem hx
  have hbefore := List.countP_mono_left (l := before)
    fun y hy => h y (by simp [hy] : y ∈ before ++ x :: after)
  have hafter := List.countP_mono_left (l := after)
    fun y hy => h y (by simp [hy] : y ∈ before ++ x :: after)
  simp only [List.countP_append, List.countP_cons, hp, hq]
  simp
  omega

/-! ## The tree -/

/-- What stands above `v` in the dominator tree: nothing only if `v` is the entry. -/
def Above (g : FlowGraph) (entry v : Value) : Option Value → Prop
  | none => v.canon = entry.canon
  | some d => g.ImmediateDominator entry d v

section Tree

variable (hwf : g.WellFormed) (hentry : g.contains entry = true)
include hwf hentry

theorem depth_lt (h : g.ImmediateDominator entry d v) (hv : g.Reaches entry v) :
    g.depth entry d < g.depth entry v := by
  obtain ⟨w, hw, hcanon⟩ :=
    Value.occursIn_iff.1 (contains_of_reaches hwf hentry hv)
  refine countP_lt (x := w) ?_ hw ?_ ?_
  · intro x _ hx
    simp only [decide_eq_true_eq] at hx ⊢
    exact hx.trans hwf hentry h.dominates
  · have : ¬g.Dominates entry w d := by
      intro hwd
      have hvd := (dominates_congr hwf hentry hcanon rfl).2 hwd
      have hsame := h.dominates.antisymm hwf hentry hvd hv
      simpa [Value.same, hsame] using h.not_same
    simp [this]
  · have : g.Dominates entry w v :=
      (dominates_congr hwf hentry hcanon rfl).1 (dominates_self hwf hentry)
    simp [this]

theorem Above.dominates_iff {o : Option Value} (h : g.Above entry v o) :
    g.Dominates entry x v ↔ x.canon = v.canon ∨ ∃ d, o = some d ∧ g.Dominates entry x d := by
  have hself : x.canon = v.canon → g.Dominates entry x v := by
    intro hcanon
    exact (dominates_congr hwf hentry hcanon rfl).2 (dominates_self hwf hentry)
  cases o with
  | none =>
      have hcanon : v.canon = entry.canon := h
      simp only [reduceCtorEq, false_and, exists_false, or_false]
      constructor
      · intro hdom
        rw [dominates_congr hwf hentry rfl hcanon] at hdom
        rw [hdom.same_entry hwf hentry, hcanon]
      · exact hself
  | some d =>
      have himm : g.ImmediateDominator entry d v := h
      simp only [Option.some.injEq, exists_eq_left']
      constructor
      · intro hdom
        by_cases hsame : x.canon = v.canon
        · exact .inl hsame
        · exact .inr (himm.closest x (by simpa [Value.same] using hsame) hdom)
      · rintro (hcanon | hdom)
        · exact hself hcanon
        · exact hdom.trans hwf hentry himm.dominates

theorem DominatorTree.get_cases (htree : g.DominatorTree entry idoms)
    (hv : g.contains v = true) : ∃ o, idoms.get? v = some o ∧
      (g.Reaches entry v ∧ Frontier.skipped entry v o = false ∧ g.Above entry v o ∨
        ¬g.Reaches entry v ∧ Frontier.skipped entry v o = true) := by
  cases hsame : v.same entry with
  | true =>
      have hcanon := Value.same_iff.1 hsame
      refine ⟨none, (Table.get?_congr hcanon).trans htree.at_entry, .inl ⟨?_, ?_, hcanon⟩⟩
      · exact (reaches_congr hwf hentry hcanon).2 (reaches_self hwf hentry)
      · simp [Frontier.skipped, hsame]
  | false =>
      by_cases hreach : g.Reaches entry v
      · obtain ⟨d, -, hget, himm⟩ := htree.reachable v hsame hreach
        exact ⟨some d, hget, .inl ⟨hreach, by simp [Frontier.skipped], himm⟩⟩
      · exact ⟨none, htree.unreachable v hv hreach, .inr ⟨hreach, by simp [Frontier.skipped, hsame]⟩⟩

theorem DominatorTree.above_of_counts {o : Option Value} (htree : g.DominatorTree entry idoms)
    (hv : g.contains v = true) (hget : idoms.get? v = some o)
    (hcounts : Frontier.skipped entry v o = false) : g.Reaches entry v ∧ g.Above entry v o := by
  obtain ⟨o', hget', hcases⟩ := htree.get_cases hwf hentry hv
  cases hget.symm.trans hget'
  rcases hcases with ⟨hreach, -, habove⟩ | ⟨-, hskipped⟩
  · exact ⟨hreach, habove⟩
  · simp [hcounts] at hskipped

theorem DominatorTree.exists_counts (htree : g.DominatorTree entry idoms)
    (hreach : g.Reaches entry v) : ∃ o, idoms.get? v = some o ∧
      Frontier.skipped entry v o = false ∧ g.Above entry v o := by
  obtain ⟨o, hget, hcases⟩ := htree.get_cases hwf hentry (contains_of_reaches hwf hentry hreach)
  rcases hcases with ⟨-, hcounts⟩ | ⟨hnot, -⟩
  · exact ⟨o, hget, hcounts⟩
  · exact absurd hreach hnot

end Tree

end FlowGraph

/-! ## The walk -/

namespace Frontier

variable {g : FlowGraph} {entry n r x : Value} {idoms : IdomMap} {idom : Option Value} {e : Edge}

section Walk

variable (hwf : g.WellFormed) (hentry : g.contains entry = true)
variable (htree : g.DominatorTree entry idoms)
include hwf hentry

/-- A climb that has not met a strict dominator of `n` above its runner stops where only dominators
of `n` are left. -/
theorem dominates_of_stops (hidom : g.Above entry n idom)
    (hstops : stops idom n r = true) (hx : g.Dominates entry x r) : g.Dominates entry x n := by
  simp only [stops, Bool.or_eq_true, Option.any_eq_true] at hstops
  rcases hstops with hsame | ⟨d, rfl, hsame⟩
  · exact (FlowGraph.dominates_congr hwf hentry rfl (Value.same_iff.1 hsame)).1 hx
  · have himm : g.ImmediateDominator entry d n := hidom
    rw [FlowGraph.dominates_congr hwf hentry rfl (Value.same_iff.1 hsame)] at hx
    exact hx.trans hwf hentry himm.dominates

theorem not_dominates_of_not_stops (hidom : g.Above entry n idom)
    (hstops : stops idom n r = false) (hr : g.Reaches entry r)
    (hbelow : ∀ x, x.same n = false → g.Dominates entry x n → g.Dominates entry x r) :
    ¬g.Dominates entry r n := by
  simp only [stops, Bool.or_eq_false_iff, Option.any_eq_false] at hstops
  intro hrn
  rcases (hidom.dominates_iff hwf hentry).1 hrn with hsame | ⟨d, rfl, hrd⟩
  · simp [Value.same, hsame] at hstops
  · -- the runner and the immediate dominator of `n` dominate each other
    have himm : g.ImmediateDominator entry d n := hidom
    have hdr := hbelow d himm.not_same himm.dominates
    have hsame := hdr.antisymm hwf hentry hrd hr
    simpa [Value.same, hsame] using hstops.2 d rfl

include htree

theorem exists_climbs (hidom : g.Above entry n idom) (hr : g.Reaches entry r)
    (hbelow : ∀ x, x.same n = false → g.Dominates entry x n → g.Dominates entry x r) :
    ∃ passed o, Climbs g idoms n idom (some r) passed o ∧ Over n idom o ∧
      ∀ x, x.occursIn passed = true ↔ g.Dominates entry x r ∧ ¬g.Dominates entry x n := by
  induction hdepth : g.depth entry r using Nat.strong_induction_on generalizing r with
  | _ depth ih =>
      cases hstops : stops idom n r with
      | true =>
          refine ⟨[], some r, .here, hstops, fun x => ⟨by simp [Value.occursIn], ?_⟩⟩
          rintro ⟨hxr, hxn⟩
          exact absurd (dominates_of_stops hwf hentry hidom hstops hxr) hxn
      | false =>
          have hrn := not_dominates_of_not_stops hwf hentry hidom hstops hr hbelow
          have hself : ∀ x, x.canon = r.canon → ¬g.Dominates entry x n := by
            intro x hx hxn
            exact hrn ((FlowGraph.dominates_congr hwf hentry hx rfl).1 hxn)
          obtain ⟨o, hget, -, habove⟩ := htree.exists_counts hwf hentry hr
          have hpass : Passes g idoms n idom r o :=
            ⟨hstops, FlowGraph.contains_of_reaches hwf hentry hr, hget⟩
          cases o with
          | none =>
              refine ⟨[r], none, .pass hpass .here, trivial, fun x => ?_⟩
              rw [habove.dominates_iff hwf hentry]
              simpa [Value.occursIn, Value.same_iff] using hself x
          | some d =>
              have himm : g.ImmediateDominator entry d r := habove
              have hbelow' : ∀ x, x.same n = false → g.Dominates entry x n →
                  g.Dominates entry x d := by
                intro x hx hxn
                refine himm.closest x ?_ (hbelow x hx hxn)
                rw [Bool.eq_false_iff]
                exact fun hsame => hself x (Value.same_iff.1 hsame) hxn
              obtain ⟨passed, o', hclimbs, hover, hpassed⟩ :=
                ih _ (hdepth ▸ FlowGraph.depth_lt hwf hentry himm hr)
                  (himm.dominates.reaches hwf hentry hr) hbelow' rfl
              refine ⟨r :: passed, o', .pass hpass hclimbs, hover, fun x => ?_⟩
              rw [Value.occursIn_cons, Bool.or_eq_true, Value.same_iff, hpassed x,
                habove.dominates_iff hwf hentry]
              simp only [Option.some.injEq, exists_eq_left']
              have := hself x
              tauto

theorem exists_climbs_edge (hidom : g.Above entry n idom) (hsource : g.Reaches entry e.source)
    (hedge : g.Adjacent e.source n) : ∃ passed o,
      Climbs g idoms n idom e.source.present? passed o ∧ Over n idom o ∧
      ∀ x, x.occursIn passed = true ↔ g.Dominates entry x e.source ∧ ¬g.Dominates entry x n := by
  have hcontains := FlowGraph.contains_of_reaches hwf hentry hsource
  rw [Value.present?_of_ne_null (hwf.ne_null hcontains)]
  refine exists_climbs hwf hentry htree hidom hsource ?_
  intro x hx hxn
  exact hxn.of_adjacent hwf hentry hx hcontains hedge

theorem edgeHits_iff (hidom : g.Above entry n idom) (hsource : g.contains e.source = true)
    (hedge : g.Adjacent e.source n) : EdgeHits g entry idoms n idom x e ↔
      g.Reaches entry e.source ∧ g.Dominates entry x e.source ∧ ¬g.Dominates entry x n := by
  constructor
  · rintro ⟨above, passed, o, hget, hcounts, hclimbs, hx⟩
    obtain ⟨hreach, -⟩ := htree.above_of_counts hwf hentry hsource hget hcounts
    obtain ⟨passed', o', hclimbs', hover, hpassed⟩ :=
      exists_climbs_edge hwf hentry htree hidom hreach hedge
    have hx' := (hclimbs'.exists_occursIn_iff hover.not_passes).1 ⟨passed, o, hclimbs, hx⟩
    exact ⟨hreach, (hpassed x).1 hx'⟩
  · rintro ⟨hreach, hx⟩
    obtain ⟨above, hget, hcounts, -⟩ := htree.exists_counts hwf hentry hreach
    obtain ⟨passed, o, hclimbs, -, hpassed⟩ :=
      exists_climbs_edge hwf hentry htree hidom hreach hedge
    exact ⟨above, passed, o, hget, hcounts, hclimbs, (hpassed x).2 hx⟩

theorem not_edgeFails {fault : Fault} (hidom : g.Above entry n idom)
    (hsource : g.contains e.source = true) (hedge : g.Adjacent e.source n) :
    ¬EdgeFails g entry idoms n idom e fault := by
  intro hfails
  cases hfails with
  | missing hget =>
      obtain ⟨o, hget', -⟩ := htree.get_cases hwf hentry hsource
      simp [hget] at hget'
  | walk hget hcounts hwalk =>
      obtain ⟨hreach, -⟩ := htree.above_of_counts hwf hentry hsource hget hcounts
      obtain ⟨passed, o, hclimbs, hover, -⟩ :=
        exists_climbs_edge hwf hentry htree hidom hreach hedge
      exact hclimbs.not_walkFails hover hwalk

theorem not_vertexFails {fault : Fault} (hn : g.contains n = true) :
    ¬VertexFails g entry idoms n fault := by
  intro hfails
  cases hfails with
  | missing hget =>
      obtain ⟨o, hget', -⟩ := htree.get_cases hwf hentry hn
      simp [hget] at hget'
  | edge hget hcounts hins hfirst =>
      obtain ⟨-, hidom⟩ := htree.above_of_counts hwf hentry hn hget hcounts
      obtain ⟨done, e, rest, rfl, -, hfails⟩ := hfirst
      obtain ⟨hsource, hedge⟩ := hwf.adjacent_of_inEdge hn hins (e := e) (by simp)
      exact not_edgeFails hwf hentry htree hidom hsource hedge hfails

theorem hits_iff_inFrontier (hn : g.contains n = true) :
    Hits g entry idoms x n ↔ g.InFrontier entry x n := by
  constructor
  · rintro ⟨idom, ins, hget, hcounts, hins, e, he, hhits⟩
    obtain ⟨hreach, hidom⟩ := htree.above_of_counts hwf hentry hn hget hcounts
    obtain ⟨hsource, hedge⟩ := hwf.adjacent_of_inEdge hn hins he
    obtain ⟨hp, hdom, hnot⟩ := (edgeHits_iff hwf hentry htree hidom hsource hedge).1 hhits
    refine ⟨hreach, ?_, ⟨e.source, hedge, hp, hdom⟩, fun hstrict => hnot hstrict.2⟩
    rw [Bool.eq_false_iff]
    intro hsame
    exact hnot ((FlowGraph.dominates_congr hwf hentry (Value.same_iff.1 hsame) rfl).1
      (FlowGraph.dominates_self hwf hentry))
  · rintro ⟨hreach, hne, ⟨p, hadjacent, hp, hdom⟩, hnot⟩
    obtain ⟨idom, hget, hcounts, hidom⟩ := htree.exists_counts hwf hentry hreach
    obtain ⟨ins, hins, -⟩ := hwf.exists_in n hn
    have hcontains := FlowGraph.contains_of_reaches hwf hentry hp
    obtain ⟨e, he, hsame⟩ := (hwf.adjacent_iff hcontains hn hins).1 hadjacent
    have hcanon := Value.same_iff.1 hsame
    obtain ⟨hsource, hedge⟩ := hwf.adjacent_of_inEdge hn hins he
    refine ⟨idom, ins, hget, hcounts, hins, e, he,
      (edgeHits_iff hwf hentry htree hidom hsource hedge).2
        ⟨(FlowGraph.reaches_congr hwf hentry hcanon).2 hp,
          (FlowGraph.dominates_congr hwf hentry rfl hcanon).2 hdom, fun h => hnot ⟨?_, h⟩⟩⟩
    rwa [Value.same_comm]

theorem hitsAmong_eq : hitsAmong g entry idoms x g.vertices =
    g.frontierAmong entry x (Value.firsts g.vertices) := by
  classical
  have hhits : g.vertices.filter (fun n => decide (Hits g entry idoms x n)) =
      g.vertices.filter fun n => decide (g.InFrontier entry x n) := by
    refine List.filter_congr ?_
    intro n hn
    simp [hits_iff_inFrontier hwf hentry htree (FlowGraph.contains_of_mem hn)]
  unfold hitsAmong FlowGraph.frontierAmong
  rw [hhits]
  refine Value.firsts_filter ?_ g.vertices
  intro u v huv
  rw [decide_eq_decide]
  exact ⟨fun h => h.congr hwf hentry huv, fun h => h.congr hwf hentry huv.symm⟩

theorem walkFrontiers_eq (pruneEmpty : Bool) : walkFrontiers g entry idoms pruneEmpty =
    .ok (if pruneEmpty then (g.frontierTable entry).prune else g.frontierTable entry) := by
  have hins : ∀ n ∈ g.vertices, ∃ ins, g.inEdges n = .ok ins := by
    intro n hn
    obtain ⟨ins, hins, -⟩ := hwf.exists_in n (FlowGraph.contains_of_mem hn)
    exact ⟨ins, hins⟩
  have hnone : ∀ fault, ¬FirstFails (VertexFails g entry idoms) g.vertices fault := by
    rintro fault ⟨done, n, rest, hsplit, -, hfails⟩
    have hn : g.contains n = true := FlowGraph.contains_of_mem (by simp [hsplit])
    exact not_vertexFails hwf hentry htree hn hfails
  have htable : hitTable g entry idoms = g.frontierTable entry := by
    simp only [hitTable, FlowGraph.frontierTable, hitsAmong_eq hwf hentry htree]
  rw [walkFrontiers_of_not_firstFails hins pruneEmpty hnone, htable]

end Walk

end Frontier

end FlowDominance
