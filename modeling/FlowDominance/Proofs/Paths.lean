import FlowDominance.Graph.EdgeList
import FlowDominance.Proofs.Dominance
import FlowDominance.Proofs.Sameness

/-!
# Paths and dominators of a flow graph

Paths are lists of values, each joined to the next by an edge; where a path starts, where it ends and
what lies on it is meant up to sameness.  A graph is well-formed if both ways to read its edges tell
of the same edges, as often as they occur, and only of edges between its vertices.  Over canonical
forms its paths are the paths along a relation.
-/

namespace FlowDominance

namespace FlowGraph

variable {g : FlowGraph} {a b d u v w x : Value} {P : Value → Prop}

/-! ## Definitions -/

def Adjacent (g : FlowGraph) (u v : Value) : Prop :=
  ∃ row, g.outEdges u = .ok row ∧ ∃ e ∈ row, e.target.same v = true

def IsPath (g : FlowGraph) (a b : Value) (p : List Value) : Prop :=
  p.IsChain g.Adjacent ∧ (∃ x ∈ p.head?, x.same a = true) ∧ ∃ y ∈ p.getLast?, y.same b = true

def Reaches (g : FlowGraph) (a b : Value) : Prop := ∃ p, g.IsPath a b p

/-- `d` lies on every path from the entry to `v`. -/
def Dominates (g : FlowGraph) (entry d v : Value) : Prop :=
  ∀ p, g.IsPath entry v p → d.occursIn p = true

structure ImmediateDominator (g : FlowGraph) (entry d v : Value) : Prop where
  not_same : d.same v = false
  dominates : g.Dominates entry d v
  closest : ∀ u, u.same v = false → g.Dominates entry u v → g.Dominates entry u d

structure WellFormed (g : FlowGraph) : Prop where
  null_not_mem : Value.null ∉ g.vertices
  exists_out : ∀ u, g.contains u = true → ∃ row, g.outEdges u = .ok row ∧
    ∀ e ∈ row, e.source.same u = true ∧ g.contains e.target = true
  exists_in : ∀ v, g.contains v = true → ∃ row, g.inEdges v = .ok row ∧
    ∀ e ∈ row, e.target.same v = true ∧ g.contains e.source = true
  /-- An edge occurs among the edges out of its source as often as among those into its target. -/
  mirrored : ∀ (e : Edge) outs ins, g.contains e.source = true → g.contains e.target = true →
    g.outEdges e.source = .ok outs → g.inEdges e.target = .ok ins →
    outs.countP e.same = ins.countP e.same

/-! ## Edges of a well-formed graph -/

theorem contains_congr (h : u.canon = v.canon) : g.contains u = g.contains v :=
  Value.occursIn_congr h

theorem contains_of_mem (h : v ∈ g.vertices) : g.contains v = true := Value.occursIn_of_mem h

namespace WellFormed

theorem ne_null (h : g.WellFormed) (hv : g.contains v = true) : v ≠ .null := by
  rintro rfl
  obtain ⟨w, hw, hnull⟩ := Value.occursIn_iff.1 hv
  rw [Value.canon_eq_null_iff.1 hnull.symm] at hw
  exact h.null_not_mem hw

theorem contains_of_adjacent (h : g.WellFormed) (hu : g.contains u = true)
    (huv : g.Adjacent u v) : g.contains v = true := by
  obtain ⟨row, hrow, e, he, hsame⟩ := huv
  obtain ⟨row', hrow', hall⟩ := h.exists_out u hu
  rw [hrow, Except.ok.injEq] at hrow'
  rw [← contains_congr (Value.same_iff.1 hsame)]
  exact (hall e (hrow' ▸ he)).2

theorem adjacent_iff (h : g.WellFormed) (hu : g.contains u = true) (hv : g.contains v = true)
    {ins : List Edge} (hins : g.inEdges v = .ok ins) :
    g.Adjacent u v ↔ ∃ e ∈ ins, e.source.same u = true := by
  obtain ⟨outs, houts, hallOut⟩ := h.exists_out u hu
  obtain ⟨ins', hins', hallIn⟩ := h.exists_in v hv
  obtain rfl : ins = ins' := by simpa [hins] using hins'
  have hcount := h.mirrored ⟨u, v⟩ outs ins hu hv houts hins
  have hout : g.Adjacent u v ↔ 0 < outs.countP (Edge.same ⟨u, v⟩) := by
    rw [List.countP_pos_iff]
    constructor
    · rintro ⟨row, hrow, e, he, hsame⟩
      obtain rfl : outs = row := by simpa [houts] using hrow
      refine ⟨e, he, ?_⟩
      simp [Edge.same, Value.same_comm (u := u), Value.same_comm (u := v), hsame, (hallOut e he).1]
    · rintro ⟨e, he, hsame⟩
      simp only [Edge.same, Bool.and_eq_true] at hsame
      exact ⟨outs, houts, e, he, Value.same_symm hsame.2⟩
  rw [hout, hcount, List.countP_pos_iff]
  constructor
  · rintro ⟨e, he, hsame⟩
    simp only [Edge.same, Bool.and_eq_true] at hsame
    exact ⟨e, he, Value.same_symm hsame.1⟩
  · rintro ⟨e, he, hsame⟩
    refine ⟨e, he, ?_⟩
    simp [Edge.same, Value.same_comm (u := u), Value.same_comm (u := v), hsame, (hallIn e he).1]

theorem adjacent_of_inEdge (h : g.WellFormed) (hv : g.contains v = true) {ins : List Edge}
    (hins : g.inEdges v = .ok ins) {e : Edge} (he : e ∈ ins) :
    g.contains e.source = true ∧ g.Adjacent e.source v := by
  obtain ⟨ins', hins', hall⟩ := h.exists_in v hv
  obtain rfl : ins = ins' := by simpa [hins] using hins'
  have hsource := (hall e he).2
  exact ⟨hsource, (h.adjacent_iff hsource hv hins).2 ⟨e, he, Value.same_refl _⟩⟩

theorem adjacent_congr (h : g.WellFormed) (hu : g.contains u = true) (huw : u.canon = w.canon)
    (hvx : v.canon = x.canon) (huv : g.Adjacent u v) : g.Adjacent w x := by
  have hv := h.contains_of_adjacent hu huv
  have hw : g.contains w = true := contains_congr huw ▸ hu
  obtain ⟨ins, hins, -⟩ := h.exists_in v hv
  obtain ⟨e, he, hsame⟩ := (h.adjacent_iff hu hv hins).1 huv
  obtain ⟨row, hrow, f, hf, hfv⟩ := (h.adjacent_iff hw hv hins).2
    ⟨e, he, Value.same_trans hsame (Value.same_iff.2 huw)⟩
  exact ⟨row, hrow, f, hf, Value.same_trans hfv (Value.same_iff.2 hvx)⟩

end WellFormed

/-! ## Paths over canonical forms -/

def canonEdge (g : FlowGraph) (a b : Value) : Prop :=
  ∃ u v, g.contains u = true ∧ u.canon = a ∧ v.canon = b ∧ g.Adjacent u v

theorem IsPath.through {p : List Value} (hwf : g.WellFormed) (ha : g.contains a = true)
    (h : g.IsPath a b p) (hall : ∀ x ∈ p, P x.canon) : Through g.canonEdge P a.canon b.canon := by
  obtain ⟨hchain, ⟨x, hx, hxa⟩, y, hy, hyb⟩ := h
  rw [Value.same_iff] at hxa hyb
  rw [← hyb]
  induction p generalizing a x with
  | nil => simp at hx
  | cons z p ih =>
      obtain rfl : z = x := by simpa using hx
      cases p with
      | nil =>
          obtain rfl : z = y := by simpa using hy
          exact hxa ▸ .refl (hall z (by simp))
      | cons w p =>
          rw [List.isChain_cons_cons] at hchain
          have hz : g.contains z = true := contains_congr hxa ▸ ha
          have hw := hwf.contains_of_adjacent hz hchain.1
          have hedge : g.canonEdge a.canon w.canon := ⟨z, w, hz, hxa, rfl, hchain.1⟩
          have hrest := ih hw (fun v hv => hall v (by simp [hv])) hchain.2 w rfl rfl
            (by simpa using hy)
          exact hrest.head (hxa ▸ hall z (by simp)) hedge

theorem exists_path_of_through (hwf : g.WellFormed) (h : Through g.canonEdge P a.canon d) :
    ∃ (p : List Value) (y : Value), p.IsChain g.Adjacent ∧ (∃ x ∈ p.head?, x.same a = true) ∧ y ∈ p.getLast? ∧
      y.canon = d ∧ ∀ x ∈ p, P x.canon := by
  induction h with
  | refl ha => exact ⟨[a], a, .singleton a, ⟨a, rfl, by simp⟩, rfl, rfl, by simpa using ha⟩
  | @step b c _ hbc hc ih =>
      obtain ⟨p, y, hchain, hhead, hlast, rfl, hall⟩ := ih
      obtain ⟨u, v, hu, huy, rfl, huv⟩ := hbc
      have hyv : g.Adjacent y v := hwf.adjacent_congr hu huy rfl huv
      refine ⟨p ++ [v], v, List.isChain_append.2 ⟨hchain, .singleton v, ?_⟩, ?_, by simp, rfl, ?_⟩
      · intro x hx z hz
        obtain rfl : y = x := Option.mem_unique hlast hx
        obtain rfl : v = z := by simpa using hz
        exact hyv
      · obtain ⟨x, hx, hxa⟩ := hhead
        exact ⟨x, by simp [Option.mem_def.1 hx], hxa⟩
      · intro x hx
        rcases List.mem_append.1 hx with hx | hx
        · exact hall x hx
        · exact List.mem_singleton.1 hx ▸ hc

theorem through_iff (hwf : g.WellFormed) (ha : g.contains a = true) :
    Through g.canonEdge P a.canon b.canon ↔ ∃ p, g.IsPath a b p ∧ ∀ x ∈ p, P x.canon := by
  constructor
  · intro h
    obtain ⟨p, y, hchain, hhead, hlast, hcanon, hall⟩ := exists_path_of_through hwf h
    exact ⟨p, ⟨hchain, hhead, y, hlast, Value.same_iff.2 hcanon⟩, hall⟩
  · rintro ⟨p, hp, hall⟩
    exact hp.through hwf ha hall

theorem reaches_iff (hwf : g.WellFormed) (ha : g.contains a = true) :
    g.Reaches a b ↔ FlowDominance.Reaches g.canonEdge a.canon b.canon := by
  rw [FlowDominance.Reaches, through_iff hwf ha]
  simp [Reaches]

theorem dominates_iff (hwf : g.WellFormed) (ha : g.contains a = true) :
    g.Dominates a d v ↔ FlowDominance.Dominates g.canonEdge a.canon d.canon v.canon := by
  rw [FlowDominance.Dominates, through_iff hwf ha]
  push Not
  constructor
  · intro h p hp
    obtain ⟨x, hx, hdx⟩ := Value.occursIn_iff.1 (h p hp)
    exact ⟨x, hx, hdx.symm⟩
  · intro h p hp
    obtain ⟨x, hx, hxd⟩ := h p hp
    exact Value.occursIn_iff.2 ⟨x, hx, hxd.symm⟩

theorem immediateDominator_of_canon (hwf : g.WellFormed) (ha : g.contains a = true)
    (h : FlowDominance.ImmediateDominator g.canonEdge a.canon d.canon v.canon) :
    g.ImmediateDominator a d v where
  not_same := by simpa [Value.same] using h.ne
  dominates := (dominates_iff hwf ha).2 h.dominates
  closest := by
    intro u hu hdom
    exact (dominates_iff hwf ha).2
      (h.closest u.canon (by simpa [Value.same] using hu) ((dominates_iff hwf ha).1 hdom))

theorem contains_of_through (hwf : g.WellFormed) (ha : g.contains a = true)
    (h : Through g.canonEdge P a.canon d) (hb : b.canon = d) : g.contains b = true := by
  cases h with
  | refl _ => rw [contains_congr hb, ha]
  | step _ hedge _ =>
      obtain ⟨u, v, hu, -, hv, huv⟩ := hedge
      rw [contains_congr (hb.trans hv.symm), hwf.contains_of_adjacent hu huv]

theorem contains_of_reaches (hwf : g.WellFormed) (ha : g.contains a = true)
    (h : g.Reaches a b) : g.contains b = true :=
  contains_of_through hwf ha ((reaches_iff hwf ha).1 h) rfl

/-! ## Dominators of a well-formed graph -/

section Dominators

variable (hwf : g.WellFormed) (ha : g.contains a = true)
include hwf ha

theorem dominates_congr (hdu : d.canon = u.canon) (hvw : v.canon = w.canon) :
    g.Dominates a d v ↔ g.Dominates a u w := by
  rw [dominates_iff hwf ha, dominates_iff hwf ha, hdu, hvw]

theorem dominates_self : g.Dominates a v v :=
  (dominates_iff hwf ha).2 FlowDominance.dominates_self

theorem Dominates.trans (hdu : g.Dominates a d u) (huv : g.Dominates a u v) :
    g.Dominates a d v := by
  rw [dominates_iff hwf ha] at *
  exact FlowDominance.Dominates.trans hdu huv

theorem Dominates.same_entry (h : g.Dominates a d a) : d.canon = a.canon := by
  rw [dominates_iff hwf ha] at h
  by_contra hne
  exact h (.refl (Ne.symm hne))

theorem Dominates.of_adjacent (h : g.Dominates a d v) (hne : d.same v = false)
    (hu : g.contains u = true) (huv : g.Adjacent u v) : g.Dominates a d u := by
  rw [dominates_iff hwf ha] at *
  refine h.of_edge ?_ ⟨u, v, hu, rfl, rfl, huv⟩
  simpa [Value.same, eq_comm] using hne

theorem Dominates.antisymm (hdv : g.Dominates a d v) (hvd : g.Dominates a v d)
    (hv : g.Reaches a v) : d.canon = v.canon := by
  rw [dominates_iff hwf ha] at hdv hvd
  exact FlowDominance.Dominates.antisymm hdv hvd ((reaches_iff hwf ha).1 hv)

theorem Dominates.reaches (h : g.Dominates a d v) (hv : g.Reaches a v) : g.Reaches a d := by
  rw [dominates_iff hwf ha] at h
  rw [reaches_iff hwf ha] at *
  exact FlowDominance.Dominates.reaches h hv

theorem reaches_self : g.Reaches a a :=
  (reaches_iff hwf ha).2 (.refl trivial)

theorem reaches_congr (h : u.canon = v.canon) : g.Reaches a u ↔ g.Reaches a v := by
  rw [reaches_iff hwf ha, reaches_iff hwf ha, h]

end Dominators

end FlowGraph

/-! ## Graphs with a log -/

theorem FlowGraph.wellFormed_of_log {g : FlowGraph} {log : List Edge}
    (hnull : Value.null ∉ g.vertices)
    (hends : ∀ e ∈ log, g.contains e.source = true ∧ g.contains e.target = true)
    (hout : ∀ u, g.contains u = true → g.outEdges u = .ok (log.filter (u.same ·.source)))
    (hin : ∀ v, g.contains v = true → g.inEdges v = .ok (log.filter (v.same ·.target))) :
    g.WellFormed where
  null_not_mem := hnull
  exists_out := by
    intro u hu
    refine ⟨_, hout u hu, ?_⟩
    intro e he
    obtain ⟨hmem, hsame⟩ := List.mem_filter.1 he
    exact ⟨Value.same_symm hsame, (hends e hmem).2⟩
  exists_in := by
    intro v hv
    refine ⟨_, hin v hv, ?_⟩
    intro e he
    obtain ⟨hmem, hsame⟩ := List.mem_filter.1 he
    exact ⟨Value.same_symm hsame, (hends e hmem).1⟩
  mirrored := by
    intro e outs ins hsource htarget houts hins
    rw [hout _ hsource, Except.ok.injEq] at houts
    rw [hin _ htarget, Except.ok.injEq] at hins
    rw [← houts, ← hins, List.countP_filter, List.countP_filter]
    congr 1
    funext f
    simp only [Edge.same]
    cases e.source.same f.source <;> cases e.target.same f.target <;> rfl

theorem FlowGraph.canonEdge_iff_of_log {g : FlowGraph} {log : List Edge} {a b : Value}
    (hends : ∀ e ∈ log, g.contains e.source = true ∧ g.contains e.target = true)
    (hout : ∀ u, g.contains u = true → g.outEdges u = .ok (log.filter (u.same ·.source))) :
    g.canonEdge a b ↔ ∃ e ∈ log, e.source.canon = a ∧ e.target.canon = b := by
  constructor
  · rintro ⟨u, v, hu, rfl, rfl, row, hrow, e, he, hsame⟩
    rw [hout u hu, Except.ok.injEq] at hrow
    rw [← hrow] at he
    obtain ⟨hmem, hsource⟩ := List.mem_filter.1 he
    exact ⟨e, hmem, (Value.same_iff.1 hsource).symm, Value.same_iff.1 hsame⟩
  · rintro ⟨e, he, rfl, rfl⟩
    have hsource := (hends e he).1
    exact ⟨e.source, e.target, hsource, rfl, rfl, _, hout _ hsource, e,
      List.mem_filter.2 ⟨he, Value.same_refl _⟩, Value.same_refl _⟩

theorem EdgeList.graph_wellFormed (g : EdgeList) (hnull : Value.null ∉ g.vertices)
    (hends : ∀ e ∈ g.edges, e.source.occursIn g.vertices = true ∧
      e.target.occursIn g.vertices = true) : g.graph.WellFormed :=
  FlowGraph.wellFormed_of_log hnull hends (fun _ _ => rfl) (fun _ _ => rfl)

end FlowDominance
