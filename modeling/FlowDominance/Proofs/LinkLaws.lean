import FlowDominance.Graph.Neighbours
import FlowDominance.Proofs.Recording

/-!
# Laws of a link library

What a library of nodes and links is trusted for, told of the stores that its calls have filled: nodes
come in the order of their first mention, a repeated link is ignored where links are single, and links
are grouped by neighbour where they may be parallel.  A linked graph then has the edges of a log, as
often as the kind of its links allows.
-/

namespace FlowDominance

namespace Edge

def targetsOf (log : List Edge) (v : Value) : List Value :=
  (log.filter (v.same ·.source)).map Edge.target

def sourcesOf (log : List Edge) (v : Value) : List Value :=
  (log.filter (v.same ·.target)).map Edge.source

theorem countP_targetsOf (log : List Edge) (v w : Value) : (targetsOf log v).countP w.same =
    log.countP fun e => w.same e.target && v.same e.source := by
  rw [targetsOf, List.countP_map, List.countP_filter]
  rfl

theorem countP_sourcesOf (log : List Edge) (v w : Value) : (sourcesOf log w).countP v.same =
    log.countP fun e => v.same e.source && w.same e.target := by
  rw [sourcesOf, List.countP_map, List.countP_filter]
  rfl

end Edge

/-! ## The laws -/

namespace LinkLibrary

variable {σ : Type} {library : LinkLibrary σ} {s : σ} {log : List Edge} {v : Value}

/-- The store was made by calls that mention `vs` and then `log`, with no null among them. -/
inductive Filled (library : LinkLibrary σ) (kind : LinkKind) : σ → List Value → List Edge → Prop
  | empty : Filled library kind (library.empty kind) [] []
  | node {s t : σ} {vs : List Value} {log : List Edge} {v : Value} :
      Filled library kind s vs log → v ≠ .null → (library.addNode v).apply s = (.ok (), t) →
      Filled library kind t (vs ++ [v]) log
  | links {s t : σ} {vs : List Value} {log es : List Edge} :
      Filled library kind s vs log → (∀ e ∈ es, ∀ v ∈ e.ends, v ≠ .null) →
      (library.addLinks (es.map Edge.pair)).apply s = (.ok (), t) →
      Filled library kind t (vs ++ es.flatMap Edge.ends) (log ++ es)

/-- The library shows the links of `v` in both directions.  All neighbours that the log gives it, in
the order of the log, have been arranged to the row that is shown. -/
structure Shows (library : LinkLibrary σ) (s : σ) (log : List Edge)
    (arranged : List Value → List Value → Prop) (v : Value) : Prop where
  out : ∃ links, library.outLinks s v = .ok links ∧ (∀ l ∈ links, v.same l.1 = true) ∧
    arranged (Edge.targetsOf log v) (links.map Prod.snd)
  into : ∃ links, library.inLinks s v = .ok links ∧ (∀ l ∈ links, v.same l.2 = true) ∧
    arranged (Edge.sourcesOf log v) (links.map Prod.fst)

theorem Shows.imp {arranged arranged' : List Value → List Value → Prop}
    (h : library.Shows s log arranged v) (himp : ∀ all row, arranged all row → arranged' all row) :
    library.Shows s log arranged' v := by
  obtain ⟨⟨outs, houts, hsource, hout⟩, ins, hins, htarget, hin⟩ := h
  exact ⟨⟨outs, houts, hsource, himp _ _ hout⟩, ins, hins, htarget, himp _ _ hin⟩

structure Lawful (library : LinkLibrary σ) : Prop where
  addNode_ok : ∀ {kind s vs log v}, library.Filled kind s vs log → v ≠ .null →
    ∃ t, (library.addNode v).apply s = (.ok (), t)
  addLinks_ok : ∀ {kind s vs log} {es : List Edge}, library.Filled kind s vs log →
    (∀ e ∈ es, ∀ v ∈ e.ends, v ≠ .null) →
    ∃ t, (library.addLinks (es.map Edge.pair)).apply s = (.ok (), t)
  isDirected_eq : ∀ {kind s vs log}, library.Filled kind s vs log →
    library.isDirected s = kind.directed
  contains_eq : ∀ {kind s vs log}, library.Filled kind s vs log →
    ∀ v, library.contains s v = v.occursIn (library.nodes s)
  count_eq : ∀ {kind s vs log}, library.Filled kind s vs log →
    library.count s = (library.nodes s).length
  nodes_by_first_mention : ∀ {kind s vs log}, library.Filled kind s vs log →
    library.nodes s = Value.firsts vs
  repeats_ignored : ∀ {s vs log}, library.Filled ⟨true, false⟩ s vs log →
    ∀ v, library.contains s v = true →
      library.Shows s log (fun all row => row.Perm (Value.firsts all)) v
  parallels_grouped : ∀ {s vs log}, library.Filled ⟨true, true⟩ s vs log →
    ∀ v, library.contains s v = true →
      library.Shows s log (fun all row => row = Value.grouped all) v

end LinkLibrary

/-! ## How often a neighbour is shown -/

theorem Value.countP_firsts (v : Value) (vs : List Value) :
    (firsts vs).countP v.same = min 1 (vs.countP v.same) := by
  induction vs with
  | nil => rfl
  | cons w rest ih =>
      rw [firsts, List.countP_cons, List.countP_cons, List.countP_filter]
      cases hw : v.same w with
      | true =>
          have hnone : (firsts rest).countP (fun x => v.same x && !w.same x) = 0 := by
            rw [List.countP_eq_zero]
            intro x _
            simp [same, ← same_iff.1 hw]
          simp [hnone]
      | false =>
          have hsame : (firsts rest).countP (fun x => v.same x && !w.same x) =
              (firsts rest).countP v.same := by
            congr 1
            funext x
            cases hx : v.same x with
            | false => rfl
            | true => simp [same, ← same_iff.1 hx, Ne.symm (by simpa [same] using hw)]
          simp [hsame, ih]

theorem Value.countP_replicated (v : Value) (vs ws : List Value) :
    (ws.flatMap fun w => List.replicate (vs.countP w.same) w).countP v.same =
      ws.countP v.same * vs.countP v.same := by
  induction ws with
  | nil => simp
  | cons w ws ih =>
      rw [List.flatMap_cons, List.countP_append, ih, List.countP_replicate, List.countP_cons]
      cases hw : v.same w with
      | false => simp
      | true =>
          have hsame : w.same = v.same := by
            funext x
            simp [same, same_iff.1 hw]
          rw [hsame]
          simp [Nat.add_mul, Nat.add_comm]

theorem Value.countP_grouped (v : Value) (vs : List Value) :
    (grouped vs).countP v.same = vs.countP v.same := by
  rw [grouped, countP_replicated, countP_firsts]
  cases vs.countP v.same with
  | zero => rfl
  | succ n => simp

def LinkKind.shown (kind : LinkKind) (n : Nat) : Nat := if kind.parallel then n else min 1 n

theorem LinkKind.shown_pos (kind : LinkKind) (n : Nat) : 0 < kind.shown n ↔ 0 < n := by
  unfold shown
  split <;> omega

theorem LinkLibrary.Lawful.shows {σ : Type} {library : LinkLibrary σ} {parallel : Bool} {s : σ}
    {vs : List Value} {log : List Edge} {v : Value} (h : library.Lawful)
    (hs : library.Filled ⟨true, parallel⟩ s vs log) (hv : library.contains s v = true) :
    library.Shows s log (fun all row =>
      ∀ w : Value, row.countP w.same = LinkKind.shown ⟨true, parallel⟩ (all.countP w.same)) v := by
  cases parallel with
  | false =>
      refine (h.repeats_ignored hs v hv).imp ?_
      intro all row hrow w
      rw [hrow.countP_eq, Value.countP_firsts]
      rfl
  | true =>
      refine (h.parallels_grouped hs v hv).imp ?_
      intro all row hrow w
      rw [hrow, Value.countP_grouped]
      rfl

/-! ## Rows that show a log -/

namespace FlowGraph

variable {g : FlowGraph} {log : List Edge} {shown : Nat → Nat} {a b u v : Value}

/-- The edges of the graph are those of the log; their number depends only on how often the log joins
the same two vertices. -/
structure ShowsLog (g : FlowGraph) (log : List Edge) (shown : Nat → Nat) : Prop where
  null_not_mem : Value.null ∉ g.vertices
  ends : ∀ e ∈ log, g.contains e.source = true ∧ g.contains e.target = true
  shown_pos : ∀ n, 0 < shown n ↔ 0 < n
  out : ∀ u, g.contains u = true → ∃ row, g.outEdges u = .ok row ∧
    (∀ e ∈ row, u.same e.source = true) ∧ ∀ v : Value, (row.map Edge.target).countP v.same =
      shown ((Edge.targetsOf log u).countP v.same)
  into : ∀ v, g.contains v = true → ∃ row, g.inEdges v = .ok row ∧
    (∀ e ∈ row, v.same e.target = true) ∧ ∀ u : Value, (row.map Edge.source).countP u.same =
      shown ((Edge.sourcesOf log v).countP u.same)

namespace ShowsLog

theorem contains_of_mem {row ws : List Value} (h : g.ShowsLog log shown)
    (hcount : ∀ w : Value, row.countP w.same = shown (ws.countP w.same))
    (hws : ∀ w ∈ ws, g.contains w = true) (hv : v ∈ row) : g.contains v = true := by
  have hpos : 0 < row.countP v.same := List.countP_pos_iff.2 ⟨v, hv, Value.same_refl v⟩
  rw [hcount, h.shown_pos] at hpos
  obtain ⟨w, hw, hsame⟩ := List.countP_pos_iff.1 hpos
  rw [contains_congr (Value.same_iff.1 hsame)]
  exact hws w hw

theorem adjacent_iff (h : g.ShowsLog log shown) (hu : g.contains u = true) : g.Adjacent u v ↔
    ∃ e ∈ log, e.source.canon = u.canon ∧ e.target.canon = v.canon := by
  obtain ⟨row, hrow, -, hcount⟩ := h.out u hu
  have hrows : g.Adjacent u v ↔ 0 < (row.map Edge.target).countP v.same := by
    simp [Adjacent, hrow, Value.same, eq_comm]
  rw [hrows, hcount, h.shown_pos, Edge.countP_targetsOf, List.countP_pos_iff]
  simp only [Bool.and_eq_true, Value.same_iff]
  constructor
  · rintro ⟨e, he, htarget, hsource⟩
    exact ⟨e, he, hsource.symm, htarget.symm⟩
  · rintro ⟨e, he, hsource, htarget⟩
    exact ⟨e, he, htarget.symm, hsource.symm⟩

theorem canonEdge_iff (h : g.ShowsLog log shown) : g.canonEdge a b ↔
    ∃ e ∈ log, e.source.canon = a ∧ e.target.canon = b := by
  constructor
  · rintro ⟨u, v, hu, rfl, rfl, hedge⟩
    exact (h.adjacent_iff hu).1 hedge
  · rintro ⟨e, he, rfl, rfl⟩
    have hsource := (h.ends e he).1
    exact ⟨e.source, e.target, hsource, rfl, rfl, (h.adjacent_iff hsource).2 ⟨e, he, rfl, rfl⟩⟩

theorem wellFormed (h : g.ShowsLog log shown) : g.WellFormed where
  null_not_mem := h.null_not_mem
  exists_out := by
    intro u hu
    obtain ⟨row, hrow, hsource, hcount⟩ := h.out u hu
    refine ⟨row, hrow, fun e he => ⟨Value.same_symm (hsource e he), ?_⟩⟩
    refine h.contains_of_mem hcount ?_ (List.mem_map_of_mem he)
    exact List.forall_mem_map.2 fun f hf => (h.ends f (List.mem_filter.1 hf).1).2
  exists_in := by
    intro v hv
    obtain ⟨row, hrow, htarget, hcount⟩ := h.into v hv
    refine ⟨row, hrow, fun e he => ⟨Value.same_symm (htarget e he), ?_⟩⟩
    refine h.contains_of_mem hcount ?_ (List.mem_map_of_mem he)
    exact List.forall_mem_map.2 fun f hf => (h.ends f (List.mem_filter.1 hf).1).1
  mirrored := by
    intro e outs ins hsource htarget houts hins
    obtain ⟨row, hrow, hsources, hout⟩ := h.out e.source hsource
    obtain ⟨row', hrow', htargets, hinto⟩ := h.into e.target htarget
    obtain rfl : row = outs := by simpa [hrow] using houts
    obtain rfl : row' = ins := by simpa [hrow'] using hins
    have hleft : row.countP e.same = (row.map Edge.target).countP e.target.same := by
      rw [List.countP_map]
      refine List.countP_congr fun f hf => ?_
      simp [Edge.same, hsources f hf]
    have hright : row'.countP e.same = (row'.map Edge.source).countP e.source.same := by
      rw [List.countP_map]
      refine List.countP_congr fun f hf => ?_
      simp [Edge.same, htargets f hf]
    rw [hleft, hright, hout, hinto, Edge.countP_targetsOf, Edge.countP_sourcesOf]
    simp only [Bool.and_comm]

end ShowsLog

end FlowGraph

/-! ## Linked graphs -/

namespace LinkedGraph

variable {σ : Type} {library : LinkLibrary σ} {kind : LinkKind} {parallel : Bool}
variable {g : LinkedGraph σ} {vs : List Value} {log es : List Edge} {entry v : Value}
variable {exit : Option Value}

theorem contains_graph (h : library.Lawful) (hg : library.Filled kind g.store vs log) (v : Value) :
    (g.graph library).contains v = g.contains library v := (h.contains_eq hg v).symm

theorem size_graph (h : library.Lawful) (hg : library.Filled kind g.store vs log) :
    (g.graph library).size = g.size library := (h.count_eq hg).symm

theorem showsLog (h : library.Lawful) (hg : library.Filled ⟨true, parallel⟩ g.store vs log)
    (hnull : Value.null ∉ Value.firsts vs) (hends : ∀ e ∈ log,
      e.source.occursIn (Value.firsts vs) = true ∧ e.target.occursIn (Value.firsts vs) = true) :
    (g.graph library).ShowsLog log (LinkKind.shown ⟨true, parallel⟩) where
  null_not_mem := by
    change Value.null ∉ library.nodes g.store
    rw [h.nodes_by_first_mention hg]
    exact hnull
  ends := by
    intro e he
    rw [FlowGraph.contains, FlowGraph.contains, graph, h.nodes_by_first_mention hg]
    exact hends e he
  shown_pos := LinkKind.shown_pos _
  out := by
    intro u hu
    rw [contains_graph h hg] at hu
    obtain ⟨links, hlinks, hsource, hcount⟩ := (h.shows hg hu).out
    refine ⟨_, congrArg (Except.map _) hlinks, ?_, ?_⟩
    · exact List.forall_mem_map.2 hsource
    · simpa [Function.comp_def] using hcount
  into := by
    intro v hv
    rw [contains_graph h hg] at hv
    obtain ⟨links, hlinks, htarget, hcount⟩ := (h.shows hg hv).into
    refine ⟨_, congrArg (Except.map _) hlinks, ?_, ?_⟩
    · exact List.forall_mem_map.2 htarget
    · simpa [Function.comp_def] using hcount

theorem records_addNode (h : library.Lawful) (hv : v ≠ .null) :
    (library.addNode v).Records (library.Filled kind) (library.Filled kind) [v] [] := by
  intro s vs log hs
  obtain ⟨t, hrun⟩ := h.addNode_ok hs hv
  exact ⟨(), t, hrun, by simpa using hs.node hv hrun⟩

theorem records_addLinks (h : library.Lawful) (hends : ∀ e ∈ es, ∀ v ∈ e.ends, v ≠ .null) :
    (library.addLinks (es.map Edge.pair)).Records (library.Filled kind) (library.Filled kind)
      (es.flatMap Edge.ends) es := by
  intro s vs log hs
  obtain ⟨t, hrun⟩ := h.addLinks_ok hs hends
  exact ⟨(), t, hrun, hs.links hends hrun⟩

theorem exists_ofEdges (h : library.Lawful) (hends : ∀ e ∈ es, ∀ v ∈ e.ends, v ≠ .null)
    (hentry : entry ≠ .null) (hexit : ∀ x ∈ exit, x ≠ .null) (parallel : Bool) : ∃ s,
    ofEdges library (es.map Edge.pair) entry exit parallel = .ok ⟨s, entry, exit⟩ ∧
    library.Filled ⟨true, parallel⟩ s (entry :: (es.flatMap Edge.ends ++ exit.toList)) es := by
  have hlast : (exit.forM library.addNode).Records (library.Filled ⟨true, parallel⟩)
      (library.Filled ⟨true, parallel⟩) exit.toList [] := by
    cases exit with
    | none => exact Change.records_pure _
    | some x => exact records_addNode h (hexit x rfl)
  obtain ⟨u, s, hrun, hfilled⟩ := ((records_addNode h hentry).bind fun _ =>
    (records_addLinks h hends).bind fun _ => hlast) (library.empty ⟨true, parallel⟩) [] [] .empty
  have hs : library.Filled ⟨true, parallel⟩ s (entry :: (es.flatMap Edge.ends ++ exit.toList)) es := by
    simpa using hfilled
  have hcontains : ∀ v : Value, library.contains s v =
      v.occursIn (Edge.mentioned entry es exit) := by
    intro v
    rw [h.contains_eq hs, h.nodes_by_first_mention hs]
    rfl
  refine ⟨s, ?_, hs⟩
  rw [ofEdges, build]
  simp only [hrun]
  cases exit with
  | none => simp [designate, h.isDirected_eq hs, hcontains, Edge.entry_mentioned]
  | some x =>
      simp [designate, h.isDirected_eq hs, hcontains, Edge.entry_mentioned,
        Edge.exit_mentioned x rfl]

end LinkedGraph

/-! ## Neighbour stores -/

namespace Neighbours

variable {kind : LinkKind} {s : Neighbours} {v : Value} {vs : List Value} {log es : List Edge}

def Holds (kind : LinkKind) (s : Neighbours) (vs : List Value) (log : List Edge) : Prop :=
  s = ⟨kind, Value.firsts vs, log⟩

theorem records_addNode (hv : v ≠ .null) :
    (addNode v).Records (Holds kind) (Holds kind) [v] [] := by
  rintro s vs log rfl
  have happly : (addNode v).apply ⟨kind, Value.firsts vs, log⟩ =
      (.ok (), if v.occursIn (Value.firsts vs) then ⟨kind, Value.firsts vs, log⟩
        else ⟨kind, Value.firsts vs ++ [v], log⟩) := by
    cases v with
    | null => contradiction
    | _ => rfl
  refine ⟨(), _, happly, ?_⟩
  rw [Holds, Value.occursIn_firsts, Value.firsts_concat, List.append_nil]
  split <;> rfl

theorem records_addLink {e : Edge} (he : ∀ v ∈ e.ends, v ≠ .null) :
    (addLink e.source e.target).Records (Holds kind) (Holds kind) e.ends [e] := by
  have hlink : (modify fun s : Neighbours => { s with links := s.links ++ [e] } :
      Change Neighbours PUnit).Records (Holds kind) (Holds kind) [] [e] := by
    rintro s vs log rfl
    exact ⟨⟨⟩, _, rfl, by simp [Holds]⟩
  exact (records_addNode (he _ (by simp [Edge.ends]))).bind fun _ =>
    (records_addNode (he _ (by simp [Edge.ends]))).bind fun _ => hlink

theorem records_addLinks (hends : ∀ e ∈ es, ∀ v ∈ e.ends, v ≠ .null) :
    (addLinks (es.map Edge.pair)).Records (Holds kind) (Holds kind) (es.flatMap Edge.ends) es := by
  refine Change.records_pairs ?_
  intro e he
  exact Change.records_lift_bind rfl (records_addLink (hends e he))

theorem holds_of_filled (h : library.Filled kind s vs log) : Holds kind s vs log := by
  induction h with
  | empty => rfl
  | node _ hv hrun ih =>
      obtain ⟨u, t, hrun', ht⟩ := records_addNode hv _ _ _ ih
      obtain rfl := congrArg Prod.snd (hrun.symm.trans hrun')
      simpa using ht
  | links _ hends hrun ih =>
      obtain ⟨u, t, hrun', ht⟩ := records_addLinks hends _ _ _ ih
      obtain rfl := congrArg Prod.snd (hrun.symm.trans hrun')
      exact ht

theorem shows_arranged (hv : v.occursIn s.nodes = true) :
    library.Shows s s.links (fun all row => row = s.arranged all) v where
  out := ⟨_, if_pos hv, by simp, by simp [successorsOf, Edge.targetsOf, Function.comp_def]⟩
  into := ⟨_, if_pos hv, by simp, by simp [predecessorsOf, Edge.sourcesOf, Function.comp_def]⟩

theorem library_lawful : library.Lawful where
  addNode_ok := by
    intro kind s vs log v hs hv
    obtain ⟨u, t, hrun, -⟩ := records_addNode hv _ _ _ (holds_of_filled hs)
    exact ⟨t, hrun⟩
  addLinks_ok := by
    intro kind s vs log es hs hends
    obtain ⟨u, t, hrun, -⟩ := records_addLinks hends _ _ _ (holds_of_filled hs)
    exact ⟨t, hrun⟩
  isDirected_eq := by
    intro kind s vs log hs
    rw [holds_of_filled hs]
    rfl
  contains_eq _ _ := rfl
  count_eq _ := rfl
  nodes_by_first_mention := by
    intro kind s vs log hs
    rw [holds_of_filled hs]
    rfl
  repeats_ignored := by
    intro s vs log hs v hv
    obtain rfl := holds_of_filled hs
    refine (shows_arranged hv).imp ?_
    rintro all row rfl
    exact .refl _
  parallels_grouped := by
    intro s vs log hs v hv
    obtain rfl := holds_of_filled hs
    refine (shows_arranged hv).imp ?_
    rintro all row rfl
    rfl

end Neighbours

end FlowDominance
