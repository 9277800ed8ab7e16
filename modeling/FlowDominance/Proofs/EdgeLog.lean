import FlowDominance.Graph.Store
import FlowDominance.Proofs.PostDominance
import FlowDominance.Proofs.Recording

/-!
# Adjacency lists refine a log

Calls that let an adjacency graph grow may be refused, one of them after half of its work.  Whatever was
called, the vertices are the first mentions of what was accepted, the rows are cut out of the log of
the edges that were added, and a refused call leaves no more than a vertex behind.
-/

namespace FlowDominance

/-! ## Calls -/

namespace Growth

def arguments : Growth → List Value
  | .vertex v | .entry v | .exit v => [v]
  | .edge source target => [source, target]
  | .link _ _ => []

def accepted (call : Growth) : List Value := call.arguments.takeWhile fun v => decide (v ≠ .null)

def logged {α : Type} : Growth → Except Fault α → List Edge
  | .edge source target, .ok _ => [⟨source, target⟩]
  | _, _ => []

@[simp] theorem logged_error {α : Type} (call : Growth) (fault : Fault) :
    call.logged (.error fault : Except Fault α) = [] := by
  cases call <;> rfl

end Growth

namespace Adjacency

variable {g g' : Adjacency} {call : Growth} {fault : Fault} {u v source target entry : Value}
variable {vs : List Value} {log es : List Edge} {outcome : Except Fault (Option Edge)}

def grow : Growth → Change Adjacency (Option Edge)
  | .vertex v => do addVertex v; return none
  | .entry v => do setEntry v; return none
  | .exit v => do setExit v; return none
  | .edge source target => some <$> addEdge source target
  | .link _ _ => throw (.notOffered "AdjacencyGraph" "nxgraph")

theorem apply_grow_store (call : Growth) (g : Adjacency) :
    (Store.grow call).apply (.adjacency g) =
      (((grow call).apply g).1, .adjacency ((grow call).apply g).2) := by
  cases call <;> rfl

/-- Everything that a call can come to. -/
inductive Grows (g : Adjacency) : Growth → Except Fault (Option Edge) → Adjacency → Prop
  | refused {call : Growth} {fault : Fault} : call.accepted = [] → Grows g call (.error fault) g
  | cutShort {source : Value} {fault : Fault} : source ≠ .null →
      Grows g (.edge source .null) (.error fault) (g.withVertex source)
  | vertex {v : Value} : v ≠ .null → Grows g (.vertex v) (.ok none) (g.withVertex v)
  | entry {v : Value} : v ≠ .null →
      Grows g (.entry v) (.ok none) { g.withVertex v with entry? := some v }
  | exit {v : Value} : v ≠ .null →
      Grows g (.exit v) (.ok none) { g.withVertex v with exit? := some v }
  | edge {source target : Value} : source ≠ .null → target ≠ .null →
      Grows g (.edge source target) (.ok (some ⟨source, target⟩))
        (((g.withVertex source).withVertex target).withEdge ⟨source, target⟩)

theorem grows_edge (g : Adjacency) (source target : Value) :
    Grows g (.edge source target) ((grow (.edge source target)).apply g).1
      ((grow (.edge source target)).apply g).2 := by
  by_cases hsource : source = .null
  · subst hsource
    exact .refused rfl
  have hfirst := apply_addVertex hsource g
  by_cases htarget : target = .null
  · -- the source is in by the time that the target is refused
    subst htarget
    have hcut : (addEdge source .null).apply g = (.error .nullVertex, g.withVertex source) :=
      (Change.apply_bind_ok hfirst).trans rfl
    rw [grow, Change.apply_map hcut]
    exact .cutShort hsource
  · have hadded : (addEdge source target).apply g = (.ok ⟨source, target⟩,
        ((g.withVertex source).withVertex target).withEdge ⟨source, target⟩) := by
      rw [addEdge, Change.apply_bind_ok hfirst, Change.apply_bind_ok (apply_addVertex htarget _)]
      rfl
    rw [grow, Change.apply_map hadded]
    exact .edge hsource htarget

theorem grows (call : Growth) (g : Adjacency) :
    Grows g call ((grow call).apply g).1 ((grow call).apply g).2 := by
  cases call with
  | edge source target => exact grows_edge g source target
  | link source target => exact .refused rfl
  | vertex v =>
      by_cases hv : v = .null
      · subst hv
        exact .refused rfl
      · rw [grow, Change.apply_bind_ok (apply_addVertex hv g)]
        exact .vertex hv
  | entry v =>
      by_cases hv : v = .null
      · subst hv
        exact .refused rfl
      · rw [grow, setEntry, bind_assoc, Change.apply_bind_ok (apply_addVertex hv g)]
        exact .entry hv
  | exit v =>
      by_cases hv : v = .null
      · subst hv
        exact .refused rfl
      · rw [grow, setExit, bind_assoc, Change.apply_bind_ok (apply_addVertex hv g)]
        exact .exit hv

/-! ## Steps and runs -/

abbrev Holds (g : Adjacency) (vs : List Value) (log : List Edge) : Prop :=
  Filled g.entry? g.exit? g vs log

theorem Filled.holds {start stop : Option Value} (h : Filled start stop g vs log) :
    g.Holds vs log := ⟨h.logged, h.keys_eq, rfl, rfl⟩

theorem Grows.holds (h : Grows g call outcome g') (hg : g.Holds vs log) :
    g'.Holds (vs ++ call.accepted) (log ++ call.logged outcome) := by
  cases h with
  | refused hnone => simpa [hnone] using hg
  | cutShort hsource =>
      simpa [Growth.accepted, Growth.arguments, hsource] using (hg.withVertex hsource).holds
  | vertex hv =>
      simpa [Growth.accepted, Growth.arguments, Growth.logged, hv] using (hg.withVertex hv).holds
  | entry hv =>
      simpa [Growth.accepted, Growth.arguments, Growth.logged, hv] using
        ((hg.withVertex hv).withEntry contains_withVertex_self).holds
  | exit hv =>
      simpa [Growth.accepted, Growth.arguments, Growth.logged, hv] using
        ((hg.withVertex hv).withExit contains_withVertex_self).holds
  | @edge source target hsource htarget =>
      have hadded := (hg.withVertex hsource).withVertex htarget
      have hheld := (hadded.withEdge (e := ⟨source, target⟩) (Value.occursIn_of_mem (by simp))
        (Value.occursIn_of_mem (by simp))).holds
      simpa [Growth.accepted, Growth.arguments, Growth.logged, hsource, htarget] using hheld

def after (calls : List Growth) (g : Adjacency) : Adjacency :=
  calls.foldl (fun g call => ((grow call).apply g).2) g

def edgeLog : List Growth → Adjacency → List Edge
  | [], _ => []
  | call :: calls, g =>
      call.logged ((grow call).apply g).1 ++ edgeLog calls ((grow call).apply g).2

theorem holds_after (calls : List Growth) (hg : g.Holds vs log) :
    (after calls g).Holds (vs ++ calls.flatMap Growth.accepted) (log ++ edgeLog calls g) := by
  induction calls generalizing g vs log with
  | nil => simpa [after, edgeLog] using hg
  | cons call calls ih =>
      have hrest := ih ((grows call g).holds hg)
      simpa [after, edgeLog] using hrest

/-! ## Rows and edges -/

theorem flatMap_filter_perm {keys : List Value} (hdistinct : Distinct keys) (side : Edge → Value)
    (hcovered : ∀ e ∈ log, (side e).occursIn keys = true) :
    (keys.flatMap fun u => log.filter fun e => u.same (side e)).Perm log := by
  induction keys generalizing log with
  | nil =>
      cases log with
      | nil => exact .nil
      | cons e log => simpa [Value.occursIn] using hcovered e (by simp)
  | cons u keys ih =>
      obtain ⟨hne, hkeys⟩ := List.pairwise_cons.1 hdistinct
      have hrest : (keys.flatMap fun w => log.filter fun e => w.same (side e)) =
          keys.flatMap fun w => (log.filter fun e => !u.same (side e)).filter
            fun e => w.same (side e) := by
        refine List.flatMap_congr fun w hw => ?_
        rw [List.filter_filter]
        refine List.filter_congr fun e _ => ?_
        have hapart := hne w hw
        simp only [Value.same, decide_eq_false_iff_not] at hapart ⊢
        grind
      have hleft : ∀ e ∈ log.filter fun e => !u.same (side e), (side e).occursIn keys = true := by
        intro e he
        obtain ⟨hmem, hother⟩ := List.mem_filter.1 he
        rw [Bool.not_eq_true'] at hother
        have hsome := hcovered e hmem
        rwa [Value.occursIn_cons, Value.same_comm, hother, Bool.false_or] at hsome
      rw [List.flatMap_cons, hrest]
      exact ((ih hkeys hleft).append_left _).trans (List.filter_append_perm _ log)

theorem Logged.edges_eq (h : Logged g log) : g.graph.edges =
    .ok (g.outgoing.keys.flatMap fun u => log.filter fun e => u.same e.source) := by
  have hrows : g.outgoing.keys.mapM g.graph.outEdges =
      .ok (g.outgoing.keys.map fun u => log.filter fun e => u.same e.source) := by
    refine mapM_eq_ok fun u hu => ?_
    simp [graph, row, h.outgoing_filed u (Value.occursIn_of_mem hu)]
  change (g.outgoing.keys.mapM g.graph.outEdges).map List.flatten = _
  rw [hrows]
  rfl

theorem Logged.exists_edges (h : Logged g log) : ∃ all, g.graph.edges = .ok all ∧ all.Perm log :=
  ⟨_, h.edges_eq, flatMap_filter_perm g.outgoing.distinct Edge.source fun e he => (h.ends e he).1⟩

theorem Logged.edges_withVertex (h : Logged g log) (hv : v ≠ .null) :
    (g.withVertex v).graph.edges = g.graph.edges := by
  rw [(h.withVertex hv).edges_eq, h.edges_eq, keys_withVertex]
  split
  · rfl
  · rename_i hnew
    have hempty : (log.filter fun e => v.same e.source) = [] := by
      refine List.filter_eq_nil_iff.2 fun e he hsame => hnew ?_
      rw [Value.occursIn_congr (Value.same_iff.1 hsame)]
      exact (h.ends e he).1
    simp [hempty]

structure Refines (g : Adjacency) (mentions : List Value) (log : List Edge) : Prop where
  vertices : g.graph.vertices = Value.firsts mentions
  outEdges : ∀ u, g.graph.contains u = true →
    g.graph.outEdges u = .ok (log.filter fun e => u.same e.source)
  inEdges : ∀ v, g.graph.contains v = true →
    g.graph.inEdges v = .ok (log.filter fun e => v.same e.target)
  ends : ∀ e ∈ log, g.graph.contains e.source = true ∧ g.graph.contains e.target = true
  edges : ∃ all, g.graph.edges = .ok all ∧ all.Perm log
  keys : g.incoming.keys = g.outgoing.keys
  null_not_mem : Value.null ∉ g.graph.vertices
  entry_mem : ∀ v, g.entry? = some v → g.graph.contains v = true
  exit_mem : ∀ v, g.exit? = some v → g.graph.contains v = true

theorem Filled.refines {start stop : Option Value} (h : Filled start stop g vs log) :
    g.Refines vs log where
  vertices := h.keys_eq
  outEdges := by
    intro u hu
    simp [graph, row, h.logged.outgoing_filed u hu]
  inEdges := by
    intro v hv
    simp [graph, row, h.logged.incoming_filed v (h.logged.contains_incoming.trans hv)]
  ends := h.logged.ends
  edges := h.logged.exists_edges
  keys := h.logged.keys_eq
  null_not_mem := h.logged.null_not_mem
  entry_mem := h.logged.entry_mem
  exit_mem := h.logged.exit_mem

/-- All that a refused call may leave behind is the source of its edge. -/
structure Unharmed (call : Growth) (g g' : Adjacency) : Prop where
  edges : g'.graph.edges = g.graph.edges
  entry : g'.entry? = g.entry?
  exit : g'.exit? = g.exit?
  vertices : g'.graph.vertices = g.graph.vertices ∨
    ∃ source target, call = .edge source target ∧ g'.graph.vertices = g.graph.vertices ++ [source]

theorem Grows.unharmed (h : Grows g call (.error fault) g') (hg : g.Holds vs log) :
    Unharmed call g g' := by
  cases h with
  | refused _ => exact ⟨rfl, rfl, rfl, .inl rfl⟩
  | @cutShort source _ hsource =>
      have hadded := hg.withVertex hsource
      refine ⟨hg.logged.edges_withVertex hsource, hadded.entry_eq, hadded.exit_eq, ?_⟩
      have hkeys : (g.withVertex source).graph.vertices = _ := keys_withVertex
      rw [hkeys]
      split
      · exact .inl rfl
      · exact .inr ⟨source, .null, rfl, rfl⟩

end Adjacency

/-! ## Construction -/

namespace Change

variable {σ α β : Type} {R S T : σ → List Value → List Edge → Prop}
variable {more more' : List Value} {new new' : List Edge} {c : Change σ α}

/-- If the change succeeds, it has mentioned some more vertices and added some more edges. -/
def Notes (R S : σ → List Value → List Edge → Prop) (c : Change σ α) (more : List Value)
    (new : List Edge) : Prop :=
  ∀ s vs log a t, R s vs log → c.apply s = (.ok a, t) → S t (vs ++ more) (log ++ new)

theorem Records.notes (h : c.Records R S more new) : c.Notes R S more new := by
  intro s vs log a t hs hrun
  obtain ⟨a', t', hrun', ht⟩ := h s vs log hs
  rw [hrun] at hrun'
  cases hrun'
  exact ht

theorem notes_of_error (h : ∀ s, ∃ fault t, c.apply s = (.error fault, t)) :
    c.Notes R S more new := by
  intro s vs log a t hs hrun
  obtain ⟨fault, t', hfault⟩ := h s
  rw [hfault] at hrun
  cases hrun

theorem Notes.bind {f : α → Change σ β} (hc : c.Notes R S more new)
    (hf : ∀ a, (f a).Notes S T more' new') :
    (c >>= f).Notes R T (more ++ more') (new ++ new') := by
  intro s vs log b u hs hrun
  cases happly : c.apply s with
  | mk outcome t =>
      cases outcome with
      | error fault =>
          rw [apply_bind_error happly] at hrun
          cases hrun
      | ok a =>
          rw [apply_bind_ok happly] at hrun
          rw [← List.append_assoc, ← List.append_assoc]
          exact hf a t _ _ b u (hc s vs log a t hs happly) hrun

theorem Notes.discard (hc : c.Notes R S more new) : (discard c).Notes R S more new := by
  intro s vs log b t hs hrun
  cases happly : c.apply s with
  | mk outcome t' =>
      rw [apply_discard happly] at hrun
      cases outcome with
      | error fault => cases hrun
      | ok a =>
          cases hrun
          exact hc s vs log a _ hs happly

theorem Notes.congr (hc : c.Notes R S more new) (hmore : more = more') (hnew : new = new') :
    c.Notes R S more' new' := by
  rwa [← hmore, ← hnew]

theorem notes_lift_bind {r : Except Fault β} {b : β} {f : β → Change σ α} (hr : r = .ok b)
    (hf : (f b).Notes R S more new) : (lift r >>= f).Notes R S more new := by
  intro s vs log a t hs hrun
  rw [apply_lift_bind_ok hr] at hrun
  exact hf s vs log a t hs hrun

theorem Notes.list_forM {f : α → Change σ PUnit} {more : α → List Value} {new : α → List Edge}
    (h : ∀ x, (f x).Notes R R (more x) (new x)) (xs : List α) :
    (xs.forM f).Notes R R (xs.flatMap more) (xs.flatMap new) := by
  induction xs with
  | nil => exact (records_pure _).notes
  | cons x xs ih => exact (h x).bind fun _ => ih

end Change

namespace Adjacency

variable {g : Adjacency} {call : Growth} {entry : Value} {exit : Option Value} {es : List Edge}
variable {vs : List Value} {outcome : Except Fault (Option Edge)}

theorem Grows.accepted_eq {g' : Adjacency} {e : Option Edge} (h : Grows g call (.ok e) g') :
    call.accepted = call.arguments := by
  cases h <;> simp_all [Growth.accepted, Growth.arguments]

theorem notes_of_grow {α : Type} (call : Growth) {c : Change Adjacency α} {f : α → Option Edge}
    (h : grow call = f <$> c) : c.Notes Holds Holds call.arguments (call.logged (.ok ())) := by
  intro g vs log a g' hg hrun
  have hgrows := grows call g
  rw [h, Change.apply_map hrun] at hgrows
  have hheld := hgrows.holds hg
  rw [Grows.accepted_eq hgrows] at hheld
  cases call <;> exact hheld

theorem notes_addVertex (v : Value) : (addVertex v).Notes Holds Holds [v] [] :=
  notes_of_grow (.vertex v) (bind_pure_comp (fun _ => none) (addVertex v))

theorem notes_setEntry (v : Value) : (setEntry v).Notes Holds Holds [v] [] :=
  notes_of_grow (.entry v) (bind_pure_comp (fun _ => none) (setEntry v))

theorem notes_setExit (v : Value) : (setExit v).Notes Holds Holds [v] [] :=
  notes_of_grow (.exit v) (bind_pure_comp (fun _ => none) (setExit v))

theorem notes_addEdge (e : Edge) : (addEdge e.source e.target).Notes Holds Holds e.ends [e] :=
  notes_of_grow (.edge e.source e.target) rfl

theorem notes_option_forM {f : Value → Change Adjacency PUnit}
    (h : ∀ v, (f v).Notes Holds Holds [v] []) (o : Option Value) :
    (o.forM f).Notes Holds Holds o.toList [] := by
  cases o with
  | none => exact (Change.records_pure _).notes
  | some v => exact h v

theorem notes_designated (entry exit : Option Value) :
    (designated entry exit).Notes Holds Holds (entry.toList ++ exit.toList) [] :=
  (notes_option_forM notes_setEntry entry).bind fun _ => notes_option_forM notes_setExit exit

def given (v : Value) : List Edge := (Edge.ofValue v).toOption.toList

theorem notes_given (v : Value) : (do
    let e ← Change.lift (Edge.ofValue v)
    discard <| addEdge e.source e.target : Change Adjacency PUnit).Notes Holds Holds
      ((given v).flatMap Edge.ends) (given v) := by
  unfold given
  cases hv : Edge.ofValue v with
  | error fault => exact Change.notes_of_error fun g => ⟨fault, g, rfl⟩
  | ok e =>
      refine Change.notes_lift_bind rfl ?_
      simpa [Except.toOption] using (notes_addEdge e).discard

theorem notes_fill (edges : List Value) (entry : Value) (exit : Option Value)
    (vertices : List Value) : (fill edges entry exit vertices).Notes Holds Holds
      (entry :: vertices ++ (edges.flatMap given).flatMap Edge.ends ++ entry :: exit.toList)
      (edges.flatMap given) := by
  have hall := (notes_addVertex entry).bind fun _ =>
    (Change.Notes.list_forM notes_addVertex vertices).bind fun _ =>
      (Change.Notes.list_forM notes_given edges).bind fun _ =>
        (notes_setEntry entry).bind fun _ => notes_option_forM notes_setExit exit
  exact hall.congr (by simp [List.flatMap_assoc]) (by simp)

inductive Made : Adjacency → List Value → List Edge → Prop
  | designated {g : Adjacency} (entry exit : Option Value) :
      build (designated entry exit) = .ok g → Made g (entry.toList ++ exit.toList) []
  | ofEdges {g : Adjacency} (edges : List Value) (entry : Value) (exit : Option Value)
      (vertices : List Value) : ofEdges edges entry exit vertices = .ok g →
      Made g (entry :: vertices ++ (edges.flatMap given).flatMap Edge.ends ++
        entry :: exit.toList) (edges.flatMap given)

theorem holds_of_build {c : Change Adjacency Unit} (hc : c.Notes Holds Holds vs es)
    (h : build c = .ok g) : g.Holds vs es := by
  unfold build at h
  split at h
  · rename_i hrun
    cases h
    exact hc empty [] [] () g filled_empty hrun
  · cases h

theorem Made.holds (h : Made g vs es) : g.Holds vs es := by
  cases h with
  | designated entry exit h => exact holds_of_build (notes_designated entry exit) h
  | ofEdges edges entry exit vertices h =>
      exact holds_of_build (notes_fill edges entry exit vertices) h

end Adjacency

open Adjacency

theorem adjacency_refines_log {g : Adjacency} {vs : List Value} {es : List Edge}
    (hg : Made g vs es) (calls : List Growth) :
    (after calls g).Refines (vs ++ calls.flatMap Growth.accepted) (es ++ edgeLog calls g) ∧
    ∀ call fault g', (grow call).apply (after calls g) = (.error fault, g') →
      Unharmed call (after calls g) g' := by
  have hheld := holds_after calls hg.holds
  refine ⟨hheld.refines, ?_⟩
  intro call fault g' hrun
  have hgrows := grows call (after calls g)
  rw [hrun] at hgrows
  exact hgrows.unharmed hheld

/-- Half an edge, an edge between two spellings of one vertex, a mark on nothing, and a vertex that
the half edge has brought in before. -/
def refusedCalls : List Growth :=
  [.edge (.str "lost") .null, .edge (.bool true) (.int 1), .exit .null, .vertex (.str "lost")]

def endless : Adjacency := ((fill endlessBranch (.str "a") (some (.int 1)) []).apply .empty).2

theorem adjacency_refines_log_refusedCalls :
    Made endless (.str "a" :: [] ++ (endlessBranch.flatMap given).flatMap Edge.ends ++
      .str "a" :: [.int 1]) (endlessBranch.flatMap given) ∧
    (after refusedCalls endless).graph.vertices =
      [.str "a", .str "b", .str "spin", .int 1, .str "lost"] ∧
    edgeLog refusedCalls endless = [⟨.bool true, .int 1⟩] ∧
    (∃ all, (after refusedCalls endless).graph.edges = .ok all ∧
      all.Perm (endlessBranch.flatMap given ++ [⟨.bool true, .int 1⟩])) ∧
    Unharmed (.edge (.int 7) .null) (after refusedCalls endless)
      ((grow (.edge (.int 7) .null)).apply (after refusedCalls endless)).2 := by
  have hmade : Made endless _ _ := .ofEdges endlessBranch (.str "a") (some (.int 1)) [] rfl
  have hlog : edgeLog refusedCalls endless = [⟨.bool true, .int 1⟩] := by decide
  obtain ⟨hrefines, hunharmed⟩ := adjacency_refines_log hmade refusedCalls
  have hall := hrefines.edges
  rw [hlog] at hall
  exact ⟨hmade, by decide, hlog, hall, hunharmed _ .nullVertex _ rfl⟩

end FlowDominance
