import FlowDominance.Graph.Adjacency
import FlowDominance.Proofs.Faultless
import FlowDominance.Proofs.Paths

/-!
# Adjacency lists and their log

Whatever operations made it, an adjacency graph holds a log of edges: the edges out of a vertex are
those of the log with this source, the edges into it those with this target.
-/

namespace FlowDominance

/-! ## Tables -/

namespace Table

variable {α : Type} {t : Table α} {k k' : Value} {a : α} {f : α → α}

theorem keys_modify : (t.modify k f).keys = t.keys := by
  simp [keys, modify]

theorem contains_congr (h : k.canon = k'.canon) : t.contains k = t.contains k' :=
  Value.occursIn_congr h

theorem get?_modify : (t.modify k f).get? k' =
    if k.canon = k'.canon then (t.get? k').map f else t.get? k' := by
  simp only [get?, modify, List.find?_map, Function.comp_def, Option.map_map]
  cases hfind : t.entries.find? (fun e => k'.same e.1) with
  | none => simp
  | some e =>
      have hsame := List.find?_some hfind
      have hcanon := Value.same_iff.1 hsame
      by_cases h : k.canon = k'.canon
      · simp [h, Value.same, hcanon]
      · simp [h, Value.same, ← hcanon]

theorem contains_of_get? (h : t.get? k = some a) : t.contains k = true := by
  obtain ⟨k', hmem, hcanon⟩ := get?_eq_some_iff.1 h
  exact Value.occursIn_iff.2 ⟨k', List.mem_map.2 ⟨(k', a), hmem, rfl⟩, hcanon⟩

theorem keys_insert_of_not_contains (h : t.contains k = false) :
    (t.insert k a).keys = t.keys ++ [k] := by
  simp [keys, entries_insert_of_not_contains h]

theorem contains_insert_of_not_contains (h : t.contains k = false) :
    (t.insert k a).contains k' = (t.contains k' || k'.same k) := by
  simp [contains, keys_insert_of_not_contains h, Value.occursIn, List.any_append]

theorem get?_insert_of_not_contains (h : t.contains k = false) : (t.insert k a).get? k' =
    if k.canon = k'.canon then some a else t.get? k' := by
  simp only [get?, entries_insert_of_not_contains h, List.find?_append, List.find?_singleton]
  by_cases hk : k.canon = k'.canon
  · have hnone : t.entries.find? (fun e => k'.same e.1) = none := by
      cases hfind : t.entries.find? (fun e => k'.same e.1) with
      | none => rfl
      | some e =>
          have hget : t.get? k' = some e.2 := by simp [get?, hfind]
          rw [contains_congr hk, contains_of_get? hget] at h
          contradiction
    rw [hnone]
    simp [Value.same, hk]
  · cases t.entries.find? (fun e => k'.same e.1) <;> simp [Value.same, hk, Ne.symm hk]

end Table

/-! ## Logs -/

namespace Adjacency

variable {g : Adjacency} {log : List Edge} {e : Edge} {u v : Value}
  {rows : Table (List Edge)} {side : Edge → Value}

/-- Every row holds the edges of the log that have its key on the given side. -/
def Filed (rows : Table (List Edge)) (side : Edge → Value) (log : List Edge) : Prop :=
  ∀ u, rows.contains u = true → rows.get? u = some (log.filter fun e => u.same (side e))

theorem Filed.insert (h : Filed rows side log) (hnew : rows.contains v = false)
    (hsides : ∀ e ∈ log, rows.contains (side e) = true) : Filed (rows.insert v []) side log := by
  intro u hu
  rw [Table.get?_insert_of_not_contains hnew]
  by_cases hvu : v.canon = u.canon
  · -- no edge of the log touches a vertex that was not there
    rw [if_pos hvu, List.filter_eq_nil_iff.2]
    intro e he hsame
    rw [Table.contains_congr (hvu.trans (Value.same_iff.1 hsame)), hsides e he] at hnew
    contradiction
  · rw [if_neg hvu]
    rw [Table.contains_insert_of_not_contains hnew, Bool.or_eq_true] at hu
    cases hu with
    | inl hold => exact h u hold
    | inr hsame => exact absurd (Value.same_iff.1 hsame).symm hvu

theorem Filed.modify (h : Filed rows side log) (e : Edge) :
    Filed (rows.modify (side e) (· ++ [e])) side (log ++ [e]) := by
  intro u hu
  rw [Table.contains, Table.keys_modify] at hu
  rw [Table.get?_modify, h u hu, List.filter_append]
  by_cases hsame : (side e).canon = u.canon
  · simp [hsame, Value.same]
  · simp [hsame, Value.same, Ne.symm hsame]

structure Logged (g : Adjacency) (log : List Edge) : Prop where
  keys_eq : g.incoming.keys = g.outgoing.keys
  null_not_mem : Value.null ∉ g.outgoing.keys
  ends : ∀ e ∈ log, g.outgoing.contains e.source = true ∧ g.outgoing.contains e.target = true
  outgoing_filed : Filed g.outgoing Edge.source log
  incoming_filed : Filed g.incoming Edge.target log
  entry_mem : ∀ v, g.entry? = some v → g.outgoing.contains v = true
  exit_mem : ∀ v, g.exit? = some v → g.outgoing.contains v = true

theorem logged_empty : Logged empty [] := by
  constructor <;> simp [empty, Table.empty, Table.keys, Table.contains, Value.occursIn, Filed]

theorem Logged.contains_incoming (h : Logged g log) :
    g.incoming.contains u = g.outgoing.contains u := by
  rw [Table.contains, h.keys_eq, Table.contains]

theorem contains_withVertex : (g.withVertex v).outgoing.contains u =
    (g.outgoing.contains u || u.same v) := by
  unfold withVertex
  cases hv : g.outgoing.contains v with
  | true =>
      cases hsame : u.same v with
      | false => simp
      | true => simp [Table.contains_congr (Value.same_iff.1 hsame), hv]
  | false => simpa using Table.contains_insert_of_not_contains hv

theorem Logged.withVertex (h : Logged g log) (hv : v ≠ .null) : Logged (g.withVertex v) log := by
  have hkept : ∀ u, g.outgoing.contains u = true →
      (g.withVertex v).outgoing.contains u = true := by
    intro u hu
    simp [contains_withVertex, hu]
  unfold Adjacency.withVertex at hkept ⊢
  cases hold : g.outgoing.contains v with
  | true => simpa [hold] using h
  | false =>
      have hnew : g.incoming.contains v = false := by rw [h.contains_incoming, hold]
      simp only [hold, Bool.false_eq_true, if_false] at hkept ⊢
      exact {
        keys_eq := by
          simp only [Table.keys_insert_of_not_contains hold,
            Table.keys_insert_of_not_contains hnew, h.keys_eq]
        null_not_mem := by
          simp [Table.keys_insert_of_not_contains hold, h.null_not_mem, Ne.symm hv]
        ends := fun e he => ⟨hkept _ (h.ends e he).1, hkept _ (h.ends e he).2⟩
        outgoing_filed := h.outgoing_filed.insert hold fun e he => (h.ends e he).1
        incoming_filed := h.incoming_filed.insert hnew fun e he => by
          rw [h.contains_incoming, (h.ends e he).2]
        entry_mem := fun w hw => hkept w (h.entry_mem w hw)
        exit_mem := fun w hw => hkept w (h.exit_mem w hw) }

theorem Logged.withEdge (h : Logged g log) (hsource : g.outgoing.contains e.source = true)
    (htarget : g.outgoing.contains e.target = true) : Logged (g.withEdge e) (log ++ [e]) := by
  have hcontains : ∀ u, (g.withEdge e).outgoing.contains u = g.outgoing.contains u := by
    intro u
    simp [Adjacency.withEdge, Table.contains, Table.keys_modify]
  exact {
    keys_eq := by simp [Adjacency.withEdge, Table.keys_modify, h.keys_eq]
    null_not_mem := by simpa [Adjacency.withEdge, Table.keys_modify] using h.null_not_mem
    ends := by
      intro f hf
      rw [hcontains, hcontains]
      rcases List.mem_append.1 hf with hf | hf
      · exact h.ends f hf
      · rw [List.mem_singleton.1 hf]
        exact ⟨hsource, htarget⟩
    outgoing_filed := h.outgoing_filed.modify e
    incoming_filed := h.incoming_filed.modify e
    entry_mem := fun w hw => by rw [hcontains, h.entry_mem w hw]
    exit_mem := fun w hw => by rw [hcontains, h.exit_mem w hw] }

/-! ## Operations -/

/-- A change, refused or not, leaves lists of a log if it finds lists of a log. -/
def KeepsLog {α : Type} (c : Change Adjacency α) : Prop :=
  ∀ g log, Logged g log → ∃ log', Logged (c.apply g).2 log'

theorem addVertex_cases (g : Adjacency) (v : Value) :
    (∃ fault, (addVertex v).apply g = (.error fault, g)) ∨
      v ≠ .null ∧ (addVertex v).apply g = (.ok (), g.withVertex v) := by
  cases v with
  | null => exact .inl ⟨.nullVertex, rfl⟩
  | _ => exact .inr ⟨by simp, rfl⟩

theorem contains_withVertex_self : (g.withVertex v).outgoing.contains v = true := by
  simp [contains_withVertex, Value.same]

theorem keepsLog_addVertex (v : Value) : KeepsLog (addVertex v) := by
  intro g log h
  rcases addVertex_cases g v with ⟨fault, hrefused⟩ | ⟨hv, hadded⟩
  · rw [hrefused]
    exact ⟨log, h⟩
  · rw [hadded]
    exact ⟨log, h.withVertex hv⟩

theorem keepsLog_mark {mark : Adjacency → Adjacency}
    (hmark : ∀ g log, Logged g log → g.outgoing.contains v = true → Logged (mark g) log) :
    KeepsLog (addVertex v >>= fun _ => modify mark) := by
  intro g log h
  rcases addVertex_cases g v with ⟨fault, hrefused⟩ | ⟨hv, hadded⟩
  · rw [Change.apply_bind_error hrefused]
    exact ⟨log, h⟩
  · rw [Change.apply_bind_ok hadded, Change.apply_modify]
    exact ⟨log, hmark _ log (h.withVertex hv) contains_withVertex_self⟩

theorem keepsLog_setEntry (v : Value) : KeepsLog (setEntry v) := by
  refine keepsLog_mark ?_
  intro g log h hv
  refine { h with entry_mem := ?_ }
  intro w hw
  cases hw
  exact hv

theorem keepsLog_setExit (v : Value) : KeepsLog (setExit v) := by
  refine keepsLog_mark ?_
  intro g log h hv
  refine { h with exit_mem := ?_ }
  intro w hw
  cases hw
  exact hv

theorem keepsLog_addEdge (source target : Value) : KeepsLog (addEdge source target) := by
  intro g log h
  rw [addEdge]
  rcases addVertex_cases g source with ⟨fault, hrefused⟩ | ⟨hsource, hadded⟩
  · rw [Change.apply_bind_error hrefused]
    exact ⟨log, h⟩
  rw [Change.apply_bind_ok hadded]
  have hfirst := h.withVertex hsource
  rcases addVertex_cases (g.withVertex source) target with ⟨fault, hrefused⟩ | ⟨htarget, hadded'⟩
  · -- the target is refused after the source has been added
    rw [Change.apply_bind_error hrefused]
    exact ⟨log, hfirst⟩
  rw [Change.apply_bind_ok hadded', Change.apply_bind_ok (Change.apply_modify _ _),
    Change.apply_pure]
  refine ⟨log ++ [⟨source, target⟩], (hfirst.withVertex htarget).withEdge ?_ ?_⟩
  · simp [contains_withVertex, Value.same]
  · exact contains_withVertex_self

/-! ## Construction -/

section Construction

variable {α β : Type} {c : Change Adjacency α} {f : α → Change Adjacency β}

theorem KeepsLog.bind (hc : KeepsLog c) (hf : ∀ a, KeepsLog (f a)) : KeepsLog (c >>= f) := by
  intro g log h
  obtain ⟨log', h'⟩ := hc g log h
  cases happly : c.apply g with
  | mk outcome t =>
      rw [happly] at h'
      cases outcome with
      | error fault =>
          rw [Change.apply_bind_error happly]
          exact ⟨log', h'⟩
      | ok a =>
          rw [Change.apply_bind_ok happly]
          exact hf a t log' h'

theorem KeepsLog.discard (hc : KeepsLog c) : KeepsLog (discard c) := by
  intro g log h
  have happly : c.apply g = ((c.apply g).1, (c.apply g).2) := rfl
  rw [Change.apply_discard happly]
  exact hc g log h

theorem keepsLog_lift (r : Except Fault α) : KeepsLog (Change.lift r) := by
  intro g log h
  exact ⟨log, h⟩

theorem KeepsLog.list_forM {f : α → Change Adjacency PUnit} (hf : ∀ a, KeepsLog (f a))
    (as : List α) : KeepsLog (as.forM f) := by
  induction as with
  | nil => exact keepsLog_lift (.ok PUnit.unit)
  | cons a as ih => exact (hf a).bind fun _ => ih

theorem KeepsLog.option_forM {f : α → Change Adjacency PUnit} (hf : ∀ a, KeepsLog (f a))
    (o : Option α) : KeepsLog (o.forM f) := by
  cases o with
  | none => exact keepsLog_lift (.ok PUnit.unit)
  | some a => exact hf a

end Construction

theorem keepsLog_designated (entry exit : Option Value) : KeepsLog (designated entry exit) :=
  (KeepsLog.option_forM keepsLog_setEntry entry).bind fun _ =>
    KeepsLog.option_forM keepsLog_setExit exit

theorem keepsLog_fill (edges : List Value) (entry : Value) (exit : Option Value)
    (vertices : List Value) : KeepsLog (fill edges entry exit vertices) := by
  refine (keepsLog_addVertex entry).bind fun _ => ?_
  refine (KeepsLog.list_forM keepsLog_addVertex vertices).bind fun _ => ?_
  refine (KeepsLog.list_forM ?_ edges).bind fun _ => ?_
  · intro given
    exact (keepsLog_lift (Edge.ofValue given)).bind fun e =>
      (keepsLog_addEdge e.source e.target).discard
  · exact (keepsLog_setEntry entry).bind fun _ => KeepsLog.option_forM keepsLog_setExit exit

theorem KeepsLog.exists_logged_of_build {c : Change Adjacency Unit} (hc : KeepsLog c)
    (h : build c = .ok g) : ∃ log, Logged g log := by
  obtain ⟨log, hlog⟩ := hc empty [] logged_empty
  unfold build at h
  cases happly : c.apply Adjacency.empty with
  | mk outcome t =>
      rw [happly] at h hlog
      cases outcome with
      | error fault => simp at h
      | ok _ =>
          cases h
          exact ⟨log, hlog⟩

/-! ## Reached graphs -/

/-- The graphs that some sequence of operations leads to, refused operations included. -/
inductive Reached : Adjacency → Prop
  | designated {g : Adjacency} (entry exit : Option Value) :
      build (designated entry exit) = .ok g → Reached g
  | ofEdges {g : Adjacency} (edges : List Value) (entry : Value) (exit : Option Value)
      (vertices : List Value) : ofEdges edges entry exit vertices = .ok g → Reached g
  | addVertex {g : Adjacency} (v : Value) : Reached g → Reached ((addVertex v).apply g).2
  | addEdge {g : Adjacency} (source target : Value) :
      Reached g → Reached ((addEdge source target).apply g).2
  | setEntry {g : Adjacency} (v : Value) : Reached g → Reached ((setEntry v).apply g).2
  | setExit {g : Adjacency} (v : Value) : Reached g → Reached ((setExit v).apply g).2

theorem Reached.exists_logged (h : Reached g) : ∃ log, Logged g log := by
  induction h with
  | designated entry exit h => exact (keepsLog_designated entry exit).exists_logged_of_build h
  | ofEdges edges entry exit vertices h =>
      exact (keepsLog_fill edges entry exit vertices).exists_logged_of_build h
  | addVertex v _ ih =>
      obtain ⟨log, hlog⟩ := ih
      exact keepsLog_addVertex v _ log hlog
  | addEdge source target _ ih =>
      obtain ⟨log, hlog⟩ := ih
      exact keepsLog_addEdge source target _ log hlog
  | setEntry v _ ih =>
      obtain ⟨log, hlog⟩ := ih
      exact keepsLog_setEntry v _ log hlog
  | setExit v _ ih =>
      obtain ⟨log, hlog⟩ := ih
      exact keepsLog_setExit v _ log hlog

/-! ## As flow graphs -/

theorem Logged.wellFormed (h : Logged g log) : g.graph.WellFormed := by
  refine FlowGraph.wellFormed_of_log h.null_not_mem h.ends ?_ ?_
  · intro u hu
    simp [graph, row, h.outgoing_filed u hu]
  · intro v hv
    rw [FlowGraph.contains] at hv
    simp [graph, row, h.incoming_filed v (h.contains_incoming.trans hv)]

theorem distinct_vertices (g : Adjacency) : Distinct g.graph.vertices := g.outgoing.distinct

end Adjacency

end FlowDominance
