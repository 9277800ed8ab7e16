import FlowDominance.Proofs.Adjacency

/-!
# Recorded edges

A store is filled by changes, and each of them mentions vertices and adds edges.  What a change
records is told by two lists, and the lists of changes in a row are put one behind the other.
-/

namespace FlowDominance

namespace Edge

def ends (e : Edge) : List Value := [e.source, e.target]

def pair (e : Edge) : Value := .tuple [e.source, e.target]

def mentioned (entry : Value) (es : List Edge) (exit : Option Value) : List Value :=
  Value.firsts (entry :: (es.flatMap ends ++ exit.toList))

section Mentioned

variable {es : List Edge} {entry : Value} {exit : Option Value}

theorem null_not_mem_mentioned (hends : ∀ e ∈ es, ∀ v ∈ e.ends, v ≠ .null)
    (hentry : entry ≠ .null) (hexit : ∀ x ∈ exit, x ≠ .null) :
    Value.null ∉ mentioned entry es exit := by
  intro hmem
  have hmem := (Value.firsts_sublist _).subset hmem
  simp only [List.mem_cons, List.mem_append, List.mem_flatMap, Option.mem_toList] at hmem
  rcases hmem with hnull | ⟨e, he, hnull⟩ | hnull
  · exact hentry hnull.symm
  · exact hends e he _ hnull rfl
  · exact hexit _ hnull rfl

theorem entry_mentioned : entry.occursIn (mentioned entry es exit) = true := by
  rw [mentioned, Value.occursIn_firsts]
  exact Value.occursIn_of_mem (by simp)

theorem exit_mentioned : ∀ x ∈ exit, x.occursIn (mentioned entry es exit) = true := by
  intro x hx
  rw [mentioned, Value.occursIn_firsts]
  exact Value.occursIn_of_mem (by simp [Option.mem_def.1 hx])

theorem ends_mentioned : ∀ e ∈ es, e.source.occursIn (mentioned entry es exit) = true ∧
    e.target.occursIn (mentioned entry es exit) = true := by
  intro e he
  have hmem : ∀ v ∈ e.ends, v.occursIn (mentioned entry es exit) = true := by
    intro v hv
    rw [mentioned, Value.occursIn_firsts]
    exact Value.occursIn_of_mem
      (List.mem_cons_of_mem _ (List.mem_append_left _ (List.mem_flatMap_of_mem he hv)))
  exact ⟨hmem _ (by simp [ends]), hmem _ (by simp [ends])⟩

end Mentioned

end Edge

namespace Change

variable {σ α β : Type} {R S T : σ → List Value → List Edge → Prop}
variable {more more' : List Value} {new new' : List Edge}

def Records (R S : σ → List Value → List Edge → Prop) (c : Change σ α) (more : List Value)
    (new : List Edge) : Prop :=
  ∀ s vs log, R s vs log → ∃ a t, c.apply s = (.ok a, t) ∧ S t (vs ++ more) (log ++ new)

theorem Records.bind {c : Change σ α} {f : α → Change σ β} (hc : c.Records R S more new)
    (hf : ∀ a, (f a).Records S T more' new') :
    (c >>= f).Records R T (more ++ more') (new ++ new') := by
  intro s vs log hs
  obtain ⟨a, t, hrun, ht⟩ := hc s vs log hs
  obtain ⟨b, u, hrun', hu⟩ := hf a t _ _ ht
  refine ⟨b, u, (apply_bind_ok hrun).trans hrun', ?_⟩
  rwa [← List.append_assoc, ← List.append_assoc]

theorem Records.congr {c : Change σ α} (hc : c.Records R S more new) (hmore : more = more')
    (hnew : new = new') : c.Records R S more' new' := by
  rwa [← hmore, ← hnew]

theorem Records.discard {c : Change σ α} (hc : c.Records R S more new) :
    (discard c).Records R S more new := by
  intro s vs log hs
  obtain ⟨a, t, hrun, ht⟩ := hc s vs log hs
  exact ⟨(), t, apply_discard hrun, ht⟩

theorem records_pure (a : α) : (pure a : Change σ α).Records R R [] [] := by
  intro s vs log hs
  exact ⟨a, s, rfl, by simpa using hs⟩

theorem records_lift_bind {r : Except Fault α} {a : α} {f : α → Change σ β} (hr : r = .ok a)
    (hf : (f a).Records R S more new) : (lift r >>= f).Records R S more new := by
  intro s vs log hs
  rw [apply_lift_bind_ok hr]
  exact hf s vs log hs

theorem records_forM {xs : List α} {ys : List β} {f : α → Change σ PUnit}
    {more : β → List Value} {new : β → List Edge}
    (h : List.Forall₂ (fun x y => (f x).Records R R (more y) (new y)) xs ys) :
    (xs.forM f).Records R R (ys.flatMap more) (ys.flatMap new) := by
  induction h with
  | nil => exact records_pure _
  | cons hxy _ ih => exact hxy.bind fun _ => ih

theorem records_pairs {es : List Edge} {f : Value → Change σ PUnit}
    (h : ∀ e ∈ es, (f e.pair).Records R R e.ends [e]) :
    ((es.map Edge.pair).forM f).Records R R (es.flatMap Edge.ends) es := by
  have hall := records_forM (List.forall₂_map_left_iff.2 (List.forall₂_same.2 h))
  exact hall.congr rfl (by simp)

end Change

/-! ## Adjacency lists -/

namespace Adjacency

variable {g : Adjacency} {vs : List Value} {log es : List Edge} {v entry : Value}
variable {exit start stop : Option Value}

/-- The lists hold the log, their keys in the order of first mention. -/
structure Filled (start stop : Option Value) (g : Adjacency) (vs : List Value)
    (log : List Edge) : Prop where
  logged : g.Logged log
  keys_eq : g.outgoing.keys = Value.firsts vs
  entry_eq : g.entry? = start
  exit_eq : g.exit? = stop

theorem filled_empty : Filled none none empty [] [] := ⟨logged_empty, rfl, rfl, rfl⟩

theorem keys_withVertex : (g.withVertex v).outgoing.keys =
    if v.occursIn g.outgoing.keys then g.outgoing.keys else g.outgoing.keys ++ [v] := by
  unfold withVertex Table.contains
  cases hv : v.occursIn g.outgoing.keys with
  | true => simp
  | false => simpa using Table.keys_insert_of_not_contains hv

@[simp] theorem entry_withVertex : Adjacency.entry? (g.withVertex v) = g.entry? := by
  unfold withVertex
  split <;> rfl

@[simp] theorem exit_withVertex : Adjacency.exit? (g.withVertex v) = g.exit? := by
  unfold withVertex
  split <;> rfl

theorem Filled.withVertex (h : Filled start stop g vs log) (hv : v ≠ .null) :
    Filled start stop (g.withVertex v) (vs ++ [v]) log where
  logged := h.logged.withVertex hv
  keys_eq := by rw [keys_withVertex, h.keys_eq, Value.occursIn_firsts, Value.firsts_concat]
  entry_eq := entry_withVertex.trans h.entry_eq
  exit_eq := exit_withVertex.trans h.exit_eq

theorem apply_addVertex (hv : v ≠ .null) (g : Adjacency) :
    (addVertex v).apply g = (.ok (), g.withVertex v) := by
  cases v with
  | null => contradiction
  | _ => rfl

theorem records_addVertex (hv : v ≠ .null) : (addVertex v).Records
    (Filled start stop) (Filled start stop) [v] [] := by
  intro g vs log h
  exact ⟨(), _, apply_addVertex hv g, by simpa using h.withVertex hv⟩

theorem Filled.withEdge {e : Edge} (h : Filled start stop g vs log)
    (hsource : e.source.occursIn vs = true) (htarget : e.target.occursIn vs = true) :
    Filled start stop (g.withEdge e) vs (log ++ [e]) where
  logged := by
    apply h.logged.withEdge
    · rw [Table.contains, h.keys_eq, Value.occursIn_firsts, hsource]
    · rw [Table.contains, h.keys_eq, Value.occursIn_firsts, htarget]
  keys_eq := by simp [Adjacency.withEdge, Table.keys_modify, h.keys_eq]
  entry_eq := h.entry_eq
  exit_eq := h.exit_eq

theorem records_addEdge {e : Edge} (he : ∀ v ∈ e.ends, v ≠ .null) :
    (addEdge e.source e.target).Records (Filled start stop) (Filled start stop)
      e.ends [e] := by
  intro g vs log h
  have hsource : e.source ≠ .null := he _ (by simp [Edge.ends])
  have htarget : e.target ≠ .null := he _ (by simp [Edge.ends])
  refine ⟨e, ((g.withVertex e.source).withVertex e.target).withEdge e, ?_, ?_⟩
  · rw [addEdge, Change.apply_bind_ok (apply_addVertex hsource g),
      Change.apply_bind_ok (apply_addVertex htarget _)]
    rfl
  · have hadded := (h.withVertex hsource).withVertex htarget
    rw [List.append_assoc] at hadded
    exact hadded.withEdge (Value.occursIn_of_mem (by simp)) (Value.occursIn_of_mem (by simp))

theorem records_mark {mark : Adjacency → Adjacency} {start' stop' : Option Value}
    (hv : v ≠ .null) (hmark : ∀ g vs log, Filled start stop g vs log →
      g.outgoing.contains v = true → Filled start' stop' (mark g) vs log) :
    (addVertex v >>= fun _ => modify mark).Records (Filled start stop) (Filled start' stop')
      [v] [] := by
  intro g vs log h
  refine ⟨⟨⟩, mark (g.withVertex v), ?_, ?_⟩
  · rw [Change.apply_bind_ok (apply_addVertex hv g), Change.apply_modify]
  · rw [List.append_nil]
    exact hmark _ _ _ (h.withVertex hv) contains_withVertex_self

theorem Filled.withEntry (h : Filled start stop g vs log) (hv : g.outgoing.contains v = true) :
    Filled (some v) stop { g with entry? := some v } vs log := by
  refine ⟨{ h.logged with entry_mem := ?_ }, h.keys_eq, rfl, h.exit_eq⟩
  rintro w ⟨⟩
  exact hv

theorem Filled.withExit (h : Filled start stop g vs log) (hv : g.outgoing.contains v = true) :
    Filled start (some v) { g with exit? := some v } vs log := by
  refine ⟨{ h.logged with exit_mem := ?_ }, h.keys_eq, h.entry_eq, rfl⟩
  rintro w ⟨⟩
  exact hv

theorem records_setEntry (hv : v ≠ .null) : (setEntry v).Records
    (Filled start stop) (Filled (some v) stop) [v] [] :=
  records_mark hv fun _ _ _ h hmem => h.withEntry hmem

theorem records_setExit (hv : v ≠ .null) : (setExit v).Records
    (Filled start stop) (Filled start (some v)) [v] [] :=
  records_mark hv fun _ _ _ h hmem => h.withExit hmem

theorem records_fill (hends : ∀ e ∈ es, ∀ v ∈ e.ends, v ≠ .null) (hentry : entry ≠ .null)
    (hexit : ∀ x ∈ exit, x ≠ .null) (hvs : ∀ v ∈ vs, v ≠ .null) :
    (fill (es.map Edge.pair) entry exit vs).Records (Filled none none) (Filled (some entry) exit)
      (entry :: (vs ++ (es.flatMap Edge.ends ++ entry :: exit.toList))) es := by
  have hlist : (vs.forM addVertex).Records (Filled none none) (Filled none none)
      (vs.flatMap fun v => [v]) (vs.flatMap fun _ => []) := by
    refine Change.records_forM (List.forall₂_same.2 ?_)
    intro v hv
    exact records_addVertex (hvs v hv)
  have hadd : ((es.map Edge.pair).forM fun given => do
      let e ← Change.lift (Edge.ofValue given)
      discard <| addEdge e.source e.target).Records
        (Filled none none) (Filled none none) (es.flatMap Edge.ends) es := by
    refine Change.records_pairs ?_
    intro e he
    exact Change.records_lift_bind rfl (records_addEdge (hends e he)).discard
  have hmark : (exit.forM setExit).Records
      (Filled (some entry) none) (Filled (some entry) exit) exit.toList [] := by
    cases exit with
    | none => exact Change.records_pure _
    | some x => exact records_setExit (hexit x rfl)
  have hall := (records_addVertex hentry).bind fun _ => hlist.bind fun _ => hadd.bind fun _ =>
    (records_setEntry hentry).bind fun _ => hmark
  exact hall.congr (by simp) (by simp)

end Adjacency

end FlowDominance
