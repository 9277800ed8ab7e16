import FlowDominance.Proofs.Paths
import FlowDominance.Report.Findings

/-!
# Snapshots

A snapshot names vertices by their positions.  It is made exactly if the maps name nothing but
vertices of the graph, and then the maps can be read off it again, entry by entry.
-/

namespace FlowDominance

/-! ## What is located, and what is not -/

namespace Index

variable {α β : Type} {index : Index} {known known' : Prop} {r : Except Fault α} {a : α}

/-- The result is `a` if all that was asked for is known; if not, a vertex is missing that the index
does not contain. -/
def Locates (index : Index) (known : Prop) (r : Except Fault α) (a : α) : Prop :=
  (known → r = .ok a) ∧ (¬known → ∃ v, index.contains v = false ∧ r = .error (.missingKey v))

theorem locates_ok (index : Index) (a : α) : index.Locates True (.ok a) a :=
  ⟨fun _ => rfl, fun h => (h trivial).elim⟩

theorem locates_position (index : Index) (v : Value) :
    index.Locates (index.contains v = true) (index.position v) (index.place v) := by
  refine ⟨position_eq_place, ?_⟩
  intro h
  rw [Bool.not_eq_true] at h
  exact ⟨v, h, position_of_not_contains h⟩

theorem Locates.bind {f : α → Except Fault β} {b : β} (ha : index.Locates known r a)
    (hb : index.Locates known' (f a) b) : index.Locates (known ∧ known') (r >>= f) b := by
  constructor
  · rintro ⟨hknown, hknown'⟩
    rw [ha.1 hknown, ok_bind, hb.1 hknown']
  · intro h
    by_cases hknown : known
    · rw [ha.1 hknown, ok_bind]
      exact hb.2 fun hknown' => h ⟨hknown, hknown'⟩
    · obtain ⟨v, hv, hrun⟩ := ha.2 hknown
      exact ⟨v, hv, by rw [hrun, error_bind]⟩

theorem Locates.map (h : index.Locates known r a) (f : α → β) :
    index.Locates known (r.map f) (f a) := by
  refine ⟨fun hknown => by rw [h.1 hknown, Except.map], fun hnot => ?_⟩
  obtain ⟨v, hv, hrun⟩ := h.2 hnot
  exact ⟨v, hv, by rw [hrun, Except.map]⟩

theorem Locates.congr (h : index.Locates known r a) (hiff : known ↔ known') :
    index.Locates known' r a := by
  rwa [← hiff]

theorem locates_mapM {known : β → Prop} {f : β → Except Fault α} {g : β → α} (xs : List β)
    (h : ∀ x, index.Locates (known x) (f x) (g x)) :
    index.Locates (∀ x ∈ xs, known x) (xs.mapM f) (xs.map g) := by
  induction xs with
  | nil => exact (index.locates_ok []).congr (by simp)
  | cons x xs ih =>
      rw [List.mapM_cons]
      refine ((h x).bind (ih.bind (index.locates_ok (g x :: xs.map g)))).congr ?_
      simp

end Index

namespace Report

variable {f : Findings} {entry : Value}

namespace Findings

/-- The graph has the vertices that it had when the findings were put together. -/
def Current (f : Findings) : Prop := f.index = .ofList f.graph.vertices

structure Within (f : Findings) : Prop where
  idoms : ∀ e ∈ f.idoms.entries,
    f.graph.contains e.1 = true ∧ ∀ d ∈ e.2, f.graph.contains d = true
  frontiers : ∀ e ∈ f.frontiers.entries,
    f.graph.contains e.1 = true ∧ ∀ v ∈ e.2, f.graph.contains v = true

theorem Current.vertices_index (h : f.Current) :
    Value.firsts f.graph.vertices = f.index.vertices := (congrArg Index.vertices h).symm

theorem Current.contains_index (h : f.Current) (v : Value) :
    f.index.contains v = f.graph.contains v := by
  rw [Index.contains, ← h.vertices_index, Value.occursIn_firsts, FlowGraph.contains]

def located (f : Findings) (title : String) (entry : Value) : Snapshot where
  title := title
  vertices := f.index.vertices.zipIdx.map fun (v, i) => (i, f.label v)
  entry := f.index.place entry
  idoms := .ofList (f.idoms.entries.map fun e =>
    (positionKey (f.index.place e.1), e.2.map f.index.place))
  frontiers := .ofList (f.frontiers.entries.map fun e =>
    (positionKey (f.index.place e.1), e.2.map f.index.place))

theorem locates_position? (index : Index) (d : Option Value) :
    index.Locates (∀ v ∈ d, index.contains v = true) (position? index d) (d.map index.place) := by
  cases d with
  | none => exact (index.locates_ok none).congr (by simp)
  | some v => exact ((index.locates_position v).map some).congr (by simp)

theorem locates_entry {α β : Type} {index : Index} {known : Prop} {run : α → Except Fault β}
    {a : α} {b : β} (v : Value) (h : index.Locates known (run a) b) :
    index.Locates (index.contains v = true ∧ known)
      (do return (positionKey (← index.position v), ← run a)) (positionKey (index.place v), b) := by
  refine (index.locates_position v).bind ?_
  rw [← and_true known]
  exact h.bind (index.locates_ok _)

theorem locates_snapshot (title : String) (hcurrent : f.Current)
    (hentry : f.graph.entry = .ok entry) (hmem : f.graph.contains entry = true) :
    f.index.Locates f.Within (f.snapshot title) (f.located title entry) := by
  have hidoms := Index.locates_mapM f.idoms.entries fun e =>
    locates_entry e.1 (locates_position? f.index e.2)
  have hfrontiers := Index.locates_mapM f.frontiers.entries fun e =>
    locates_entry e.1 (Index.locates_mapM e.2 f.index.locates_position)
  have hposition : f.index.position entry = .ok (f.index.place entry) :=
    Index.position_eq_place ((hcurrent.contains_index entry).trans hmem)
  rw [snapshot, hentry, ok_bind, hposition, ok_bind]
  refine Index.Locates.congr
    (hidoms.bind (hfrontiers.bind (f.index.locates_ok (f.located title entry)))) ?_
  simp only [hcurrent.contains_index, and_true]
  exact ⟨fun h => ⟨h.1, h.2⟩, fun h => ⟨h.idoms, h.frontiers⟩⟩

end Findings

/-! ## Reading a snapshot -/

theorem same_positionKey (i j : Nat) :
    (Findings.positionKey i).same (Findings.positionKey j) = decide (i = j) := by
  simp [Findings.positionKey, Value.same, Value.canon]

namespace Snapshot

def keyPosition? : Value → Option Nat
  | .str s => s.toNat?
  | _ => none

@[simp] theorem keyPosition?_positionKey (i : Nat) :
    keyPosition? (Findings.positionKey i) = some i := Nat.toNat?_repr i

def reread {α β : Type} (vs : List Value) (data : α → Option β) (t : Table α) :
    Option (List (Value × β)) :=
  t.entries.mapM fun e => do
    let i ← keyPosition? e.1
    return (← vs[i]?, ← data e.2)

section Located

variable {α β γ δ : Type} {index : Index} {t : Table α} {enc : Value × α → β}
  {dec : Value × α → γ} {data : β → Option γ}

theorem entries_ofList_located (h : ∀ e ∈ t.entries, index.contains e.1 = true) :
    (Table.ofList (t.entries.map fun e =>
        (Findings.positionKey (index.place e.1), enc e))).entries =
      t.entries.map fun e => (Findings.positionKey (index.place e.1), enc e) := by
  apply Table.entries_ofList
  rw [List.map_map, Distinct, List.pairwise_map]
  refine (List.pairwise_map.1 t.distinct).imp_of_mem ?_
  intro a b ha hb hdistinct
  rw [Function.comp_apply, Function.comp_apply, same_positionKey, decide_eq_false_iff_not]
  intro hplace
  have hcanon := Index.canon_of_place (h a ha) (h b hb) hplace
  simp [Value.same_iff.2 hcanon] at hdistinct

theorem reread_located (h : ∀ e ∈ t.entries, index.contains e.1 = true)
    (hdata : ∀ e ∈ t.entries, data (enc e) = some (dec e)) :
    reread index.vertices data (.ofList (t.entries.map fun e =>
        (Findings.positionKey (index.place e.1), enc e))) =
      some (t.entries.map fun e => (index.spelled e.1, dec e)) := by
  rw [reread, entries_ofList_located h, List.mapM_map]
  refine mapM_eq_pure ?_
  intro e he
  simp [Index.getElem?_place (h e he), hdata e he]

theorem exists_reread_located {norm : γ → δ} {norm' : α → δ}
    (h : ∀ e ∈ t.entries, index.contains e.1 = true)
    (hdata : ∀ e ∈ t.entries, data (enc e) = some (dec e))
    (hnorm : ∀ e ∈ t.entries, norm (dec e) = norm' e.2) :
    ∃ entries, reread index.vertices data (.ofList (t.entries.map fun e =>
        (Findings.positionKey (index.place e.1), enc e))) = some entries ∧
      entries.map (Prod.map Value.canon norm) = t.entries.map (Prod.map Value.canon norm') := by
  refine ⟨_, reread_located h hdata, ?_⟩
  rw [List.map_map]
  refine List.map_congr_left ?_
  intro e he
  simp [Prod.map, Index.canon_spelled (h e he), hnorm e he]

end Located

/-- The snapshot tells the title, the labels by position and the position of the entry, and the maps
read off it are those of the findings up to sameness, entry by entry and in order. -/
structure Restores (s : Snapshot) (f : Findings) (title : String) (entry : Value) : Prop where
  title : s.title = title
  ids : s.vertices.map Prod.fst = List.range (Value.firsts f.graph.vertices).length
  labels : s.vertices.map Prod.snd = (Value.firsts f.graph.vertices).map f.label
  entry : ∃ w, (Value.firsts f.graph.vertices)[s.entry]? = some w ∧ w.same entry = true
  idoms : ∃ idoms,
    reread (Value.firsts f.graph.vertices)
      (fun d => d.mapM fun i => (Value.firsts f.graph.vertices)[i]?) s.idoms = some idoms ∧
    idoms.map (Prod.map Value.canon (Option.map Value.canon)) =
      f.idoms.entries.map (Prod.map Value.canon (Option.map Value.canon))
  frontiers : ∃ frontiers,
    reread (Value.firsts f.graph.vertices)
      (fun l => l.mapM fun i => (Value.firsts f.graph.vertices)[i]?) s.frontiers =
        some frontiers ∧
    frontiers.map (Prod.map Value.canon (List.map Value.canon)) =
      f.frontiers.entries.map (Prod.map Value.canon (List.map Value.canon))

end Snapshot

namespace Findings.Within

theorem located_restores (h : f.Within) (hcurrent : f.Current)
    (hmem : f.graph.contains entry = true) (title : String) :
    (f.located title entry).Restores f title entry where
  title := rfl
  ids := by
    have hids := List.zipIdx_map_snd 0 f.index.vertices
    rw [← List.range_eq_range'] at hids
    rw [hcurrent.vertices_index]
    simpa [located, Function.comp_def] using hids
  labels := by
    have hlabels := congrArg (List.map f.label) (List.zipIdx_map_fst 0 f.index.vertices)
    rw [List.map_map] at hlabels
    rw [hcurrent.vertices_index]
    simpa [located, Function.comp_def] using hlabels
  entry := by
    have hcontains := (hcurrent.contains_index entry).trans hmem
    rw [hcurrent.vertices_index]
    exact ⟨_, Index.getElem?_place hcontains, Value.same_iff.2 (Index.canon_spelled hcontains)⟩
  idoms := by
    have hknown := h.idoms
    simp only [← hcurrent.contains_index] at hknown
    have hdata : ∀ e ∈ f.idoms.entries,
        (e.2.map f.index.place).mapM (fun i => f.index.vertices[i]?) =
          some (e.2.map f.index.spelled) := by
      rintro ⟨v, d⟩ he
      cases d with
      | none => rfl
      | some d => simp [Index.getElem?_place ((hknown _ he).2 d rfl)]
    rw [hcurrent.vertices_index]
    refine Snapshot.exists_reread_located (fun e he => (hknown e he).1) hdata ?_
    rintro ⟨v, d⟩ he
    cases d with
    | none => rfl
    | some d => simp [Index.canon_spelled ((hknown _ he).2 d rfl)]
  frontiers := by
    have hknown := h.frontiers
    simp only [← hcurrent.contains_index] at hknown
    have hdata : ∀ e ∈ f.frontiers.entries,
        (e.2.map f.index.place).mapM (fun i => f.index.vertices[i]?) =
          some (e.2.map f.index.spelled) := by
      intro e he
      rw [List.mapM_map]
      exact mapM_eq_pure fun v hv => Index.getElem?_place ((hknown e he).2 v hv)
    rw [hcurrent.vertices_index]
    refine Snapshot.exists_reread_located (fun e he => (hknown e he).1) hdata ?_
    intro e he
    rw [List.map_map]
    exact List.map_congr_left fun v hv => Index.canon_spelled ((hknown e he).2 v hv)

end Findings.Within

/-- A snapshot fails, for the key of a stranger, exactly if the maps name something that is no vertex;
if not, it is made, and the maps can be read off it. -/
theorem snapshot_restores_findings {f : Findings} {entry : Value}
    (hcurrent : f.Current) (hentry : f.graph.entry = .ok entry)
    (hmem : f.graph.contains entry = true) (title : String) :
    ((∃ v, f.graph.contains v = false ∧ f.snapshot title = .error (.missingKey v)) ↔
      ¬f.Within) ∧
    (f.Within → ∃ s, f.snapshot title = .ok s ∧ s.Restores f title entry) := by
  obtain ⟨hok, herror⟩ := Findings.locates_snapshot title hcurrent hentry hmem
  simp only [hcurrent.contains_index] at herror
  refine ⟨⟨?_, herror⟩, fun h => ⟨_, hok h, h.located_restores hcurrent hmem title⟩⟩
  rintro ⟨v, -, hv⟩ h
  rw [hok h] at hv
  cases hv

/-- Every vertex has the same label, and the maps spell some of them differently than the graph. -/
def likeLabelled : Findings where
  graph := EdgeList.graph
    ⟨[.int 0, .int 1, .str "1", .bool true], [⟨.int 0, .int 1⟩, ⟨.int 1, .str "1"⟩],
      some (.bool false), none⟩
  idoms := .ofList
    [(.str "1", some (.bool true)), (.bool true, some (.int 0)), (.bool false, none)]
  frontiers := .ofList [(.int 1, [.str "1", .bool false, .bool true])]
  label _ := "x"

theorem snapshot_restores_findings_likeLabelled :
    likeLabelled.Current ∧ likeLabelled.graph.entry = .ok (.bool false) ∧
    likeLabelled.graph.contains (.bool false) = true ∧ likeLabelled.Within ∧
    ∃ s, likeLabelled.snapshot "t" = .ok s ∧ s.Restores likeLabelled "t" (.bool false) :=
  have hcurrent : likeLabelled.Current := rfl
  have hwithin : likeLabelled.Within := ⟨by decide, by decide⟩
  ⟨hcurrent, rfl, by decide, hwithin,
    (snapshot_restores_findings hcurrent rfl (by decide) "t").2 hwithin⟩

end Report

end FlowDominance
