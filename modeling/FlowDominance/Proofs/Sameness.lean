import FlowDominance.Index
import FlowDominance.Proofs.Faultless
import FlowDominance.Table

/-!
# Lists and tables up to sameness

Sameness is equality of canonical forms, so lists of distinct values are those whose canonical forms
are all different, and a value has at most one place in them.
-/

namespace FlowDominance

namespace Value

variable {u v w : Value} {vs : List Value}

theorem same_comm : u.same v = v.same u := by
  simp [same, eq_comm]

theorem occursIn_iff : v.occursIn vs = true ↔ ∃ w ∈ vs, v.canon = w.canon := by
  simp [occursIn, same]

theorem occursIn_iff_mem : v.occursIn vs = true ↔ v.canon ∈ vs.map canon := by
  rw [occursIn_iff, List.mem_map]
  simp [eq_comm]

theorem occursIn_of_mem (h : v ∈ vs) : v.occursIn vs = true := occursIn_iff.2 ⟨v, h, rfl⟩

theorem occursIn_congr (h : u.canon = v.canon) : u.occursIn vs = v.occursIn vs := by
  rw [Bool.eq_iff_iff, occursIn_iff_mem, occursIn_iff_mem, h]

theorem canon_eq_null_iff : v.canon = .null ↔ v = .null := by
  cases v <;> simp [canon]

theorem present?_of_ne_null (h : v ≠ .null) : v.present? = some v := by
  cases v with
  | null => exact absurd rfl h
  | bool b => rfl
  | int n => rfl
  | str s => rfl
  | tuple items => rfl

/-! ## First mentions -/

theorem firsts_sublist (vs : List Value) : (firsts vs).Sublist vs := by
  induction vs with
  | nil => exact .slnil
  | cons v rest ih => exact (List.filter_sublist.trans ih).cons_cons v

theorem occursIn_firsts : v.occursIn (firsts vs) = v.occursIn vs := by
  induction vs with
  | nil => rfl
  | cons w rest ih =>
      rw [Bool.eq_iff_iff] at ih ⊢
      simp only [occursIn_iff, firsts, List.mem_cons, List.mem_filter] at ih ⊢
      constructor
      · rintro ⟨x, rfl | ⟨hx, -⟩, hvx⟩
        · exact ⟨x, .inl rfl, hvx⟩
        · obtain ⟨y, hy, hvy⟩ := ih.1 ⟨x, hx, hvx⟩
          exact ⟨y, .inr hy, hvy⟩
      · rintro ⟨x, rfl | hx, hvx⟩
        · exact ⟨x, .inl rfl, hvx⟩
        · obtain ⟨y, hy, hvy⟩ := ih.2 ⟨x, hx, hvx⟩
          by_cases hwy : w.canon = y.canon
          · exact ⟨w, .inl rfl, hvy.trans hwy.symm⟩
          · exact ⟨y, .inr ⟨hy, by simpa [same] using hwy⟩, hvy⟩

theorem occursIn_cons : v.occursIn (w :: vs) = (v.same w || v.occursIn vs) := rfl

theorem firsts_concat (vs : List Value) (v : Value) :
    firsts (vs ++ [v]) = if v.occursIn vs then firsts vs else firsts vs ++ [v] := by
  induction vs with
  | nil => rfl
  | cons w rest ih =>
      rw [List.cons_append, firsts, ih, occursIn_cons, same_comm (u := v)]
      cases hrest : v.occursIn rest with
      | true => simp [firsts]
      | false => cases hw : w.same v <;> simp [firsts, List.filter_append, hw]

theorem occursIn_append {ws : List Value} :
    v.occursIn (vs ++ ws) = (v.occursIn vs || v.occursIn ws) := List.any_append

theorem firsts_append_cons (h : v.occursIn vs = true) (ws : List Value) :
    firsts (vs ++ v :: ws) = firsts (vs ++ ws) := by
  induction ws using List.reverseRecOn with
  | nil => rw [firsts_concat, if_pos h, List.append_nil]
  | append_singleton ws w ih =>
      have hoccurs : w.occursIn (vs ++ v :: ws) = w.occursIn (vs ++ ws) := by
        rw [occursIn_append, occursIn_append, occursIn_cons]
        cases hw : w.same v with
        | false => simp
        | true => simp [occursIn_congr (same_iff.1 hw), h]
      rw [← List.cons_append, ← List.append_assoc, ← List.append_assoc, firsts_concat,
        firsts_concat, ih, hoccurs]

theorem firsts_filter {p : Value → Bool} (h : ∀ v w : Value, v.canon = w.canon → p v = p w)
    (vs : List Value) : firsts (vs.filter p) = (firsts vs).filter p := by
  induction vs with
  | nil => rfl
  | cons v rest ih =>
      cases hv : p v with
      | true =>
          rw [List.filter_cons_of_pos hv, firsts, firsts, ih, List.filter_cons_of_pos hv,
            List.filter_comm]
      | false =>
          rw [List.filter_cons_of_neg (by simp [hv]), ih, firsts,
            List.filter_cons_of_neg (by simp [hv]), List.filter_filter]
          refine List.filter_congr ?_
          intro w _
          cases hw : p w with
          | false => rfl
          | true =>
              have hne : v.same w = false := by
                rw [Bool.eq_false_iff]
                intro hsame
                simp [h v w (same_iff.1 hsame), hw] at hv
              simp [hne]

theorem firsts_of_distinct (h : Distinct vs) : firsts vs = vs := by
  induction vs with
  | nil => rfl
  | cons v rest ih =>
      obtain ⟨hv, hrest⟩ := List.pairwise_cons.1 h
      rw [firsts, ih hrest, List.filter_eq_self.2]
      intro w hw
      simp [hv w hw]

end Value

theorem distinct_iff_nodup {vs : List Value} : Distinct vs ↔ (vs.map Value.canon).Nodup := by
  simp [Distinct, List.Nodup, List.pairwise_map, Value.same]

theorem Distinct.place_unique {vs : List Value} (h : Distinct vs) {i j : Nat} {u v : Value}
    (hi : vs[i]? = some u) (hj : vs[j]? = some v) (huv : u.canon = v.canon) : i = j := by
  have hlt : i < (vs.map Value.canon).length := by
    simpa using (List.getElem?_eq_some_iff.1 hi).1
  refine (List.getElem?_inj hlt (distinct_iff_nodup.1 h)).1 ?_
  simp [hi, hj, huv]

theorem Distinct.eq_of_canon {vs : List Value} (h : Distinct vs) {u v : Value} (hu : u ∈ vs)
    (hv : v ∈ vs) (huv : u.canon = v.canon) : u = v := by
  obtain ⟨i, hi⟩ := List.getElem?_of_mem hu
  obtain ⟨j, hj⟩ := List.getElem?_of_mem hv
  obtain rfl := h.place_unique hi hj huv
  exact Option.some.inj (hi.symm.trans hj)

/-! ## Dense numbering -/

namespace Index

variable {index : Index} {i : Nat} {v w : Value}

theorem vertex_eq_ok (h : index.vertices[i]? = some v) : index.vertex i = .ok v := by
  simp [vertex, h]

theorem position_eq_ok_iff : index.position v = .ok i ↔
    ∃ w, index.vertices[i]? = some w ∧ v.canon = w.canon := by
  unfold position
  cases hfind : index.vertices.findIdx? v.same with
  | none =>
      simp only [reduceCtorEq, false_iff]
      rintro ⟨w, hw, hvw⟩
      have := List.findIdx?_eq_none_iff.1 hfind w (List.mem_of_getElem? hw)
      simp [Value.same, hvw] at this
  | some j =>
      obtain ⟨hj, hsame, -⟩ := List.findIdx?_eq_some_iff_getElem.1 hfind
      have hat := List.getElem?_eq_getElem hj
      have hcanon := Value.same_iff.1 hsame
      simp only [Except.ok.injEq]
      constructor
      · rintro rfl
        exact ⟨_, hat, hcanon⟩
      · rintro ⟨w, hw, hvw⟩
        exact index.distinct.place_unique hat hw (hcanon.symm.trans hvw)

theorem exists_position_ok (h : index.contains v = true) :
    ∃ i, index.position v = .ok i := by
  obtain ⟨w, hw, hvw⟩ := Value.occursIn_iff.1 h
  obtain ⟨i, hi⟩ := List.getElem?_of_mem hw
  exact ⟨i, position_eq_ok_iff.2 ⟨w, hi, hvw⟩⟩

theorem position_of_not_contains (h : index.contains v = false) :
    index.position v = .error (.missingKey v) := by
  have hnone : index.vertices.findIdx? v.same = none := by
    rw [List.findIdx?_eq_none_iff]
    simpa [contains, Value.occursIn] using h
  simp [position, hnone]

theorem contains_iff : index.contains v = true ↔ ∃ i, index.position v = .ok i := by
  constructor
  · exact exists_position_ok
  · rintro ⟨i, hi⟩
    obtain ⟨w, hw, hcanon⟩ := position_eq_ok_iff.1 hi
    exact Value.occursIn_iff.2 ⟨w, List.mem_of_getElem? hw, hcanon⟩

theorem position_eq_error {fault : Fault} (h : index.position v = .error fault) :
    index.contains v = false ∧ fault = .missingKey v := by
  cases hcontains : index.contains v with
  | true =>
      obtain ⟨i, hi⟩ := exists_position_ok hcontains
      rw [hi] at h
      contradiction
  | false =>
      rw [position_of_not_contains hcontains] at h
      exact ⟨rfl, by simpa using h.symm⟩

def place (index : Index) (v : Value) : Nat := index.vertices.findIdx v.same

def spelled (index : Index) (v : Value) : Value := index.vertices[index.place v]?.getD v

theorem position_eq_place (h : index.contains v = true) :
    index.position v = .ok (index.place v) := by
  obtain ⟨i, hi⟩ := exists_position_ok h
  have hfind : index.vertices.findIdx? v.same = some i := by
    unfold position at hi
    split at hi <;> simp_all
  rw [hi, place, List.findIdx_eq_getD_findIdx?, hfind, Option.getD_some]

theorem getElem?_place (h : index.contains v = true) :
    index.vertices[index.place v]? = some (index.spelled v) := by
  obtain ⟨w, hw, -⟩ := position_eq_ok_iff.1 (position_eq_place h)
  simp [spelled, hw]

theorem place_lt (h : index.contains v = true) : index.place v < index.count :=
  (List.getElem?_eq_some_iff.1 (getElem?_place h)).1

theorem canon_spelled (h : index.contains v = true) : (index.spelled v).canon = v.canon := by
  obtain ⟨w, hw, hcanon⟩ := position_eq_ok_iff.1 (position_eq_place h)
  simp [spelled, hw, hcanon]

theorem canon_of_place (hv : index.contains v = true) (hw : index.contains w = true)
    (h : index.place v = index.place w) : v.canon = w.canon := by
  have hsame : index.spelled v = index.spelled w := by
    have := getElem?_place hv
    rw [h, getElem?_place hw] at this
    exact (Option.some.inj this).symm
  rw [← canon_spelled hv, ← canon_spelled hw, hsame]

theorem same_iff_eq_place (hv : index.vertices[i]? = some v) (hw : index.contains w = true) :
    v.same w = true ↔ i = index.place w := by
  have hplace := getElem?_place hw
  rw [Value.same_iff, ← canon_spelled hw]
  constructor
  · intro hcanon
    exact index.distinct.place_unique hv hplace hcanon
  · rintro rfl
    rw [Option.some.inj (hv.symm.trans hplace)]

end Index

/-! ## Tables -/

namespace Table

variable {α : Type} {t t' : Table α} {k : Value} {a : α} {entries : List (Value × α)}

theorem get?_eq_some_iff : t.get? k = some a ↔ ∃ k', (k', a) ∈ t.entries ∧ k.canon = k'.canon := by
  unfold get?
  rw [Option.map_eq_some_iff]
  constructor
  · rintro ⟨⟨k', b⟩, hfind, rfl⟩
    have hsame := List.find?_some hfind
    exact ⟨k', List.mem_of_find?_eq_some hfind, Value.same_iff.1 hsame⟩
  · rintro ⟨k', hmem, hcanon⟩
    cases hfind : t.entries.find? (fun e => k.same e.1) with
    | none =>
        have := List.find?_eq_none.1 hfind _ hmem
        simp [Value.same, hcanon] at this
    | some e =>
        refine ⟨e, rfl, ?_⟩
        have hfound := List.find?_some hfind
        have hsame := Value.same_iff.1 hfound
        obtain ⟨i, hi⟩ := List.getElem?_of_mem (List.mem_of_find?_eq_some hfind)
        obtain ⟨j, hj⟩ := List.getElem?_of_mem hmem
        have hij : i = j := t.distinct.place_unique (u := e.1) (v := k') (by simp [hi])
          (by simp [hj]) (hsame.symm.trans hcanon)
        rw [hij, hj, Option.some.injEq] at hi
        rw [← hi]

theorem get?_congr {k' : Value} (h : k.canon = k'.canon) : t.get? k = t.get? k' := by
  simp [get?, Value.same, h]

theorem get?_of_mem (h : (k, a) ∈ t.entries) : t.get? k = some a :=
  get?_eq_some_iff.2 ⟨k, h, rfl⟩

theorem ext_get? (hkeys : t.keys = t'.keys) (hget : ∀ k ∈ t.keys, t.get? k = t'.get? k) :
    t = t' := by
  have hentries : t.entries = t'.entries := by
    have hlength : t.entries.length = t'.entries.length := by
      simpa [keys] using congrArg List.length hkeys
    apply List.ext_getElem hlength
    intro i hi hi'
    have hkey : t.entries[i].1 = t'.entries[i].1 := by
      have := congrArg (·[i]?) hkeys
      simpa [keys, hi, hi'] using this
    have hmem : t.entries[i].1 ∈ t.keys := List.mem_map_of_mem (List.getElem_mem hi)
    have hvalue : some t.entries[i].2 = some t'.entries[i].2 := calc
      some t.entries[i].2 = t.get? t.entries[i].1 := (get?_of_mem (List.getElem_mem hi)).symm
      _ = t'.get? t.entries[i].1 := hget _ hmem
      _ = t'.get? t'.entries[i].1 := by rw [hkey]
      _ = some t'.entries[i].2 := get?_of_mem (List.getElem_mem hi')
    exact Prod.ext hkey (Option.some.inj hvalue)
  cases t
  cases t'
  cases hentries
  rfl

theorem entries_insert_of_not_contains (h : t.contains k = false) :
    (t.insert k a).entries = t.entries ++ [(k, a)] := by
  simp [insert, h]

theorem entries_ofList (h : Distinct (entries.map Prod.fst)) :
    (ofList entries).entries = entries := by
  have hrun : ∀ (rest done : List (Value × α)) (t : Table α), t.entries = done →
      Distinct ((done ++ rest).map Prod.fst) →
      (rest.foldl (fun t e => t.insert e.1 e.2) t).entries = done ++ rest := by
    intro rest
    induction rest with
    | nil =>
        intro done t ht _
        simpa using ht
    | cons e rest ih =>
        intro done t ht hdistinct
        have hnew : t.contains e.1 = false := by
          rw [Bool.eq_false_iff]
          intro hmem
          have hnodup := distinct_iff_nodup.1 hdistinct
          simp only [contains, keys, ht, Value.occursIn_iff_mem] at hmem
          simp only [List.map_append, List.map_cons, List.nodup_append, List.mem_cons] at hnodup
          exact hnodup.2.2 _ hmem _ (.inl rfl) rfl
        have hnext := ih (done ++ [e]) (t.insert e.1 e.2)
          (by rw [entries_insert_of_not_contains hnew, ht]) (by simpa using hdistinct)
        simpa using hnext
  simpa [ofList] using hrun entries [] empty rfl (by simpa using h)

theorem ofList_concat (entries : List (Value × α)) (k : Value) (a : α) :
    ofList (entries ++ [(k, a)]) = (ofList entries).insert k a := by
  simp [ofList]

theorem entries_ofList_const (vs : List Value) (a : α) :
    (ofList (vs.map fun v => (v, a))).entries = (Value.firsts vs).map fun v => (v, a) := by
  induction vs using List.reverseRecOn with
  | nil => rfl
  | append_singleton vs v ih =>
      have hcontains : (ofList (vs.map fun v => (v, a))).contains v = v.occursIn vs := by
        rw [contains, keys, ih, List.map_map, Function.comp_def, List.map_id',
          Value.occursIn_firsts]
      rw [List.map_append, List.map_singleton, ofList_concat, Value.firsts_concat]
      cases hv : v.occursIn vs with
      | true =>
          rw [hv] at hcontains
          simp [insert, hcontains, modify, ih]
      | false =>
          rw [entries_insert_of_not_contains (hcontains.trans hv), ih]
          simp

end Table

end FlowDominance
