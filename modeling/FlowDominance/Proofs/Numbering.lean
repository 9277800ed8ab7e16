import FlowDominance.Proofs.Paths
import FlowDominance.Proofs.SpanningTree

/-!
# Graphs in numbers

A search reads the row of its start under the spelling that it was given, and every other row under
the spelling of the index.  In a well-formed graph both rows lead to the same vertices, so the numbers
of an index label the graph of canonical forms.
-/

namespace FlowDominance

variable {g : FlowGraph} {index : Index} {i j root : Nat} {u v entry : Value} {outs : List Edge}

/-! ## The row of the start -/

def Numbered.withRow (n : Numbered) (root : Nat) (row : List Link) : Numbered :=
  { n with successors := Function.update n.successors root (.ok row) }

/-- A search that has visited a number never asks for its row again. -/
theorem SpanningTree.grow_withRow {n : Numbered} {t : SpanningTree} {row : List Link} {k : Nat}
    {stack : List (Nat × List Link)} (h : t.dfnum[root]? = some (some k)) :
    grow (n.withRow root row) t stack = grow n t stack := by
  fun_induction grow n t stack with
  | case1 t => rw [grow]
  | case2 t node rest ih => rw [grow, ih h]
  | case3 t node fault links rest => rw [grow]
  | case4 t node child links rest hnone => rw [grow]; split <;> simp_all
  | case5 t node child links rest k' hseen ih => rw [grow]; split <;> simp_all
  | case6 t node child links rest hunseen fault hfault =>
      have hne : child ≠ root := by
        rintro rfl
        simp [hunseen] at h
      rw [grow]
      split <;> simp_all [Numbered.withRow]
  | case7 t node child links rest hunseen row' hrow ih =>
      have hne : child ≠ root := by
        rintro rfl
        simp [hunseen] at h
      have hlt := (Array.getElem?_eq_some_iff.1 hunseen).1
      have hkept : (t.visit child (some node)).dfnum[root]? = some (some k) := by
        rw [dfnum_visit hlt, if_neg hne.symm, h]
      rw [grow]
      split <;> simp_all [Numbered.withRow]

/-! ## Labels -/

namespace Index

def label (index : Index) (i : Nat) : Value := (index.vertices[i]?.getD .null).canon

theorem label_eq (h : index.vertices[i]? = some v) : index.label i = v.canon := by
  simp [label, h]

theorem lt_count (h : index.vertices[i]? = some v) : i < index.count :=
  (List.getElem?_eq_some_iff.1 h).1

theorem exists_vertex (h : i < index.count) : ∃ v, index.vertices[i]? = some v :=
  ⟨_, List.getElem?_eq_getElem h⟩

theorem contains_of_getElem? (h : index.vertices[i]? = some v) : index.contains v = true :=
  Value.occursIn_of_mem (List.mem_of_getElem? h)

theorem label_injective (index : Index) (i j : Nat) (hi : i < index.count) (hj : j < index.count)
    (h : index.label i = index.label j) : i = j := by
  obtain ⟨u, hu⟩ := exists_vertex hi
  obtain ⟨v, hv⟩ := exists_vertex hj
  rw [label_eq hu, label_eq hv] at h
  exact index.distinct.place_unique hu hv h

end Index

namespace FlowGraph

/-- The graph in numbers as a search reads it that was given `outs` for its start. -/
def searched (g : FlowGraph) (index : Index) (root : Nat) (outs : List Edge) : Numbered :=
  (g.numbered index).withRow root ((outs.map Edge.target).map index.position)

theorem spanningTree_eq (hroot : index.position entry = .ok root) (houts : g.outEdges entry = .ok outs) :
    g.spanningTree index entry =
      SpanningTree.grow (g.searched index root outs)
        ((SpanningTree.empty (g.searched index root outs).count).visit root none)
        [(root, (outs.map Edge.target).map index.position)] := by
  obtain ⟨w, hw, -⟩ := Index.position_eq_ok_iff.1 hroot
  have hlt : root < (SpanningTree.empty index.count).dfnum.size := by
    simpa [SpanningTree.empty] using Index.lt_count hw
  have hvisited : ((SpanningTree.empty index.count).visit root none).dfnum[root]? =
      some (some 0) := by
    rw [SpanningTree.dfnum_visit hlt]
    simp [SpanningTree.empty]
  have hsuccessors : g.successors entry = .ok (outs.map Edge.target) := by
    simp [successors, houts, Except.map]
  simp only [spanningTree, hroot, hsuccessors, ok_bind, SpanningTree.search]
  exact (SpanningTree.grow_withRow hvisited).symm

theorem searched_start (hroot : index.position entry = .ok root) (outs : List Edge) :
    SpanningTree.Searching (g.searched index root outs) root
      ((SpanningTree.empty (g.searched index root outs).count).visit root none)
      [(root, (outs.map Edge.target).map index.position)] := by
  obtain ⟨w, hw, -⟩ := Index.position_eq_ok_iff.1 hroot
  exact SpanningTree.searching_start (Index.lt_count hw) (by simp [searched, Numbered.withRow])

def Legible (g : FlowGraph) (index : Index) : Prop :=
  ∀ u, index.contains u = true → ∃ row, g.outEdges u = .ok row

theorem WellFormed.legible (hwf : g.WellFormed)
    (hsub : ∀ v, index.contains v = true → g.contains v = true) : g.Legible index := by
  intro u hu
  obtain ⟨row, hrow, -⟩ := hwf.exists_out u (hsub u hu)
  exact ⟨row, hrow⟩

theorem ok_mem_row_iff (houts : g.outEdges u = .ok outs) :
    Except.ok j ∈ (outs.map Edge.target).map index.position ↔
      ∃ v, index.vertices[j]? = some v ∧ g.Adjacent u v := by
  simp only [List.map_map, List.mem_map, Function.comp_apply, Index.position_eq_ok_iff]
  constructor
  · rintro ⟨e, he, v, hv, hcanon⟩
    exact ⟨v, hv, outs, houts, e, he, Value.same_iff.2 hcanon⟩
  · rintro ⟨v, hv, row, hrow, e, he, hsame⟩
    obtain rfl : outs = row := by simpa [houts] using hrow
    exact ⟨e, he, v, hv, Value.same_iff.1 hsame⟩

section Rows

variable (hrows : g.Legible index)
variable (hroot : index.position entry = .ok root) (houts : g.outEdges entry = .ok outs)
include hrows hroot houts

theorem exists_searched_row (hi : index.vertices[i]? = some u) : ∃ w row,
    w.canon = u.canon ∧ g.outEdges w = .ok row ∧
    (g.searched index root outs).successors i = .ok ((row.map Edge.target).map index.position) := by
  by_cases heq : i = root
  · subst heq
    obtain ⟨w, hw, hcanon⟩ := Index.position_eq_ok_iff.1 hroot
    obtain rfl : u = w := by simpa [hi] using hw
    exact ⟨entry, outs, hcanon, houts, by simp [searched, Numbered.withRow]⟩
  · obtain ⟨row, hrow⟩ := hrows u (Index.contains_of_getElem? hi)
    refine ⟨u, row, rfl, hrow, ?_⟩
    simp [searched, Numbered.withRow, heq, numbered, Index.vertex_eq_ok hi, successors, hrow,
      Except.map]

theorem searched_ranged : (g.searched index root outs).Ranged := by
  intro i (hi : i < index.count)
  obtain ⟨u, hu⟩ := Index.exists_vertex hi
  obtain ⟨w, row, -, hrow, hsucc⟩ := exists_searched_row hrows hroot houts hu
  refine ⟨_, hsucc, ?_⟩
  intro j hj
  obtain ⟨v, hv, -⟩ := (ok_mem_row_iff hrow).1 hj
  exact Index.lt_count hv

end Rows

section WellFormed

variable (hwf : g.WellFormed) (hsub : ∀ v, index.contains v = true → g.contains v = true)
variable (hroot : index.position entry = .ok root) (houts : g.outEdges entry = .ok outs)
include hwf hsub hroot houts

theorem searched_edge_iff : (g.searched index root outs).Edge i j ↔
    relabel g.canonEdge index.label (· < index.count) i j := by
  have hlt : root < index.count := by
    obtain ⟨w, hw, -⟩ := Index.position_eq_ok_iff.1 hroot
    exact Index.lt_count hw
  by_cases hi : i < index.count
  · obtain ⟨u, hu⟩ := Index.exists_vertex hi
    have hcontains := hsub u (Index.contains_of_getElem? hu)
    obtain ⟨w, row, hwu, hrow, hsucc⟩ := exists_searched_row (hwf.legible hsub) hroot houts hu
    have hw : g.contains w = true := contains_congr hwu ▸ hcontains
    have hedge : (g.searched index root outs).Edge i j ↔
        ∃ v, index.vertices[j]? = some v ∧ g.Adjacent w v := by
      rw [← ok_mem_row_iff hrow]
      simp [Numbered.Edge, hsucc]
    rw [hedge]
    constructor
    · rintro ⟨v, hv, hwv⟩
      refine ⟨hi, Index.lt_count hv, w, v, hw, ?_, ?_, hwv⟩
      · rw [Index.label_eq hu, hwu]
      · rw [Index.label_eq hv]
    · rintro ⟨-, hj, x, y, hx, hxi, hyj, hxy⟩
      obtain ⟨v, hv⟩ := Index.exists_vertex hj
      rw [Index.label_eq hu] at hxi
      rw [Index.label_eq hv] at hyj
      exact ⟨v, hv, hwf.adjacent_congr hx (hxi.trans hwu.symm) hyj hxy⟩
  · have hne : i ≠ root := by omega
    have hout : index.vertices[i]? = none := by
      simpa [Index.count] using hi
    constructor
    · rintro ⟨row, hrow, -⟩
      simp [searched, Numbered.withRow, hne, numbered, Index.vertex, hout] at hrow
    · rintro ⟨hi', -⟩
      exact absurd hi' hi

theorem searched_edge_eq : (g.searched index root outs).Edge =
    relabel g.canonEdge index.label (· < index.count) := by
  funext i j
  exact propext (searched_edge_iff hwf hsub hroot houts)

theorem searched_lt_count (h : (g.searched index root outs).Edge i j) : j < index.count := by
  rw [searched_edge_eq hwf hsub hroot houts] at h
  exact h.2.1

theorem lt_count_of_searched (h : FlowDominance.Reaches (g.searched index root outs).Edge root j) :
    j < index.count := by
  cases h with
  | refl _ =>
      obtain ⟨w, hw, -⟩ := Index.position_eq_ok_iff.1 hroot
      exact Index.lt_count hw
  | step _ hedge _ => exact searched_lt_count hwf hsub hroot houts hedge

theorem spanningTree_ok_or_leads_out :
    (∃ tree, g.spanningTree index entry = .ok tree ∧
      tree.Searching (g.searched index root outs) root []) ∨
    ∃ i u v, index.position u = .ok i ∧
      FlowDominance.Reaches (g.searched index root outs).Edge root i ∧ g.Adjacent u v ∧
      index.contains v = false ∧ g.spanningTree index entry = .error (.missingKey v) := by
  rw [spanningTree_eq hroot houts]
  rcases SpanningTree.grow_cases (searched_ranged (hwf.legible hsub) hroot houts)
    (searched_start hroot outs) with hok | ⟨fault, i, row, hrun, hreach, hrow, hmem⟩
  · exact .inl hok
  · obtain ⟨w, hw⟩ := Index.exists_vertex (lt_count_of_searched hwf hsub hroot houts hreach)
    obtain ⟨u, outs', huw, houts', hsucc⟩ := exists_searched_row (hwf.legible hsub) hroot houts hw
    rw [hrow, Except.ok.injEq] at hsucc
    simp only [hsucc, List.map_map, List.mem_map, Function.comp_apply] at hmem
    obtain ⟨e, he, hfault⟩ := hmem
    obtain ⟨hout, rfl⟩ := Index.position_eq_error hfault
    exact .inr ⟨i, u, e.target, Index.position_eq_ok_iff.2 ⟨w, hw, huw⟩, hreach,
      ⟨outs', houts', e, he, Value.same_refl _⟩, hout, hrun⟩

theorem exists_sources_of_indexed {ins : List Edge} (hv : index.vertices[j]? = some v)
    (hins : g.inEdges v = .ok ins) (hindexed : ∀ e ∈ ins, index.contains e.source = true) :
    ∃ row, (g.searched index root outs).Sources j row := by
  have hcontains := hsub v (Index.contains_of_getElem? hv)
  have hlinks : ∀ l ∈ (ins.map Edge.source).map index.position, l ∈ Set.range Except.ok := by
    intro l hl
    simp only [List.map_map, List.mem_map, Function.comp_apply] at hl
    obtain ⟨e, he, rfl⟩ := hl
    obtain ⟨k, hk⟩ := Index.exists_position_ok (hindexed e he)
    exact ⟨k, hk.symm⟩
  obtain ⟨row, hrow⟩ := (Set.range_list_map (Except.ok : Nat → Link)).ge hlinks
  refine ⟨row, ?_, ?_⟩
  · simp [searched, Numbered.withRow, numbered, Index.vertex_eq_ok hv, predecessors, hins,
      Except.map, hrow]
  · intro i
    have hmem : i ∈ row ↔ Except.ok i ∈ (ins.map Edge.source).map index.position := by
      rw [← hrow]
      simp
    rw [hmem, searched_edge_iff hwf hsub hroot houts]
    simp only [List.map_map, List.mem_map, Function.comp_apply, Index.position_eq_ok_iff]
    constructor
    · rintro ⟨e, he, u, hu, hcanon⟩
      have hlt := Index.lt_count hu
      have huv := (hwf.adjacent_iff (hsub u (Index.contains_of_getElem? hu)) hcontains hins).2
        ⟨e, he, Value.same_iff.2 hcanon⟩
      exact ⟨hlt, hlt, Index.lt_count hv, u, v, hsub u (Index.contains_of_getElem? hu),
        (Index.label_eq hu).symm, (Index.label_eq hv).symm, huv⟩
    · rintro ⟨-, hi, -, x, y, hx, hxi, hyj, hxy⟩
      obtain ⟨u, hu⟩ := Index.exists_vertex hi
      rw [Index.label_eq hu] at hxi
      rw [Index.label_eq hv] at hyj
      obtain ⟨e, he, hsame⟩ := (hwf.adjacent_iff (hsub u (Index.contains_of_getElem? hu))
        hcontains hins).1 (hwf.adjacent_congr hx hxi hyj hxy)
      exact ⟨e, he, u, hu, Value.same_iff.1 hsame⟩

end WellFormed

/-! ## Complete indices -/

section Complete

variable (hwf : g.WellFormed) (hall : ∀ v, index.contains v = g.contains v)
variable (hroot : index.position entry = .ok root) (houts : g.outEdges entry = .ok outs)

include hall in
theorem exists_label (hv : g.contains v = true) :
    ∃ i, i < index.count ∧ index.label i = v.canon := by
  obtain ⟨i, hi⟩ := Index.exists_position_ok ((hall v).trans hv)
  obtain ⟨w, hw, hcanon⟩ := Index.position_eq_ok_iff.1 hi
  exact ⟨i, Index.lt_count hw, by rw [Index.label_eq hw, hcanon]⟩

include hwf hall hroot in
theorem relabelling :
    Relabelling g.canonEdge entry.canon index.label (· < index.count) root where
  start_mem := by
    obtain ⟨w, hw, -⟩ := Index.position_eq_ok_iff.1 hroot
    exact Index.lt_count hw
  start_eq := by
    obtain ⟨w, hw, hcanon⟩ := Index.position_eq_ok_iff.1 hroot
    rw [Index.label_eq hw, hcanon]
  injective := index.label_injective
  closed := by
    rintro i b - ⟨u, v, hu, -, rfl, huv⟩
    exact exists_label hall (hwf.contains_of_adjacent hu huv)

include hwf hall hroot houts

theorem searched_reaches_iff (hentry : g.contains entry = true) (hi : index.position v = .ok i) :
    FlowDominance.Reaches (g.searched index root outs).Edge root i ↔ g.Reaches entry v := by
  obtain ⟨w, hw, hcanon⟩ := Index.position_eq_ok_iff.1 hi
  rw [reaches_iff hwf hentry, searched_edge_eq hwf (fun v hv => hall v ▸ hv) hroot houts,
    ← (relabelling hwf hall hroot).reaches_iff (Index.lt_count hw), Index.label_eq hw, hcanon]

theorem exists_sources (hj : j < index.count) : ∃ row, (g.searched index root outs).Sources j row := by
  have hsub : ∀ v, index.contains v = true → g.contains v = true := fun v hv => hall v ▸ hv
  obtain ⟨v, hv⟩ := Index.exists_vertex hj
  obtain ⟨ins, hins, hends⟩ := hwf.exists_in v (hsub v (Index.contains_of_getElem? hv))
  exact exists_sources_of_indexed hwf hsub hroot houts hv hins
    fun e he => (hall e.source).trans (hends e he).2

theorem exists_spanningTree_ok : ∃ tree, g.spanningTree index entry = .ok tree ∧
    tree.Searching (g.searched index root outs) root [] := by
  have hsub : ∀ v, index.contains v = true → g.contains v = true := fun v hv => hall v ▸ hv
  rcases spanningTree_ok_or_leads_out hwf hsub hroot houts with
    hok | ⟨i, u, v, hi, -, hedge, hout, -⟩
  · exact hok
  · have hu := hsub u (Index.contains_iff.2 ⟨i, hi⟩)
    rw [hall, hwf.contains_of_adjacent hu hedge] at hout
    contradiction

end Complete

theorem contains_ofList (v : Value) : (Index.ofList g.vertices).contains v = g.contains v :=
  Value.occursIn_firsts

/-- The search over an index of all vertices comes to an end, and none of the rows of predecessors
that it leads to has a fault. -/
theorem exists_searching (hwf : g.WellFormed) (hentry : g.contains entry = true) :
    ∃ root outs tree, (Index.ofList g.vertices).position entry = .ok root ∧
      g.outEdges entry = .ok outs ∧ g.spanningTree (.ofList g.vertices) entry = .ok tree ∧
      tree.Searching (g.searched (.ofList g.vertices) root outs) root [] ∧
      ∀ j, FlowDominance.Reaches (g.searched (.ofList g.vertices) root outs).Edge root j →
        ∃ row, (g.searched (.ofList g.vertices) root outs).Sources j row := by
  obtain ⟨root, hroot⟩ := Index.exists_position_ok ((contains_ofList entry).trans hentry)
  obtain ⟨outs, houts, -⟩ := hwf.exists_out entry hentry
  obtain ⟨tree, htree, hsearched⟩ := exists_spanningTree_ok hwf contains_ofList hroot houts
  refine ⟨root, outs, tree, hroot, houts, htree, hsearched, ?_⟩
  intro j hreach
  exact exists_sources hwf contains_ofList hroot houts
    (lt_count_of_searched hwf (fun v hv => contains_ofList v ▸ hv) hroot houts hreach)

end FlowGraph

end FlowDominance
