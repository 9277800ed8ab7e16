import FlowDominance.Proofs.ImmediateDominators

/-!
# Stale indices

A graph may have grown since its index was made.  The search fails at an edge that leads out of the
index, an algorithm at an edge that comes in from outside, if it looks at it: only the passes read
the predecessors of the root.  Where both get through, both find the dominators of the part of the
graph that lies inside the index.
-/

namespace FlowDominance

variable {n : Numbered} {tree : SpanningTree} {root i j k v w : Nat} {fault : Fault}

def Numbered.Fails (n : Numbered) (v : Nat) (fault : Fault) : Prop :=
  ∃ links, n.predecessors v = .ok links ∧ Except.error fault ∈ links ∧
    ∀ i, Except.ok i ∈ links → i < n.count

/-- Every row of predecessors that the root leads to is complete, or has a fault in it. -/
def Numbered.Told (n : Numbered) (root : Nat) : Prop :=
  ∀ v, Reaches n.Edge root v → (∃ row, n.Sources v row) ∨ ∃ fault, n.Fails v fault

theorem Numbered.Sources.not_fails {row : List Nat} (h : n.Sources v row) : ¬n.Fails v fault := by
  rintro ⟨links, hlinks, hfault, -⟩
  rw [h.1, Except.ok.injEq] at hlinks
  simp [← hlinks] at hfault

/-! ## Sweeps that fail -/

namespace Dominator.LengauerTarjan

theorem exists_predecessors_error (h : tree.Searching n root [])
    (hv : tree.preorder[w]? = some v) (hfails : n.Fails v fault) :
    ∃ fault', n.Fails v fault' ∧ predecessors n tree w = .error fault' := by
  obtain ⟨links, hlinks, hfault, hlt⟩ := hfails
  have hin : ∀ i, Except.ok i ∈ links → i < tree.dfnum.size := by
    intro i hi
    rw [h.size_dfnum]
    exact hlt i hi
  obtain ⟨fault', hmem, hrun⟩ := Slots.exists_mapM_read_error hin hfault
  refine ⟨fault', ⟨links, hlinks, hmem, hlt⟩, ?_⟩
  simp only [predecessors, Slots.read_eq_ok hv, hlinks, ok_bind, hrun, error_bind]

theorem exists_sweep_error {T : SearchOrder} {s : Sweep}
    (hparent : ∀ w p, T.parent w = some p → parentOf tree w = .ok p)
    (hpreds : ∀ w, 0 < w → w < T.count →
      (∃ preds, predecessors n tree w = .ok preds ∧ ∀ v, v ∈ preds ↔ T.edge v w) ∨
        ∃ v fault, n.Fails v fault ∧ predecessors n tree w = .error fault)
    (h : Swept T k s) (hk : k < T.count) (hpos : 0 < w) (hw : w ≤ k)
    (hbad : predecessors n tree w = .error fault) :
    ∃ v fault, n.Fails v fault ∧ sweep n tree k s = .error fault := by
  induction k generalizing s with
  | zero => omega
  | succ k ih =>
      cases hpreds (k + 1) (by omega) hk with
      | inr hfault =>
          obtain ⟨v, fault', hfails, hrow⟩ := hfault
          obtain ⟨p, hp⟩ := T.exists_parent (k + 1) (by omega) hk
          refine ⟨v, fault', hfails, ?_⟩
          simp only [sweep, step, hparent _ p hp, hrow, ok_bind, error_bind]
      | inl hok =>
          obtain ⟨preds, hrow, hmem⟩ := hok
          obtain ⟨s', hstep, hswept⟩ := exists_step_ok h hk (hparent (k + 1)) hrow hmem
          have hne : w ≠ k + 1 := by
            rintro rfl
            simp [hrow] at hbad
          obtain ⟨v, fault', hfails, hrun⟩ := ih hswept (by omega) (by omega)
          exact ⟨v, fault', hfails, by simp only [sweep, hstep, ok_bind, hrun]⟩

theorem exists_idoms_error (h : tree.Searching n root []) (htold : n.Told root)
    (hne : v ≠ root) (hreach : Reaches n.Edge root v) (hfails : n.Fails v fault) :
    ∃ v fault, n.Fails v fault ∧ idoms n tree = .error fault := by
  have hlisting := h.listing_preorder
  have hcount : h.order.count = tree.preorder.size := rfl
  have hpreds : ∀ w, 0 < w → w < h.order.count →
      (∃ preds, predecessors n tree w = .ok preds ∧ ∀ v, v ∈ preds ↔ h.order.edge v w) ∨
        ∃ v fault, n.Fails v fault ∧ predecessors n tree w = .error fault := by
    intro w _ hw
    have hat := Array.getElem?_eq_getElem hw
    cases htold _ ((hlisting.listed_iff _).1 ⟨w, hat⟩) with
    | inl hsources =>
        obtain ⟨row, hrow⟩ := hsources
        exact .inl (exists_predecessors_ok h hat hrow)
    | inr hfails =>
        obtain ⟨fault, hfault⟩ := hfails
        exact .inr ⟨_, exists_predecessors_error h hat hfault⟩
  obtain ⟨w, hw⟩ := (hlisting.listed_iff v).2 hreach
  have hlt := (Array.getElem?_eq_some_iff.1 hw).1
  have hpos : 0 < w := by
    apply Nat.pos_of_ne_zero
    rintro rfl
    rw [hlisting.first, Option.some.injEq] at hw
    exact hne hw.symm
  obtain ⟨fault', -, hbad⟩ := exists_predecessors_error h hw hfails
  obtain ⟨u, fault'', hfails', hrun⟩ := exists_sweep_error (fun _ _ => parentOf_eq_ok) hpreds
    (swept_initial h.order) (by omega) hpos (by omega) hbad
  rw [hcount] at hrun
  exact ⟨u, fault'', hfails', by simp only [idoms, compute, hrun, error_bind]⟩

end Dominator.LengauerTarjan

/-! ## Rows that fail -/

namespace Dominator.Iterative

theorem exists_predecessorRanks_error (order : Array Nat) (i : Nat) (hfails : n.Fails v fault) :
    ∃ fault', n.Fails v fault' ∧
      predecessorRanks n (ranks n.count order) i v = .error fault' := by
  obtain ⟨links, hlinks, hfault, hlt⟩ := hfails
  have hin : ∀ i, Except.ok i ∈ links → i < (ranks n.count order).size := by
    simpa [ranks] using hlt
  obtain ⟨fault', hmem, hrun⟩ := Slots.exists_mapM_read_error hin hfault
  refine ⟨fault', ⟨links, hlinks, hmem, hlt⟩, ?_⟩
  simp only [predecessorRanks, hlinks, ok_bind, hrun, error_bind]

theorem exists_idoms_error (h : tree.Searching n root []) (htold : n.Told root)
    (hreach : Reaches n.Edge root v) (hfails : n.Fails v fault) :
    ∃ v fault, n.Fails v fault ∧ idoms n tree = .error fault := by
  have hlisting := h.listing_reversePostorder
  have hrows : ∃ v fault, n.Fails v fault ∧
      predecessorRows n tree.reversePostorder = .error fault := by
    rcases mapM_cases tree.reversePostorder.toList.zipIdx (fun e =>
        predecessorRanks n (ranks n.count tree.reversePostorder) e.2 e.1) with
      hall | ⟨⟨u, i⟩, hmem, fault', hrow, hrun⟩
    · obtain ⟨i, hi⟩ := (hlisting.listed_iff v).2 hreach
      obtain ⟨row, hrow⟩ := hall (v, i) (List.mem_zipIdx_iff_getElem?.2 (by simpa using hi))
      obtain ⟨fault', -, hrow'⟩ := exists_predecessorRanks_error tree.reversePostorder i hfails
      simp [hrow'] at hrow
    · have hu : tree.reversePostorder[i]? = some u := by
        simpa using List.mem_zipIdx_iff_getElem?.1 hmem
      have herror : predecessorRows n tree.reversePostorder = .error fault' := by
        simp only [predecessorRows]
        rw [hrun]
        rfl
      cases htold u ((hlisting.listed_iff u).1 ⟨i, hu⟩) with
      | inl hsources =>
          obtain ⟨row, hok, -⟩ := exists_predecessorRanks_ok hlisting
            (fun _ _ hv => h.lt_count_of_listed hv) hu hsources
          simp [hok] at hrow
      | inr hfails' =>
          obtain ⟨fault₁, hfault₁⟩ := hfails'
          obtain ⟨fault₂, hfails₂, hrow'⟩ :=
            exists_predecessorRanks_error tree.reversePostorder i hfault₁
          obtain rfl : fault₂ = fault' := by simpa [hrow'] using hrow
          exact ⟨u, fault₂, hfails₂, herror⟩
  obtain ⟨u, fault', hfails', hrun⟩ := hrows
  exact ⟨u, fault', hfails', by simp only [idoms, hrun, error_bind]⟩

end Dominator.Iterative

/-! ## Either algorithm -/

namespace Algorithm

def Consults (a : Algorithm) (root v : Nat) : Prop := a = .lengauerTarjan → v ≠ root

theorem idoms_cases (a : Algorithm) (h : tree.Searching n root []) (htold : n.Told root) :
    ((∀ v, a.Consults root v → Reaches n.Edge root v → ∃ row, n.Sources v row) ∧
      ∃ idom, a.idoms n tree = .ok idom ∧ IdomArray n.Edge root n.count idom) ∨
    ((∃ v fault, a.Consults root v ∧ Reaches n.Edge root v ∧ n.Fails v fault) ∧
      ∃ v fault, n.Fails v fault ∧ a.idoms n tree = .error fault) := by
  by_cases hall : ∀ v, a.Consults root v → Reaches n.Edge root v → ∃ row, n.Sources v row
  · refine .inl ⟨hall, ?_⟩
    cases a with
    | lengauerTarjan =>
        exact Dominator.LengauerTarjan.exists_idoms_ok h fun v hne => hall v fun _ => hne
    | iterative => exact Dominator.Iterative.exists_idoms_ok h fun v => hall v (by simp [Consults])
  · push Not at hall
    obtain ⟨v, hconsults, hreach, hnone⟩ := hall
    cases htold v hreach with
    | inl hsources =>
        obtain ⟨row, hrow⟩ := hsources
        exact absurd hrow (hnone row)
    | inr hfails =>
        obtain ⟨fault, hfault⟩ := hfails
        refine .inr ⟨⟨v, fault, hconsults, hreach, hfault⟩, ?_⟩
        cases a with
        | lengauerTarjan =>
            exact Dominator.LengauerTarjan.exists_idoms_error h htold (hconsults rfl) hreach hfault
        | iterative => exact Dominator.Iterative.exists_idoms_error h htold hreach hfault

end Algorithm

/-! ## Inside an index -/

namespace FlowGraph

variable {g : FlowGraph} {index : Index} {entry u v x : Value} {outs : List Edge} {root i j : Nat}

def ReachesWithin (g : FlowGraph) (index : Index) (a b : Value) : Prop :=
  ∃ p, g.IsPath a b p ∧ ∀ x ∈ p, index.contains x = true

def LeadsOut (g : FlowGraph) (index : Index) (entry : Value) : Prop :=
  ∃ u v, g.ReachesWithin index entry u ∧ g.Adjacent u v ∧ index.contains v = false

def EnteredAt (g : FlowGraph) (index : Index) (v : Value) : Prop :=
  ∃ u, g.contains u = true ∧ index.contains u = false ∧ g.Adjacent u v

/-- The algorithm meets an edge from outside the index; by semidominators the predecessors of the
entry are never looked at. -/
def Blocked (g : FlowGraph) (a : Algorithm) (index : Index) (entry : Value) : Prop :=
  ∃ v, g.ReachesWithin index entry v ∧ (a = .lengauerTarjan → v.same entry = false) ∧
    g.EnteredAt index v

theorem ReachesWithin.contains (h : g.ReachesWithin index u v) : index.contains v = true := by
  obtain ⟨p, ⟨-, -, y, hy, hsame⟩, hall⟩ := h
  have hin := hall y (List.mem_of_mem_getLast? hy)
  rwa [Index.contains, Value.occursIn_congr (Value.same_iff.1 hsame)] at hin

section Within

variable (hwf : g.WellFormed) (hsub : ∀ v, index.contains v = true → g.contains v = true)
variable (hroot : index.position entry = .ok root) (houts : g.outEdges entry = .ok outs)

theorem fails_missingKey {fault : Fault} (h : (g.searched index root outs).Fails i fault) :
    ∃ k, fault = .missingKey k := by
  obtain ⟨links, hlinks, hfault, -⟩ := h
  obtain ⟨w, -, hlinks⟩ := bind_eq_ok_iff.1 hlinks
  obtain ⟨preds, -, hlinks⟩ := bind_eq_ok_iff.1 hlinks
  simp only [pure_eq_ok, Except.ok.injEq] at hlinks
  rw [← hlinks] at hfault
  obtain ⟨u, -, hu⟩ := List.mem_map.1 hfault
  exact ⟨u, (Index.position_eq_error hu).2⟩

include hwf hsub hroot houts

theorem reachesWithin_iff (hi : index.position v = .ok i) :
    g.ReachesWithin index entry v ↔
      FlowDominance.Reaches (g.searched index root outs).Edge root i := by
  obtain ⟨w, hw, hcanon⟩ := Index.position_eq_ok_iff.1 hi
  obtain ⟨r, hr, hentry⟩ := Index.position_eq_ok_iff.1 hroot
  have hcontains : g.contains entry = true := hsub entry (Index.contains_iff.2 ⟨root, hroot⟩)
  have hlabelled : ∀ x : Value, index.contains x = true ↔
      ∃ j, j < index.count ∧ index.label j = x.canon := by
    intro x
    rw [Index.contains_iff]
    constructor
    · rintro ⟨j, hj⟩
      obtain ⟨y, hy, hxy⟩ := Index.position_eq_ok_iff.1 hj
      exact ⟨j, Index.lt_count hy, by rw [Index.label_eq hy, hxy]⟩
    · rintro ⟨j, hj, hlabel⟩
      obtain ⟨y, hy⟩ := Index.exists_vertex hj
      rw [Index.label_eq hy] at hlabel
      exact ⟨j, Index.position_eq_ok_iff.2 ⟨y, hy, hlabel.symm⟩⟩
  rw [searched_edge_eq hwf hsub hroot houts,
    ← through_labelled_iff index.label_injective (Index.lt_count hr) (Index.lt_count hw),
    Index.label_eq hr, Index.label_eq hw, ← hentry, ← hcanon, through_iff hwf hcontains]
  simp only [ReachesWithin, hlabelled]

theorem sources_cases (hi : index.position v = .ok i) :
    (¬g.EnteredAt index v ∧ ∃ row, (g.searched index root outs).Sources i row) ∨
      (g.EnteredAt index v ∧ ∃ fault, (g.searched index root outs).Fails i fault) := by
  obtain ⟨w, hw, hcanon⟩ := Index.position_eq_ok_iff.1 hi
  have hcontains := hsub w (Index.contains_of_getElem? hw)
  obtain ⟨ins, hins, hends⟩ := hwf.exists_in w hcontains
  by_cases hall : ∀ e ∈ ins, index.contains e.source = true
  · refine .inl ⟨?_, exists_sources_of_indexed hwf hsub hroot houts hw hins hall⟩
    rintro ⟨u, hu, hout, hedge⟩
    have hedge' := hwf.adjacent_congr hu rfl hcanon hedge
    obtain ⟨e, he, hsame⟩ := (hwf.adjacent_iff hu hcontains hins).1 hedge'
    have hin := hall e he
    rw [Index.contains, Value.occursIn_congr (Value.same_iff.1 hsame)] at hin
    exact Bool.false_ne_true (hout.symm.trans hin)
  · push Not at hall
    obtain ⟨e, he, hout⟩ := hall
    rw [← Bool.eq_false_iff] at hout
    have hsource := (hends e he).2
    have hedge := (hwf.adjacent_iff hsource hcontains hins).2 ⟨e, he, Value.same_refl _⟩
    refine .inr ⟨⟨e.source, hsource, hout, hwf.adjacent_congr hsource rfl hcanon.symm hedge⟩,
      .missingKey e.source, (ins.map Edge.source).map index.position, ?_, ?_, ?_⟩
    · simp [searched, Numbered.withRow, numbered, Index.vertex_eq_ok hw, predecessors, hins,
        Except.map]
    · rw [← Index.position_of_not_contains hout]
      exact List.mem_map_of_mem (List.mem_map_of_mem he)
    · intro k hk
      obtain ⟨x, -, hx⟩ := List.mem_map.1 hk
      obtain ⟨y, hy, -⟩ := Index.position_eq_ok_iff.1 hx
      exact Index.lt_count hy

theorem spanningTree_cases :
    (¬g.LeadsOut index entry ∧ ∃ tree, g.spanningTree index entry = .ok tree ∧
      tree.Searching (g.searched index root outs) root []) ∨
    (g.LeadsOut index entry ∧ ∃ k, g.spanningTree index entry = .error (.missingKey k)) := by
  rcases spanningTree_ok_or_leads_out hwf hsub hroot houts with
    ⟨tree, hrun, hsearching⟩ | ⟨i, u, v, hi, hreach, hedge, hout, hrun⟩
  · refine .inl ⟨?_, tree, hrun, hsearching⟩
    rintro ⟨u, v, hu, hedge, hout⟩
    obtain ⟨i, hi⟩ := Index.exists_position_ok hu.contains
    have hreach := (reachesWithin_iff hwf hsub hroot houts hi).1 hu
    obtain ⟨w, hw, hcanon⟩ := Index.position_eq_ok_iff.1 hi
    obtain ⟨x, row, hxw, hrow, hsucc⟩ := exists_searched_row (hwf.legible hsub) hroot houts hw
    obtain ⟨row', hrow', e, he, hsame⟩ :=
      hwf.adjacent_congr (hsub u hu.contains) (hcanon.trans hxw.symm) rfl hedge
    obtain rfl : row = row' := by simpa [hrow] using hrow'
    have hmissing : index.position e.target = .error (.missingKey e.target) := by
      apply Index.position_of_not_contains
      rwa [Index.contains, Value.occursIn_congr (Value.same_iff.1 hsame)]
    obtain ⟨links, hlinks, hleads⟩ := hsearching.finished i (hsearching.mem_postorder_iff.2 hreach)
    rw [hsucc, Except.ok.injEq] at hlinks
    obtain ⟨j, hj, -⟩ := hleads (index.position e.target)
      (hlinks ▸ List.mem_map_of_mem (List.mem_map_of_mem he))
    simp [hmissing] at hj
  · exact .inr ⟨⟨u, v, (reachesWithin_iff hwf hsub hroot houts hi).2 hreach, hedge, hout⟩, v, hrun⟩

theorem told_within : (g.searched index root outs).Told root := by
  intro i hreach
  obtain ⟨v, hv⟩ := Index.exists_vertex (lt_count_of_searched hwf hsub hroot houts hreach)
  have hi : index.position v = .ok i := Index.position_eq_ok_iff.2 ⟨v, hv, rfl⟩
  cases sources_cases hwf hsub hroot houts hi with
  | inl hsources => exact .inl hsources.2
  | inr hfails => exact .inr hfails.2

omit hwf hsub houts in
theorem same_entry_iff (hi : index.position v = .ok i) : v.same entry = true ↔ i = root := by
  obtain ⟨w, hw, hcanon⟩ := Index.position_eq_ok_iff.1 hi
  obtain ⟨r, hr, hentry⟩ := Index.position_eq_ok_iff.1 hroot
  rw [Value.same_iff, hcanon, hentry]
  constructor
  · exact index.distinct.place_unique hw hr
  · rintro rfl
    rw [hw, Option.some.injEq] at hr
    rw [hr]

theorem blocked_iff (a : Algorithm) : g.Blocked a index entry ↔ ∃ i fault, a.Consults root i ∧
    FlowDominance.Reaches (g.searched index root outs).Edge root i ∧
    (g.searched index root outs).Fails i fault := by
  constructor
  · rintro ⟨v, hv, hother, hentered⟩
    obtain ⟨i, hi⟩ := Index.exists_position_ok hv.contains
    have hsame := same_entry_iff hroot hi
    cases sources_cases hwf hsub hroot houts hi with
    | inl hsources => exact absurd hentered hsources.1
    | inr hfails =>
        obtain ⟨-, fault, hfault⟩ := hfails
        refine ⟨i, fault, ?_, (reachesWithin_iff hwf hsub hroot houts hi).1 hv, hfault⟩
        intro ha heq
        rw [hsame.2 heq] at hother
        exact absurd (hother ha) (by simp)
  · rintro ⟨i, fault, hconsults, hreach, hfault⟩
    obtain ⟨v, hv⟩ := Index.exists_vertex (lt_count_of_searched hwf hsub hroot houts hreach)
    have hi : index.position v = .ok i := Index.position_eq_ok_iff.2 ⟨v, hv, rfl⟩
    cases sources_cases hwf hsub hroot houts hi with
    | inl hsources =>
        obtain ⟨-, row, hrow⟩ := hsources
        exact absurd hfault hrow.not_fails
    | inr hfails =>
        refine ⟨v, (reachesWithin_iff hwf hsub hroot houts hi).2 hreach, ?_, hfails.1⟩
        intro ha
        rw [Bool.eq_false_iff, Ne, same_entry_iff hroot hi]
        exact hconsults ha

theorem exists_idomMap_within {idom : Array (Option Nat)}
    (h : IdomArray (g.searched index root outs).Edge root index.count idom) :
    ∃ idoms, index.idomMap idom = .ok idoms ∧ idoms.keys = index.vertices := by
  have hnull : Value.null ∉ index.vertices := fun hmem =>
    hwf.ne_null (hsub .null (Value.occursIn_of_mem hmem)) rfl
  have hstart : root < index.count := lt_count_of_searched hwf hsub hroot houts (.refl trivial)
  obtain ⟨idoms, hrun, hkeys, -⟩ := Index.exists_idomMap_ok hnull h.size fun i d =>
    h.lt_count (fun _ _ => searched_lt_count hwf hsub hroot houts) hstart
  exact ⟨idoms, hrun, hkeys⟩

/-- A stale index makes an algorithm fail, or it finds the dominators inside the index. -/
theorem findIdoms_cases (a : Algorithm) :
    ((¬g.LeadsOut index entry ∧ ¬g.Blocked a index entry) ∧
      ∃ idom idoms, IdomArray (g.searched index root outs).Edge root index.count idom ∧
        index.idomMap idom = .ok idoms ∧ idoms.keys = index.vertices ∧
        findIdoms g entry a index = .ok idoms) ∨
    ((g.LeadsOut index entry ∨ g.Blocked a index entry) ∧
      ∃ k, findIdoms g entry a index = .error (.missingKey k)) := by
  have hblocked := blocked_iff hwf hsub hroot houts a
  cases spanningTree_cases hwf hsub hroot houts with
  | inr hout =>
      obtain ⟨hleads, k, hrun⟩ := hout
      exact .inr ⟨.inl hleads, k, by simp only [findIdoms, hrun, error_bind]⟩
  | inl hinside =>
      obtain ⟨hnot, tree, hrun, hsearching⟩ := hinside
      have hfind : findIdoms g entry a index =
          a.idoms (g.searched index root outs) tree >>= index.idomMap := by
        simp only [findIdoms, hrun, ok_bind, searched, a.idoms_withRow]
      rw [hfind]
      cases a.idoms_cases hsearching (told_within hwf hsub hroot houts) with
      | inl hok =>
          obtain ⟨hall, idom, hidoms, harray⟩ := hok
          obtain ⟨idoms, hmap, hkeys⟩ := exists_idomMap_within hwf hsub hroot houts harray
          refine .inl ⟨⟨hnot, ?_⟩, idom, idoms, harray, hmap, hkeys, by rw [hidoms, ok_bind, hmap]⟩
          rw [hblocked]
          rintro ⟨i, fault, hconsults, hreach, hfault⟩
          obtain ⟨row, hrow⟩ := hall i hconsults hreach
          exact hrow.not_fails hfault
      | inr hfails =>
          obtain ⟨hmet, i, fault, hfault, hidoms⟩ := hfails
          obtain ⟨k, rfl⟩ := fails_missingKey hfault
          exact .inr ⟨.inr (hblocked.2 hmet), k, by rw [hidoms, error_bind]⟩

end Within

section Outcomes

variable (hwf : g.WellFormed) (hsub : ∀ v, index.contains v = true → g.contains v = true)
variable (hentry : index.contains entry = true)
include hwf hsub hentry

theorem findIdoms_error_iff (a : Algorithm) :
    (∃ k, findIdoms g entry a index = .error (.missingKey k)) ↔
      g.LeadsOut index entry ∨ g.Blocked a index entry := by
  obtain ⟨root, hroot⟩ := Index.exists_position_ok hentry
  obtain ⟨outs, houts, -⟩ := hwf.exists_out entry (hsub entry hentry)
  cases findIdoms_cases hwf hsub hroot houts a with
  | inl hok =>
      obtain ⟨hnot, idom, idoms, -, -, -, hfind⟩ := hok
      simp [hfind, hnot]
  | inr hfails => simp [hfails.1, hfails.2]

theorem findIdoms_total (a : Algorithm) : (∃ idoms, findIdoms g entry a index = .ok idoms) ∨
    ∃ k, findIdoms g entry a index = .error (.missingKey k) := by
  obtain ⟨root, hroot⟩ := Index.exists_position_ok hentry
  obtain ⟨outs, houts, -⟩ := hwf.exists_out entry (hsub entry hentry)
  cases findIdoms_cases hwf hsub hroot houts a with
  | inl hok =>
      obtain ⟨-, idom, idoms, -, -, -, hfind⟩ := hok
      exact .inl ⟨idoms, hfind⟩
  | inr hfails => exact .inr hfails.2

theorem findIdoms_agree {a b : Algorithm} {idoms idoms' : IdomMap}
    (ha : findIdoms g entry a index = .ok idoms) (hb : findIdoms g entry b index = .ok idoms') :
    idoms = idoms' ∧ idoms.keys = index.vertices := by
  obtain ⟨root, hroot⟩ := Index.exists_position_ok hentry
  obtain ⟨outs, houts, -⟩ := hwf.exists_out entry (hsub entry hentry)
  have hfound : ∀ {c : Algorithm} {m : IdomMap}, findIdoms g entry c index = .ok m →
      ∃ idom, IdomArray (g.searched index root outs).Edge root index.count idom ∧
        index.idomMap idom = .ok m ∧ m.keys = index.vertices := by
    intro c m hm
    cases findIdoms_cases hwf hsub hroot houts c with
    | inl hok =>
        obtain ⟨-, idom, m', harray, hmap, hkeys, hfind⟩ := hok
        rw [hm, Except.ok.injEq] at hfind
        exact ⟨idom, harray, hfind ▸ hmap, hfind ▸ hkeys⟩
    | inr hfails =>
        obtain ⟨-, k, hk⟩ := hfails
        simp [hk] at hm
  obtain ⟨idom, harray, hmap, hkeys⟩ := hfound ha
  obtain ⟨idom', harray', hmap', -⟩ := hfound hb
  obtain rfl := harray.unique harray'
  rw [hmap, Except.ok.injEq] at hmap'
  exact ⟨hmap', hkeys⟩

end Outcomes

end FlowGraph

/-! ## The outcome of both algorithms -/

variable {g : FlowGraph} {index : Index} {entry : Value}

theorem algorithms_on_stale_index (hwf : g.WellFormed)
    (hsub : ∀ v, index.contains v = true → g.contains v = true)
    (hentry : index.contains entry = true) :
    ((∃ k, findIdomsNamed g entry (.str "lengauer-tarjan") index = .error (.missingKey k)) ↔
      g.LeadsOut index entry ∨
        ∃ v, g.ReachesWithin index entry v ∧ v.same entry = false ∧ g.EnteredAt index v) ∧
    ((∃ k, findIdomsNamed g entry (.str "iterative") index = .error (.missingKey k)) ↔
      g.LeadsOut index entry ∨ ∃ v, g.ReachesWithin index entry v ∧ g.EnteredAt index v) ∧
    (∀ a : Algorithm, (∃ idoms, findIdomsNamed g entry (.str a.name) index = .ok idoms) ∨
      ∃ k, findIdomsNamed g entry (.str a.name) index = .error (.missingKey k)) ∧
    (∀ idoms idoms', findIdomsNamed g entry (.str "lengauer-tarjan") index = .ok idoms →
      findIdomsNamed g entry (.str "iterative") index = .ok idoms' →
      idoms = idoms' ∧ idoms.keys = index.vertices) ∧
    ((∀ u v, g.contains u = true → g.Adjacent u v → index.contains u = index.contains v) →
      ∃ idoms, findIdomsNamed g entry (.str "lengauer-tarjan") index = .ok idoms ∧
        findIdomsNamed g entry (.str "iterative") index = .ok idoms) := by
  have hname : ∀ a : Algorithm, findIdomsNamed g entry (.str a.name) index =
      findIdoms g entry a index := fun a => findIdomsNamed_name g entry a index
  have hlt : findIdomsNamed g entry (.str "lengauer-tarjan") index =
      findIdoms g entry .lengauerTarjan index := hname .lengauerTarjan
  have hit : findIdomsNamed g entry (.str "iterative") index =
      findIdoms g entry .iterative index := hname .iterative
  rw [hlt, hit]
  refine ⟨?_, ?_, ?_, ?_, ?_⟩
  · simpa [FlowGraph.Blocked] using
      FlowGraph.findIdoms_error_iff hwf hsub hentry .lengauerTarjan
  · simpa [FlowGraph.Blocked] using FlowGraph.findIdoms_error_iff hwf hsub hentry .iterative
  · intro a
    rw [hname]
    exact FlowGraph.findIdoms_total hwf hsub hentry a
  · intro idoms idoms'
    exact FlowGraph.findIdoms_agree hwf hsub hentry
  · intro hinside
    have hok : ∀ a : Algorithm, ∃ idoms, findIdoms g entry a index = .ok idoms := by
      intro a
      refine (FlowGraph.findIdoms_total hwf hsub hentry a).resolve_right ?_
      rw [FlowGraph.findIdoms_error_iff hwf hsub hentry]
      rintro (⟨u, v, hu, hedge, hout⟩ | ⟨v, hv, -, u, hu, hout, hedge⟩)
      · rw [← hinside u v (hsub u hu.contains) hedge, hu.contains] at hout
        contradiction
      · rw [hinside u v hu hedge, hv.contains] at hout
        contradiction
    obtain ⟨idoms, hidoms⟩ := hok .lengauerTarjan
    obtain ⟨idoms', hidoms'⟩ := hok .iterative
    obtain ⟨rfl, -⟩ := FlowGraph.findIdoms_agree hwf hsub hentry hidoms hidoms'
    exact ⟨idoms, hidoms, hidoms'⟩

/-- A loop, and a vertex that came later and leads to the entry only. -/
def loopWithLateVertex : EdgeList where
  vertices := [.int 0, .int 1, .int 2, .str "late"]
  edges := [⟨.bool false, .int 1⟩, ⟨.int 1, .int 2⟩, ⟨.int 2, .bool true⟩, ⟨.str "late", .int 0⟩]
  entry? := some (.int 0)
  exit? := none

/-- The index of the loop alone, with another spelling of its entry. -/
def loopIndex : Index := .ofList [.bool false, .int 1, .int 2]

theorem algorithms_on_stale_index_loopWithLateVertex :
    loopWithLateVertex.graph.WellFormed ∧
    (∀ v, loopIndex.contains v = true → loopWithLateVertex.graph.contains v = true) ∧
    loopIndex.contains (.int 0) = true ∧
    (∃ idoms, findIdomsNamed loopWithLateVertex.graph (.int 0) (.str "lengauer-tarjan") loopIndex =
      .ok idoms) ∧
    ∃ k, findIdomsNamed loopWithLateVertex.graph (.int 0) (.str "iterative") loopIndex =
      .error (.missingKey k) := by
  have hwf : loopWithLateVertex.graph.WellFormed :=
    loopWithLateVertex.graph_wellFormed (by decide) (by decide)
  have hvertices : ∀ x ∈ loopIndex.vertices, loopWithLateVertex.graph.contains x = true := by
    decide
  have hsub : ∀ v, loopIndex.contains v = true → loopWithLateVertex.graph.contains v = true := by
    intro v hv
    obtain ⟨x, hx, hcanon⟩ := Value.occursIn_iff.1 hv
    rw [FlowGraph.contains_congr hcanon]
    exact hvertices x hx
  have hentry : loopIndex.contains (.int 0) = true := by decide
  have hkeeps : ∀ e ∈ loopWithLateVertex.edges, loopIndex.contains e.source = true →
      loopIndex.contains e.target = true := by decide
  have henters : ∀ e ∈ loopWithLateVertex.edges, loopIndex.contains e.source = false →
      e.target.same (.int 0) = true := by decide
  have hedge : ∀ {u v}, loopWithLateVertex.graph.Adjacent u v → ∃ e ∈ loopWithLateVertex.edges,
      loopIndex.contains e.source = loopIndex.contains u ∧
        loopIndex.contains e.target = loopIndex.contains v ∧
        e.target.same (.int 0) = v.same (.int 0) := by
    rintro u v ⟨row, hrow, e, he, hsame⟩
    obtain rfl := Except.ok.inj hrow
    obtain ⟨hmem, hsource⟩ := List.mem_filter.1 he
    rw [Value.same_iff] at hsource hsame
    exact ⟨e, hmem, Value.occursIn_congr hsource.symm, Value.occursIn_congr hsame,
      by simp only [Value.same, hsame]⟩
  obtain ⟨hlt, hit, htotal, -⟩ := algorithms_on_stale_index hwf hsub hentry
  refine ⟨hwf, hsub, hentry, ?_, ?_⟩
  · refine (htotal .lengauerTarjan).resolve_right fun hfails => ?_
    obtain ⟨u, v, hu, huv, hout⟩ | ⟨v, -, hother, u, -, hout, huv⟩ := hlt.1 hfails
    · obtain ⟨e, he, hsource, htarget, -⟩ := hedge huv
      rw [hkeeps e he (hsource.trans hu.contains)] at htarget
      exact Bool.false_ne_true (hout.symm.trans htarget.symm)
    · obtain ⟨e, he, hsource, -, hsame⟩ := hedge huv
      rw [henters e he (hsource.trans hout), hother] at hsame
      exact Bool.false_ne_true hsame.symm
  · refine hit.2 (.inr ⟨.int 0, ⟨[.int 0], ?_, by simpa using hentry⟩, .str "late", ?_⟩)
    · exact ⟨.singleton _, ⟨_, rfl, Value.same_refl _⟩, _, rfl, Value.same_refl _⟩
    · exact ⟨by decide, by decide, _, rfl, ⟨.str "late", .int 0⟩, by decide, Value.same_refl _⟩

end FlowDominance
