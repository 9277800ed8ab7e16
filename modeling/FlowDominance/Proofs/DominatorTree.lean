import FlowDominance.Dominator.Algorithm
import FlowDominance.Proofs.Numbering

/-!
# Dominator trees by vertex

What a map of immediate dominators has to say about a graph, and that dominators found by number make
such a map.
-/

namespace FlowDominance

variable {g : FlowGraph} {index : Index} {root : Nat} {u v entry : Value}

/-- The map names the immediate dominator of every vertex that has one, and nothing for the others. -/
structure FlowGraph.DominatorTree (g : FlowGraph) (entry : Value) (idoms : IdomMap) : Prop where
  keys : idoms.keys = Value.firsts g.vertices
  at_entry : idoms.get? entry = some none
  unreachable : ∀ v, g.contains v = true → ¬g.Reaches entry v → idoms.get? v = some none
  reachable : ∀ v, v.same entry = false → g.Reaches entry v →
    ∃ d ∈ Value.firsts g.vertices, idoms.get? v = some (some d) ∧ g.ImmediateDominator entry d v

/-! ## From numbers to vertices -/

theorem Index.exists_idomMap_ok {idom : Array (Option Nat)} (hnull : Value.null ∉ index.vertices)
    (hsize : idom.size = index.count)
    (hlt : ∀ i d : Nat, idom[i]? = some (some d) → d < index.count) :
    ∃ m, index.idomMap idom = .ok m ∧ m.keys = index.vertices ∧
      ∀ v i o, index.position v = .ok i → idom[i]? = some o →
        m.get? v = some (o.bind (index.vertices[·]?)) := by
  let row : Value × Nat → Value × Option Value := fun e =>
    (e.1, idom[e.2]?.join.bind (index.vertices[·]?))
  have hrow : ∀ e ∈ index.vertices.zipIdx,
      (do return (e.1, ← index.dominator idom e.2) : Except Fault (Value × Option Value)) =
        .ok (row e) := by
    rintro ⟨v, i⟩ he
    have hi : i < index.count := by
      have := List.mem_zipIdx_iff_getElem?.1 he
      exact (List.getElem?_eq_some_iff.1 this).1
    have hread : idom[i]? = some idom[i] := Array.getElem?_eq_getElem (by omega)
    cases ho : idom[i] with
    | none =>
        rw [ho] at hread
        simp [row, dominator, Slots.read_eq_ok hread, hread]
    | some d =>
        rw [ho] at hread
        obtain ⟨w, hw⟩ := exists_vertex (hlt i d hread)
        have hne : w ≠ .null := fun h => hnull (h ▸ List.mem_of_getElem? hw)
        simp [row, dominator, Slots.read_eq_ok hread, hread, vertex_eq_ok hw, hw,
          Value.present?_of_ne_null hne]
  have hmap := mapM_eq_ok hrow
  have hkeys : (index.vertices.zipIdx.map row).map Prod.fst = index.vertices := by
    simp [row, Function.comp_def]
  have hentries : (Table.ofList (index.vertices.zipIdx.map row)).entries =
      index.vertices.zipIdx.map row := Table.entries_ofList (hkeys.symm ▸ index.distinct)
  refine ⟨.ofList (index.vertices.zipIdx.map row), ?_, ?_, ?_⟩
  · unfold idomMap
    exact (congrArg (· >>= fun rows => pure (Table.ofList rows)) hmap)
  · rw [Table.keys, hentries, hkeys]
  · intro v i o hi ho
    obtain ⟨w, hw, hcanon⟩ := Index.position_eq_ok_iff.1 hi
    refine Table.get?_eq_some_iff.2 ⟨w, ?_, hcanon⟩
    rw [hentries, List.mem_map]
    exact ⟨(w, i), List.mem_zipIdx_iff_getElem?.2 hw, by simp [row, ho]⟩

theorem IdomArray.lt_count {r : Nat → Nat → Prop} {count i d : Nat} {idom : Array (Option Nat)}
    (h : IdomArray r root count idom) (hr : ∀ i j, r i j → j < count) (hroot : root < count)
    (hd : idom[i]? = some (some d)) : d < count := by
  have hi : i < count := h.size ▸ (Array.getElem?_eq_some_iff.1 hd).1
  by_cases hout : i = root ∨ ¬Reaches r root i
  · simp [h.blank i hi hout] at hd
  · push Not at hout
    obtain ⟨d', hd', hidom⟩ := h.named i hout.1 hout.2
    obtain rfl : d = d' := by simpa [hd] using hd'
    have hreach := hidom.dominates.reaches hout.2
    cases hreach with
    | refl _ => exact hroot
    | step _ hedge _ => exact hr _ _ hedge

/-! ## Algorithms -/

/-- On every finished search over rows of predecessors without faults, the algorithm finds the
immediate dominators. -/
def Algorithm.FindsIdoms (a : Algorithm) : Prop :=
  ∀ (n : Numbered) (tree : SpanningTree) (root : Nat), tree.Searching n root [] →
    (∀ v, Reaches n.Edge root v → ∃ row, n.Sources v row) →
    ∃ idom, a.idoms n tree = .ok idom ∧ IdomArray n.Edge root n.count idom

theorem Dominator.LengauerTarjan.sweep_withRow (n : Numbered) (row : List Link)
    (tree : SpanningTree) (w : Nat) (s : Sweep) :
    sweep (n.withRow root row) tree w s = sweep n tree w s := by
  induction w generalizing s with
  | zero => rfl
  | succ w ih =>
      simp only [sweep, ih]
      rfl

theorem Algorithm.idoms_withRow (a : Algorithm) (n : Numbered) (row : List Link)
    (tree : SpanningTree) : a.idoms (n.withRow root row) tree = a.idoms n tree := by
  cases a with
  | lengauerTarjan =>
      simp only [idoms, Dominator.LengauerTarjan.idoms, Dominator.LengauerTarjan.compute,
        Dominator.LengauerTarjan.sweep_withRow]
      rfl
  | iterative => rfl

theorem Algorithm.FindsIdoms.exists_dominatorTree {a : Algorithm} (ha : a.FindsIdoms)
    (hwf : g.WellFormed) (hentry : g.contains entry = true) :
    ∃ idoms, findIdoms g entry a (.ofList g.vertices) = .ok idoms ∧
      g.DominatorTree entry idoms := by
  have hall := FlowGraph.contains_ofList (g := g)
  have hsub : ∀ v, (Index.ofList g.vertices).contains v = true → g.contains v = true :=
    fun v hv => hall v ▸ hv
  obtain ⟨root, outs, tree, hroot, houts, htree, hsearched, hsources⟩ :=
    FlowGraph.exists_searching hwf hentry
  have hlabels := FlowGraph.relabelling hwf hall hroot
  obtain ⟨idom, hidom, hfound⟩ := ha _ tree root hsearched hsources
  have hnull : Value.null ∉ (Index.ofList g.vertices).vertices :=
    fun h => hwf.null_not_mem ((Value.firsts_sublist _).subset h)
  have hlt : ∀ i d : Nat, idom[i]? = some (some d) → d < (Index.ofList g.vertices).count :=
    fun i d => hfound.lt_count
      (fun _ _ => FlowGraph.searched_lt_count hwf hsub hroot houts) hlabels.start_mem
  obtain ⟨m, hm, hkeys, hlookup⟩ := Index.exists_idomMap_ok hnull hfound.size hlt
  have hreaches : ∀ {v i}, (Index.ofList g.vertices).position v = .ok i →
      (Reaches (g.searched (.ofList g.vertices) root outs).Edge root i ↔ g.Reaches entry v) :=
    FlowGraph.searched_reaches_iff hwf hall hroot houts hentry
  refine ⟨m, ?_, hkeys, ?_, ?_, ?_⟩
  · simp only [findIdoms, htree, ok_bind]
    rw [← a.idoms_withRow, ← FlowGraph.searched, hidom, ok_bind, hm]
  · exact hlookup entry root none hroot (hfound.blank root hlabels.start_mem (.inl rfl))
  · intro v hv hnot
    obtain ⟨i, hi⟩ := Index.exists_position_ok ((hall v).trans hv)
    obtain ⟨w, hw, -⟩ := Index.position_eq_ok_iff.1 hi
    refine hlookup v i none hi (hfound.blank i (Index.lt_count hw) (.inr ?_))
    rwa [hreaches hi]
  · intro v hne hreach
    obtain ⟨i, hi⟩ := Index.exists_position_ok
      ((hall v).trans (FlowGraph.contains_of_reaches hwf hentry hreach))
    obtain ⟨w, hw, hcanon⟩ := Index.position_eq_ok_iff.1 hi
    have hiroot : i ≠ root := by
      rintro rfl
      obtain ⟨w', hw', hcanon'⟩ := Index.position_eq_ok_iff.1 hroot
      obtain rfl : w = w' := by simpa [hw] using hw'
      simp [Value.same, hcanon, hcanon'] at hne
    obtain ⟨d, hd, himm⟩ := hfound.named i hiroot ((hreaches hi).2 hreach)
    obtain ⟨x, hx⟩ := Index.exists_vertex (hlt i d hd)
    refine ⟨x, List.mem_of_getElem? hx, by simp [hlookup v i _ hi hd, hx], ?_⟩
    refine FlowGraph.immediateDominator_of_canon hwf hentry ?_
    rw [FlowGraph.searched_edge_eq hwf hsub hroot houts] at himm
    have hmoved := hlabels.immediateDominator (hlt i d hd) (Index.lt_count hw)
      (by rw [Index.label_eq hw, ← hcanon]; exact (FlowGraph.reaches_iff hwf hentry).1 hreach)
      himm
    rwa [Index.label_eq hx, Index.label_eq hw, ← hcanon] at hmoved

end FlowDominance
