import FlowDominance.Proofs.ImmediateDominators

/-!
# Semidominators

The sweep reads direct predecessors and asks the forest; it never follows a path.  What it leaves in
`semi` is nevertheless told by paths of the graph: the earliest visit from which a path leads to the
vertex by way of later visits only.
-/

namespace FlowDominance

/-! ## Paths as lists of visit numbers -/

theorem Through.exists_isChain {α : Type} {r : α → α → Prop} {P : α → Prop} {a b : α}
    (h : Through r P a b) (rest : List α) (hrest : (b :: rest).IsChain r) :
    ∃ p, (a :: p ++ rest).IsChain r ∧ ∀ x ∈ a :: p, P x := by
  induction h generalizing rest with
  | refl ha => exact ⟨[], hrest, by simpa using ha⟩
  | @step b c _ hbc hc ih =>
      obtain ⟨p, hchain, hall⟩ := ih (c :: rest) (.cons_cons hbc hrest)
      refine ⟨p ++ [c], by simpa using hchain, ?_⟩
      intro x hx
      rw [← List.cons_append, List.mem_append, List.mem_singleton] at hx
      cases hx with
      | inl hx => exact hall x hx
      | inr hx => exact hx ▸ hc

namespace SearchOrder

variable {T : SearchOrder} {a w x : Nat}

theorem exists_through_of_isChain {p : List Nat} (h : (a :: p ++ [w]).IsChain T.edge)
    (hlate : ∀ k ∈ a :: p, w < k) : ∃ b, Through T.edge (w < ·) a b ∧ T.edge b w := by
  induction p generalizing a with
  | nil => exact ⟨a, .refl (hlate a (by simp)), by simpa using h⟩
  | cons c p ih =>
      rw [List.cons_append, List.cons_append, List.isChain_cons_cons] at h
      obtain ⟨b, hpath, hbw⟩ := ih h.2 fun k hk => hlate k (List.mem_cons_of_mem a hk)
      exact ⟨b, hpath.head (hlate a (by simp)) h.1, hbw⟩

theorem semiPath_iff : T.SemiPath x w ↔
    ∃ inner, (x :: inner ++ [w]).IsChain T.edge ∧ ∀ k ∈ inner, w < k := by
  constructor
  · intro h
    cases h with
    | inl hedge => exact ⟨[], by simpa using hedge, by simp⟩
    | inr h =>
        obtain ⟨a, b, hxa, hpath, hbw⟩ := h
        obtain ⟨p, hchain, hlate⟩ := hpath.exists_isChain [w] (by simpa using hbw)
        exact ⟨a :: p, .cons_cons hxa hchain, hlate⟩
  · rintro ⟨inner, hchain, hlate⟩
    cases inner with
    | nil => exact .inl (by simpa using hchain)
    | cons a p =>
        rw [List.cons_append, List.cons_append, List.isChain_cons_cons] at hchain
        obtain ⟨b, hpath, hbw⟩ := exists_through_of_isChain hchain.2 hlate
        exact .inr ⟨a, b, hchain.1, hpath, hbw⟩

theorem lt_count_of_isChain {p : List Nat} (h : (p ++ [w]).IsChain T.edge) (hw : w < T.count) :
    ∀ k ∈ p ++ [w], k < T.count := by
  induction p with
  | nil => simpa using hw
  | cons a p ih =>
      rw [List.cons_append, List.isChain_cons] at h
      have ha : a < T.count := by
        cases p with
        | nil => exact (T.edge_lt a w (h.1 w (by simp))).1
        | cons b p => exact (T.edge_lt a b (h.1 b (by simp))).1
      intro k hk
      cases List.mem_cons.1 hk with
      | inl hka => exact hka ▸ ha
      | inr hk => exact ih h.2 k hk

theorem isLeast_sdom (hpos : 0 < w) (hw : w < T.count) : IsLeast {x | T.SemiPath x w} (T.sdom w) :=
  ⟨semiPath_sdom hpos hw, fun _ => sdom_le⟩

end SearchOrder

/-! ## Paths of the graph -/

namespace SpanningTree

variable {t : SpanningTree} {index : Index} {v : Value} {k : Nat}

def visitOf (t : SpanningTree) (index : Index) (v : Value) : Option Nat :=
  (index.position v).toOption.bind fun i => t.dfnum[i]?.join

def vertexOf (t : SpanningTree) (index : Index) (k : Nat) : Value :=
  (t.preorder[k]?.bind (index.vertices[·]?)).getD .null

/-- A path of at least one edge leads from the vertex of visit `x` to the vertex of visit `w`, and
whatever it passes in between is visited later than `w`. -/
def LatePath (t : SpanningTree) (g : FlowGraph) (index : Index) (x w : Nat) : Prop :=
  ∃ u v inner, t.visitOf index u = some x ∧ t.visitOf index v = some w ∧
    (u :: inner ++ [v]).IsChain g.Adjacent ∧
    ∀ y ∈ inner, ∃ k, t.visitOf index y = some k ∧ w < k

theorem visitOf_eq_some_iff : t.visitOf index v = some k ↔
    ∃ i, index.position v = .ok i ∧ t.dfnum[i]? = some (some k) := by
  unfold visitOf
  cases index.position v with
  | error fault => simp [Except.toOption]
  | ok i => simp [Except.toOption, Option.join_eq_some_iff]

end SpanningTree

namespace FlowGraph

variable {g : FlowGraph} {index : Index} {tree : SpanningTree} {root i j k w x : Nat}
variable {u v start : Value} {outs : List Edge}

theorem canonEdge_canon_iff (hwf : g.WellFormed) (hu : g.contains u = true) :
    g.canonEdge u.canon v.canon ↔ g.Adjacent u v := by
  constructor
  · rintro ⟨a, b, ha, hau, hbv, hab⟩
    exact hwf.adjacent_congr ha hau hbv hab
  · intro huv
    exact ⟨u, v, hu, rfl, rfl, huv⟩

theorem visitOf_vertexOf (h : tree.Searching (g.searched index root outs) root [])
    (hk : k < tree.preorder.size) :
    tree.visitOf index (tree.vertexOf index k) = some k := by
  have hi := Array.getElem?_eq_getElem hk
  have hnum := (h.numbered k _).1 hi
  have hlt : tree.preorder[k] < index.count := h.lt_count ⟨k, hnum⟩
  obtain ⟨v, hv⟩ := Index.exists_vertex hlt
  have hvertex : tree.vertexOf index k = v := by
    rw [SpanningTree.vertexOf, hi, Option.bind_some, hv, Option.getD_some]
  rw [hvertex]
  exact SpanningTree.visitOf_eq_some_iff.2
    ⟨_, Index.position_eq_ok_iff.2 ⟨v, hv, rfl⟩, hnum⟩

section Visits

variable (hwf : g.WellFormed) (hall : ∀ v, index.contains v = g.contains v)
variable (hroot : index.position start = .ok root) (houts : g.outEdges start = .ok outs)
variable (h : tree.Searching (g.searched index root outs) root [])
include hwf hall hroot houts h

theorem order_edge_iff (hu : tree.visitOf index u = some i) (hv : tree.visitOf index v = some j) :
    h.order.edge i j ↔ g.Adjacent u v := by
  obtain ⟨a, ha, hai⟩ := SpanningTree.visitOf_eq_some_iff.1 hu
  obtain ⟨b, hb, hbj⟩ := SpanningTree.visitOf_eq_some_iff.1 hv
  obtain ⟨u', hu', huu⟩ := Index.position_eq_ok_iff.1 ha
  obtain ⟨v', hv', hvv⟩ := Index.position_eq_ok_iff.1 hb
  have hpre := (h.numbered i a).2 hai
  have hpre' := (h.numbered j b).2 hbj
  have hedge : h.order.edge i j ↔ (g.searched index root outs).Edge a b := by
    constructor
    · rintro ⟨a', b', ha', hb', hab⟩
      rw [hpre, Option.some.injEq] at ha'
      rw [hpre', Option.some.injEq] at hb'
      exact ha' ▸ hb' ▸ hab
    · intro hab
      exact ⟨a, b, hpre, hpre', hab⟩
  have hcontains : g.contains u = true := by
    rw [← hall]
    exact Index.contains_iff.2 ⟨a, ha⟩
  rw [hedge, searched_edge_iff hwf (fun v hv => hall v ▸ hv) hroot houts, relabel,
    Index.label_eq hu', Index.label_eq hv', ← huu, ← hvv, canonEdge_canon_iff hwf hcontains]
  exact ⟨fun hab => hab.2.2, fun huv => ⟨Index.lt_count hu', Index.lt_count hv', huv⟩⟩

theorem latePath_iff (hw : w < tree.preorder.size) :
    tree.LatePath g index x w ↔ h.order.SemiPath x w := by
  rw [SearchOrder.semiPath_iff]
  constructor
  · rintro ⟨u, v, inner, hu, hv, hchain, hlate⟩
    let visit : Value → Nat := fun y => (tree.visitOf index y).getD 0
    have hvisit : ∀ y ∈ u :: inner ++ [v], tree.visitOf index y = some (visit y) := by
      intro y hy
      have hcases : y = u ∨ y ∈ inner ∨ y = v := by simpa [or_assoc] using hy
      rcases hcases with rfl | hinner | rfl
      · simp [visit, hu]
      · obtain ⟨k, hk, -⟩ := hlate y hinner
        simp [visit, hk]
      · simp [visit, hv]
    have hnumbers : ((u :: inner ++ [v]).map visit).IsChain h.order.edge := by
      refine (List.isChain_map visit).2 (hchain.imp_of_mem_imp ?_)
      intro a b ha hb hab
      exact (order_edge_iff hwf hall hroot houts h (hvisit a ha) (hvisit b hb)).2 hab
    refine ⟨inner.map visit, by simpa [visit, hu, hv] using hnumbers, ?_⟩
    intro k hk
    obtain ⟨y, hy, rfl⟩ := List.mem_map.1 hk
    obtain ⟨k, hk, hwk⟩ := hlate y hy
    simpa [visit, hk] using hwk
  · rintro ⟨inner, hchain, hlate⟩
    have hvisit := fun k hk => visitOf_vertexOf h (SearchOrder.lt_count_of_isChain hchain hw k hk)
    refine ⟨tree.vertexOf index x, tree.vertexOf index w, inner.map (tree.vertexOf index),
      hvisit x (by simp), hvisit w (by simp), ?_, ?_⟩
    · have hvertices : ((x :: inner ++ [w]).map (tree.vertexOf index)).IsChain g.Adjacent := by
        refine (List.isChain_map _).2 (hchain.imp_of_mem_imp ?_)
        intro a b ha hb hab
        exact (order_edge_iff hwf hall hroot houts h (hvisit a ha) (hvisit b hb)).1 hab
      simpa using hvertices
    · intro y hy
      obtain ⟨k, hk, rfl⟩ := List.mem_map.1 hy
      exact ⟨k, hvisit k (by simp [hk]), hlate k hk⟩

end Visits

end FlowGraph

/-! ## The array -/

namespace Dominator.LengauerTarjan

variable {n : Numbered} {tree : SpanningTree} {T : SearchOrder} {s s' : Sweep} {w : Nat}

theorem forest_of_takeOver (h : takeOver s w = .ok s') : s'.forest = s.forest := by
  unfold takeOver at h
  obtain ⟨o, -, h⟩ := bind_eq_ok_iff.1 h
  cases o with
  | none => exact (Except.ok.inj h) ▸ rfl
  | some y =>
      obtain ⟨idom, -, h⟩ := bind_eq_ok_iff.1 h
      obtain ⟨idom', -, h⟩ := bind_eq_ok_iff.1 h
      exact (Except.ok.inj h) ▸ rfl

theorem exists_compute_semi (hreads : Reads n tree T) (hpos : 0 < T.count) :
    ∃ s, compute n tree = .ok s ∧ s.forest.semi.size = T.count ∧
      ∀ w, 0 < w → w < T.count → s.forest.semi[w]? = some (T.sdom w) := by
  obtain ⟨swept, hsweep, hswept⟩ := exists_sweep_ok hreads (swept_initial T) (by omega)
  obtain ⟨s, hcompute, -⟩ := exists_compute_ok hreads hpos
  have hforest : s.forest = swept.forest := by
    rw [compute, hreads.count_eq, hsweep, ok_bind] at hcompute
    exact foldlM_keeps (P := fun now => now.forest = swept.forest)
      (fun _ _ _ _ hstep hnow => (forest_of_takeOver hstep).trans hnow) hcompute rfl
  refine ⟨s, hcompute, hforest ▸ hswept.size_semi, ?_⟩
  intro w hw hlt
  rw [hforest, ← hswept.semi_eq w hw hlt]
  exact Forest.getElem?_semi (hswept.size_semi ▸ hlt)

theorem compute_withRow (n : Numbered) (root : Nat) (row : List Link) (tree : SpanningTree) :
    compute (n.withRow root row) tree = compute n tree := by
  rw [compute, sweep_withRow, compute]

end Dominator.LengauerTarjan

open Dominator.LengauerTarjan (compute)

variable {g : FlowGraph} {start : Value}

theorem semi_holds_semidominators (hwf : g.WellFormed) (hstart : g.contains start = true) :
    ∃ tree s, g.spanningTree (.ofList g.vertices) start = .ok tree ∧
      compute (g.numbered (.ofList g.vertices)) tree = .ok s ∧
      s.forest.semi.size = tree.preorder.size ∧
      ∀ w, 0 < w → w < tree.preorder.size → ∃ v, s.forest.semi[w]? = some v ∧
        IsLeast {x | tree.LatePath g (.ofList g.vertices) x w} v ∧
        Ancestor tree.upward v w ∧ v ≠ w := by
  obtain ⟨root, outs, tree, hroot, houts, htree, hsearched, hsources⟩ :=
    FlowGraph.exists_searching hwf hstart
  have hreads := Dominator.LengauerTarjan.reads_of_searching hsearched
    fun v _ hreach => hsources v hreach
  obtain ⟨s, hcompute, hsize, hsemi⟩ :=
    Dominator.LengauerTarjan.exists_compute_semi hreads hsearched.size_pos
  rw [FlowGraph.searched, Dominator.LengauerTarjan.compute_withRow] at hcompute
  refine ⟨tree, s, htree, hcompute, hsize, ?_⟩
  intro w hpos hw
  have hancestor : Ancestor tree.upward (hsearched.order.sdom w) w :=
    SearchOrder.sdom_ancestor (T := hsearched.order) hpos hw
  refine ⟨hsearched.order.sdom w, hsemi w hpos hw, ?_, hancestor,
    Nat.ne_of_lt (SearchOrder.sdom_lt hpos hw)⟩
  have hpaths : {x | tree.LatePath g (.ofList g.vertices) x w} =
      {x | hsearched.order.SemiPath x w} := by
    ext x
    exact FlowGraph.latePath_iff hwf FlowGraph.contains_ofList hroot houts hsearched hw
  rw [hpaths]
  exact SearchOrder.isLeast_sdom hpos hw

theorem semi_holds_semidominators_twoWayLoop :
    twoWayLoop.graph.WellFormed ∧ twoWayLoop.graph.contains (.bool false) = true ∧
    ∃ tree s,
      twoWayLoop.graph.spanningTree (.ofList twoWayLoop.graph.vertices) (.bool false) = .ok tree ∧
      compute (twoWayLoop.graph.numbered (.ofList twoWayLoop.graph.vertices)) tree = .ok s ∧
      s.forest.semi.size = tree.preorder.size ∧
      ∀ w, 0 < w → w < tree.preorder.size → ∃ v, s.forest.semi[w]? = some v ∧
        IsLeast {x | tree.LatePath twoWayLoop.graph (.ofList twoWayLoop.graph.vertices) x w} v ∧
        Ancestor tree.upward v w ∧ v ≠ w :=
  ⟨twoWayLoop_wellFormed, by decide,
    semi_holds_semidominators twoWayLoop_wellFormed (by decide)⟩

end FlowDominance
