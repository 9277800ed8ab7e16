import FlowDominance.Proofs.ImmediateDominators

/-!
# Depth-first search by recursion

The recursive search visits a vertex, explores what is still unvisited in its row, and finishes the
vertex.  A frame on the stack of the iterative search, a vertex with the rest of its row, is a call of
the recursive search that has not returned; so both come to the same tree, or to the same fault.  On a
graph whose edges stay inside the index there is no fault, and the tree spans what the start reaches.
-/

namespace FlowDominance

namespace SpanningTree

abbrev Later (t : SpanningTree) := { t' : SpanningTree // t'.unvisited ≤ t.unvisited }

namespace Recursive

mutual

def explore (n : Numbered) (v : Nat) (parent : Option Nat) (t : SpanningTree)
    (unseen : t.dfnum[v]? = some none) : Except Fault (Later t) :=
  match n.successors v with
  | .error fault => .error fault
  | .ok row => do
      let t' ← goThrough n v row (t.visit v parent)
      return ⟨t'.1.finish v, t'.2.trans (Nat.le_of_lt (unvisited_visit t v parent unseen))⟩
termination_by (t.unvisited, 0)
decreasing_by exact Prod.Lex.left _ _ (unvisited_visit t v parent unseen)

/-- Explore, in the order of the row of `v`, what is still unvisited when its turn comes. -/
def goThrough (n : Numbered) (v : Nat) (row : List Link) (t : SpanningTree) :
    Except Fault (Later t) :=
  match row with
  | [] => .ok ⟨t, Nat.le_refl _⟩
  | .error fault :: _ => .error fault
  | .ok child :: links =>
      match unseen : t.dfnum[child]? with
      | none => .error .indexOutOfRange
      | some (some _) => goThrough n v links t
      | some none => do
          let t' ← explore n child (some v) t unseen
          let t'' ← goThrough n v links t'.1
          return ⟨t''.1, t''.2.trans t'.2⟩
termination_by (t.unvisited, row.length + 1)
decreasing_by
  · exact Prod.Lex.right _ (by simp)
  · exact Prod.Lex.right _ (by simp)
  · rcases Nat.lt_or_eq_of_le t'.2 with hlt | heq
    · exact Prod.Lex.left _ _ hlt
    · rw [heq]
      exact Prod.Lex.right _ (by simp)

end

def search (n : Numbered) (root : Nat) (row : List Link) : Except Fault SpanningTree := do
  let t ← goThrough n root row ((empty n.count).visit root none)
  return t.1.finish root

section Steps

variable {n : Numbered} {v child k : Nat} {links : List Link} {t : SpanningTree}
variable {rest : List (Nat × List Link)}

theorem grow_unknown (h : t.dfnum[child]? = none) :
    grow n t ((v, .ok child :: links) :: rest) = .error .indexOutOfRange := by
  rw [grow]
  split <;> simp_all

theorem grow_seen (h : t.dfnum[child]? = some (some k)) :
    grow n t ((v, .ok child :: links) :: rest) = grow n t ((v, links) :: rest) := by
  rw [grow]
  split <;> simp_all

theorem grow_unseen (h : t.dfnum[child]? = some none) :
    grow n t ((v, .ok child :: links) :: rest) = n.successors child >>= fun row =>
      grow n (t.visit child (some v)) ((child, row) :: (v, links) :: rest) := by
  rw [grow]
  split <;> simp_all
  cases n.successors child <;> rfl

theorem goThrough_unknown (h : t.dfnum[child]? = none) :
    goThrough n v (.ok child :: links) t = .error .indexOutOfRange := by
  rw [goThrough]
  split <;> simp_all

theorem goThrough_seen (h : t.dfnum[child]? = some (some k)) :
    goThrough n v (.ok child :: links) t = goThrough n v links t := by
  rw [goThrough]
  split <;> simp_all

theorem goThrough_unseen (h : t.dfnum[child]? = some none) :
    goThrough n v (.ok child :: links) t = explore n child (some v) t h >>= fun t' =>
      goThrough n v links t'.1 >>= fun t'' => .ok ⟨t''.1, t''.2.trans t'.2⟩ := by
  rw [goThrough]
  split <;> simp_all

end Steps

/-- With a frame on top of its stack, the iterative search does what is left of the call for that
frame and then goes on with the frames below. -/
theorem grow_frame (n : Numbered) (v : Nat) (row : List Link) (t : SpanningTree)
    (rest : List (Nat × List Link)) :
    grow n t ((v, row) :: rest) =
      goThrough n v row t >>= fun t' => grow n (t'.1.finish v) rest := by
  induction v, row, t using goThrough.induct n
    (fun v parent t unseen => ∀ rest,
      (n.successors v >>= fun row => grow n (t.visit v parent) ((v, row) :: rest)) =
        explore n v parent t unseen >>= fun t' => grow n t'.1 rest) generalizing rest with
  | case1 v parent t unseen fault hrow =>
      rw [explore]
      simp [hrow]
  | case2 v parent t unseen row hrow ih =>
      rw [explore]
      simp [hrow, ih]
  | case3 v t =>
      rw [grow, goThrough]
      rfl
  | case4 v t fault links =>
      rw [grow, goThrough]
      rfl
  | case5 v t child links hnone => rw [grow_unknown hnone, goThrough_unknown hnone, error_bind]
  | case6 v t child links k hseen ih => rw [grow_seen hseen, goThrough_seen hseen, ih]
  | case7 v t child links unseen ihchild ihrest =>
      -- the call for the child returns to a frame with the rest of the row
      rw [grow_unseen unseen, ihchild, goThrough_unseen unseen, bind_assoc]
      congr 1
      funext t'
      rw [ihrest, bind_assoc]
      rfl

theorem search_eq (n : Numbered) (root : Nat) (row : List Link) :
    search n root row = SpanningTree.search n root row := by
  rw [search, SpanningTree.search, grow_frame]
  simp [grow]

end Recursive

/-! ## What the tree spans -/

variable {n : Numbered} {root i : Nat} {t : SpanningTree}

namespace Searching

theorem mem_preorder_iff (h : Searching n root t []) :
    i ∈ t.preorder ↔ Reaches n.Edge root i := by
  rw [Array.mem_iff_getElem?, h.listing_preorder.listed_iff]

theorem nodup_preorder (h : Searching n root t []) : t.preorder.toList.Nodup := by
  rw [List.nodup_iff_getElem?_ne_getElem?]
  intro i j hij hj heq
  obtain ⟨v, hv⟩ : ∃ v, t.preorder[j]? = some v := ⟨_, Array.getElem?_eq_getElem hj⟩
  have := h.listing_preorder.injective i j v (by simpa [hv] using heq) hv
  omega

theorem postorder_perm (h : Searching n root t []) :
    t.postorder.toList.Perm t.preorder.toList := by
  have hnodup : t.postorder.toList.Nodup := by simpa [finishing] using h.nodup
  rw [List.perm_ext_iff_of_nodup hnodup h.nodup_preorder]
  intro i
  rw [h.mem_postorder_iff, Array.mem_toList_iff, h.mem_preorder_iff]

theorem parent_eq_none_iff (h : Searching n root t []) (hi : i < n.count) :
    t.parent[i]? = some none ↔ i = root ∨ i ∉ t.preorder := by
  constructor
  · intro hnone
    by_contra hvisited
    push Not at hvisited
    obtain ⟨k, hk⟩ := Array.mem_iff_getElem?.1 hvisited.2
    have hpos : 0 < k := by
      rcases Nat.eq_zero_or_pos k with rfl | hpos
      · rw [h.first, Option.some.injEq] at hk
        exact absurd hk.symm hvisited.1
      · exact hpos
    obtain ⟨p, hp⟩ := h.exists_parent k i hpos hk
    simp [hnone] at hp
  · intro hcases
    have hlt : i < t.parent.size := h.size_parent ▸ hi
    cases hparent : t.parent[i] with
    | none => rw [Array.getElem?_eq_getElem hlt, hparent]
    | some p =>
        have hp : t.parent[i]? = some (some p) := by rw [Array.getElem?_eq_getElem hlt, hparent]
        obtain ⟨hvisited, j, hj⟩ := h.parent_visited i p hp
        rcases hcases with rfl | hnot
        · -- a step up from the root would lead below 0
          have := h.falling 0 j (upward_eq_some_iff.2 ⟨i, p, h.first, hp, hj⟩)
          omega
        · rw [h.mem_preorder_iff, ← h.visited_iff_reaches] at hnot
          exact absurd hvisited hnot

end Searching

end SpanningTree

/-! ## Edges inside the index -/

namespace Index

variable {index : Index} {u v : Value} {i : Nat}

theorem position_of_same (h : u.same v = true) (hu : index.position u = .ok i) :
    index.position v = .ok i := by
  obtain ⟨w, hw, huw⟩ := position_eq_ok_iff.1 hu
  exact position_eq_ok_iff.2 ⟨w, hw, (Value.same_iff.1 h).symm.trans huw⟩

theorem same_of_position (hu : index.position u = .ok i) (hv : index.position v = .ok i) :
    u.same v = true := by
  obtain ⟨w, hw, huw⟩ := position_eq_ok_iff.1 hu
  obtain ⟨w', hw', hvw⟩ := position_eq_ok_iff.1 hv
  rw [hw, Option.some.injEq] at hw'
  exact Value.same_iff.2 (huw.trans (hw' ▸ hvw.symm))

end Index

namespace FlowGraph

/-- The edges out of a vertex of the index lead to vertices of the index, and they are the same for
every spelling of the vertex. -/
structure Inside (g : FlowGraph) (index : Index) : Prop where
  exists_out : ∀ u, index.contains u = true → ∃ row, g.outEdges u = .ok row ∧
    ∀ e ∈ row, index.contains e.target = true
  adjacent_congr : ∀ u w v, index.contains u = true → u.same w = true → g.Adjacent u v →
    g.Adjacent w v

variable {g : FlowGraph} {index : Index} {root i j : Nat} {a b u v w start : Value}
variable {outs : List Edge} {tree : SpanningTree} {P : Nat → Prop}

theorem Adjacent.target_congr (h : g.Adjacent u v) (hvw : v.same w = true) : g.Adjacent u w := by
  obtain ⟨row, hrow, e, he, hsame⟩ := h
  exact ⟨row, hrow, e, he, Value.same_trans hsame hvw⟩

namespace Inside

theorem legible (h : g.Inside index) : g.Legible index := by
  intro u hu
  obtain ⟨row, hrow, -⟩ := h.exists_out u hu
  exact ⟨row, hrow⟩

theorem contains_of_adjacent (h : g.Inside index) (hu : index.contains u = true)
    (huv : g.Adjacent u v) : index.contains v = true := by
  obtain ⟨row, hrow, e, he, hsame⟩ := huv
  obtain ⟨row', hrow', hall⟩ := h.exists_out u hu
  rw [hrow, Except.ok.injEq] at hrow'
  rw [← hall e (hrow' ▸ he)]
  exact Value.occursIn_congr (Value.same_iff.1 (Value.same_symm hsame))

section Search

variable (h : g.Inside index) (hroot : index.position start = .ok root)
variable (houts : g.outEdges start = .ok outs)
include h hroot houts

theorem edge_iff (hu : index.position u = .ok i) (hv : index.position v = .ok j) :
    (g.searched index root outs).Edge i j ↔ g.Adjacent u v := by
  obtain ⟨u', hu', huu⟩ := Index.position_eq_ok_iff.1 hu
  obtain ⟨v', hv', hvv⟩ := Index.position_eq_ok_iff.1 hv
  obtain ⟨w, row, hwu, hrow, hsucc⟩ := exists_searched_row h.legible hroot houts hu'
  have huw : u.same w = true := Value.same_iff.2 (huu.trans hwu.symm)
  have hcontains : index.contains u = true := Index.contains_iff.2 ⟨i, hu⟩
  have hedge : (g.searched index root outs).Edge i j ↔ g.Adjacent w v' := by
    have hmem : Except.ok j ∈ (row.map Edge.target).map index.position ↔
        ∃ x, index.vertices[j]? = some x ∧ g.Adjacent w x := ok_mem_row_iff hrow
    simpa [Numbered.Edge, hsucc, hv'] using hmem
  rw [hedge]
  constructor
  · intro hwv
    have hwcontains : index.contains w = true := by
      rw [← hcontains]
      exact Value.occursIn_congr (hwu.trans huu.symm)
    have huv := h.adjacent_congr w u v' hwcontains (Value.same_symm huw) hwv
    exact huv.target_congr (Value.same_iff.2 hvv.symm)
  · intro huv
    exact (h.adjacent_congr u w v hcontains huw huv).target_congr (Value.same_iff.2 hvv)

theorem lt_count (hreach : FlowDominance.Reaches (g.searched index root outs).Edge root i) :
    i < index.count := by
  induction hreach with
  | refl _ =>
      obtain ⟨w, hw, -⟩ := Index.position_eq_ok_iff.1 hroot
      exact Index.lt_count hw
  | @step b c _ hedge _ ih =>
      obtain ⟨row, hrow, hmem⟩ := hedge
      obtain ⟨row', hrow', hlt⟩ := searched_ranged h.legible hroot houts b ih
      rw [hrow, Except.ok.injEq] at hrow'
      exact hlt c (hrow' ▸ hmem)

theorem exists_searching : ∃ tree, g.spanningTree index start = .ok tree ∧
    tree.Searching (g.searched index root outs) root [] := by
  rw [spanningTree_eq hroot houts]
  rcases SpanningTree.grow_cases (searched_ranged h.legible hroot houts)
    (searched_start hroot outs) with hok | ⟨fault, i, row, -, hreach, hrow, hmem⟩
  · exact hok
  · -- a fault in a row is an edge that leads out of the index
    obtain ⟨u, hu⟩ := Index.exists_vertex (h.lt_count hroot houts hreach)
    obtain ⟨w, edges, hwu, hedges, hsucc⟩ := exists_searched_row h.legible hroot houts hu
    obtain rfl : (edges.map Edge.target).map index.position = row := by simpa [hsucc] using hrow
    simp only [List.map_map, List.mem_map, Function.comp_apply] at hmem
    obtain ⟨e, he, hfault⟩ := hmem
    have hw : index.contains w = true :=
      Index.contains_iff.2 ⟨i, Index.position_eq_ok_iff.2 ⟨u, hu, hwu⟩⟩
    have htarget := h.contains_of_adjacent hw ⟨edges, hedges, e, he, Value.same_refl _⟩
    rw [(Index.position_eq_error hfault).1] at htarget
    contradiction

theorem through {p : List Value} (hi : index.position a = .ok i) (hj : index.position b = .ok j)
    (hp : g.IsPath a b p) (hall : ∀ x ∈ p, ∀ k, index.position x = .ok k → P k) :
    Through (g.searched index root outs).Edge P i j := by
  obtain ⟨hchain, ⟨x, hx, hxa⟩, y, hy, hyb⟩ := hp
  induction p generalizing a i x with
  | nil => simp at hx
  | cons z p ih =>
      obtain rfl : z = x := by simpa using hx
      have hz := Index.position_of_same (Value.same_symm hxa) hi
      have hPi : P i := hall z (by simp) i hz
      cases p with
      | nil =>
          obtain rfl : z = y := by simpa using hy
          have hb := Index.position_of_same hyb hz
          rw [hj, Except.ok.injEq] at hb
          rw [hb]
          exact .refl hPi
      | cons w p =>
          rw [List.isChain_cons_cons] at hchain
          have hw := h.contains_of_adjacent (Index.contains_iff.2 ⟨i, hz⟩) hchain.1
          obtain ⟨k, hk⟩ := Index.exists_position_ok hw
          have hrest := ih hk (fun x hx => hall x (List.mem_cons_of_mem z hx)) hchain.2 w rfl
            (Value.same_refl w) (by simpa using hy)
          exact hrest.head hPi ((h.edge_iff hroot houts hz hk).2 hchain.1)

theorem exists_path (hreach : FlowDominance.Reaches (g.searched index root outs).Edge root j)
    (hv : index.position v = .ok j) : g.Reaches start v := by
  induction hreach generalizing v with
  | refl _ =>
      have hsame : start.same v = true := Index.same_of_position hroot hv
      exact ⟨[start], .singleton start, ⟨start, rfl, Value.same_refl _⟩, start, rfl, hsame⟩
  | @step b c hreach hedge _ ih =>
      obtain ⟨u, hu⟩ := Index.exists_vertex (h.lt_count hroot houts hreach)
      have hpos : index.position u = .ok b := Index.position_eq_ok_iff.2 ⟨u, hu, rfl⟩
      obtain ⟨p, hchain, ⟨x, hx, hxs⟩, y, hy, hyu⟩ := ih hpos
      have huv := (h.edge_iff hroot houts hpos hv).1 hedge
      have hyv := h.adjacent_congr u y v (Index.contains_of_getElem? hu) (Value.same_symm hyu) huv
      refine ⟨p ++ [v], List.isChain_append.2 ⟨hchain, .singleton v, ?_⟩, ⟨x, ?_, hxs⟩, v, ?_, ?_⟩
      · intro z hz w hw
        obtain rfl : y = z := Option.mem_unique hy hz
        obtain rfl : v = w := by simpa using hw
        exact hyv
      · simp [Option.mem_def.1 hx]
      · simp
      · exact Value.same_refl v

theorem reaches_iff (hv : index.position v = .ok j) :
    FlowDominance.Reaches (g.searched index root outs).Edge root j ↔ g.Reaches start v := by
  constructor
  · intro hreach
    exact h.exists_path hroot houts hreach hv
  · rintro ⟨p, hp⟩
    exact h.through hroot houts hroot hv hp fun _ _ _ _ => trivial

end Search

end Inside

def recursiveTree (g : FlowGraph) (index : Index) (start : Value) : Except Fault SpanningTree := do
  let root ← index.position start
  let children ← g.successors start
  SpanningTree.Recursive.search (g.numbered index) root (children.map index.position)

theorem recursiveTree_eq (g : FlowGraph) (index : Index) (start : Value) :
    g.recursiveTree index start = g.spanningTree index start := by
  simp [recursiveTree, spanningTree, SpanningTree.Recursive.search_eq]

end FlowGraph

/-- The tree spans what `start` reaches: those vertices are listed once each, in the order of their
visits and in the order of their completion; they have their place in the first list as their number,
and all but the start have a parent. -/
structure SpanningTree.Spans (tree : SpanningTree) (g : FlowGraph) (index : Index)
    (start : Value) : Prop where
  visited_iff : ∀ v i, index.position v = .ok i → (i ∈ tree.preorder ↔ g.Reaches start v)
  nodup_preorder : tree.preorder.toList.Nodup
  nodup_postorder : tree.postorder.toList.Nodup
  postorder_perm : tree.postorder.toList.Perm tree.preorder.toList
  size_dfnum : tree.dfnum.size = index.count
  dfnum_iff : ∀ i k : Nat, tree.dfnum[i]? = some (some k) ↔ tree.preorder[k]? = some i
  size_parent : tree.parent.size = index.count
  parent_iff : ∀ i, i < index.count →
    (tree.parent[i]? = some none ↔ index.position start = .ok i ∨ i ∉ tree.preorder)

theorem spanningTree_by_recursion {g : FlowGraph} {index : Index} {start : Value}
    (h : g.Inside index) (hstart : index.contains start = true) :
    ∃ tree, g.spanningTree index start = .ok tree ∧ g.recursiveTree index start = .ok tree ∧
      tree.Spans g index start := by
  obtain ⟨root, hroot⟩ := Index.exists_position_ok hstart
  obtain ⟨outs, houts, -⟩ := h.exists_out start hstart
  obtain ⟨tree, htree, hsearched⟩ := h.exists_searching hroot houts
  have hperm := hsearched.postorder_perm
  refine ⟨tree, htree, (g.recursiveTree_eq index start).trans htree, ?_,
    hsearched.nodup_preorder, hperm.nodup_iff.2 hsearched.nodup_preorder, hperm,
    hsearched.size_dfnum, fun i k => (hsearched.numbered k i).symm, hsearched.size_parent, ?_⟩
  · intro v i hv
    rw [hsearched.mem_preorder_iff, h.reaches_iff hroot houts hv]
  · intro i hi
    rw [hsearched.parent_eq_none_iff hi, hroot, Except.ok.injEq, eq_comm]

theorem EdgeList.graph_inside (g : EdgeList) (vs : List Value)
    (hends : ∀ e ∈ g.edges, e.source.occursIn vs = true → e.target.occursIn vs = true) :
    g.graph.Inside (.ofList vs) where
  exists_out := by
    intro u hu
    refine ⟨g.edges.filter (u.same ·.source), rfl, ?_⟩
    intro e he
    obtain ⟨hmem, hsame⟩ := List.mem_filter.1 he
    have hsource : e.source.occursIn vs = true := by
      rw [← Value.occursIn_firsts, ← hu]
      exact Value.occursIn_congr (Value.same_iff.1 hsame).symm
    have htarget := hends e hmem hsource
    rwa [← Value.occursIn_firsts] at htarget
  adjacent_congr := by
    rintro u w v - huw ⟨row, hrow, hv⟩
    refine ⟨row, ?_, hv⟩
    have hsame : u.same = w.same := by
      funext x
      simp [Value.same, Value.same_iff.1 huw]
    rw [← hrow]
    simp [EdgeList.graph, hsame]

/-- The loop alone, without the entry and without the vertex that nothing leads to. -/
def innerIndex : Index := .ofList [.int 3, .bool true, .int 2]

theorem twoWayLoop_inside : twoWayLoop.graph.Inside innerIndex :=
  twoWayLoop.graph_inside _ (by decide)

theorem spanningTree_by_recursion_insideLoop :
    twoWayLoop.graph.Inside innerIndex ∧ innerIndex.contains (.int 1) = true ∧
    ∃ tree, twoWayLoop.graph.spanningTree innerIndex (.int 1) = .ok tree ∧
      twoWayLoop.graph.recursiveTree innerIndex (.int 1) = .ok tree ∧
      tree.Spans twoWayLoop.graph innerIndex (.int 1) :=
  ⟨twoWayLoop_inside, by decide, spanningTree_by_recursion twoWayLoop_inside (by decide)⟩

end FlowDominance
