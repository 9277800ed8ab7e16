import FlowDominance.Proofs.RecursiveSearch

/-!
# Nested visits

A vertex is on the stack of the search from its visit to its completion, and above it there are only
its descendants.  So of two vertices either the times on the stack are apart, or the time of a
descendant lies within the time of its ancestor: visits and completions tell the tree.  Every edge
that leads to a later visit leads down the tree, and a path can only lead to a later visit by way of
a common ancestor.
-/

namespace FlowDominance

namespace SpanningTree

variable {n : Numbered} {root c i j k u v w x : Nat} {t t' : SpanningTree} {p : Option Nat}
variable {row links : List Link} {node : Nat} {rest stack : List (Nat × List Link)}

/-! ## Runs of the search -/

theorem grow_keeps {P : SpanningTree → List (Nat × List Link) → Prop}
    (hfinish : ∀ t node rest, Searching n root t ((node, []) :: rest) → P t ((node, []) :: rest) →
      P (t.finish node) rest)
    (hskip : ∀ t node c links rest, P t ((node, .ok c :: links) :: rest) →
      P t ((node, links) :: rest))
    (hvisit : ∀ t node c links rest row, Searching n root t ((node, .ok c :: links) :: rest) →
      t.dfnum[c]? = some none → P t ((node, .ok c :: links) :: rest) →
      P (t.visit c (some node)) ((c, row) :: (node, links) :: rest))
    (h : Searching n root t stack) (hP : P t stack) (hrun : grow n t stack = .ok t') : P t' [] := by
  fun_induction grow n t stack with
  | case1 t => exact (Except.ok.inj hrun) ▸ hP
  | case2 t node rest ih => exact ih h.finish (hfinish t node rest h hP) hrun
  | case3 => contradiction
  | case4 => contradiction
  | case5 t node child links rest i hseen ih =>
      exact ih (h.skip ⟨i, hseen⟩) (hskip t node child links rest hP) hrun
  | case6 => contradiction
  | case7 t node child links rest hnew row hrow ih =>
      exact ih (h.visit hnew hrow) (hvisit t node child links rest row h hnew hP) hrun

/-- A vertex that is finished behind another one and was visited before it is its ancestor. -/
def Nested (t : SpanningTree) (stack : List (Nat × List Link)) : Prop :=
  (t.finishing stack).Pairwise fun x y => ∀ i j : Nat, t.dfnum[x]? = some (some i) →
    t.dfnum[y]? = some (some j) → j < i → Ancestor t.upward j i

theorem Nested.visit (hnested : t.Nested ((node, .ok c :: links) :: rest))
    (h : Searching n root t ((node, .ok c :: links) :: rest)) (hc : t.dfnum[c]? = some none) :
    (t.visit c (some node)).Nested ((c, row) :: (node, links) :: rest) := by
  obtain ⟨⟨k, hnode⟩, -⟩ := h.top
  have hlt := (Array.getElem?_eq_some_iff.1 hc).1
  have hnum : (t.visit c (some node)).dfnum[c]? = some (some t.preorder.size) := by
    rw [dfnum_visit hlt, if_pos rfl]
  have hold : ∀ x ∈ t.finishing ((node, .ok c :: links) :: rest),
      (t.visit c (some node)).dfnum[x]? = t.dfnum[x]? := by
    intro x hx
    rw [dfnum_visit hlt, if_neg (h.ne_of_mem_finishing hc hx)]
  have hpast := List.Pairwise.imp_of_mem (S := fun x y => ∀ i j : Nat,
    (t.visit c (some node)).dfnum[x]? = some (some i) →
    (t.visit c (some node)).dfnum[y]? = some (some j) → j < i →
    Ancestor (t.visit c (some node)).upward j i) (fun hx hy hxy i j hi hj hji =>
      h.ancestor_visit hc hnode (hxy i j (hold _ hx ▸ hi) (hold _ hy ▸ hj) hji)) hnested
  obtain ⟨hdone, hwait, hcross⟩ := List.pairwise_append.1 hpast
  refine List.pairwise_append.2 ⟨hdone, .cons ?_ hwait, ?_⟩
  · -- what waits on the stack is above the new vertex
    intro y hy i j hi hj _
    obtain rfl : t.preorder.size = i := by simpa [hnum] using hi
    exact h.above_visit hc hy (hold y (List.mem_append_right _ hy) ▸ hj)
  · intro x hx y hy i j hi hj hji
    rcases List.mem_cons.1 hy with rfl | hy
    · -- nothing has been visited behind the new vertex
      obtain rfl : t.preorder.size = j := by simpa [hnum] using hj
      have := h.lt_size (hold x (List.mem_append_left _ hx) ▸ hi)
      omega
    · exact hcross x hx y hy i j hi hj hji

theorem nested_of_grow (h : Searching n root t stack) (hnested : t.Nested stack)
    (hrun : grow n t stack = .ok t') : t'.Nested [] := by
  refine grow_keeps (P := Nested) ?_ ?_ ?_ h hnested hrun
  · intro t node rest _ hnested
    unfold Nested
    rw [finishing_finish]
    exact hnested
  · intro t node c links rest hnested
    exact hnested
  · intro t node c links rest row h hc hnested
    exact hnested.visit h hc

/-! ## The tree by vertices -/

def parentOf (t : SpanningTree) (v : Nat) : Option Nat := t.parent[v]?.join

theorem parentOf_eq_some_iff : t.parentOf v = some u ↔ t.parent[v]? = some (some u) := by
  simp [parentOf, Option.join_eq_some_iff]

def Placed (t : SpanningTree) (v i a : Nat) : Prop :=
  t.dfnum[v]? = some (some i) ∧ t.postorder[a]? = some v

theorem Placed.ne_of_lt {a b : Nat} (hu : t.Placed u i a) (hv : t.Placed v j b) (hij : i < j) :
    b ≠ a := by
  rintro rfl
  obtain rfl : u = v := Option.some.inj (hu.2.symm.trans hv.2)
  have heq : i = j := by simpa [hu.1] using hv.1
  omega

theorem Grown.ancestor_iff (h : Grown n root t) (hu : t.dfnum[u]? = some (some i))
    (hv : t.dfnum[v]? = some (some j)) :
    Ancestor t.parentOf u v ↔ Ancestor t.upward i j := by
  constructor
  · intro hanc
    induction hanc generalizing j with
    | refl =>
        obtain rfl : i = j := by simpa [hu] using hv
        exact .refl
    | @child b c _ hup ih =>
        have hparent := parentOf_eq_some_iff.1 hup
        obtain ⟨k, hk⟩ := (h.parent_visited c b hparent).2
        exact (ih hk).child (upward_eq_some_iff.2 ⟨c, b, (h.numbered j c).2 hv, hparent, hk⟩)
  · intro hanc
    induction hanc generalizing v with
    | refl =>
        have hpre := (h.numbered i v).2 hv
        rw [(h.numbered i u).2 hu, Option.some.injEq] at hpre
        exact hpre ▸ .refl
    | @child b c _ hup ih =>
        obtain ⟨x, q, hx, hq, hnum⟩ := upward_eq_some_iff.1 hup
        rw [(h.numbered c v).2 hv, Option.some.injEq] at hx
        subst hx
        exact (ih hnum).child (parentOf_eq_some_iff.2 hq)

variable {a b : Nat}

theorem rel_of_lt {R : Nat → Nat → Prop} (h : (t.finishing []).Pairwise R)
    (hu : t.postorder[a]? = some u) (hv : t.postorder[b]? = some v) (hab : a < b) : R u v := by
  have hpair : t.postorder.toList.Pairwise R := by simpa [finishing] using h
  obtain ⟨ha, hua⟩ := Array.getElem?_eq_some_iff.1 hu
  obtain ⟨hb, hvb⟩ := Array.getElem?_eq_some_iff.1 hv
  have hrel := List.pairwise_iff_getElem.1 hpair a b (by simpa using ha) (by simpa using hb) hab
  simpa [hua, hvb] using hrel

namespace Searching

theorem exists_placed (h : Searching n root t []) (hi : t.dfnum[v]? = some (some i)) :
    ∃ a, t.Placed v i a := by
  obtain ⟨a, ha⟩ := List.getElem?_of_mem (h.mem_postorder_iff.2 (h.reached v ⟨i, hi⟩))
  exact ⟨a, hi, by simpa using ha⟩

theorem le_of_ancestor (h : Searching n root t []) (huv : Ancestor t.parentOf u v)
    (hu : t.postorder[a]? = some u) (hv : t.postorder[b]? = some v) : b ≤ a := by
  induction huv generalizing b with
  | refl =>
      by_contra hab
      exact rel_of_lt h.nodup hu hv (by omega) rfl
  | @child x c _ hup ih =>
      have hparent := parentOf_eq_some_iff.1 hup
      obtain ⟨_, hx⟩ := (h.parent_visited c x hparent).2
      obtain ⟨k, -, hk⟩ := h.exists_placed hx
      have hka := ih hk
      have hbk : b ≤ k := by
        by_contra hkb
        exact rel_of_lt h.before_parent hk hv (by omega) hparent
      omega

theorem ancestor_iff_nested (h : Searching n root t []) (hnested : t.Nested [])
    (hu : t.Placed u i a) (hv : t.Placed v j b) :
    Ancestor t.parentOf u v ↔ i ≤ j ∧ b ≤ a := by
  constructor
  · intro hanc
    exact ⟨((h.ancestor_iff hu.1 hv.1).1 hanc).le h.falling, h.le_of_ancestor hanc hu.2 hv.2⟩
  · rintro ⟨hij, hba⟩
    rw [h.ancestor_iff hu.1 hv.1]
    rcases Nat.lt_or_eq_of_le hij with hlt | rfl
    · have hne := hu.ne_of_lt hv hlt
      exact rel_of_lt hnested hv.2 hu.2 (by omega) j i hv.1 hu.1 hlt
    · exact .refl

theorem edge_cases (h : Searching n root t []) (hnested : t.Nested []) (huv : n.Edge u v)
    (hu : t.Placed u i a) (hv : t.Placed v j b) :
    (i < j → Ancestor t.parentOf u v) ∧ (b < a ∨ Ancestor t.parentOf v u) := by
  have hdown : i < j → Ancestor t.parentOf u v := by
    intro hij
    rw [h.ancestor_iff hu.1 hv.1]
    exact h.forward i j ⟨u, v, (h.numbered i u).2 hu.1, (h.numbered j v).2 hv.1, huv⟩ hij
  refine ⟨hdown, ?_⟩
  rcases Nat.lt_or_ge i j with hij | hji
  · have hle := ((h.ancestor_iff_nested hnested hu hv).1 (hdown hij)).2
    have hne := hu.ne_of_lt hv hij
    exact .inl (by omega)
  · rcases Nat.lt_or_ge b a with hba | hab
    · exact .inl hba
    · exact .inr ((h.ancestor_iff_nested hnested hv hu).2 ⟨hji, hab⟩)

/-- A path to a later visit goes by way of a common ancestor of its ends. -/
theorem exists_common_ancestor {P : Nat → Prop} (h : Searching n root t [])
    (hpath : Through n.Edge P u v) (hu : t.dfnum[u]? = some (some i))
    (hv : t.dfnum[v]? = some (some j)) (hij : i ≤ j) :
    ∃ w, P w ∧ Ancestor t.parentOf w u ∧ Ancestor t.parentOf w v := by
  have hui := (h.numbered i u).2 hu
  have hvj := (h.numbered j v).2 hv
  have hisize := (Array.getElem?_eq_some_iff.1 hui).1
  have hjsize := (Array.getElem?_eq_some_iff.1 hvj).1
  have hlisting := h.listing_preorder.relabelling
  have hlabels : Relabelling n.Edge u (fun k => t.preorder[k]?.getD 0) (· < t.preorder.size) i :=
    ⟨hisize, by simp [hui], hlisting.injective, hlisting.closed⟩
  -- by visit numbers, the lowest vertex of the path is above both ends
  have hvisits : Through h.order.edge (fun k => P (t.preorder[k]?.getD 0)) i j := by
    have hlabelled := (hlabels.through_iff (P := P) hjsize).1 (by simpa [hvj] using hpath)
    rwa [Listing.relabel_eq] at hlabelled
  obtain ⟨m, hm, hmj, hbeyond, -⟩ := SearchOrder.exists_lowest hvisits
  have hmi : m ≤ i := hbeyond.left
  have hlow := Array.getElem?_eq_getElem (show m < t.preorder.size by omega)
  have hnum := (h.numbered m _).1 hlow
  refine ⟨_, by simpa [hlow] using hm, ?_, (h.ancestor_iff hnum hv).2 hmj⟩
  exact (h.ancestor_iff hnum hu).2 (SearchOrder.ancestor_of_between (T := h.order) hmj hmi hij)

end Searching

end SpanningTree

/-! ## The tree and the graph -/

theorem FlowGraph.nested_of_spanningTree {g : FlowGraph} {index : Index} {start : Value}
    {root : Nat} {outs : List Edge} {tree : SpanningTree} (hroot : index.position start = .ok root)
    (houts : g.outEdges start = .ok outs) (htree : g.spanningTree index start = .ok tree) :
    tree.Nested [] := by
  rw [spanningTree_eq hroot houts] at htree
  refine SpanningTree.nested_of_grow (searched_start hroot outs) ?_ htree
  simp [SpanningTree.Nested, SpanningTree.finishing, SpanningTree.visit, SpanningTree.empty]

/-- Visits and completions tell the tree, and the tree tells where edges and paths of the graph
lead. -/
structure SpanningTree.Nests (tree : SpanningTree) (g : FlowGraph) (index : Index)
    (start : Value) : Prop where
  exists_placed : ∀ x u, index.position x = .ok u → g.Reaches start x → ∃ i a, tree.Placed u i a
  visited_placed : ∀ u i : Nat, tree.dfnum[u]? = some (some i) → ∃ a, tree.Placed u i a
  ancestor_iff : ∀ u v i j a b, tree.Placed u i a → tree.Placed v j b →
    (Ancestor tree.parentOf u v ↔ i ≤ j ∧ b ≤ a)
  edge : ∀ x y u v i j a b, index.position x = .ok u → index.position y = .ok v →
    g.Adjacent x y → tree.Placed u i a → tree.Placed v j b →
    (i < j → Ancestor tree.parentOf u v) ∧ (b < a ∨ Ancestor tree.parentOf v u)
  path : ∀ x y p u v i j a b, index.position x = .ok u → index.position y = .ok v →
    g.IsPath x y p → tree.Placed u i a → tree.Placed v j b → i ≤ j →
    ∃ z ∈ p, ∃ w, index.position z = .ok w ∧ Ancestor tree.parentOf w u ∧
      Ancestor tree.parentOf w v

theorem spanningTree_nests {g : FlowGraph} {index : Index} {start : Value} (h : g.Inside index)
    (hstart : index.contains start = true) :
    ∃ tree, g.spanningTree index start = .ok tree ∧ tree.Nests g index start := by
  obtain ⟨root, hroot⟩ := Index.exists_position_ok hstart
  obtain ⟨outs, houts, -⟩ := h.exists_out start hstart
  obtain ⟨tree, htree, hsearched⟩ := h.exists_searching hroot houts
  have hnested := FlowGraph.nested_of_spanningTree hroot houts htree
  refine ⟨tree, htree, ?_, ?_, ?_, ?_, ?_⟩
  · intro x u hx hreach
    obtain ⟨i, hi⟩ := hsearched.visited_iff_reaches.2 ((h.reaches_iff hroot houts hx).2 hreach)
    exact ⟨i, hsearched.exists_placed hi⟩
  · intro u i hi
    exact hsearched.exists_placed hi
  · intro u v i j a b hu hv
    exact hsearched.ancestor_iff_nested hnested hu hv
  · intro x y u v i j a b hx hy hxy hu hv
    exact hsearched.edge_cases hnested ((h.edge_iff hroot houts hx hy).2 hxy) hu hv
  · intro x y p u v i j a b hx hy hp hu hv hij
    have hpath := h.through (P := fun w => ∃ z ∈ p, index.position z = .ok w) hroot houts hx hy hp
      fun z hz w hw => ⟨z, hz, hw⟩
    obtain ⟨w, ⟨z, hz, hw⟩, hwu, hwv⟩ := hsearched.exists_common_ancestor hpath hu.1 hv.1 hij
    exact ⟨z, hz, w, hw, hwu, hwv⟩

theorem spanningTree_nests_insideLoop :
    twoWayLoop.graph.Inside innerIndex ∧ innerIndex.contains (.int 2) = true ∧
    ∃ tree, twoWayLoop.graph.spanningTree innerIndex (.int 2) = .ok tree ∧
      tree.Nests twoWayLoop.graph innerIndex (.int 2) :=
  ⟨twoWayLoop_inside, by decide, spanningTree_nests twoWayLoop_inside (by decide)⟩

end FlowDominance
