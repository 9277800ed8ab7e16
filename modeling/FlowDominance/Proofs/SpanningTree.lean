import FlowDominance.Proofs.Listing
import FlowDominance.Proofs.SearchOrder
import FlowDominance.SpanningTree

/-!
# Depth-first search

The search keeps an invariant of the tree and the stack: the stack is a way down to the vertex found
last, what has left the stack leads to visited vertices only, and so does what has been looked at of
the rows on the stack.  A search that comes to its end has found what the root reaches; in the order
of first visits it is a `SearchOrder`.
-/

namespace FlowDominance

def Numbered.Edge (n : Numbered) (i j : Nat) : Prop :=
  ∃ row, n.successors i = .ok row ∧ Except.ok j ∈ row

def Numbered.Ranged (n : Numbered) : Prop :=
  ∀ i, i < n.count → ∃ row, n.successors i = .ok row ∧ ∀ j, Except.ok j ∈ row → j < n.count

def Numbered.Sources (n : Numbered) (v : Nat) (row : List Nat) : Prop :=
  n.predecessors v = .ok (row.map Except.ok) ∧ ∀ u, u ∈ row ↔ u < n.count ∧ n.Edge u v

namespace SpanningTree

variable {n : Numbered} {root c i j node v w : Nat} {t : SpanningTree} {p : Option Nat}
variable {row links : List Link} {rest stack : List (Nat × List Link)}

def Visited (t : SpanningTree) (v : Nat) : Prop := ∃ i, t.dfnum[v]? = some (some i)

def upward (t : SpanningTree) (w : Nat) : Option Nat := do
  let v ← t.preorder[w]?
  let p ← t.parent[v]?.join
  t.dfnum[p]?.join

theorem upward_eq_some_iff : t.upward w = some j ↔ ∃ v p, t.preorder[w]? = some v ∧
    t.parent[v]? = some (some p) ∧ t.dfnum[p]? = some (some j) := by
  simp [upward, Option.bind_eq_some_iff, Option.join_eq_some_iff]

/-! ## Reading a tree after a visit -/

theorem preorder_visit : (t.visit c p).preorder[i]? =
    if i = t.preorder.size then some c else t.preorder[i]? := by
  simp [visit, Array.getElem?_push]

theorem dfnum_visit (hc : c < t.dfnum.size) : (t.visit c p).dfnum[v]? =
    if v = c then some (some t.preorder.size) else t.dfnum[v]? := by
  simp only [visit, Array.getElem?_setIfInBounds, hc, if_true, eq_comm]

theorem parent_visit (hc : c < t.parent.size) : (t.visit c p).parent[v]? =
    if v = c then some p else t.parent[v]? := by
  simp only [visit, Array.getElem?_setIfInBounds, hc, if_true, eq_comm]

/-! ## The invariant -/

structure Grown (n : Numbered) (root : Nat) (t : SpanningTree) : Prop where
  size_dfnum : t.dfnum.size = n.count
  size_parent : t.parent.size = n.count
  first : t.preorder[0]? = some root
  numbered : ∀ i v : Nat, t.preorder[i]? = some v ↔ t.dfnum[v]? = some (some i)
  reached : ∀ v, t.Visited v → Reaches n.Edge root v
  parent_visited : ∀ v p : Nat, t.parent[v]? = some (some p) → t.Visited v ∧ t.Visited p
  parent_edge : ∀ v p : Nat, t.parent[v]? = some (some p) → n.Edge p v
  exists_parent : ∀ i v : Nat, 0 < i → t.preorder[i]? = some v → ∃ p, t.parent[v]? = some (some p)
  falling : Falling t.upward
  previous : ∀ w p, t.upward w = some p → Ancestor t.upward p (w - 1)
  forward : ∀ i j, edgeAt n.Edge t.preorder i j → i < j → Ancestor t.upward i j

def Leads (t : SpanningTree) (links : List Link) : Prop := ∀ l ∈ links, ∃ j, l = .ok j ∧ t.Visited j

/-- The vertices finished so far and those that wait on the stack, in the order in which they come to
be finished. -/
def finishing (t : SpanningTree) (stack : List (Nat × List Link)) : List Nat :=
  t.postorder.toList ++ stack.map Prod.fst

structure Searching (n : Numbered) (root : Nat) (t : SpanningTree)
    (stack : List (Nat × List Link)) : Prop extends Grown n root t where
  above_last : ∀ x ∈ stack.map Prod.fst, ∀ i, t.dfnum[x]? = some (some i) →
    Ancestor t.upward i (t.preorder.size - 1)
  above_top : (stack.map Prod.fst).Pairwise fun x y => ∀ i j : Nat, t.dfnum[x]? = some (some i) →
    t.dfnum[y]? = some (some j) → Ancestor t.upward j i
  looked : ∀ frame ∈ stack, ∃ done, n.successors frame.1 = .ok (done ++ frame.2) ∧ t.Leads done
  finished : ∀ v ∈ t.postorder.toList, ∃ row, n.successors v = .ok row ∧ t.Leads row
  visited_iff : ∀ v, t.Visited v ↔ v ∈ t.finishing stack
  nodup : (t.finishing stack).Nodup
  before_parent : (t.finishing stack).Pairwise fun u v => t.parent[v]? ≠ some (some u)

theorem finishing_finish : (t.finish node).finishing rest = t.finishing ((node, links) :: rest) := by
  simp [finishing, SpanningTree.finish]

namespace Grown

theorem lt_size (h : Grown n root t) (hv : t.dfnum[v]? = some (some i)) : i < t.preorder.size :=
  (Array.getElem?_eq_some_iff.1 ((h.numbered i v).2 hv)).1

theorem size_pos (h : Grown n root t) : 0 < t.preorder.size :=
  (Array.getElem?_eq_some_iff.1 h.first).1

theorem lt_count (h : Grown n root t) (hv : t.Visited v) : v < n.count := by
  obtain ⟨i, hi⟩ := hv
  exact h.size_dfnum ▸ (Array.getElem?_eq_some_iff.1 hi).1

end Grown

/-! ## A visit -/

section Visit

variable {k : Nat}

theorem not_visited (hc : t.dfnum[c]? = some none) : ¬t.Visited c := by
  rintro ⟨i, hi⟩
  simp [hc] at hi

theorem visited_visit_iff (hc : t.dfnum[c]? = some none) :
    (t.visit c p).Visited v ↔ v = c ∨ t.Visited v := by
  have hlt := (Array.getElem?_eq_some_iff.1 hc).1
  unfold Visited
  rw [dfnum_visit hlt]
  by_cases hv : v = c <;> simp [hv]

theorem Leads.visit (h : t.Leads links) (hc : t.dfnum[c]? = some none) :
    (t.visit c p).Leads links := by
  intro l hl
  obtain ⟨j, hj, hv⟩ := h l hl
  exact ⟨j, hj, (visited_visit_iff hc).2 (.inr hv)⟩

theorem Grown.lt_size_parent (h : Grown n root t) (hc : t.dfnum[c]? = some none) :
    c < t.parent.size := by
  rw [h.size_parent, ← h.size_dfnum]
  exact (Array.getElem?_eq_some_iff.1 hc).1

theorem Grown.numbered_visit (h : Grown n root t) (hc : t.dfnum[c]? = some none) (i v : Nat) :
    (t.visit c p).preorder[i]? = some v ↔ (t.visit c p).dfnum[v]? = some (some i) := by
  rw [preorder_visit, dfnum_visit (Array.getElem?_eq_some_iff.1 hc).1]
  by_cases hi : i = t.preorder.size
  · by_cases hv : v = c
    · simp [hi, hv]
    · have hne : t.dfnum[v]? ≠ some (some i) := fun hd => by
        have := h.lt_size hd
        omega
      rw [if_pos hi, if_neg hv]
      exact iff_of_false (fun heq => hv (Option.some.inj heq).symm) hne
  · by_cases hv : v = c
    · have hne : t.preorder[i]? ≠ some v := fun hd =>
        not_visited hc (hv ▸ ⟨i, (h.numbered i v).1 hd⟩)
      rw [if_neg hi, if_pos hv]
      exact iff_of_false hne (by simpa using Ne.symm hi)
    · simpa [hi, hv] using h.numbered i v

theorem upward_visit_iff (h : Grown n root t) (hc : t.dfnum[c]? = some none)
    (hnode : t.dfnum[node]? = some (some k)) :
    (t.visit c (some node)).upward w = some j ↔
      (w = t.preorder.size ∧ j = k) ∨ t.upward w = some j := by
  have hlt := (Array.getElem?_eq_some_iff.1 hc).1
  have hltp := h.lt_size_parent hc
  have hvisited : ∀ v, t.Visited v → v ≠ c := by
    rintro v hv rfl
    exact not_visited hc hv
  have hnodec : node ≠ c := hvisited node ⟨k, hnode⟩
  simp only [upward_eq_some_iff, preorder_visit, parent_visit hltp, dfnum_visit hlt]
  constructor
  · rintro ⟨v, q, hv, hq, hj⟩
    by_cases hw : w = t.preorder.size
    · simp only [hw, if_true, Option.some.injEq] at hv
      subst hv
      simp only [if_true, Option.some.injEq] at hq
      subst hq
      simp only [hnodec, if_false, hnode, Option.some.injEq] at hj
      exact .inl ⟨hw, hj.symm⟩
    · simp only [hw, if_false] at hv
      have hvc := hvisited v ⟨w, (h.numbered w v).1 hv⟩
      simp only [hvc, if_false] at hq
      have hqc := hvisited q (h.parent_visited v q hq).2
      simp only [hqc, if_false] at hj
      exact .inr ⟨v, q, hv, hq, hj⟩
  · rintro (⟨rfl, rfl⟩ | ⟨v, q, hv, hq, hj⟩)
    · exact ⟨c, node, by simp, by simp, by simp [hnodec, hnode]⟩
    · have hw := Nat.ne_of_lt (Array.getElem?_eq_some_iff.1 hv).1
      have hvc := hvisited v ⟨w, (h.numbered w v).1 hv⟩
      have hqc := hvisited q ⟨j, hj⟩
      exact ⟨v, q, by simp [hw, hv], by simp [hvc, hq], by simp [hqc, hj]⟩

theorem Grown.ancestor_visit {a b : Nat} (h : Grown n root t) (hc : t.dfnum[c]? = some none)
    (hnode : t.dfnum[node]? = some (some k)) (hab : Ancestor t.upward a b) :
    Ancestor (t.visit c (some node)).upward a b :=
  hab.mono fun _ _ hq => (upward_visit_iff h hc hnode).2 (.inr hq)

end Visit

namespace Searching

theorem finish (h : Searching n root t ((node, []) :: rest)) :
    Searching n root (t.finish node) rest := by
  have hgrown : Grown n root (t.finish node) := { h.toGrown with }
  refine ⟨hgrown, ?_, h.above_top.of_cons, ?_, ?_, ?_, ?_, ?_⟩
  · intro x hx
    exact h.above_last x (List.mem_cons_of_mem _ hx)
  · intro frame hframe
    exact h.looked frame (List.mem_cons_of_mem _ hframe)
  · intro v hv
    rcases (by simpa [SpanningTree.finish] using hv : v ∈ t.postorder ∨ v = node) with hv | rfl
    · exact h.finished v (by simpa using hv)
    · obtain ⟨done, hrow, hleads⟩ := h.looked (v, []) (by simp)
      exact ⟨done, by simpa using hrow, hleads⟩
  · intro v
    rw [finishing_finish]
    exact h.visited_iff v
  · rw [finishing_finish]
    exact h.nodup
  · rw [finishing_finish]
    exact h.before_parent

theorem skip (h : Searching n root t ((node, .ok c :: links) :: rest)) (hc : t.Visited c) :
    Searching n root t ((node, links) :: rest) := by
  refine ⟨h.toGrown, h.above_last, h.above_top, ?_, h.finished, h.visited_iff, h.nodup,
    h.before_parent⟩
  intro frame hframe
  rcases List.mem_cons.1 hframe with rfl | hframe
  · obtain ⟨done, hrow, hleads⟩ := h.looked _ (List.mem_cons_self ..)
    refine ⟨done ++ [.ok c], by simpa using hrow, ?_⟩
    intro l hl
    rcases List.mem_append.1 hl with hl | hl
    · exact hleads l hl
    · exact ⟨c, List.mem_singleton.1 hl, hc⟩
  · exact h.looked frame (List.mem_cons_of_mem _ hframe)

theorem top (h : Searching n root t ((node, .ok c :: links) :: rest)) :
    (∃ k, t.dfnum[node]? = some (some k)) ∧ n.Edge node c := by
  obtain ⟨done, hrow, -⟩ := h.looked _ (List.mem_cons_self ..)
  exact ⟨(h.visited_iff node).2 (by simp [finishing]), _, hrow, by simp⟩

theorem child_lt (hn : n.Ranged) (h : Searching n root t ((node, .ok c :: links) :: rest)) :
    c < n.count := by
  obtain ⟨⟨k, hnode⟩, row, hrow, hmem⟩ := h.top
  obtain ⟨row', hrow', hlt⟩ := hn node (h.lt_count ⟨k, hnode⟩)
  rw [hrow, Except.ok.injEq] at hrow'
  exact hlt c (hrow' ▸ hmem)

theorem mem_stack (h : Searching n root t stack) (hv : t.Visited v) (hvc : n.Edge v c)
    (hc : ¬t.Visited c) : v ∈ stack.map Prod.fst := by
  rcases List.mem_append.1 ((h.visited_iff v).1 hv) with hdone | hwait
  · obtain ⟨row, hrow, hleads⟩ := h.finished v hdone
    obtain ⟨row', hrow', hmem⟩ := hvc
    rw [hrow, Except.ok.injEq] at hrow'
    obtain ⟨j, hj, hvisited⟩ := hleads _ (hrow' ▸ hmem)
    cases hj
    exact absurd hvisited hc
  · exact hwait

theorem above_visit {x : Nat} (h : Searching n root t ((node, .ok c :: links) :: rest))
    (hc : t.dfnum[c]? = some none) (hx : x ∈ node :: rest.map Prod.fst)
    (hi : t.dfnum[x]? = some (some i)) :
    Ancestor (t.visit c (some node)).upward i t.preorder.size := by
  obtain ⟨⟨k, hnode⟩, -⟩ := h.top
  have hlast : (t.visit c (some node)).upward t.preorder.size = some k :=
    (upward_visit_iff h.toGrown hc hnode).2 (.inl ⟨rfl, rfl⟩)
  rcases List.mem_cons.1 hx with rfl | hx
  · obtain rfl : k = i := by simpa [hnode] using hi
    exact .child .refl hlast
  · have habove := List.rel_of_pairwise_cons h.above_top hx k i hnode hi
    exact (h.ancestor_visit hc hnode habove).child hlast

theorem grown_visit (h : Searching n root t ((node, .ok c :: links) :: rest))
    (hc : t.dfnum[c]? = some none) : Grown n root (t.visit c (some node)) := by
  obtain ⟨⟨k, hnode⟩, hedge⟩ := h.top
  have hltp := h.lt_size_parent hc
  have hnew := not_visited hc
  have hup := fun w j => upward_visit_iff (w := w) (j := j) h.toGrown hc hnode
  have hk : k < t.preorder.size := h.lt_size hnode
  refine ⟨?_, ?_, ?_, ?_, ?_, ?_, ?_, ?_, ?_, ?_, ?_⟩
  · simpa [visit] using h.size_dfnum
  · simpa [visit] using h.size_parent
  · have hpos := h.size_pos
    rw [preorder_visit, if_neg (by omega), h.first]
  · exact h.numbered_visit hc
  · intro v hv
    rcases (visited_visit_iff hc).1 hv with rfl | hv
    · exact (h.reached node ⟨k, hnode⟩).step hedge trivial
    · exact h.reached v hv
  · intro v q hq
    rw [parent_visit hltp] at hq
    split at hq
    · cases hq
      exact ⟨(visited_visit_iff hc).2 (.inl ‹_›), (visited_visit_iff hc).2 (.inr ⟨k, hnode⟩)⟩
    · obtain ⟨hv, hq⟩ := h.parent_visited v q hq
      exact ⟨(visited_visit_iff hc).2 (.inr hv), (visited_visit_iff hc).2 (.inr hq)⟩
  · intro v q hq
    rw [parent_visit hltp] at hq
    split at hq
    · cases hq
      subst_vars
      exact hedge
    · exact h.parent_edge v q hq
  · intro i v hi hv
    rw [preorder_visit] at hv
    rw [parent_visit hltp]
    split at hv
    · cases hv
      exact ⟨node, by simp⟩
    · obtain ⟨q, hq⟩ := h.exists_parent i v hi hv
      have hvc : v ≠ c := by
        rintro rfl
        exact hnew ⟨i, (h.numbered i v).1 hv⟩
      exact ⟨q, by simp [hvc, hq]⟩
  · intro w q hq
    rcases (hup w q).1 hq with ⟨rfl, rfl⟩ | hq
    · exact h.lt_size hnode
    · exact h.falling w q hq
  · intro w q hq
    rcases (hup w q).1 hq with ⟨rfl, rfl⟩ | hq
    · exact h.ancestor_visit hc hnode (h.above_last node (by simp) q hnode)
    · exact h.ancestor_visit hc hnode (h.previous w q hq)
  · rintro i j ⟨u, v, hu, hv, huv⟩ hij
    rw [preorder_visit] at hu hv
    have hjsize : j ≤ t.preorder.size := by
      by_contra hgt
      rw [if_neg (by omega), Array.getElem?_eq_none (by omega)] at hv
      contradiction
    rw [if_neg (by omega)] at hu
    have hui := (h.numbered i u).1 hu
    by_cases hj : j = t.preorder.size
    · -- the edge to the new vertex starts on the stack
      rw [if_pos hj, Option.some.injEq] at hv
      subst hv hj
      exact h.above_visit hc (h.mem_stack ⟨i, hui⟩ huv hnew) hui
    · rw [if_neg hj] at hv
      exact h.ancestor_visit hc hnode (h.forward i j ⟨u, v, hu, hv, huv⟩ hij)

theorem ne_of_mem_finishing (h : Searching n root t stack) (hc : t.dfnum[c]? = some none)
    (hv : v ∈ t.finishing stack) : v ≠ c := by
  rintro rfl
  exact not_visited hc ((h.visited_iff v).2 hv)

theorem before_parent_visit (h : Searching n root t ((node, .ok c :: links) :: rest))
    (hc : t.dfnum[c]? = some none) :
    ((t.visit c (some node)).finishing ((c, row) :: (node, links) :: rest)).Pairwise
      fun u v => (t.visit c (some node)).parent[v]? ≠ some (some u) := by
  have hltp := h.lt_size_parent hc
  have hpost : ∀ x ∈ t.postorder.toList, x ≠ c := fun x hx =>
    h.ne_of_mem_finishing hc (List.mem_append_left _ hx)
  have hstack : ∀ x ∈ node :: rest.map Prod.fst, x ≠ c := fun x hx =>
    h.ne_of_mem_finishing hc (List.mem_append_right _ hx)
  have hparent : ∀ x, x ≠ c → (t.visit c (some node)).parent[x]? = t.parent[x]? := by
    intro x hx
    rw [parent_visit hltp, if_neg hx]
  obtain ⟨hdone, hwait, hcross⟩ := List.pairwise_append.1 h.before_parent
  refine List.pairwise_append.2 ⟨hdone.imp_of_mem ?_, .cons ?_ (hwait.imp_of_mem ?_), ?_⟩
  · intro x y _ hy hxy
    rwa [hparent y (hpost y hy)]
  · intro y hy heq
    rw [hparent y (hstack y hy)] at heq
    exact not_visited hc (h.parent_visited y c heq).2
  · intro x y _ hy hxy
    rwa [hparent y (hstack y hy)]
  · intro x hx y hy heq
    rcases List.mem_cons.1 hy with rfl | hy
    · rw [parent_visit hltp, if_pos rfl, Option.some.injEq, Option.some.injEq] at heq
      exact List.disjoint_of_nodup_append h.nodup hx (heq ▸ List.mem_cons_self ..)
    · rw [hparent y (hstack y hy)] at heq
      exact hcross x hx y hy heq

theorem visit (h : Searching n root t ((node, .ok c :: links) :: rest))
    (hc : t.dfnum[c]? = some none) (hrow : n.successors c = .ok row) :
    Searching n root (t.visit c (some node)) ((c, row) :: (node, links) :: rest) := by
  obtain ⟨⟨k, hnode⟩, -⟩ := h.top
  have hlt := (Array.getElem?_eq_some_iff.1 hc).1
  have hvisited := fun v => visited_visit_iff (v := v) (p := some node) hc
  have hstack : ∀ x ∈ node :: rest.map Prod.fst, x ≠ c := fun x hx =>
    h.ne_of_mem_finishing hc (List.mem_append_right _ hx)
  have hsize : (t.visit c (some node)).preorder.size = t.preorder.size + 1 := by
    simp [SpanningTree.visit]
  have hnum : (t.visit c (some node)).dfnum[c]? = some (some t.preorder.size) := by
    rw [dfnum_visit hlt, if_pos rfl]
  have hold : ∀ x, x ≠ c → (t.visit c (some node)).dfnum[x]? = t.dfnum[x]? := by
    intro x hx
    rw [dfnum_visit hlt, if_neg hx]
  refine ⟨h.grown_visit hc, ?_, ?_, ?_, ?_, ?_, ?_, h.before_parent_visit hc⟩
  · intro x hx i hi
    rw [hsize, Nat.add_sub_cancel]
    rcases List.mem_cons.1 hx with rfl | hx
    · obtain rfl : t.preorder.size = i := by simpa [hnum] using hi
      exact .refl
    · exact h.above_visit hc hx (hold x (hstack x hx) ▸ hi)
  · refine .cons ?_ (h.above_top.imp_of_mem ?_)
    · intro x hx i j hi hj
      obtain rfl : t.preorder.size = i := by simpa [hnum] using hi
      exact h.above_visit hc hx (hold x (hstack x hx) ▸ hj)
    · intro x y hx hy hxy i j hi hj
      exact h.ancestor_visit hc hnode
        (hxy i j (hold x (hstack x hx) ▸ hi) (hold y (hstack y hy) ▸ hj))
  · intro frame hframe
    rcases List.mem_cons.1 hframe with rfl | hframe
    · exact ⟨[], hrow, by simp [Leads]⟩
    rcases List.mem_cons.1 hframe with rfl | hframe
    · obtain ⟨done, hdone, hls⟩ := h.looked _ (List.mem_cons_self ..)
      refine ⟨done ++ [.ok c], by simpa using hdone, ?_⟩
      intro l hl
      rcases List.mem_append.1 hl with hl | hl
      · exact hls.visit hc l hl
      · exact ⟨c, List.mem_singleton.1 hl, (hvisited c).2 (.inl rfl)⟩
    · obtain ⟨done, hdone, hls⟩ := h.looked frame (List.mem_cons_of_mem _ hframe)
      exact ⟨done, hdone, hls.visit hc⟩
  · intro v hv
    obtain ⟨ls, hls, hall⟩ := h.finished v hv
    exact ⟨ls, hls, hall.visit hc⟩
  · intro v
    rw [hvisited, h.visited_iff]
    simp [finishing, SpanningTree.visit]
    tauto
  · have hnot : c ∉ t.finishing ((node, .ok c :: links) :: rest) := fun hmem =>
      h.ne_of_mem_finishing hc hmem rfl
    exact List.nodup_middle.2 (.cons hnot h.nodup)

end Searching

/-! ## Runs -/

theorem searching_start (hroot : root < n.count) (hrow : n.successors root = .ok row) :
    Searching n root ((empty n.count).visit root none) [(root, row)] := by
  have hlt : root < (empty n.count).dfnum.size := by simpa [empty] using hroot
  have hltp : root < (empty n.count).parent.size := by simpa [empty] using hroot
  have hunvisited : ∀ v, ¬(empty n.count).Visited v := by
    rintro v ⟨i, hi⟩
    simp [empty, Array.getElem?_replicate] at hi
  have horphan : ∀ v p : Nat, ((empty n.count).visit root none).parent[v]? ≠ some (some p) := by
    intro v p hp
    rw [parent_visit hltp] at hp
    split at hp
    · simp at hp
    · simp [empty, Array.getElem?_replicate] at hp
  have hup : ((empty n.count).visit root none).upward = fun _ => none := by
    funext w
    rw [Option.eq_none_iff_forall_ne_some]
    intro j hj
    obtain ⟨v, p, -, hp, -⟩ := upward_eq_some_iff.1 hj
    exact horphan v p hp
  have hpre : ∀ i v : Nat, ((empty n.count).visit root none).preorder[i]? = some v ↔
      i = 0 ∧ v = root := by
    intro i v
    rw [preorder_visit]
    cases i <;> simp [empty, eq_comm]
  have hnum : ∀ i v : Nat, ((empty n.count).visit root none).dfnum[v]? = some (some i) ↔
      i = 0 ∧ v = root := by
    intro i v
    rw [dfnum_visit hlt]
    by_cases hv : v = root
    · simp [hv, empty, eq_comm]
    · simpa [hv] using fun h => hunvisited v ⟨i, h⟩
  have hlist : ((empty n.count).visit root none).finishing [(root, row)] = [root] := by
    simp [finishing, visit, empty]
  refine ⟨⟨?_, ?_, ?_, ?_, ?_, ?_, ?_, ?_, ?_, ?_, ?_⟩, ?_, ?_, ?_, ?_, ?_, ?_, ?_⟩
  · simp [visit, empty]
  · simp [visit, empty]
  · exact (hpre 0 root).2 ⟨rfl, rfl⟩
  · exact fun i v => (hpre i v).trans (hnum i v).symm
  · rintro v ⟨i, hi⟩
    rw [((hnum i v).1 hi).2]
    exact .refl trivial
  · exact fun v p hp => absurd hp (horphan v p)
  · exact fun v p hp => absurd hp (horphan v p)
  · intro i v hi hv
    have := (hpre i v).1 hv
    omega
  · simp [hup, Falling]
  · simp [hup]
  · rintro i j ⟨u, v, -, hv, -⟩ hij
    have := (hpre j v).1 hv
    omega
  · intro x hx i hi
    rw [((hnum i x).1 hi).1]
    simpa [visit, empty] using Ancestor.refl
  · simp
  · intro frame hframe
    rw [List.mem_singleton.1 hframe]
    exact ⟨[], hrow, by simp [Leads]⟩
  · simp [visit, empty]
  · intro v
    simp only [Visited, hnum, hlist]
    simp
  · simp [hlist]
  · simp [hlist]

/-- A search comes to its end unless it meets a fault in the row of a vertex that it has reached. -/
theorem grow_cases (hn : n.Ranged) (h : Searching n root t stack) :
    (∃ t', grow n t stack = .ok t' ∧ Searching n root t' []) ∨
      ∃ fault v row, grow n t stack = .error fault ∧ Reaches n.Edge root v ∧
        n.successors v = .ok row ∧ Except.error fault ∈ row := by
  fun_induction grow n t stack with
  | case1 t => exact .inl ⟨t, rfl, h⟩
  | case2 t node rest ih => exact ih h.finish
  | case3 t node fault links rest =>
      obtain ⟨done, hrow, -⟩ := h.looked _ (List.mem_cons_self ..)
      have hnode : t.Visited node := (h.visited_iff node).2 (by simp [finishing])
      exact .inr ⟨fault, node, _, rfl, h.reached node hnode, hrow, by simp⟩
  | case4 t node child links rest hnone =>
      have hlt := h.child_lt hn
      rw [← h.size_dfnum] at hlt
      rw [Array.getElem?_eq_getElem hlt] at hnone
      contradiction
  | case5 t node child links rest i hseen ih => exact ih (h.skip ⟨i, hseen⟩)
  | case6 t node child links rest hnew fault hrow =>
      obtain ⟨row, hok, -⟩ := hn child (h.child_lt hn)
      rw [hok] at hrow
      contradiction
  | case7 t node child links rest hnew row hrow ih => exact ih (h.visit hnew hrow)

/-! ## What a search has found -/

def Grown.order (h : Grown n root t) : SearchOrder where
  count := t.preorder.size
  edge := edgeAt n.Edge t.preorder
  parent := t.upward
  edge_lt := by
    rintro i j ⟨u, v, hu, hv, -⟩
    exact ⟨(Array.getElem?_eq_some_iff.1 hu).1, (Array.getElem?_eq_some_iff.1 hv).1⟩
  falling := h.falling
  parent_edge := by
    intro w j hj
    obtain ⟨v, p, hv, hp, hnum⟩ := upward_eq_some_iff.1 hj
    exact ⟨p, v, (h.numbered j p).2 hnum, hv, h.parent_edge v p hp⟩
  exists_parent := by
    intro w hpos hw
    have hv := Array.getElem?_eq_getElem hw
    obtain ⟨p, hp⟩ := h.exists_parent w _ hpos hv
    obtain ⟨j, hj⟩ := (h.parent_visited _ p hp).2
    exact ⟨j, upward_eq_some_iff.2 ⟨_, p, hv, hp, hj⟩⟩
  parent_ancestor := h.previous
  forward := h.forward

namespace Searching

theorem visited_iff_reaches (h : Searching n root t []) : t.Visited v ↔ Reaches n.Edge root v := by
  constructor
  · exact h.reached v
  · intro hreach
    induction hreach with
    | refl _ => exact ⟨0, (h.numbered 0 root).1 h.first⟩
    | @step u v _ huv _ ih =>
        by_contra hv
        simpa using h.mem_stack ih huv hv

theorem mem_postorder_iff (h : Searching n root t []) :
    v ∈ t.postorder.toList ↔ Reaches n.Edge root v := by
  rw [← h.visited_iff_reaches, h.visited_iff]
  simp [finishing]

theorem listing_preorder (h : Searching n root t []) : Listing n.Edge root t.preorder where
  first := h.first
  injective := by
    intro i j v hi hj
    have hnum := (h.numbered i v).1 hi
    rw [(h.numbered j v).1 hj] at hnum
    simpa using hnum.symm
  listed_iff := by
    intro v
    rw [← h.visited_iff_reaches]
    simp [Visited, h.numbered]

theorem parent_before (h : Searching n root t []) (hi : t.reversePostorder[i]? = some v)
    (hj : t.reversePostorder[j]? = some c) (hp : t.parent[v]? = some (some c)) : j ≤ i := by
  by_contra hlt
  have hpair : t.reversePostorder.toList.Pairwise fun u v => t.parent[u]? ≠ some (some v) := by
    simpa [reversePostorder, finishing, List.pairwise_reverse] using h.before_parent
  obtain ⟨hi', hv⟩ := Array.getElem?_eq_some_iff.1 hi
  obtain ⟨hj', hc⟩ := Array.getElem?_eq_some_iff.1 hj
  refine List.pairwise_iff_getElem.1 hpair i j (by simpa using hi') (by simpa using hj')
    (by omega) ?_
  simpa [hv, hc] using hp

theorem listed_reversePostorder_iff (h : Searching n root t []) :
    (∃ i : Nat, t.reversePostorder[i]? = some v) ↔ Reaches n.Edge root v := by
  rw [← h.mem_postorder_iff, ← Array.mem_iff_getElem?]
  simp [reversePostorder]

theorem lt_count_of_listed (h : Searching n root t []) (hi : t.reversePostorder[i]? = some v) :
    v < n.count :=
  h.lt_count (h.visited_iff_reaches.2 (h.listed_reversePostorder_iff.1 ⟨i, hi⟩))

theorem nodup_reversePostorder (h : Searching n root t [])
    (hi : t.reversePostorder[i]? = some v) (hj : t.reversePostorder[j]? = some v) : i = j := by
  have hnodup : t.reversePostorder.toList.Nodup := by
    simpa [reversePostorder, finishing] using h.nodup
  have hlt : i < t.reversePostorder.toList.length := (Array.getElem?_eq_some_iff.1 hi).1
  exact (List.getElem?_inj hlt hnodup).1 (by simpa using hi.trans hj.symm)

theorem exists_edge_before (h : Searching n root t []) (hi : t.reversePostorder[i]? = some v)
    (hv : v ≠ root) : ∃ j, j < i ∧ edgeAt n.Edge t.reversePostorder j i := by
  obtain ⟨k, hk⟩ := h.visited_iff_reaches.2 (h.listed_reversePostorder_iff.1 ⟨i, hi⟩)
  have hpre := (h.numbered k v).2 hk
  have hpos : 0 < k := by
    rcases Nat.eq_zero_or_pos k with rfl | hpos
    · rw [h.first, Option.some.injEq] at hpre
      exact absurd hpre.symm hv
    · exact hpos
  obtain ⟨p, hp⟩ := h.exists_parent k v hpos hpre
  obtain ⟨j, hj⟩ := h.listed_reversePostorder_iff.2 (h.reached p (h.parent_visited v p hp).2)
  have hne : j ≠ i := by
    rintro rfl
    rw [hi, Option.some.injEq] at hj
    subst hj
    exact absurd (h.falling k k (upward_eq_some_iff.2 ⟨v, v, hpre, hp, hk⟩)) (Nat.lt_irrefl k)
  have hle := h.parent_before hi hj hp
  exact ⟨j, by omega, p, v, hj, hi, h.parent_edge v p hp⟩

theorem listing_reversePostorder (h : Searching n root t []) :
    Listing n.Edge root t.reversePostorder where
  first := by
    obtain ⟨i, hi⟩ := h.listed_reversePostorder_iff.2 (.refl trivial : Reaches n.Edge root root)
    have hpos : 0 < t.reversePostorder.size := by
      have := (Array.getElem?_eq_some_iff.1 hi).1
      omega
    have hzero := Array.getElem?_eq_getElem hpos
    by_contra hne
    obtain ⟨j, hj, -⟩ := h.exists_edge_before hzero fun heq => hne (heq ▸ hzero)
    omega
  injective := fun _ _ _ hi hj => h.nodup_reversePostorder hi hj
  listed_iff := fun _ => h.listed_reversePostorder_iff

end Searching

end SpanningTree

end FlowDominance
