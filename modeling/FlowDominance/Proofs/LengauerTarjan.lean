import FlowDominance.Dominator.LengauerTarjan
import FlowDominance.Proofs.Forest
import FlowDominance.Proofs.SpanningTree

/-!
# Dominators by semidominators

When the sweep has come down to `k`, the forest holds the links to the vertices beyond `k` and their
semidominators are known.  A vertex waits in the bucket of its semidominator until the branch on
which it hangs there has been linked; only then all vertices between the two are in the forest.
-/

namespace FlowDominance

namespace SearchOrder

variable {T : SearchOrder} {a b c k p w x y z : Nat}

/-! ## Links beyond a vertex -/

def linksBeyond (T : SearchOrder) (k x : Nat) : Option Nat := if k < x then T.parent x else none

theorem linksBeyond_of_lt (h : k < x) : T.linksBeyond k x = T.parent x := if_pos h

theorem linksBeyond_of_le (h : x ≤ k) : T.linksBeyond k x = none := if_neg (by omega)

theorem parent_of_linksBeyond (h : T.linksBeyond k x = some p) : T.parent x = some p := by
  unfold linksBeyond at h
  split at h
  · exact h
  · contradiction

theorem linksBeyond_last : T.linksBeyond (T.count - 1) = fun _ => none := by
  funext x
  rw [Option.eq_none_iff_forall_ne_some]
  intro p hp
  have hlt := parent_lt_count (parent_of_linksBeyond hp)
  rw [linksBeyond_of_le (by omega)] at hp
  contradiction

theorem linkUp_linksBeyond (hp : T.parent (k + 1) = some p) :
    Dominator.Forest.linkUp (T.linksBeyond (k + 1)) p (k + 1) = T.linksBeyond k := by
  funext x
  unfold Dominator.Forest.linkUp linksBeyond
  by_cases hx : x = k + 1
  · simp [hx, hp]
  · have hiff : k + 1 < x ↔ k < x := by omega
    simp [hx, hiff]

theorem ancestor_of_linksBeyond (h : Ancestor (T.linksBeyond k) a b) : Ancestor T.parent a b :=
  h.mono fun _ _ => parent_of_linksBeyond

theorem linksBeyond_ancestor (h : Ancestor T.parent a b) (hka : k < a) :
    Ancestor (T.linksBeyond k) a b := by
  induction h with
  | refl => exact .refl
  | @child b c hab hup ih =>
      have hab' := ancestor_le hab
      have hbc := T.falling _ _ hup
      exact ih.child ((linksBeyond_of_lt (by omega)).trans hup)

theorem root_le (h : T.linksBeyond k c = none) (hc : c < T.count) : c ≤ k := by
  by_contra hlt
  obtain ⟨p, hp⟩ := T.exists_parent c (by omega) hc
  rw [linksBeyond_of_lt (by omega), hp] at h
  contradiction

/-! ## Branches -/

/-- The way from the semidominator of `x` down to `x` begins with `c`. -/
def Branch (T : SearchOrder) (c x : Nat) : Prop :=
  T.parent c = some (T.sdom x) ∧ Ancestor T.parent c x

theorem exists_branch (hpos : 0 < x) (hx : x < T.count) : ∃ c, T.Branch c x :=
  (sdom_ancestor hpos hx).exists_child (Nat.ne_of_lt (sdom_lt hpos hx))

theorem Branch.pos (h : T.Branch c x) : 0 < c := by
  have := T.falling _ _ h.1
  omega

theorem Branch.eq_of_le (h : T.Branch c x) (hw : T.parent w = some (T.sdom x)) (hcw : c ≤ w)
    (hwx : w ≤ x) : c = w := by
  by_contra hne
  have hanc : Ancestor T.parent c w := ancestor_of_between h.2 hcw hwx
  have hle := ancestor_le (hanc.above hne hw)
  have hlt := T.falling _ _ h.1
  omega

theorem Branch.unique (hb : T.Branch b x) (hc : T.Branch c x) : b = c := by
  rcases Nat.le_total b c with hle | hle
  · exact hb.eq_of_le hc.1 hle (ancestor_le hc.2)
  · exact (hc.eq_of_le hb.1 hle (ancestor_le hb.2)).symm

theorem lt_of_between (hp : T.parent (k + 1) = some p) (hx : Ancestor T.parent (k + 1) x)
    (hz : Ancestor T.parent z x) (hpz : p < z) : k < z := by
  by_contra hle
  have hzk : Ancestor T.parent z (k + 1) := hz.of_le T.falling hx (by omega)
  have := ancestor_le (hzk.above (by omega) hp)
  omega

/-- Below a branch that has just been linked, a query finds the lowest semidominator between `x`
and the parent of the branch. -/
theorem least_above {semi : Nat → Nat} (hp : T.parent (k + 1) = some p)
    (hx : Ancestor T.parent (k + 1) x) (hc : T.linksBeyond k c = none)
    (hleast : Dominator.Forest.LeastOn semi (T.linksBeyond k) x c y) :
    p < y ∧ Ancestor T.parent y x ∧
      ∀ z, p < z → Ancestor T.parent z x → semi y ≤ semi z := by
  have hfall : Falling (T.linksBeyond k) := fun w q hq => T.falling w q (parent_of_linksBeyond hq)
  have hpk := T.falling _ _ hp
  have hpx : Ancestor (T.linksBeyond k) p x :=
    (Ancestor.refl.child ((linksBeyond_of_lt (by omega)).trans hp)).trans
      (linksBeyond_ancestor hx (by omega))
  obtain rfl : c = p := hleast.top_ancestor.root_unique hfall hpx hc (linksBeyond_of_le (by omega))
  refine ⟨hleast.top_lt hfall, ancestor_of_linksBeyond hleast.ancestor, ?_⟩
  intro z hcz hz
  exact hleast.le hfall (linksBeyond_ancestor hz (lt_of_between hp hx hz hcz)) hcz

end SearchOrder

namespace Dominator.LengauerTarjan

open SearchOrder

variable {n : Numbered} {tree : SpanningTree} {T : SearchOrder} {s : Sweep} {forest : Forest}
variable {k p w x : Nat} {preds : List Nat}

/-! ## Semidominators -/

def Considered (T : SearchOrder) (w s v : Nat) : Prop :=
  (v < w → s ≤ v) ∧ ∀ u, Ancestor T.parent u v → w < u → s ≤ T.sdom u

theorem Considered.mono {s s' v : Nat} (h : Considered T w s v) (hle : s' ≤ s) :
    Considered T w s' v :=
  ⟨fun hv => hle.trans (h.1 hv), fun u hu hwu => hle.trans (h.2 u hu hwu)⟩

theorem eq_sdom {s : Nat} (hpos : 0 < w) (hw : w < T.count) (hle : T.sdom w ≤ s)
    (hall : ∀ v, T.edge v w → Considered T w s v) : s = T.sdom w := by
  refine Nat.le_antisymm ?_ hle
  rcases exists_offer hpos hw with ⟨v, hv, hvw, heq⟩ | ⟨u, v, hv, huv, hwu, hsdom⟩
  · exact heq ▸ (hall v hv).1 hvw
  · exact ((hall v hv).2 u huv hwu).trans hsdom

theorem exists_offer_ok {s v : Nat} (hrep : forest.Represents (T.linksBeyond w))
    (hsemi : ∀ x, w < x → x < T.count → forest.semiOf x = T.sdom x) (hpos : 0 < w)
    (hw : w < T.count) (hv : T.edge v w) (hle : T.sdom w ≤ s) :
    ∃ s' forest', offer w (s, forest) v = .ok (s', forest') ∧
      forest'.Represents (T.linksBeyond w) ∧ forest'.semi = forest.semi ∧ T.sdom w ≤ s' ∧
      s' ≤ s ∧ Considered T w s' v := by
  by_cases hvw : v ≤ w
  · refine ⟨min s v, forest, by simp [offer, hvw], hrep, rfl, ?_, Nat.min_le_left s v, ?_, ?_⟩
    · have hself := sdom_lt hpos hw
      rcases Nat.lt_or_eq_of_le hvw with hlt | rfl
      · have := sdom_le (T := T) (.inl hv)
        omega
      · omega
    · exact fun _ => Nat.min_le_right s v
    · intro u hu hwu
      have := ancestor_le hu
      omega
  · have hvcount := (T.edge_lt v w hv).1
    obtain ⟨q, hq⟩ := T.exists_parent v (by omega) hvcount
    obtain ⟨y, forest', c, hrun, hrep', hsame, hc, hleast⟩ :=
      Forest.exists_evalSemi_ok hrep ((linksBeyond_of_lt (by omega)).trans hq)
    have hyv : Ancestor T.parent y v := ancestor_of_linksBeyond hleast.ancestor
    have hyle := ancestor_le hyv
    have hcy := hleast.top_lt hrep.falling
    have hcw : c ≤ w := root_le hc (by omega)
    have hwy : w < y := by
      obtain ⟨r, hr⟩ := hleast.linked
      by_contra hle'
      rw [linksBeyond_of_le (by omega)] at hr
      contradiction
    have hysemi := hsemi y hwy (by omega)
    refine ⟨min s (T.sdom y), forest', ?_, hrep', hsame, ?_, Nat.min_le_left _ _, ?_, ?_⟩
    · simp [offer, hvw, hrun, hysemi]
    · exact Nat.le_min.2 ⟨hle, sdom_le_sdom hv hyv hwy (by omega)⟩
    · omega
    · intro u hu hwu
      have hule := ancestor_le hu
      have hmin := hleast.le hrep.falling (linksBeyond_ancestor hu hwu) (by omega)
      rw [hysemi, hsemi u hwu (by omega)] at hmin
      omega

theorem exists_semidominator_ok (hrep : forest.Represents (T.linksBeyond w))
    (hsemi : ∀ x, w < x → x < T.count → forest.semiOf x = T.sdom x) (hp : T.parent w = some p)
    (hpreds : ∀ v, v ∈ preds ↔ T.edge v w) :
    ∃ forest', semidominator forest w p preds = .ok (T.sdom w, forest') ∧
      forest'.Represents (T.linksBeyond w) ∧ forest'.semi = forest.semi := by
  have hpos : 0 < w := by
    have := T.falling w p hp
    omega
  have hw := parent_lt_count hp
  obtain ⟨⟨s, forest'⟩, hrun, hrep', hsame, hle, hall⟩ := exists_foldlM_ok
    (fun done (st : Nat × Forest) => st.2.Represents (T.linksBeyond w) ∧
      st.2.semi = forest.semi ∧ T.sdom w ≤ st.1 ∧ ∀ v ∈ done, Considered T w st.1 v)
    preds (f := offer w) (b := (p, forest)) ⟨hrep, rfl, sdom_le_parent hp, by simp⟩ (by
      rintro done v rest ⟨s, f⟩ hsplit ⟨hf, hfsemi, hle, hdone⟩
      have hv : T.edge v w := (hpreds v).1 (by simp [hsplit])
      have hfsemiOf : f.semiOf = forest.semiOf := Forest.semiOf_congr hfsemi
      obtain ⟨s', f', hok, hf', hsame, hle', hss', hv'⟩ :=
        exists_offer_ok hf (hfsemiOf ▸ hsemi) hpos hw hv hle
      refine ⟨(s', f'), hok, hf', hsame.trans hfsemi, hle', ?_⟩
      intro u hu
      rcases List.mem_append.1 hu with hu | hu
      · exact (hdone u hu).mono hss'
      · exact List.mem_singleton.1 hu ▸ hv')
  have heq : s = T.sdom w := eq_sdom hpos hw hle fun v hv => hall v ((hpreds v).2 hv)
  exact ⟨forest', heq ▸ hrun, hrep', hsame⟩

/-! ## Resolved vertices -/

def Blank (s : Sweep) (x : Nat) : Prop := s.idom[x]? = some none ∧ s.samedom[x]? = some none

/-- The dominator of `x` is known, or else an earlier vertex with the same dominator. -/
def Resolved (T : SearchOrder) (s : Sweep) (x : Nat) : Prop :=
  (∃ d, s.idom[x]? = some (some d) ∧ s.samedom[x]? = some none ∧
    ImmediateDominator T.edge 0 d x) ∨
  ∃ y, s.idom[x]? = some none ∧ s.samedom[x]? = some (some y) ∧ 0 < y ∧ y < x ∧
    ∀ d, ImmediateDominator T.edge 0 d y → ImmediateDominator T.edge 0 d x

def Agree (s s' : Sweep) (x : Nat) : Prop :=
  s'.idom[x]? = s.idom[x]? ∧ s'.samedom[x]? = s.samedom[x]?

theorem Blank.agree {s' : Sweep} (h : Blank s x) (ha : Agree s s' x) : Blank s' x :=
  ⟨ha.1.trans h.1, ha.2.trans h.2⟩

theorem Resolved.agree {s' : Sweep} (h : Resolved T s x) (ha : Agree s s' x) :
    Resolved T s' x := by
  unfold Resolved
  rw [ha.1, ha.2]
  exact h

theorem exists_resolve_ok (hrep : s.forest.Represents (T.linksBeyond k))
    (hsize : s.forest.semi.size = T.count)
    (hsemi : ∀ x, k < x → x < T.count → s.forest.semiOf x = T.sdom x)
    (hbranch : T.Branch (k + 1) x) (hx : x < T.count) (hblank : Blank s x) :
    ∃ s', resolve (T.sdom x) s x = .ok s' ∧ s'.forest.Represents (T.linksBeyond k) ∧
      s'.forest.semi = s.forest.semi ∧ s'.bucket = s.bucket ∧ Resolved T s' x ∧
      ∀ y, y ≠ x → Agree s s' y := by
  have hkx : k < x := ancestor_le hbranch.2
  obtain ⟨q, hq⟩ := T.exists_parent x (by omega) hx
  obtain ⟨y, f, c, hrun, hf, hsame, hc, hleast⟩ :=
    Forest.exists_eval_ok hrep ((linksBeyond_of_lt hkx).trans hq)
  obtain ⟨hlow, hanc, hmin⟩ := least_above hbranch.1 hbranch.2 hc hleast
  have hyx : y ≤ x := ancestor_le hanc
  have hky : k < y := lt_of_between hbranch.1 hbranch.2 hanc hlow
  have hlowest : ∀ z, T.sdom x < z → Ancestor T.parent z x → T.sdom y ≤ T.sdom z := by
    intro z hz hzx
    have hle := hmin z hz hzx
    have hzle := ancestor_le hzx
    have hkz := lt_of_between hbranch.1 hbranch.2 hzx hz
    rwa [hsemi y hky (by omega), hsemi z hkz (by omega)] at hle
  have hready : Slots.read f.semi y = .ok (T.sdom y) := by
    rw [hsame, ← hsemi y hky (by omega)]
    exact Slots.read_eq_ok (Forest.getElem?_semi (by omega))
  have hreadx : Slots.read f.semi x = .ok (T.sdom x) := by
    rw [hsame, ← hsemi x hkx hx]
    exact Slots.read_eq_ok (Forest.getElem?_semi (by omega))
  by_cases heq : T.sdom y = T.sdom x
  · obtain ⟨idom, hwrite, -, hat, hother⟩ := Slots.exists_write_ok s.idom (some (T.sdom x))
      (Array.getElem?_eq_some_iff.1 hblank.1).1
    refine ⟨{ s with forest := f, idom }, ?_, hf, hsame, rfl, .inl ?_, fun z hz =>
      ⟨hother z hz, rfl⟩⟩
    · simp [resolve, hrun, hready, hreadx, heq, hwrite]
    · exact ⟨_, hat, hblank.2, immediateDominator_sdom (by omega) hx (heq ▸ hlowest)⟩
  · obtain ⟨samedom, hwrite, -, hat, hother⟩ := Slots.exists_write_ok s.samedom (some y)
      (Array.getElem?_eq_some_iff.1 hblank.2).1
    refine ⟨{ s with forest := f, samedom }, ?_, hf, hsame, rfl, .inr ?_, fun z hz =>
      ⟨rfl, hother z hz⟩⟩
    · simp [resolve, hrun, hready, hreadx, heq, hwrite]
    · have hne : y ≠ x := by
        rintro rfl
        exact heq rfl
      exact ⟨y, hblank.1, hat, by omega, by omega,
        fun d hd => immediateDominator_of_lower (by omega) hx hlow hanc hlowest hd⟩

theorem exists_resolveAll_ok {waiting : List Nat} (hrep : s.forest.Represents (T.linksBeyond k))
    (hsize : s.forest.semi.size = T.count)
    (hsemi : ∀ x, k < x → x < T.count → s.forest.semiOf x = T.sdom x) (hnodup : waiting.Nodup)
    (hall : ∀ x ∈ waiting, x < T.count ∧ T.sdom x = p ∧ T.Branch (k + 1) x ∧ Blank s x) :
    ∃ s', waiting.foldlM (resolve p) s = .ok s' ∧ s'.forest.Represents (T.linksBeyond k) ∧
      s'.forest.semi = s.forest.semi ∧ s'.bucket = s.bucket ∧
      (∀ x ∈ waiting, Resolved T s' x) ∧ ∀ x, x ∉ waiting → Agree s s' x := by
  refine exists_foldlM_ok
    (fun done (s' : Sweep) => s'.forest.Represents (T.linksBeyond k) ∧
      s'.forest.semi = s.forest.semi ∧ s'.bucket = s.bucket ∧
      (∀ x ∈ done, Resolved T s' x) ∧ ∀ x, x ∉ done → Agree s s' x)
    waiting ⟨hrep, rfl, rfl, by simp, fun _ _ => ⟨rfl, rfl⟩⟩ ?_
  rintro done x rest s₁ hsplit ⟨hrep₁, hsame₁, hbucket₁, hdone, hothers⟩
  obtain ⟨hx, hsdom, hbranch, hblank⟩ := hall x (by simp [hsplit])
  have hnew : x ∉ done := by
    intro hmem
    rw [hsplit, List.nodup_append] at hnodup
    exact hnodup.2.2 x hmem x (by simp) rfl
  have hsemi₁ : s₁.forest.semiOf = s.forest.semiOf := Forest.semiOf_congr hsame₁
  obtain ⟨s₂, hrun, hrep₂, hsame₂, hbucket₂, hres, hagree⟩ := exists_resolve_ok hrep₁
    (hsame₁ ▸ hsize) (hsemi₁ ▸ hsemi) hbranch hx (hblank.agree (hothers x hnew))
  refine ⟨s₂, hsdom ▸ hrun, hrep₂, hsame₂.trans hsame₁, hbucket₂.trans hbucket₁, ?_, ?_⟩
  · intro y hy
    by_cases hyx : y = x
    · exact hyx ▸ hres
    · have hmem : y ∈ done := by simpa [hyx] using hy
      exact (hdone y hmem).agree (hagree y hyx)
  · intro y hy
    have hy' : y ∉ done ∧ y ≠ x := by simpa using hy
    obtain ⟨hidom, hsamedom⟩ := hothers y hy'.1
    obtain ⟨hidom', hsamedom'⟩ := hagree y hy'.2
    exact ⟨hidom'.trans hidom, hsamedom'.trans hsamedom⟩

/-! ## The sweep -/

/-- The functions that read the graph give what the search order says. -/
structure Reads (n : Numbered) (tree : SpanningTree) (T : SearchOrder) : Prop where
  count_eq : tree.preorder.size = T.count
  parentOf_eq : ∀ w p, T.parent w = some p → parentOf tree w = .ok p
  exists_predecessors : ∀ w, 0 < w → w < T.count →
    ∃ row, predecessors n tree w = .ok row ∧ ∀ v, v ∈ row ↔ T.edge v w

structure Swept (T : SearchOrder) (k : Nat) (s : Sweep) : Prop where
  represents : s.forest.Represents (T.linksBeyond k)
  size_semi : s.forest.semi.size = T.count
  semi_eq : ∀ x, k < x → x < T.count → s.forest.semiOf x = T.sdom x
  size_bucket : s.bucket.size = T.count
  nodup_bucket : ∀ (b : Nat) row, s.bucket[b]? = some row → row.Nodup
  mem_bucket : ∀ (b : Nat) row x, s.bucket[b]? = some row →
    (x ∈ row ↔ k < x ∧ x < T.count ∧ T.sdom x = b ∧ ∃ c, c ≤ k ∧ T.Branch c x)
  resolved : ∀ x c, x < T.count → T.Branch c x → k < c → Resolved T s x
  blank : ∀ x, x < T.count → (∀ c, T.Branch c x → c ≤ k) → Blank s x

theorem swept_initial (T : SearchOrder) : Swept T (T.count - 1) (.initial T.count) where
  represents := linksBeyond_last (T := T) ▸ Forest.represents_initial T.count
  size_semi := by simp [Sweep.initial, Forest.initial]
  semi_eq := by omega
  size_bucket := by simp [Sweep.initial]
  nodup_bucket := by
    intro b row hrow
    have hnil := (Array.getElem?_eq_some_iff.1 hrow).2
    simp [← hnil, Sweep.initial]
  mem_bucket := by
    intro b row x hrow
    have hnil := (Array.getElem?_eq_some_iff.1 hrow).2
    simp only [← hnil, Sweep.initial, Array.getElem_replicate, List.not_mem_nil, false_iff]
    omega
  resolved := by
    intro x c hx hbranch hc
    have := ancestor_le hbranch.2
    omega
  blank := by
    intro x hx _
    simp [Blank, Sweep.initial, hx]

theorem mem_bucket_add {bucket : Array (List Nat)} (h : Swept T (k + 1) s)
    (hk : k + 1 < T.count) {old : List Nat} (hold : s.bucket[T.sdom (k + 1)]? = some old)
    (hat : bucket[T.sdom (k + 1)]? = some (old ++ [k + 1]))
    (hother : ∀ b, b ≠ T.sdom (k + 1) → bucket[b]? = s.bucket[b]?) (b : Nat) (row : List Nat)
    (hrow : bucket[b]? = some row) :
    row.Nodup ∧ ∀ x, x ∈ row ↔
      k < x ∧ x < T.count ∧ T.sdom x = b ∧ ∃ c, c ≤ k + 1 ∧ T.Branch c x := by
  by_cases hb : b = T.sdom (k + 1)
  · subst hb
    obtain rfl : old ++ [k + 1] = row := by simpa [hat] using hrow
    have hmem := fun x => h.mem_bucket _ old x hold
    refine ⟨?_, ?_⟩
    · have hnew : k + 1 ∉ old := fun hin => absurd ((hmem _).1 hin).1 (Nat.lt_irrefl _)
      exact List.nodup_append.2 ⟨h.nodup_bucket _ old hold, by simp, by
        rintro a ha b hb rfl
        exact hnew (List.mem_singleton.1 hb ▸ ha)⟩
    · intro x
      rw [List.mem_append, hmem, List.mem_singleton]
      constructor
      · rintro (⟨hkx, hx, hsdom, hc⟩ | rfl)
        · exact ⟨by omega, hx, hsdom, hc⟩
        · obtain ⟨c, hc⟩ := exists_branch (T := T) (x := k + 1) (by omega) hk
          exact ⟨by omega, hk, rfl, c, ancestor_le hc.2, hc⟩
      · rintro ⟨hkx, hx, hsdom, hc⟩
        by_cases heq : x = k + 1
        · exact .inr heq
        · exact .inl ⟨by omega, hx, hsdom, hc⟩
  · rw [hother b hb] at hrow
    refine ⟨h.nodup_bucket b row hrow, ?_⟩
    intro x
    rw [h.mem_bucket b row x hrow]
    constructor
    · rintro ⟨hkx, hx, hsdom, hc⟩
      exact ⟨by omega, hx, hsdom, hc⟩
    · rintro ⟨hkx, hx, hsdom, hc⟩
      have hne : x ≠ k + 1 := by
        rintro rfl
        exact hb hsdom.symm
      exact ⟨by omega, hx, hsdom, hc⟩

theorem mem_waiting_iff {waiting : List Nat} (hp : T.parent (k + 1) = some p)
    (hmem : ∀ x, x ∈ waiting ↔
      k < x ∧ x < T.count ∧ T.sdom x = p ∧ ∃ c, c ≤ k + 1 ∧ T.Branch c x) :
    x ∈ waiting ↔ x < T.count ∧ T.Branch (k + 1) x := by
  rw [hmem]
  constructor
  · rintro ⟨hkx, hx, rfl, c, hc, hbranch⟩
    exact ⟨hx, hbranch.eq_of_le hp hc hkx ▸ hbranch⟩
  · rintro ⟨hx, hbranch⟩
    have hsdom := hbranch.1
    rw [hp, Option.some.injEq] at hsdom
    exact ⟨ancestor_le hbranch.2, hx, hsdom.symm, k + 1, Nat.le_refl _, hbranch⟩

theorem swept_of_resolved (s₁ : Sweep) {s₂ : Sweep} {waiting : List Nat} {bucket : Array (List Nat)}
    (h : Swept T (k + 1) s) (hp : T.parent (k + 1) = some p)
    (hrep : s₂.forest.Represents (T.linksBeyond k)) (hsize : s₂.forest.semi.size = T.count)
    (hsemi : ∀ x, k < x → x < T.count → s₂.forest.semiOf x = T.sdom x)
    (hsizeB : s₁.bucket.size = T.count)
    (hfilled : ∀ (b : Nat) row, s₁.bucket[b]? = some row → row.Nodup ∧ ∀ x, x ∈ row ↔
      k < x ∧ x < T.count ∧ T.sdom x = b ∧ ∃ c, c ≤ k + 1 ∧ T.Branch c x)
    (hsame : ∀ x, Agree s s₁ x) (hwaiting : ∀ x, x ∈ waiting ↔ x < T.count ∧ T.Branch (k + 1) x)
    (hresolved : ∀ x ∈ waiting, Resolved T s₂ x) (hagree : ∀ x, x ∉ waiting → Agree s₁ s₂ x)
    (hsize' : bucket.size = s₁.bucket.size) (hat : bucket[p]? = some [])
    (hother : ∀ b, b ≠ p → bucket[b]? = s₁.bucket[b]?) :
    Swept T k { s₂ with bucket } where
  represents := hrep
  size_semi := hsize
  semi_eq := hsemi
  size_bucket := hsize'.trans hsizeB
  nodup_bucket := by
    intro b row hrow
    by_cases hb : b = p
    · obtain rfl : [] = row := by simpa [hb, hat] using hrow
      exact .nil
    · exact (hfilled b row (hother b hb ▸ hrow)).1
  mem_bucket := by
    intro b row x hrow
    by_cases hb : b = p
    · obtain rfl : [] = row := by simpa [hb, hat] using hrow
      simp only [List.not_mem_nil, false_iff]
      rintro ⟨hkx, hx, rfl, c, hc, hbranch⟩
      have := hbranch.eq_of_le (hb ▸ hp) (by omega) hkx
      omega
    · rw [(hfilled b row (hother b hb ▸ hrow)).2 x]
      constructor
      · rintro ⟨hkx, hx, hsdom, c, hc, hbranch⟩
        have hne : c ≠ k + 1 := by
          rintro rfl
          have heq := hbranch.1
          rw [hp, Option.some.injEq] at heq
          exact hb (hsdom.symm.trans heq.symm)
        exact ⟨hkx, hx, hsdom, c, by omega, hbranch⟩
      · rintro ⟨hkx, hx, hsdom, c, hc, hbranch⟩
        exact ⟨hkx, hx, hsdom, c, by omega, hbranch⟩
  resolved := by
    intro x c hx hbranch hc
    by_cases heq : c = k + 1
    · exact hresolved x ((hwaiting x).2 ⟨hx, heq ▸ hbranch⟩)
    · have hnot : x ∉ waiting := fun hin => heq (hbranch.unique ((hwaiting x).1 hin).2)
      exact ((h.resolved x c hx hbranch (by omega)).agree (hsame x)).agree (hagree x hnot)
  blank := by
    intro x hx hall
    have hnot : x ∉ waiting := fun hin => absurd (hall _ ((hwaiting x).1 hin).2) (by omega)
    have hblank := h.blank x hx fun c hc => (hall c hc).trans (Nat.le_succ k)
    exact (hblank.agree (hsame x)).agree (hagree x hnot)

theorem exists_step_ok {preds : List Nat} (h : Swept T (k + 1) s) (hk : k + 1 < T.count)
    (hparent : ∀ p, T.parent (k + 1) = some p → parentOf tree (k + 1) = .ok p)
    (hpreds : predecessors n tree (k + 1) = .ok preds)
    (hmem : ∀ v, v ∈ preds ↔ T.edge v (k + 1)) :
    ∃ s', step n tree s (k + 1) = .ok s' ∧ Swept T k s' := by
  obtain ⟨p, hp⟩ := T.exists_parent (k + 1) (by omega) hk
  have hpk : p < k + 1 := T.falling _ _ hp
  have hsdomk := sdom_lt (T := T) (by omega) hk
  obtain ⟨f₁, hrun₁, hrep₁, hsame₁⟩ := exists_semidominator_ok h.represents h.semi_eq hp hmem
  have hsize₁ : f₁.semi.size = T.count := hsame₁ ▸ h.size_semi
  have hroot : T.linksBeyond (k + 1) (k + 1) = none := linksBeyond_of_le (Nat.le_refl _)
  obtain ⟨f₂, hrun₂, hrep₂, hsize₂, hat₂, hother₂⟩ :=
    Forest.exists_setSemi_ok hrep₁ (hsize₁ ▸ hk) hroot (T.sdom (k + 1))
  obtain ⟨old, hold⟩ : ∃ old, s.bucket[T.sdom (k + 1)]? = some old :=
    ⟨_, Array.getElem?_eq_getElem (by rw [h.size_bucket]; omega)⟩
  obtain ⟨bucket, hrun₃, hsize₃, hat₃, hother₃⟩ :=
    Slots.exists_write_ok s.bucket (old ++ [k + 1]) (Array.getElem?_eq_some_iff.1 hold).1
  have hfilled := mem_bucket_add h hk hold hat₃ hother₃
  obtain ⟨f₃, hrun₄, hrep₃, hsame₃⟩ :=
    Forest.exists_link_ok hrep₂ (by rw [hsize₂, hsize₁]; exact hk) hroot hpk
  rw [linkUp_linksBeyond hp] at hrep₃
  have hsize₄ : f₃.semi.size = T.count := by rw [hsame₃, hsize₂, hsize₁]
  have hsemi : ∀ x, k < x → x < T.count → f₃.semiOf x = T.sdom x := by
    intro x hkx hx
    rw [Forest.semiOf_congr hsame₃]
    by_cases heq : x = k + 1
    · rw [heq, hat₂]
    · rw [hother₂ x heq, Forest.semiOf_congr hsame₁, h.semi_eq x (by omega) hx]
  obtain ⟨waiting, hwaiting⟩ : ∃ waiting, bucket[p]? = some waiting :=
    ⟨_, Array.getElem?_eq_getElem (by rw [hsize₃, h.size_bucket]; omega)⟩
  have hiff := fun x => mem_waiting_iff (x := x) hp (hfilled p waiting hwaiting).2
  obtain ⟨s₂, hrun₅, hrep₄, hsame₄, hbucket, hresolved, hagree⟩ := exists_resolveAll_ok
    (s := { s with forest := f₃, bucket }) (p := p) hrep₃ hsize₄ hsemi
    (hfilled p waiting hwaiting).1 (by
      intro x hx
      obtain ⟨hlt, hbranch⟩ := (hiff x).1 hx
      have hsdom := hbranch.1
      rw [hp, Option.some.injEq] at hsdom
      refine ⟨hlt, hsdom.symm, hbranch, h.blank x hlt ?_⟩
      intro c hc
      exact Nat.le_of_eq (hc.unique hbranch))
  obtain ⟨bucket', hrun₆, hsize₆, hat₆, hother₆⟩ := Slots.exists_write_ok s₂.bucket []
    (by rw [hbucket]; exact (Array.getElem?_eq_some_iff.1 hwaiting).1)
  rw [hbucket] at hsize₆ hother₆
  refine ⟨{ s₂ with bucket := bucket' }, ?_, swept_of_resolved
    { s with forest := f₃, bucket } h hp hrep₄ ?_ ?_ (hsize₃.trans h.size_bucket) hfilled
    (fun _ => ⟨rfl, rfl⟩) hiff hresolved hagree hsize₆ hat₆ hother₆⟩
  · simp only [step, hparent p hp, hpreds, hrun₁, hrun₂, Slots.read_eq_ok hold, hrun₃,
      hrun₄, Slots.read_eq_ok hwaiting, hrun₅, hrun₆, ok_bind, pure_eq_ok]
  · rw [hsame₄]
    exact hsize₄
  · rw [Forest.semiOf_congr hsame₄]
    exact hsemi

theorem exists_sweep_ok (hreads : Reads n tree T) (h : Swept T k s) (hk : k < T.count) :
    ∃ s', sweep n tree k s = .ok s' ∧ Swept T 0 s' := by
  induction k generalizing s with
  | zero => exact ⟨s, rfl, h⟩
  | succ k ih =>
      obtain ⟨preds, hpreds, hmem⟩ := hreads.exists_predecessors (k + 1) (by omega) hk
      obtain ⟨s₁, hstep, h₁⟩ := exists_step_ok h hk (hreads.parentOf_eq (k + 1)) hpreds hmem
      obtain ⟨s', hrun, h'⟩ := ih h₁ (by omega)
      exact ⟨s', by simp [sweep, hstep, hrun], h'⟩

/-! ## The last round -/

theorem exists_takeOver_ok (h : Resolved T s w)
    (hbefore : ∀ x, 0 < x → x < w →
      ∃ d, s.idom[x]? = some (some d) ∧ ImmediateDominator T.edge 0 d x) :
    ∃ s' d, takeOver s w = .ok s' ∧ s'.idom[w]? = some (some d) ∧
      ImmediateDominator T.edge 0 d w ∧ ∀ x, x ≠ w → Agree s s' x := by
  rcases h with ⟨d, hidom, hsamedom, hd⟩ | ⟨y, hidom, hsamedom, hpos, hlt, hshare⟩
  · refine ⟨s, d, ?_, hidom, hd, fun _ _ => ⟨rfl, rfl⟩⟩
    simp [takeOver, Slots.read_eq_ok hsamedom]
  · obtain ⟨d, hy, hd⟩ := hbefore y hpos hlt
    obtain ⟨idom, hwrite, -, hat, hother⟩ :=
      Slots.exists_write_ok s.idom (some d) (Array.getElem?_eq_some_iff.1 hidom).1
    refine ⟨{ s with idom }, d, ?_, hat, hshare d hd, fun x hx => ⟨hother x hx, rfl⟩⟩
    simp [takeOver, Slots.read_eq_ok hsamedom, Slots.read_eq_ok hy, hwrite]

theorem exists_compute_ok (hreads : Reads n tree T) (hpos : 0 < T.count) :
    ∃ s, compute n tree = .ok s ∧ ∀ x, 0 < x → x < T.count →
      ∃ d, s.idom[x]? = some (some d) ∧ ImmediateDominator T.edge 0 d x := by
  obtain ⟨s₁, hsweep, hswept⟩ := exists_sweep_ok hreads (swept_initial T) (by omega)
  have hstart : ∀ x, 1 ≤ x → x < T.count → Resolved T s₁ x := by
    intro x hx hlt
    obtain ⟨c, hc⟩ := exists_branch (T := T) hx hlt
    exact hswept.resolved x c hlt hc hc.pos
  obtain ⟨s, hrun, hdone, -⟩ := exists_foldlM_range'_ok
    (fun w (s : Sweep) => (∀ x, 0 < x → x < w →
        ∃ d, s.idom[x]? = some (some d) ∧ ImmediateDominator T.edge 0 d x) ∧
      ∀ x, w ≤ x → x < T.count → Resolved T s x)
    1 (T.count - 1) (f := takeOver) (b := s₁) ⟨by omega, hstart⟩ (by
      rintro w s hw hlt ⟨hbefore, hrest⟩
      obtain ⟨s', d, hrun, hat, hd, hagree⟩ :=
        exists_takeOver_ok (hrest w (Nat.le_refl w) (by omega)) hbefore
      refine ⟨s', hrun, ?_, ?_⟩
      · intro x hpos hx
        by_cases hxw : x = w
        · exact ⟨d, hxw ▸ hat, hxw ▸ hd⟩
        · obtain ⟨e, he, hidom⟩ := hbefore x hpos (by omega)
          exact ⟨e, (hagree x hxw).1.trans he, hidom⟩
      · intro x hx hlt
        exact (hrest x (by omega) hlt).agree (hagree x (by omega)))
  refine ⟨s, ?_, fun x hx hlt => hdone x hx (by omega)⟩
  simp [compute, hreads.count_eq, hsweep, hrun]

/-! ## Result -/

theorem parentOf_eq_ok (h : tree.upward w = some p) : parentOf tree w = .ok p := by
  obtain ⟨v, q, hv, hq, hnum⟩ := SpanningTree.upward_eq_some_iff.1 h
  simp [parentOf, Slots.read_eq_ok hv, Slots.readFilled_eq_ok hq, Slots.readFilled_eq_ok hnum]

theorem exists_predecessors_ok {root v : Nat} {row : List Nat} (h : tree.Searching n root [])
    (hv : tree.preorder[w]? = some v) (hrow : n.Sources v row) :
    ∃ preds, predecessors n tree w = .ok preds ∧ ∀ i, i ∈ preds ↔ h.order.edge i w := by
  obtain ⟨hread, hmem⟩ := hrow
  have hlt : ∀ u ∈ row, u < tree.dfnum.size := fun u hu => h.size_dfnum ▸ ((hmem u).1 hu).1
  refine ⟨(row.map fun u => tree.dfnum[u]?.join).filterMap id, ?_, ?_⟩
  · simp only [predecessors, Slots.read_eq_ok hv, hread, ok_bind, Slots.mapM_read_ok hlt,
      pure_eq_ok]
  · intro i
    rw [Slots.mem_filled_iff]
    constructor
    · rintro ⟨u, hu, hnum⟩
      exact ⟨u, _, (h.numbered i u).2 hnum, hv, ((hmem u).1 hu).2⟩
    · rintro ⟨u, x, hu, hx, hux⟩
      obtain rfl : v = x := by simpa [hv] using hx
      have hnum := (h.numbered i u).1 hu
      exact ⟨u, (hmem u).2 ⟨h.lt_count ⟨i, hnum⟩, hux⟩, hnum⟩

theorem reads_of_searching {root : Nat} (h : tree.Searching n root [])
    (hsources : ∀ v, v ≠ root → Reaches n.Edge root v → ∃ row, n.Sources v row) :
    Reads n tree h.order where
  count_eq := rfl
  parentOf_eq := fun _ _ => parentOf_eq_ok
  exists_predecessors := by
    intro w hpos hw
    have hv := Array.getElem?_eq_getElem hw
    have hne : tree.preorder[w] ≠ root := fun heq =>
      Nat.ne_of_gt hpos (h.listing_preorder.injective w 0 _ (heq ▸ hv) h.first)
    obtain ⟨row, hrow⟩ := hsources _ hne ((h.listing_preorder.listed_iff _).1 ⟨w, hv⟩)
    exact exists_predecessors_ok h hv hrow

theorem exists_idoms_ok {root : Nat} (h : tree.Searching n root [])
    (hsources : ∀ v, v ≠ root → Reaches n.Edge root v → ∃ row, n.Sources v row) :
    ∃ idom, idoms n tree = .ok idom ∧ IdomArray n.Edge root n.count idom := by
  obtain ⟨s, hrun, hdone⟩ := exists_compute_ok (reads_of_searching h hsources) h.size_pos
  obtain ⟨idom, hnamed, hidom⟩ := h.listing_preorder.exists_idomArray
    (f := fun idom w => do
      let d ← Slots.readFilled s.idom w
      Slots.write idom (← Slots.read tree.preorder w) (some (← Slots.read tree.preorder d)))
    (fun i v hv => h.lt_count ⟨i, (h.numbered i v).1 hv⟩) (by
      intro w v hpos hv
      have hw := (Array.getElem?_eq_some_iff.1 hv).1
      obtain ⟨d, hd, himm⟩ := hdone w hpos hw
      have hdw : d ≤ w := ancestor_le (T := h.order) (ancestor_of_dominates himm.dominates hw)
      have hu := Array.getElem?_eq_getElem (by omega : d < tree.preorder.size)
      refine ⟨d, _, hu, himm, fun idom => ?_⟩
      simp [Slots.readFilled_eq_ok hd, Slots.read_eq_ok hv, Slots.read_eq_ok hu])
  exact ⟨idom, by simp [idoms, hrun, named, hnamed], hidom⟩

end Dominator.LengauerTarjan

end FlowDominance
