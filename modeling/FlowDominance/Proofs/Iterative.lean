import FlowDominance.Dominator.Iterative
import FlowDominance.Proofs.Dominance
import FlowDominance.Proofs.Meet
import FlowDominance.Proofs.SpanningTree

/-!
# Dominators by iteration

Vertices go by their number in reverse postorder, so every vertex but the first has an edge from a
smaller one.  What makes passes in place safe is local to every candidate: a path leads from it to its
vertex without going below it.  A dominator that a chain loses when one of its members moves would be
avoided by such a path.
-/

namespace FlowDominance.Dominator.Iterative

variable {E : Nat → Nat → Prop} {count i j k d s x y a b c : Nat} {doms doms' other : Candidates}
variable {preds : Array (List Nat)} {row : List Nat}

/-! ## Chains -/

def chain (doms : Candidates) (i : Nat) : Option Nat := if i = 0 then none else doms[i]?.join

def HasCandidate (doms : Candidates) (i : Nat) : Prop := ∃ d, doms[i]? = some (some d)

theorem chain_eq_some_iff : chain doms i = some d ↔ i ≠ 0 ∧ doms[i]? = some (some d) := by
  unfold chain
  by_cases hi : i = 0 <;> simp [hi, Option.join_eq_some_iff]

theorem ancestor_first (h : Ancestor (chain doms) x 0) : x = 0 := by
  cases h with
  | refl => rfl
  | child _ hup => simp [chain] at hup

theorem up_eq_ok_iff : up doms i = .ok d ↔ doms[i]? = some (some d) := by
  unfold up
  rw [bind_eq_ok_iff]
  constructor
  · rintro ⟨o, hread, hup⟩
    cases o with
    | none => simp at hup
    | some e =>
        simp only [Except.ok.injEq] at hup
        exact hup ▸ Slots.read_eq_ok_iff.1 hread
  · intro h
    exact ⟨some d, Slots.read_eq_ok h, rfl⟩

theorem up_eq_ok (hfirst : doms[0]? = some (some 0)) (h : up doms i = .ok d) :
    d = i ∨ chain doms i = some d := by
  rw [up_eq_ok_iff] at h
  by_cases hi : i = 0
  · subst hi
    simp_all
  · exact .inr (chain_eq_some_iff.2 ⟨hi, h⟩)

theorem ancestor_of_refineAll (hfirst : doms[0]? = some (some 0))
    (h : row.foldlM (refine doms) s = .ok c) :
    Ancestor (chain doms) c s ∧ ∀ p ∈ row, HasCandidate doms p → Ancestor (chain doms) c p := by
  induction row generalizing s with
  | nil =>
      simp only [List.foldlM_nil, pure_eq_ok, Except.ok.injEq] at h
      subst h
      exact ⟨.refl, by simp⟩
  | cons p row ih =>
      rw [List.foldlM_cons, bind_eq_ok_iff] at h
      obtain ⟨t, ht, hrest⟩ := h
      obtain ⟨hct, hcrow⟩ := ih hrest
      unfold refine at ht
      obtain ⟨o, hread, ht⟩ := bind_eq_ok_iff.1 ht
      rw [Slots.read_eq_ok_iff] at hread
      cases o with
      | none =>
          simp only [Except.ok.injEq] at ht
          subst ht
          refine ⟨hct, ?_⟩
          rintro q hq ⟨e, he⟩
          rcases List.mem_cons.1 hq with rfl | hq
          · simp [hread] at he
          · exact hcrow q hq ⟨e, he⟩
      | some e =>
          obtain ⟨hts, htp⟩ := ancestor_of_climb (fun _ _ hup => up_eq_ok hfirst hup) ht
          refine ⟨hct.trans hts, ?_⟩
          intro q hq hset
          rcases List.mem_cons.1 hq with rfl | hq
          · exact hct.trans htp
          · exact hcrow q hq hset

/-! ## Candidates -/

/-- What every candidate of `i` satisfies at any time. -/
structure Candidate (E : Nat → Nat → Prop) (i d : Nat) : Prop where
  lt : d < i
  path : Through E (d ≤ ·) d i
  le : ∀ x, x ≠ i → Dominates E 0 x i → x ≤ d

theorem Candidate.dominates (h : Candidate E i d) (hx : x ≠ i) (hdom : Dominates E 0 x i) :
    Dominates E 0 x d := by
  rcases Nat.lt_or_eq_of_le (h.le x hx hdom) with hlt | rfl
  · intro hpath
    exact hdom (hpath.trans (h.path.mono fun y hy => by omega))
  · exact dominates_self

structure Refining (E : Nat → Nat → Prop) (count : Nat) (doms : Candidates) : Prop where
  size : doms.size = count
  first : doms[0]? = some (some 0)
  candidate : ∀ i d, i ≠ 0 → doms[i]? = some (some d) → Candidate E i d
  filled : ∀ i j, i ≤ j → HasCandidate doms j → HasCandidate doms i

namespace Refining

theorem falling (h : Refining E count doms) : Falling (chain doms) := by
  intro i d hchain
  rw [chain_eq_some_iff] at hchain
  exact (h.candidate i d hchain.1 hchain.2).lt

theorem first_ancestor (h : Refining E count doms) (hi : HasCandidate doms i) :
    Ancestor (chain doms) 0 i := by
  induction i using Nat.strong_induction_on with
  | _ i ih =>
      by_cases hzero : i = 0
      · exact hzero ▸ .refl
      · obtain ⟨d, hd⟩ := hi
        have hlt := (h.candidate i d hzero hd).lt
        have hset := h.filled d i (Nat.le_of_lt hlt) ⟨d, hd⟩
        exact (ih d hlt hset).child (chain_eq_some_iff.2 ⟨hzero, hd⟩)

theorem ancestor_of_dominates (h : Refining E count doms) (hi : HasCandidate doms i)
    (hdom : Dominates E 0 x i) : Ancestor (chain doms) x i := by
  induction i using Nat.strong_induction_on with
  | _ i ih =>
      by_cases hx : x = i
      · exact hx ▸ .refl
      · have hzero : i ≠ 0 := by
          rintro rfl
          exact hdom (.refl (Ne.symm hx))
        obtain ⟨d, hd⟩ := hi
        have hcand := h.candidate i d hzero hd
        have hset := h.filled d i (Nat.le_of_lt hcand.lt) ⟨d, hd⟩
        exact (ih d hcand.lt hset (hcand.dominates hx hdom)).child
          (chain_eq_some_iff.2 ⟨hzero, hd⟩)

theorem path_of_ancestor (h : Refining E count doms) (hc : Ancestor (chain doms) c i) :
    Through E (c ≤ ·) c i := by
  induction hc with
  | refl => exact .refl (Nat.le_refl c)
  | @child b i hcb hup ih =>
      have hle := hcb.le h.falling
      rw [chain_eq_some_iff] at hup
      have hpath := (h.candidate i b hup.1 hup.2).path
      exact ih.trans (hpath.mono fun y hy => Nat.le_trans hle hy)

theorem candidate_of_edge (h : Refining E count doms) (hlt : i < k) (hi : HasCandidate doms i)
    (hedge : E i k) : Candidate E k i where
  lt := hlt
  path := (Through.refl (Nat.le_refl i)).step hedge (Nat.le_of_lt hlt)
  le := by
    intro x hx hdom
    exact (h.ancestor_of_dominates hi (hdom.of_edge (Ne.symm hx) hedge)).le h.falling

theorem exists_meet_ok (h : Refining E count doms) (ha : HasCandidate doms a)
    (hb : HasCandidate doms b) : ∃ m, meet doms a b = .ok m ∧
      ∀ x, Ancestor (chain doms) x a → Ancestor (chain doms) x b → Ancestor (chain doms) x m := by
  refine exists_climb_ok ?_ h.falling (Nat.le_refl _) (h.first_ancestor ha) (h.first_ancestor hb)
  intro y p hchain
  exact up_eq_ok_iff.2 (chain_eq_some_iff.1 hchain).2

theorem exists_refineAll_ok (h : Refining E count doms) (hrow : ∀ p ∈ row, p < count)
    (hs : HasCandidate doms s) : ∃ c, row.foldlM (refine doms) s = .ok c ∧
      ∀ x, Ancestor (chain doms) x s →
        (∀ p ∈ row, HasCandidate doms p → Ancestor (chain doms) x p) →
        Ancestor (chain doms) x c := by
  induction row generalizing s with
  | nil => exact ⟨s, rfl, fun x hx _ => hx⟩
  | cons p row ih =>
      have hlt : p < doms.size := h.size ▸ hrow p (by simp)
      have hread := Array.getElem?_eq_getElem hlt
      have hrest := fun q hq => hrow q (List.mem_cons_of_mem p hq)
      cases hp : doms[p] with
      | none =>
          rw [hp] at hread
          obtain ⟨c, hc, hbest⟩ := ih hrest hs
          refine ⟨c, ?_, ?_⟩
          · rw [List.foldlM_cons, refine, Slots.read_eq_ok hread]
            exact hc
          · intro x hxs hxrow
            exact hbest x hxs fun q hq => hxrow q (List.mem_cons_of_mem p hq)
      | some e =>
          rw [hp] at hread
          obtain ⟨m, hm, hmeet⟩ := h.exists_meet_ok hs ⟨e, hread⟩
          have hms := (ancestor_of_climb (fun _ _ hup => up_eq_ok h.first hup) hm).1
          obtain ⟨c, hc, hbest⟩ := ih hrest (h.filled m s (hms.le h.falling) hs)
          refine ⟨c, ?_, ?_⟩
          · rw [List.foldlM_cons, refine, Slots.read_eq_ok hread]
            simp only [ok_bind, hm]
            exact hc
          · intro x hxs hxrow
            refine hbest x (hmeet x hxs (hxrow p (by simp) ⟨e, hread⟩)) ?_
            exact fun q hq => hxrow q (List.mem_cons_of_mem p hq)

end Refining

/-! ## One vertex -/

/-- The rows hold the predecessors of every vertex but itself, and one of them comes earlier. -/
structure Rows (E : Nat → Nat → Prop) (count : Nat) (preds : Array (List Nat)) : Prop where
  size : preds.size = count
  edge_lt : ∀ i j, E i j → i < count ∧ j < count
  mem_iff : ∀ (i : Nat) row, preds[i]? = some row → ∀ p, p ∈ row ↔ p ≠ i ∧ E p i
  exists_before : ∀ i, 0 < i → i < count → ∃ j, j < i ∧ E j i

theorem exists_start_ok (hrows : Rows E count preds) (h : Refining E count doms) (hpos : 0 < k)
    (hk : k < count) (hrow : preds[k]? = some row) (hbefore : ∀ i, i < k → HasCandidate doms i) :
    ∃ s, start doms row k = .ok s ∧ Candidate E k s ∧ ∀ d, doms[k]? = some (some d) → s = d := by
  have hlt : k < doms.size := h.size ▸ hk
  have hread := Array.getElem?_eq_getElem hlt
  cases hd : doms[k] with
  | some d =>
      rw [hd] at hread
      refine ⟨d, ?_, h.candidate k d (by omega) hread, ?_⟩
      · simp [start, Slots.read_eq_ok hread]
      · intro d' hd'
        simpa [hread] using hd'
  | none =>
      rw [hd] at hread
      obtain ⟨j, hjk, hedge⟩ := hrows.exists_before k hpos hk
      have hj : j ∈ row := (hrows.mem_iff k row hrow j).2 ⟨by omega, hedge⟩
      cases hmin : row.min? with
      | none => simp_all
      | some p =>
          obtain ⟨hp, hleast⟩ := List.min?_eq_some_iff.1 hmin
          have hpk : p < k := Nat.lt_of_le_of_lt (hleast j hj) hjk
          have hpedge := ((hrows.mem_iff k row hrow p).1 hp).2
          refine ⟨p, ?_, h.candidate_of_edge hpk (hbefore p hpk) hpedge, ?_⟩
          · simp [start, Slots.read_eq_ok hread, hmin, hpk]
          · intro d hset
            simp [hread] at hset

theorem exists_candidate_ok (hrows : Rows E count preds) (h : Refining E count doms)
    (hrow : preds[k]? = some row) (hbefore : ∀ i, i < k → HasCandidate doms i)
    (hs : Candidate E k s) :
    ∃ c, row.foldlM (refine doms) s = .ok c ∧ c ≤ s ∧ Candidate E k c := by
  have hrange : ∀ p ∈ row, p < count := by
    intro p hp
    exact (hrows.edge_lt p k ((hrows.mem_iff k row hrow p).1 hp).2).1
  obtain ⟨c, hc, hbest⟩ := h.exists_refineAll_ok hrange (hbefore s hs.lt)
  have hcs := (ancestor_of_refineAll h.first hc).1
  have hle := hcs.le h.falling
  refine ⟨c, hc, hle, Nat.lt_of_le_of_lt hle hs.lt, ?_, ?_⟩
  · exact (h.path_of_ancestor hcs).trans (hs.path.mono fun y hy => Nat.le_trans hle hy)
  · intro x hx hdom
    have hxs := h.ancestor_of_dominates (hbefore s hs.lt) (hs.dominates hx hdom)
    refine (hbest x hxs ?_).le h.falling
    intro p hp hset
    have hedge := ((hrows.mem_iff k row hrow p).1 hp).2
    exact h.ancestor_of_dominates hset (hdom.of_edge (Ne.symm hx) hedge)

def Lowered (doms doms' : Candidates) : Prop :=
  ∀ i d : Nat, doms[i]? = some (some d) → ∃ c, c ≤ d ∧ doms'[i]? = some (some c)

theorem exists_relax_ok (hrows : Rows E count preds) (h : Refining E count doms) (hpos : 0 < k)
    (hk : k < count) (hbefore : ∀ i, i < k → HasCandidate doms i) :
    ∃ doms', relax preds doms k = .ok doms' ∧ Refining E count doms' ∧ HasCandidate doms' k ∧
      Lowered doms doms' := by
  have hrow := Array.getElem?_eq_getElem (hrows.size ▸ hk)
  obtain ⟨s, hstart, hs, hpresent⟩ := exists_start_ok hrows h hpos hk hrow hbefore
  obtain ⟨c, hrefine, hcs, hc⟩ := exists_candidate_ok hrows h hrow hbefore hs
  obtain ⟨doms', hwrite, hsize, hat, hother⟩ :=
    Slots.exists_write_ok doms (some c) (h.size ▸ hk)
  have hlowered : Lowered doms doms' := by
    intro i d hd
    by_cases hik : i = k
    · subst hik
      exact ⟨c, hpresent d hd ▸ hcs, hat⟩
    · exact ⟨d, Nat.le_refl d, (hother i hik).trans hd⟩
  have hkept : ∀ i, HasCandidate doms i → HasCandidate doms' i := by
    rintro i ⟨d, hd⟩
    obtain ⟨c', -, hc'⟩ := hlowered i d hd
    exact ⟨c', hc'⟩
  refine ⟨doms', ?_, ⟨hsize.trans h.size, (hother 0 (by omega)).trans h.first, ?_, ?_⟩, ⟨c, hat⟩,
    hlowered⟩
  · simp [relax, Slots.read_eq_ok hrow, hstart, hrefine, hwrite]
  · intro i d hi hd
    by_cases hik : i = k
    · subst hik
      rw [hat, Option.some.injEq, Option.some.injEq] at hd
      exact hd ▸ hc
    · exact h.candidate i d hi ((hother i hik).symm.trans hd)
  · rintro i j hij ⟨d, hd⟩
    by_cases hjk : j = k
    · subst hjk
      rcases Nat.lt_or_eq_of_le hij with hlt | rfl
      · exact hkept i (hbefore i hlt)
      · exact ⟨c, hat⟩
    · exact hkept i (h.filled i j hij ⟨d, (hother j hjk).symm.trans hd⟩)

/-! ## Passes -/

theorem exists_pass_ok (hrows : Rows E count preds) (h : Refining E count doms) :
    ∃ doms', pass preds doms = .ok doms' ∧ Refining E count doms' ∧ Lowered doms doms' := by
  have hpos : 0 < count := h.size ▸ (Array.getElem?_eq_some_iff.1 h.first).1
  obtain ⟨doms', hrun, hrefining, -, hlowered⟩ := exists_foldlM_range'_ok
    (fun k (now : Candidates) => Refining E count now ∧ (∀ i, i < k → HasCandidate now i) ∧
      Lowered doms now)
    1 (doms.size - 1) (f := relax preds) (b := doms) (by
      refine ⟨h, ?_, fun i d hd => ⟨d, Nat.le_refl d, hd⟩⟩
      intro i hi
      obtain rfl : i = 0 := by omega
      exact ⟨0, h.first⟩) (by
      rintro k now hk hlt ⟨hnow, hbefore, hlow⟩
      have hsize := h.size
      obtain ⟨next, hrelax, hnext, hset, hlow'⟩ :=
        exists_relax_ok hrows hnow hk (by omega) hbefore
      refine ⟨next, hrelax, hnext, ?_, ?_⟩
      · intro i hi
        exact hnext.filled i k (by omega) hset
      · intro i d hd
        obtain ⟨c, hcd, hc⟩ := hlow i d hd
        obtain ⟨c', hcc, hc'⟩ := hlow' i c hc
        exact ⟨c', Nat.le_trans hcc hcd, hc'⟩)
  exact ⟨doms', hrun, hrefining, hlowered⟩

theorem weight_eq (doms : Candidates) : weight doms =
    ((List.range doms.size).map fun i => doms[i]?.join.getD doms.size).sum := by
  have hsum : weight doms = (doms.toList.map fun d => d.getD doms.size).sum := by
    rw [weight, List.sum_eq_foldr, List.foldr_map]
  rw [hsum]
  congr 1
  refine List.ext_getElem (by simp) ?_
  intro i hi _
  have hlt : i < doms.size := by simpa using hi
  simp [hlt]

theorem weight_lt (hsize : doms'.size = doms.size) (hlow : Lowered doms doms')
    (hbound : ∀ i d : Nat, doms'[i]? = some (some d) → d < doms'.size) (hne : doms' ≠ doms) :
    weight doms' < weight doms := by
  have hvalue : ∀ i, i < doms.size → doms'[i]? ≠ doms[i]? →
      doms'[i]?.join.getD doms'.size < doms[i]?.join.getD doms.size := by
    intro i hi hdiff
    have hread := Array.getElem?_eq_getElem hi
    have hread' := Array.getElem?_eq_getElem (hsize.symm ▸ hi)
    cases hd : doms[i] with
    | none =>
        rw [hd] at hread
        cases hd' : doms'[i] with
        | none => simp_all
        | some c =>
            rw [hd'] at hread'
            have := hbound i c hread'
            simp [hread, hread']
            omega
    | some d =>
        rw [hd] at hread
        obtain ⟨c, hcd, hc⟩ := hlow i d hread
        have hcne : c ≠ d := by
          rintro rfl
          exact hdiff (hc.trans hread.symm)
        simp [hread, hc]
        omega
  rw [weight_eq, weight_eq, hsize]
  refine List.sum_lt_sum _ _ ?_ ?_
  · intro i hi
    by_cases heq : doms'[i]? = doms[i]?
    · rw [heq]
    · exact Nat.le_of_lt (hsize ▸ hvalue i (by simpa using hi) heq)
  · by_contra hall
    push Not at hall
    refine hne (Array.ext_getElem? ?_)
    intro i
    by_cases hi : i < doms.size
    · by_contra hdiff
      have hge := hall i (by simpa using hi)
      have hlt := hvalue i hi hdiff
      rw [hsize] at hlt
      omega
    · rw [Array.getElem?_eq_none (by omega), Array.getElem?_eq_none (by omega)]

theorem Refining.lt_size (h : Refining E count doms) (hd : doms[i]? = some (some d)) :
    d < doms.size := by
  have hi := (Array.getElem?_eq_some_iff.1 hd).1
  by_cases hzero : i = 0
  · subst hzero
    rw [h.first, Option.some.injEq, Option.some.injEq] at hd
    omega
  · have := (h.candidate i d hzero hd).lt
    omega

theorem exists_settle_ok (hrows : Rows E count preds) (h : Refining E count doms) :
    ∃ doms', settle preds doms = .ok doms' ∧ Refining E count doms' ∧
      pass preds doms' = .ok doms' := by
  fun_induction settle preds doms with
  | case1 doms fault hpass =>
      obtain ⟨next, hok, -⟩ := exists_pass_ok hrows h
      simp [hpass] at hok
  | case2 doms hpass => exact ⟨doms, rfl, h, hpass⟩
  | case3 doms next hpass hne hlt ih =>
      obtain ⟨next', hok, hnext, -⟩ := exists_pass_ok hrows h
      obtain rfl : next = next' := by simpa [hpass] using hok
      exact ih hnext
  | case4 doms next hpass hne hge =>
      obtain ⟨next', hok, hnext, hlow⟩ := exists_pass_ok hrows h
      obtain rfl : next = next' := by simpa [hpass] using hok
      have hsize := hnext.size.trans h.size.symm
      exact absurd (weight_lt hsize hlow (fun i d hd => hnext.lt_size hd) hne) hge

/-! ## Fixed points -/

theorem relax_other (h : relax preds doms k = .ok doms') (hik : i ≠ k) : doms'[i]? = doms[i]? := by
  unfold relax at h
  obtain ⟨row, -, h⟩ := bind_eq_ok_iff.1 h
  obtain ⟨s, -, h⟩ := bind_eq_ok_iff.1 h
  obtain ⟨c, -, h⟩ := bind_eq_ok_iff.1 h
  by_cases hk : k < doms.size
  · obtain ⟨next, hwrite, -, -, hother⟩ := Slots.exists_write_ok doms (some c) hk
    obtain rfl : next = doms' := by simpa [hwrite] using h
    exact hother i hik
  · simp [Slots.write, hk] at h

theorem relaxAll_before {n : Nat} (h : (List.range' a n).foldlM (relax preds) doms = .ok doms')
    (hi : i < a) : doms'[i]? = doms[i]? := by
  induction n generalizing a doms with
  | zero =>
      simp only [List.range'_zero, List.foldlM_nil, pure_eq_ok, Except.ok.injEq] at h
      rw [h]
  | succ n ih =>
      rw [List.range'_succ, List.foldlM_cons, bind_eq_ok_iff] at h
      obtain ⟨next, hrelax, hrest⟩ := h
      rw [ih hrest (by omega), relax_other hrelax (by omega)]

/-- A slot is written once in a pass, so a pass that changes nothing has changed nothing on its way. -/
theorem relax_of_relaxAll {n : Nat} (h : (List.range' a n).foldlM (relax preds) doms = .ok doms)
    (hak : a ≤ k) (hk : k < a + n) : relax preds doms k = .ok doms := by
  induction n generalizing a with
  | zero => omega
  | succ n ih =>
      rw [List.range'_succ, List.foldlM_cons, bind_eq_ok_iff] at h
      obtain ⟨next, hrelax, hrest⟩ := h
      have hsame : next = doms := by
        refine Array.ext_getElem? ?_
        intro i
        by_cases hia : i = a
        · exact (relaxAll_before hrest (by omega)).symm
        · exact relax_other hrelax hia
      subst hsame
      rcases Nat.eq_or_lt_of_le hak with rfl | hlt
      · exact hrelax
      · exact ih hrest hlt (by omega)

theorem exists_refineAll_of_relax (h : relax preds doms k = .ok doms) : ∃ row s c,
    preds[k]? = some row ∧ row.foldlM (refine doms) s = .ok c ∧ doms[k]? = some (some c) := by
  unfold relax at h
  obtain ⟨row, hrow, h⟩ := bind_eq_ok_iff.1 h
  obtain ⟨s, -, h⟩ := bind_eq_ok_iff.1 h
  obtain ⟨c, hc, h⟩ := bind_eq_ok_iff.1 h
  by_cases hk : k < doms.size
  · obtain ⟨next, hwrite, -, hat, -⟩ := Slots.exists_write_ok doms (some c) hk
    obtain rfl : next = doms := by simpa [hwrite] using h
    exact ⟨row, s, c, Slots.read_eq_ok_iff.1 hrow, hc, hat⟩
  · simp [Slots.write, hk] at h

theorem relax_of_pass (hfixed : pass preds doms = .ok doms) (hk : k ≠ 0) (hlt : k < doms.size) :
    relax preds doms k = .ok doms :=
  relax_of_relaxAll hfixed (by omega) (by omega)

theorem hasCandidate_of_fixed (hfirst : doms[0]? = some (some 0))
    (hfixed : pass preds doms = .ok doms) (hlt : k < doms.size) : HasCandidate doms k := by
  by_cases hk : k = 0
  · exact ⟨0, hk ▸ hfirst⟩
  · obtain ⟨row, s, c, -, -, hc⟩ := exists_refineAll_of_relax (relax_of_pass hfixed hk hlt)
    exact ⟨c, hc⟩

theorem dominates_of_ancestor (hrows : Rows E count preds) (hsize : doms.size = count)
    (hfirst : doms[0]? = some (some 0)) (hfixed : pass preds doms = .ok doms)
    (h : Ancestor (chain doms) x i) : Dominates E 0 x i := by
  -- a path that avoids `x` never comes to a vertex with `x` on its chain
  intro hpath
  induction hpath with
  | refl hne => exact hne (ancestor_first h).symm
  | @step b i _ hedge hne ih =>
      have hlt := hrows.edge_lt b i hedge
      have hi : i ≠ 0 := by
        rintro rfl
        exact hne (ancestor_first h).symm
      by_cases hbi : b = i
      · exact ih (hbi ▸ h)
      · obtain ⟨row, s, c, hrow, hc, hat⟩ :=
          exists_refineAll_of_relax (relax_of_pass hfixed hi (by omega))
        have hb : b ∈ row := (hrows.mem_iff i row hrow b).2 ⟨hbi, hedge⟩
        have hcb := (ancestor_of_refineAll hfirst hc).2 b hb
          (hasCandidate_of_fixed hfirst hfixed (by omega))
        have hxc := h.above (Ne.symm hne) (chain_eq_some_iff.2 ⟨hi, hat⟩)
        exact ih (hxc.trans hcb)

theorem Refining.immediateDominator (hrows : Rows E count preds) (h : Refining E count doms)
    (hfixed : pass preds doms = .ok doms) (hi : i ≠ 0) (hd : doms[i]? = some (some d)) :
    ImmediateDominator E 0 d i where
  ne := Nat.ne_of_lt (h.candidate i d hi hd).lt
  dominates := dominates_of_ancestor hrows h.size h.first hfixed
    (Ancestor.refl.child (chain_eq_some_iff.2 ⟨hi, hd⟩))
  closest := fun _ hx hdom => (h.candidate i d hi hd).dominates hx hdom

/-- A fixed point of the passes whose chains hold the chains of every other. -/
structure GreatestFixed (preds : Array (List Nat)) (doms : Candidates) : Prop where
  first : doms[0]? = some (some 0)
  fixed : pass preds doms = .ok doms
  greatest : ∀ other : Candidates, other.size = doms.size → other[0]? = some (some 0) →
    pass preds other = .ok other →
    ∀ x i, Ancestor (chain other) x i → Ancestor (chain doms) x i

theorem Refining.greatestFixed (hrows : Rows E count preds) (h : Refining E count doms)
    (hfixed : pass preds doms = .ok doms) : GreatestFixed preds doms where
  first := h.first
  fixed := hfixed
  greatest := by
    intro other hsize hfirst hother x i hx
    cases hx with
    | refl => exact .refl
    | @child b _ hxb hup =>
        have hi := (Array.getElem?_eq_some_iff.1 (chain_eq_some_iff.1 hup).2).1
        have hset := hasCandidate_of_fixed h.first hfixed (hsize ▸ hi)
        exact h.ancestor_of_dominates hset (dominates_of_ancestor hrows (hsize.trans h.size) hfirst
          hother (hxb.child hup))

theorem refining_initial (E : Nat → Nat → Prop) (hcount : 0 < count) :
    Refining E count (initial count) := by
  have hread : ∀ i d : Nat, (initial count)[i]? = some (some d) ↔ i = 0 ∧ d = 0 := by
    intro i d
    by_cases hi : i = 0
    · subst hi
      simp [initial, hcount, eq_comm]
    · simp [initial, Ne.symm hi, hi, Array.getElem?_replicate]
  refine ⟨by simp [initial], (hread 0 0).2 ⟨rfl, rfl⟩, ?_, ?_⟩
  · intro i d hi hd
    exact absurd ((hread i d).1 hd).1 hi
  · rintro i j hij ⟨d, hd⟩
    obtain ⟨rfl, rfl⟩ := (hread j d).1 hd
    obtain rfl : i = 0 := by omega
    exact ⟨0, hd⟩

/-! ## Rows from numbers -/

variable {n : Numbered} {tree : SpanningTree} {root p u v : Nat} {order : Array Nat}

theorem idxOf?_eq_some_iff (h : Listing n.Edge root order) :
    order.idxOf? u = some p ↔ order[p]? = some u := by
  have hsound : ∀ q, order.idxOf? u = some q → order[q]? = some u := by
    intro q hq
    rw [Array.idxOf?_eq_map_finIdxOf?_val, Option.map_eq_some_iff] at hq
    obtain ⟨f, hf, rfl⟩ := hq
    have hat := (Array.finIdxOf?_eq_some_iff.1 hf).1
    rw [Array.getElem?_eq_getElem f.isLt]
    exact congrArg some hat
  constructor
  · exact hsound p
  · intro hp
    have hmem : u ∈ order := Array.mem_of_getElem? hp
    obtain ⟨q, hq⟩ := Option.isSome_iff_exists.1 (Array.isSome_idxOf?.2 hmem)
    rw [hq, h.injective q p u (hsound q hq) hp]

theorem exists_predecessorRanks_ok (h : Listing n.Edge root order)
    (hcount : ∀ i v : Nat, order[i]? = some v → v < n.count) (hv : order[i]? = some v)
    (hsources : ∃ row, n.Sources v row) :
    ∃ row, predecessorRanks n (ranks n.count order) i v = .ok row ∧
      ∀ p, p ∈ row ↔ p ≠ i ∧ edgeAt n.Edge order p i := by
  obtain ⟨sources, hrow, hmem⟩ := hsources
  have hread : ∀ link ∈ sources.map (Except.ok : Nat → Link),
      (do Slots.read (ranks n.count order) (← link)) =
        .ok (link.toOption.bind order.idxOf?) := by
    intro link hlink
    obtain ⟨u, hu, rfl⟩ := List.mem_map.1 hlink
    have hlt := ((hmem u).1 hu).1
    rw [ok_bind, Slots.read_eq_ok_iff]
    simp [ranks, hlt, Except.toOption]
  refine ⟨(((sources.map (Except.ok : Nat → Link)).map
    fun link => link.toOption.bind order.idxOf?).filterMap id).filter (· ≠ i), ?_, ?_⟩
  · simp only [predecessorRanks, hrow, ok_bind, mapM_eq_ok hread, pure_eq_ok]
  · intro p
    have hrank : ∀ u, order.idxOf? u = some p ↔ order[p]? = some u :=
      fun u => idxOf?_eq_some_iff h
    simp only [List.mem_filter, List.mem_filterMap, List.map_map, List.mem_map,
      Function.comp_apply, Except.toOption, Option.bind_some, id_eq, exists_eq_right, hrank, hmem,
      decide_eq_true_eq]
    constructor
    · rintro ⟨⟨u, ⟨-, hedge⟩, hu⟩, hne⟩
      exact ⟨hne, u, v, hu, hv, hedge⟩
    · rintro ⟨hne, u, v', hu, hv', hedge⟩
      obtain rfl : v = v' := by simpa [hv] using hv'
      exact ⟨⟨u, ⟨hcount p u hu, hedge⟩, hu⟩, hne⟩

theorem exists_predecessorRows_ok (h : tree.Searching n root [])
    (hsources : ∀ v, Reaches n.Edge root v → ∃ row, n.Sources v row) :
    ∃ preds, predecessorRows n tree.reversePostorder = .ok preds ∧
      Rows (edgeAt n.Edge tree.reversePostorder) tree.reversePostorder.size preds := by
  have hlisting := h.listing_reversePostorder
  obtain ⟨rows, hrows, hall⟩ := exists_mapM_ok
    tree.reversePostorder.toList.zipIdx
    (f := fun e => predecessorRanks n (ranks n.count tree.reversePostorder) e.2 e.1)
    (fun e row => ∀ p, p ∈ row ↔ p ≠ e.2 ∧ edgeAt n.Edge tree.reversePostorder p e.2) (by
      rintro ⟨v, i⟩ he
      have hv : tree.reversePostorder[i]? = some v := by
        simpa using List.mem_zipIdx_iff_getElem?.1 he
      exact exists_predecessorRanks_ok hlisting (fun _ _ hu => h.lt_count_of_listed hu) hv
        (hsources v ((hlisting.listed_iff v).1 ⟨i, hv⟩)))
  obtain ⟨hlength, hget⟩ := List.forall₂_iff_get.1 hall
  refine ⟨rows.toArray, ?_, ?_, ?_, ?_, ?_⟩
  · simp only [predecessorRows]
    rw [hrows]
    rfl
  · simpa using hlength.symm
  · rintro i j ⟨u, v, hu, hv, -⟩
    exact ⟨(Array.getElem?_eq_some_iff.1 hu).1, (Array.getElem?_eq_some_iff.1 hv).1⟩
  · intro i row hrow
    obtain ⟨hi, rfl⟩ := List.getElem?_eq_some_iff.1 (by simpa using hrow)
    simpa using hget i (by omega) hi
  · intro i hpos hi
    have hv := Array.getElem?_eq_getElem hi
    refine h.exists_edge_before hv ?_
    intro heq
    have := hlisting.injective i 0 root (heq ▸ hv) hlisting.first
    omega

theorem exists_settled (h : tree.Searching n root [])
    (hsources : ∀ v, Reaches n.Edge root v → ∃ row, n.Sources v row) :
    ∃ preds doms, predecessorRows n tree.reversePostorder = .ok preds ∧
      settle preds (initial tree.reversePostorder.size) = .ok doms ∧
      doms.size = tree.reversePostorder.size ∧ GreatestFixed preds doms ∧
      ∀ i d : Nat, i ≠ 0 → doms[i]? = some (some d) →
        d < i ∧ ImmediateDominator (edgeAt n.Edge tree.reversePostorder) 0 d i := by
  obtain ⟨preds, hpreds, hrows⟩ := exists_predecessorRows_ok h hsources
  have hpos := (Array.getElem?_eq_some_iff.1 h.listing_reversePostorder.first).1
  obtain ⟨doms, hsettle, hrefining, hfixed⟩ :=
    exists_settle_ok hrows (refining_initial _ hpos)
  refine ⟨preds, doms, hpreds, hsettle, hrefining.size, hrefining.greatestFixed hrows hfixed, ?_⟩
  intro i d hi hd
  exact ⟨(hrefining.candidate i d hi hd).lt, hrefining.immediateDominator hrows hfixed hi hd⟩

theorem exists_idoms_ok (h : tree.Searching n root [])
    (hsources : ∀ v, Reaches n.Edge root v → ∃ row, n.Sources v row) :
    ∃ idom, idoms n tree = .ok idom ∧ IdomArray n.Edge root n.count idom := by
  obtain ⟨preds, doms, hpreds, hsettle, hsize, hfixed, himm⟩ := exists_settled h hsources
  obtain ⟨idom, hnamed, hidom⟩ := h.listing_reversePostorder.exists_idomArray
    (fun _ _ hv => h.lt_count_of_listed hv)
    (f := fun idom i => do
      Slots.write idom (← Slots.read tree.reversePostorder i)
        (some (← Slots.read tree.reversePostorder (← up doms i)))) (by
      intro w v hw hv
      have hlt := (Array.getElem?_eq_some_iff.1 hv).1
      obtain ⟨d, hd⟩ := hasCandidate_of_fixed hfixed.first hfixed.fixed (hsize ▸ hlt)
      obtain ⟨hdw, hdom⟩ := himm w d (by omega) hd
      have hdlt : d < tree.reversePostorder.size := by omega
      refine ⟨d, _, Array.getElem?_eq_getElem hdlt, hdom, ?_⟩
      intro idom
      simp [Slots.read_eq_ok hv, up_eq_ok_iff.2 hd,
        Slots.read_eq_ok (Array.getElem?_eq_getElem hdlt)])
  refine ⟨idom, ?_, hidom⟩
  simp only [idoms, hpreds, hsettle, ok_bind, named, hsize]
  exact hnamed

end FlowDominance.Dominator.Iterative
