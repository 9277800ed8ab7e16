import FlowDominance.Proofs.Iterative

/-!
# Meeting points in a rooted array

An array that holds 0 first and afterwards only entries smaller than their positions is a tree of
numbers.  The chain of a node leads from it to the root, and tells the node.  The node where two
fingers meet has for its chain what their chains have in common, so meeting has the laws of
intersections.
-/

namespace FlowDominance.Dominator

theorem climb_cast {up : Nat → Except Fault Nat} {read : Int → Except Fault Int} {fuel a b m : Nat}
    (hread : ∀ x p : Nat, up x = .ok p → read x = .ok (p : Int))
    (h : climb up fuel a b = .ok m) : climb read fuel a b = .ok (m : Int) := by
  induction fuel generalizing a b with
  | zero =>
      by_cases heq : a = b
      · simp_all [climb]
      · simp [climb, heq] at h
  | succ fuel ih =>
      by_cases heq : a = b
      · simp_all [climb]
      · by_cases hlt : b < a
        · simp only [climb, heq, hlt, if_true, if_false] at h
          obtain ⟨p, hp, hrest⟩ := bind_eq_ok_iff.1 h
          simp [climb, heq, hlt, hread a p hp, ih hrest]
        · simp only [climb, heq, hlt, if_false] at h
          obtain ⟨p, hp, hrest⟩ := bind_eq_ok_iff.1 h
          simp [climb, heq, hlt, hread b p hp, ih hrest]

/-- The root holds itself, and every other node a smaller one. -/
structure RootedArray where
  doms : Array Int
  root : doms[0]? = some 0
  falls : ∀ i (_ : i < doms.size), 0 < i → 0 ≤ doms[i] ∧ doms[i] < i

namespace RootedArray

variable {t : RootedArray} {a b c d i m p x : Nat}

/-! ## Chains -/

def chain (t : RootedArray) (i : Nat) : List Nat :=
  if _h : 0 < i ∧ i < t.doms.size then i :: t.chain t.doms[i].toNat else [i]
termination_by i
decreasing_by
  have := t.falls i _h.2 _h.1
  omega

def candidates (t : RootedArray) : Iterative.Candidates := t.doms.map fun d => some d.toNat

theorem entry_nonneg {d : Int} (h : t.doms[i]? = some d) : 0 ≤ d := by
  by_cases hi : i = 0
  · subst hi
    rw [t.root, Option.some.injEq] at h
    omega
  · obtain ⟨hlt, rfl⟩ := Array.getElem?_eq_some_iff.1 h
    exact (t.falls i hlt (Nat.pos_of_ne_zero hi)).1

theorem candidates_eq_some_iff :
    t.candidates[i]? = some (some p) ↔ t.doms[i]? = some (p : Int) := by
  rw [candidates, Array.getElem?_map, Option.map_eq_some_iff]
  constructor
  · rintro ⟨d, hd, hp⟩
    have hnonneg := entry_nonneg hd
    have hcast : d = p := by
      rw [← Option.some.inj hp, Int.toNat_of_nonneg hnonneg]
    rw [hd, hcast]
  · intro h
    exact ⟨p, h, by simp⟩

theorem candidates_root : t.candidates[0]? = some (some 0) := candidates_eq_some_iff.2 t.root

theorem falling (t : RootedArray) : Falling (Iterative.chain t.candidates) := by
  intro i p h
  obtain ⟨hi, hp⟩ := Iterative.chain_eq_some_iff.1 h
  obtain ⟨hlt, hentry⟩ := Array.getElem?_eq_some_iff.1 (candidates_eq_some_iff.1 hp)
  have := t.falls i hlt (Nat.pos_of_ne_zero hi)
  omega

theorem mem_chain_iff : x ∈ t.chain i ↔ Ancestor (Iterative.chain t.candidates) x i := by
  fun_induction chain t i with
  | case1 i h ih =>
      have hup : Iterative.chain t.candidates i = some t.doms[i].toNat := by
        have hnonneg := (t.falls i h.2 h.1).1
        refine Iterative.chain_eq_some_iff.2 ⟨by omega, candidates_eq_some_iff.2 ?_⟩
        rw [Array.getElem?_eq_getElem h.2, Int.toNat_of_nonneg hnonneg]
      rw [List.mem_cons, ih]
      constructor
      · rintro (rfl | hx)
        · exact .refl
        · exact hx.child hup
      · intro hx
        by_cases heq : x = i
        · exact .inl heq
        · exact .inr (hx.above heq hup)
  | case2 i h =>
      rw [List.mem_singleton]
      constructor
      · rintro rfl
        exact .refl
      · intro hx
        rcases hx.eq_or_above with heq | ⟨p, hp, -⟩
        · exact heq
        · obtain ⟨hi, hread⟩ := Iterative.chain_eq_some_iff.1 hp
          have hlt := (Array.getElem?_eq_some_iff.1 (candidates_eq_some_iff.1 hread)).1
          exact absurd ⟨Nat.pos_of_ne_zero hi, hlt⟩ h

theorem mem_chain_self : i ∈ t.chain i := mem_chain_iff.2 .refl

theorem le_of_mem_chain (h : x ∈ t.chain i) : x ≤ i := (mem_chain_iff.1 h).le t.falling

theorem mem_chain_trans (hx : x ∈ t.chain a) (ha : a ∈ t.chain b) : x ∈ t.chain b :=
  mem_chain_iff.2 ((mem_chain_iff.1 hx).trans (mem_chain_iff.1 ha))

theorem root_mem_chain (h : i < t.doms.size) : 0 ∈ t.chain i := by
  fun_induction chain t i with
  | case1 i hi ih =>
      have := t.falls i hi.2 hi.1
      exact List.mem_cons_of_mem i (ih (by omega))
  | case2 i hi =>
      rw [List.mem_singleton]
      omega

theorem eq_of_chain (h : ∀ x, x ∈ t.chain a ↔ x ∈ t.chain b) : a = b := by
  have hab := le_of_mem_chain ((h a).1 mem_chain_self)
  have hba := le_of_mem_chain ((h b).2 mem_chain_self)
  omega

/-! ## Meeting -/

def Common (t : RootedArray) (a b m : Nat) : Prop :=
  ∀ x, x ∈ t.chain m ↔ x ∈ t.chain a ∧ x ∈ t.chain b

theorem exists_climb (ha : a < t.doms.size) (hb : b < t.doms.size) {fuel : Nat}
    (hfuel : a + b ≤ fuel) :
    ∃ m, climb (Iterative.up t.candidates) fuel a b = .ok m ∧ t.Common a b m := by
  have hup : ∀ x p, Iterative.chain t.candidates x = some p →
      Iterative.up t.candidates x = .ok p :=
    fun x p h => Iterative.up_eq_ok_iff.2 (Iterative.chain_eq_some_iff.1 h).2
  -- both fingers have the root ahead of them, so neither can run past the other for good
  obtain ⟨m, hm, hbest⟩ := exists_climb_ok hup t.falling hfuel
    (mem_chain_iff.1 (root_mem_chain ha)) (mem_chain_iff.1 (root_mem_chain hb))
  obtain ⟨hma, hmb⟩ := ancestor_of_climb (fun _ _ => Iterative.up_eq_ok candidates_root) hm
  refine ⟨m, hm, fun x => ?_⟩
  simp only [mem_chain_iff]
  exact ⟨fun hx => ⟨hx.trans hma, hx.trans hmb⟩, fun ⟨hxa, hxb⟩ => hbest x hxa hxb⟩

theorem signedRead_of_up (h : Iterative.up t.candidates i = .ok p) :
    signedRead t.doms i = .ok (p : Int) := by
  have hread := candidates_eq_some_iff.1 (Iterative.up_eq_ok_iff.1 h)
  have hlt := (Array.getElem?_eq_some_iff.1 hread).1
  have hplace : Slots.place t.doms.size i = .ok i := by simp [Slots.place, hlt]
  rw [signedRead, hplace, ok_bind, Slots.read_eq_ok hread]

theorem exists_intersect (ha : a < t.doms.size) (hb : b < t.doms.size) :
    ∃ m : Nat, intersect t.doms a b = .ok (m : Int) ∧ t.Common a b m := by
  have hfuel : a + b ≤ (t.doms.size + 1) * (t.doms.size + 1) := by nlinarith
  obtain ⟨m, hm, hcommon⟩ := exists_climb ha hb hfuel
  exact ⟨m, climb_cast (fun _ _ => signedRead_of_up) hm, hcommon⟩

theorem Common.unique (hm : t.Common a b m) (hd : t.Common a b d) : m = d :=
  eq_of_chain fun x => (hm x).trans (hd x).symm

theorem intersect_eq_ok_iff (ha : a < t.doms.size) (hb : b < t.doms.size) :
    intersect t.doms a b = .ok (m : Int) ↔ t.Common a b m := by
  obtain ⟨d, hd, hcommon⟩ := exists_intersect ha hb
  rw [hd]
  constructor
  · intro h
    obtain rfl : d = m := by simpa using h
    exact hcommon
  · intro h
    rw [hcommon.unique h]

namespace Common

theorem symm (h : t.Common a b m) : t.Common b a m := fun x => (h x).trans and_comm

theorem self : t.Common a a a := fun _ => and_self_iff.symm

theorem left_mem (h : t.Common a b m) : m ∈ t.chain a := ((h m).1 mem_chain_self).1

theorem lt_size (h : t.Common a b m) (ha : a < t.doms.size) : m < t.doms.size :=
  Nat.lt_of_le_of_lt (le_of_mem_chain h.left_mem) ha

theorem assoc (hm : t.Common a b m) (hd : t.Common b c d) (hx : t.Common m c x) :
    t.Common a d x := by
  intro y
  rw [hx y, hm y, hd y, and_assoc]

theorem isGreatest (h : t.Common a b m) : IsGreatest {x | x ∈ t.chain a ∧ x ∈ t.chain b} m :=
  ⟨(h m).1 mem_chain_self, fun x hx => le_of_mem_chain ((h x).2 hx)⟩

end Common

theorem common_left_iff : t.Common a b a ↔ a ∈ t.chain b := by
  constructor
  · exact fun h => h.symm.left_mem
  · exact fun h x => ⟨fun hx => ⟨hx, mem_chain_trans hx h⟩, And.left⟩

/-- Two fingers, those of a pass included, rest on the largest node that both chains have, and
every node that both have is on the chain of that one.  Which finger comes first makes no
difference, nor which two of three meet first. -/
theorem intersect_nearest_common (t : RootedArray) {a b : Nat} (ha : a < t.doms.size)
    (hb : b < t.doms.size) :
    (∃ m : Nat, intersect t.doms a b = .ok (m : Int) ∧
      Iterative.meet t.candidates a b = .ok m ∧
      IsGreatest {x | x ∈ t.chain a ∧ x ∈ t.chain b} m ∧
      ∀ x, x ∈ t.chain a → x ∈ t.chain b → x ∈ t.chain m) ∧
    intersect t.doms b a = intersect t.doms a b ∧
    (∀ c, c < t.doms.size → ∃ m : Nat,
      (do intersect t.doms (← intersect t.doms a b) c) = .ok (m : Int) ∧
      (do intersect t.doms a (← intersect t.doms b c)) = .ok (m : Int)) ∧
    intersect t.doms a a = .ok (a : Int) ∧
    (intersect t.doms a b = .ok (a : Int) ↔ a ∈ t.chain b) := by
  obtain ⟨m, hm, hcommon⟩ := exists_intersect ha hb
  have habove : ∀ x, x ∈ t.chain a → x ∈ t.chain b → x ∈ t.chain m :=
    fun x hxa hxb => (hcommon x).2 ⟨hxa, hxb⟩
  refine ⟨⟨m, hm, ?_, hcommon.isGreatest, habove⟩, ?_, ?_, ?_, ?_⟩
  · obtain ⟨d, hd, hcommon'⟩ := exists_climb ha hb (Nat.le_refl (a + b))
    rw [Iterative.meet, hd, hcommon'.unique hcommon]
  · rw [hm, (intersect_eq_ok_iff hb ha).2 hcommon.symm]
  · intro c hc
    obtain ⟨d, hd, hcommon'⟩ := exists_intersect hb hc
    have hdlt := hcommon'.lt_size hb
    obtain ⟨x, hx, hall⟩ := exists_intersect (hcommon.lt_size ha) hc
    refine ⟨x, by rw [hm, ok_bind, hx], ?_⟩
    rw [hd, ok_bind, (intersect_eq_ok_iff ha hdlt).2 (hcommon.assoc hcommon' hall)]
  · exact (intersect_eq_ok_iff ha ha).2 .self
  · rw [intersect_eq_ok_iff ha hb, common_left_iff]

/-- Two branches below 1 whose numbers alternate, so the fingers take turns, and a node beside. -/
def twoBranches : RootedArray := ⟨#[0, 0, 1, 1, 2, 0, 3], by decide, by decide⟩

theorem intersect_nearest_common_twoBranches :
    4 < twoBranches.doms.size ∧ 6 < twoBranches.doms.size ∧ 5 < twoBranches.doms.size ∧
    intersect twoBranches.doms 4 6 = .ok 1 ∧ intersect twoBranches.doms 6 4 = .ok 1 ∧
    (∃ m : Nat,
      (do intersect twoBranches.doms (← intersect twoBranches.doms 4 6) 5) = .ok (m : Int) ∧
      (do intersect twoBranches.doms 4 (← intersect twoBranches.doms 6 5)) = .ok (m : Int)) ∧
    intersect twoBranches.doms 4 6 ≠ .ok 4 := by
  have h4 : twoBranches.chain 4 = [4, 2, 1, 0] := by decide +kernel
  have h6 : twoBranches.chain 6 = [6, 3, 1, 0] := by decide +kernel
  obtain ⟨⟨m, hm, -, hgreatest, -⟩, hcomm, hassoc, -, hleft⟩ :=
    intersect_nearest_common twoBranches (a := 4) (b := 6) (by decide) (by decide)
  have hone : IsGreatest {x | x ∈ twoBranches.chain 4 ∧ x ∈ twoBranches.chain 6} 1 := by
    rw [h4, h6]
    exact ⟨by simp, fun x hx => by simp at hx; omega⟩
  obtain rfl : m = 1 := hgreatest.unique hone
  refine ⟨by decide, by decide, by decide, hm, hcomm.trans hm, hassoc 5 (by decide), ?_⟩
  exact fun h => absurd (hleft.1 h) (by rw [h6]; decide)

end RootedArray

end FlowDominance.Dominator
