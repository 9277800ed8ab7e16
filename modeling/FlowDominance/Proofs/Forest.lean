import FlowDominance.Dominator.Forest
import FlowDominance.Proofs.Ancestry
import FlowDominance.Proofs.Faultless

/-!
# Path compression

A compressed forest stands for the forest of the links that were made, `up`.  Each linked node keeps
some ancestor and, of the nodes on the way there, the nearest of those with the least `semi`.  Queries
shorten the ways and never change what the forest stands for.
-/

namespace FlowDominance.Dominator.Forest

variable {semi semi' : Nat → Nat} {up up' : Nat → Option Nat} {a b c p u v w x y : Nat}

/-! ## Least nodes on a way up -/

def lower (semi : Nat → Nat) (x y : Nat) : Nat := if semi y < semi x then y else x

theorem lower_assoc (semi : Nat → Nat) (x y z : Nat) :
    lower semi x (lower semi y z) = lower semi (lower semi x y) z := by
  unfold lower
  split_ifs <;> first | rfl | omega

/-- On the way from `x` up to, but not including, `a` the nearest node with the least `semi` is
`b`. -/
inductive LeastOn (semi : Nat → Nat) (up : Nat → Option Nat) : Nat → Nat → Nat → Prop
  | last {x a : Nat} : up x = some a → LeastOn semi up x a x
  | more {x p a b : Nat} : up x = some p → LeastOn semi up p a b →
      LeastOn semi up x a (lower semi x b)

namespace LeastOn

theorem append (hb : LeastOn semi up x a b) (hc : LeastOn semi up a c y) :
    LeastOn semi up x c (lower semi b y) := by
  induction hb with
  | last hup => exact .more hup hc
  | more hup _ ih => exact lower_assoc semi _ _ y ▸ .more hup (ih hc)

theorem mono (hup : ∀ w p, up w = some p → up' w = some p) (h : LeastOn semi up x a b) :
    LeastOn semi up' x a b := by
  induction h with
  | last hx => exact .last (hup _ _ hx)
  | more hx _ ih => exact .more (hup _ _ hx) ih

theorem top_ancestor (h : LeastOn semi up x a b) : Ancestor up a x := by
  induction h with
  | last hup => exact .child .refl hup
  | more hup _ ih => exact ih.child hup

theorem ancestor (h : LeastOn semi up x a b) : Ancestor up b x := by
  induction h with
  | last _ => exact .refl
  | @more x p a b hup _ ih =>
      unfold lower
      split
      · exact ih.child hup
      · exact .refl

theorem top_lt (hfall : Falling up) (h : LeastOn semi up x a b) : a < b := by
  induction h with
  | last hup => exact hfall _ _ hup
  | @more x p a b hup hp ih =>
      have hap := hp.top_ancestor.le hfall
      have hpx := hfall _ _ hup
      unfold lower
      split
      · exact ih
      · omega

theorem linked (h : LeastOn semi up x a b) : ∃ p, up b = some p := by
  induction h with
  | last hup => exact ⟨_, hup⟩
  | @more x p a b hup _ ih =>
      unfold lower
      split
      · exact ih
      · exact ⟨p, hup⟩

theorem le (hfall : Falling up) (h : LeastOn semi up x a b) (hy : Ancestor up y x)
    (hay : a < y) : semi b ≤ semi y := by
  induction h with
  | last hup =>
      rcases hy.eq_or_above with rfl | ⟨p, hp, hyp⟩
      · exact Nat.le_refl _
      · rw [hup, Option.some.injEq] at hp
        have := hyp.le hfall
        omega
  | @more x p a b hup _ ih =>
      unfold lower
      rcases hy.eq_or_above with rfl | ⟨q, hq, hyq⟩
      · split <;> omega
      · rw [hup, Option.some.injEq] at hq
        have := ih (hq ▸ hyq) hay
        split <;> omega

theorem congr (hsemi : ∀ x p, up x = some p → semi x = semi' x) (h : LeastOn semi up x a b) :
    LeastOn semi' up x a b := by
  induction h with
  | last hup => exact .last hup
  | @more x p a b hup hp ih =>
      obtain ⟨q, hq⟩ := hp.linked
      have hlower : lower semi x b = lower semi' x b := by
        unfold lower
        rw [hsemi x p hup, hsemi b q hq]
      exact hlower ▸ .more hup ih

end LeastOn

/-! ## What a compressed forest stands for -/

def semiOf (f : Forest) (x : Nat) : Nat := f.semi[x]?.getD 0

theorem getElem?_semi {f : Forest} (h : x < f.semi.size) : f.semi[x]? = some (f.semiOf x) := by
  simp [semiOf, h]

theorem semiOf_congr {f f' : Forest} (h : f'.semi = f.semi) : f'.semiOf = f.semiOf := by
  funext x
  simp [semiOf, h]

structure Represents (f : Forest) (up : Nat → Option Nat) : Prop where
  size_ancestor : f.ancestor.size = f.semi.size
  size_best : f.best.size = f.semi.size
  falling : Falling up
  lt_size : ∀ x p, up x = some p → x < f.semi.size
  root : ∀ x, x < f.semi.size → up x = none → f.ancestor[x]? = some none
  linked : ∀ x p, up x = some p → ∃ a b, f.ancestor[x]? = some (some a) ∧
    f.best[x]? = some b ∧ LeastOn f.semiOf up x a b

theorem represents_initial (count : Nat) : (initial count).Represents fun _ => none where
  size_ancestor := by simp [initial]
  size_best := by simp [initial]
  falling := by simp [Falling]
  lt_size := by simp
  root := by
    intro x hx _
    have hcount : x < count := by simpa [initial] using hx
    simp [initial, hcount]
  linked := by simp

variable {f : Forest}

/-! ## Changes -/

theorem exists_setSemi_ok (h : f.Represents up) (hw : w < f.semi.size) (hroot : up w = none)
    (s : Nat) : ∃ f', f.setSemi w s = .ok f' ∧ f'.Represents up ∧
      f'.semi.size = f.semi.size ∧ f'.semiOf w = s ∧ ∀ x, x ≠ w → f'.semiOf x = f.semiOf x := by
  obtain ⟨semi, hwrite, hsize, hat, hother⟩ := Slots.exists_write_ok f.semi s hw
  have hkeep : ∀ x, x ≠ w → ({ f with semi } : Forest).semiOf x = f.semiOf x := by
    intro x hx
    simp [semiOf, hother x hx]
  refine ⟨{ f with semi }, by simp [setSemi, hwrite], ?_, hsize, by simp [semiOf, hat], hkeep⟩
  refine ⟨h.size_ancestor.trans hsize.symm, h.size_best.trans hsize.symm, h.falling, ?_, ?_, ?_⟩
  · intro x p hx
    exact hsize ▸ h.lt_size x p hx
  · intro x hx
    exact h.root x (hsize ▸ hx)
  · intro x p hx
    obtain ⟨a, b, ha, hb, hleast⟩ := h.linked x p hx
    refine ⟨a, b, ha, hb, hleast.congr ?_⟩
    rintro y q hy
    refine (hkeep y ?_).symm
    rintro rfl
    rw [hroot] at hy
    contradiction

def linkUp (up : Nat → Option Nat) (p w : Nat) : Nat → Option Nat :=
  Function.update up w (some p)

theorem exists_link_ok (h : f.Represents up) (hw : w < f.semi.size) (hroot : up w = none)
    (hpw : p < w) : ∃ f', f.link p w = .ok f' ∧ f'.Represents (linkUp up p w) ∧
      f'.semi = f.semi := by
  obtain ⟨ancestor, hwriteA, hsizeA, hatA, hotherA⟩ :=
    Slots.exists_write_ok f.ancestor (some p) (h.size_ancestor ▸ hw)
  obtain ⟨best, hwriteB, hsizeB, hatB, hotherB⟩ :=
    Slots.exists_write_ok f.best w (h.size_best ▸ hw)
  have hat : linkUp up p w w = some p := by simp [linkUp]
  have hother : ∀ x, x ≠ w → linkUp up p w x = up x := fun x hx => by simp [linkUp, hx]
  refine ⟨{ f with ancestor, best }, by simp [link, hwriteA, hwriteB], ?_, rfl⟩
  refine ⟨hsizeA.trans h.size_ancestor, hsizeB.trans h.size_best, ?_, ?_, ?_, ?_⟩
  · intro x q hx
    by_cases hxw : x = w
    · subst hxw
      rw [hat, Option.some.injEq] at hx
      omega
    · exact h.falling x q (hother x hxw ▸ hx)
  · intro x q hx
    by_cases hxw : x = w
    · exact hxw ▸ hw
    · exact h.lt_size x q (hother x hxw ▸ hx)
  · intro x hx hup
    have hxw : x ≠ w := by
      rintro rfl
      rw [hat] at hup
      contradiction
    exact (hotherA x hxw).trans (h.root x hx (hother x hxw ▸ hup))
  · intro x q hx
    by_cases hxw : x = w
    · subst hxw
      exact ⟨p, x, hatA, hatB, .last hat⟩
    · obtain ⟨a, b, ha, hb, hleast⟩ := h.linked x q (hother x hxw ▸ hx)
      refine ⟨a, b, (hotherA x hxw).trans ha, (hotherB x hxw).trans hb, hleast.mono ?_⟩
      intro y r hy
      refine (hother y ?_).trans hy
      rintro rfl
      rw [hroot] at hy
      contradiction

/-! ## Queries -/

theorem exists_shorten_ok (h : f.Represents up) (hx : f.ancestor[x]? = some (some a))
    (ha : f.ancestor[a]? = some (some c)) (hux : up x = some p) (hua : up a = some u) :
    ∃ f', f.shorten x = .ok f' ∧ f'.Represents up ∧ f'.semi = f.semi ∧
      f'.ancestor[x]? = some (some c) ∧
      ∀ y, y ≠ x → f'.ancestor[y]? = f.ancestor[y]? ∧ f'.best[y]? = f.best[y]? := by
  obtain ⟨a', own, ha', hown, hleast⟩ := h.linked x p hux
  obtain rfl : a = a' := by simpa [hx] using ha'
  obtain ⟨c', above, hc', habove, hleast'⟩ := h.linked a u hua
  obtain rfl : c = c' := by simpa [ha] using hc'
  obtain ⟨q, hq⟩ := hleast.linked
  obtain ⟨q', hq'⟩ := hleast'.linked
  have hsemiOwn := getElem?_semi (h.lt_size own q hq)
  have hsemiAbove := getElem?_semi (h.lt_size above q' hq')
  obtain ⟨ancestor, hwriteA, hsizeA, hatA, hotherA⟩ :=
    Slots.exists_write_ok f.ancestor (some c) (h.size_ancestor ▸ h.lt_size x p hux)
  have hbest : ∃ best, (if f.semiOf above < f.semiOf own then Slots.write f.best x above
        else pure f.best) = Except.ok best ∧ best.size = f.best.size ∧
      best[x]? = some (lower f.semiOf own above) ∧ ∀ y, y ≠ x → best[y]? = f.best[y]? := by
    unfold lower
    split
    · exact Slots.exists_write_ok f.best above (h.size_best ▸ h.lt_size x p hux)
    · exact ⟨f.best, rfl, rfl, hown, fun _ _ => rfl⟩
  obtain ⟨best, hif, hsizeB, hatB, hotherB⟩ := hbest
  refine ⟨{ f with ancestor, best }, ?_, ?_, rfl, hatA, fun y hy => ⟨hotherA y hy, hotherB y hy⟩⟩
  · simp only [shorten, Slots.readFilled_eq_ok hx, Slots.read_eq_ok habove, Slots.read_eq_ok hown,
      Slots.read_eq_ok hsemiAbove, Slots.read_eq_ok hsemiOwn, Slots.read_eq_ok ha, ok_bind,
      hwriteA, pure_eq_ok]
    by_cases hlt : f.semiOf above < f.semiOf own
    · rw [if_pos hlt] at hif ⊢
      rw [hif, ok_bind]
    · rw [if_neg hlt] at hif ⊢
      cases hif
      rfl
  · refine ⟨hsizeA.trans h.size_ancestor, hsizeB.trans h.size_best, h.falling, h.lt_size, ?_, ?_⟩
    · intro y hy hroot
      have hyx : y ≠ x := by
        rintro rfl
        rw [hux] at hroot
        contradiction
      exact (hotherA y hyx).trans (h.root y hy hroot)
    · intro y r hy
      by_cases hyx : y = x
      · subst hyx
        exact ⟨c, _, hatA, hatB, hleast.append hleast'⟩
      · obtain ⟨a'', b, ha'', hb, hleast''⟩ := h.linked y r hy
        exact ⟨a'', b, (hotherA y hyx).trans ha'', (hotherB y hyx).trans hb, hleast''⟩

/-- After compression a node hangs below its root; later nodes have not been touched. -/
theorem exists_compress_ok (h : f.Represents up) (hu : up u = some p) :
    ∃ f' c, f.compress u = .ok f' ∧ f'.Represents up ∧ f'.semi = f.semi ∧
      up c = none ∧ f'.ancestor[u]? = some (some c) ∧
      ∀ y, u < y → f'.ancestor[y]? = f.ancestor[y]? ∧ f'.best[y]? = f.best[y]? := by
  induction u using Nat.strong_induction_on generalizing p with
  | _ u ih =>
      obtain ⟨a, b, ha, -, hleast⟩ := h.linked u p hu
      have hau : a < u := by
        have hup := hleast.top_lt h.falling
        have hbu := hleast.ancestor.le h.falling
        omega
      have hasize : a < f.semi.size := by
        have := h.lt_size u p hu
        omega
      rw [compress, Slots.readFilled_eq_ok ha]
      cases hroot : up a with
      | none =>
          refine ⟨f, a, ?_, h, rfl, hroot, ha, fun _ _ => ⟨rfl, rfl⟩⟩
          simp [Slots.read_eq_ok (h.root a hasize hroot)]
      | some q =>
          obtain ⟨a', b', ha', -, -⟩ := h.linked a q hroot
          obtain ⟨f₁, c, hrun, h₁, hsemi₁, hc, hac, hlater⟩ := ih a hau hroot
          have hu₁ : f₁.ancestor[u]? = some (some a) := (hlater u hau).1.trans ha
          obtain ⟨f₂, hshort, h₂, hsemi₂, huc, hother⟩ := exists_shorten_ok h₁ hu₁ hac hu hroot
          refine ⟨f₂, c, ?_, h₂, hsemi₂.trans hsemi₁, hc, huc, ?_⟩
          · simp only [Slots.read_eq_ok ha', hau, if_true, hrun, ok_bind, hshort]
          · intro y hy
            obtain ⟨hy₂, hy₂'⟩ := hother y (by omega)
            obtain ⟨hy₁, hy₁'⟩ := hlater y (by omega)
            exact ⟨hy₂.trans hy₁, hy₂'.trans hy₁'⟩

theorem exists_eval_ok (h : f.Represents up) (hv : up v = some p) :
    ∃ y f' c, f.eval v = .ok (y, f') ∧ f'.Represents up ∧ f'.semi = f.semi ∧
      up c = none ∧ LeastOn f.semiOf up v c y := by
  obtain ⟨f', c, hrun, h', hsemi, hc, hvc, -⟩ := exists_compress_ok h hv
  obtain ⟨c', y, hc', hy, hleast⟩ := h'.linked v p hv
  obtain rfl : c = c' := by simpa [hvc] using hc'
  refine ⟨y, f', c, ?_, h', hsemi, hc, semiOf_congr hsemi ▸ hleast⟩
  simp [eval, hrun, Slots.read_eq_ok hy]

theorem exists_evalSemi_ok (h : f.Represents up) (hv : up v = some p) :
    ∃ y f' c, f.evalSemi v = .ok (f.semiOf y, f') ∧ f'.Represents up ∧ f'.semi = f.semi ∧
      up c = none ∧ LeastOn f.semiOf up v c y := by
  obtain ⟨y, f', c, hrun, h', hsemi, hc, hleast⟩ := exists_eval_ok h hv
  obtain ⟨q, hq⟩ := hleast.linked
  have hread : f'.semi[y]? = some (f.semiOf y) := hsemi ▸ getElem?_semi (h.lt_size y q hq)
  refine ⟨y, f', c, ?_, h', hsemi, hc, hleast⟩
  simp [evalSemi, hrun, Slots.read_eq_ok hread]

end FlowDominance.Dominator.Forest
