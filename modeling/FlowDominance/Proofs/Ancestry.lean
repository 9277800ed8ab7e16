import Mathlib

/-!
# Ancestors

A partial map `up` on numbers that only ever leads to smaller numbers makes a forest.  The ancestors
of a number are met on the way up, the number itself first.
-/

namespace FlowDominance

def Falling (up : Nat → Option Nat) : Prop := ∀ w p, up w = some p → p < w

inductive Ancestor (up : Nat → Option Nat) (a : Nat) : Nat → Prop
  | refl : Ancestor up a a
  | child {b c : Nat} : Ancestor up a b → up c = some b → Ancestor up a c

namespace Ancestor

variable {up up' : Nat → Option Nat} {a b c : Nat}

theorem trans (hab : Ancestor up a b) (hbc : Ancestor up b c) : Ancestor up a c := by
  induction hbc with
  | refl => exact hab
  | child _ hup ih => exact ih.child hup

theorem mono (hup : ∀ w p, up w = some p → up' w = some p) (h : Ancestor up a b) :
    Ancestor up' a b := by
  induction h with
  | refl => exact .refl
  | child _ hc ih => exact ih.child (hup _ _ hc)

theorem le (hfall : Falling up) (h : Ancestor up a b) : a ≤ b := by
  induction h with
  | refl => exact Nat.le_refl a
  | child _ hup ih =>
      have := hfall _ _ hup
      omega

theorem eq_or_above (h : Ancestor up a c) : a = c ∨ ∃ b, up c = some b ∧ Ancestor up a b := by
  cases h with
  | refl => exact .inl rfl
  | @child b _ hab hup => exact .inr ⟨b, hup, hab⟩

theorem above (h : Ancestor up a c) (hne : a ≠ c) (hup : up c = some b) : Ancestor up a b := by
  rcases h.eq_or_above with heq | ⟨x, hx, hax⟩
  · exact absurd heq hne
  · rw [hup, Option.some.injEq] at hx
    exact hx ▸ hax

theorem of_le (hfall : Falling up) (hac : Ancestor up a c) (hbc : Ancestor up b c)
    (hle : a ≤ b) : Ancestor up a b := by
  induction hbc with
  | refl => exact hac
  | @child x c hbx hup ih =>
      have hbx' := hbx.le hfall
      have hxc := hfall _ _ hup
      exact ih (hac.above (by omega) hup)

theorem exists_child (h : Ancestor up a c) (hne : a ≠ c) :
    ∃ b, up b = some a ∧ Ancestor up b c := by
  induction h with
  | refl => exact absurd rfl hne
  | @child x c hax hup ih =>
      by_cases hx : a = x
      · exact ⟨c, hx ▸ hup, .refl⟩
      · obtain ⟨b, hb, hbx⟩ := ih hx
        exact ⟨b, hb, hbx.child hup⟩

theorem root_unique (hfall : Falling up) (hac : Ancestor up a c) (hbc : Ancestor up b c)
    (ha : up a = none) (hb : up b = none) : a = b := by
  have hroot : ∀ {x y}, Ancestor up x y → up y = none → x = y := by
    intro x y hxy hy
    rcases hxy.eq_or_above with heq | ⟨z, hz, -⟩
    · exact heq
    · simp [hy] at hz
  rcases Nat.le_total a b with hle | hle
  · exact hroot (hac.of_le hfall hbc hle) hb
  · exact (hroot (hbc.of_le hfall hac hle) ha).symm

end Ancestor

end FlowDominance
