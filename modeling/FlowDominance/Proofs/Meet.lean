import FlowDominance.Dominator.Meet
import FlowDominance.Proofs.Ancestry
import FlowDominance.Proofs.Faultless

/-!
# Where chains meet

Two fingers that climb chains of a forest rest on a common ancestor, and if parents have smaller
numbers, on the nearest one.
-/

namespace FlowDominance.Dominator

variable {up : Nat → Except Fault Nat} {chain : Nat → Option Nat} {fuel a b c r m : Nat}

theorem ancestor_of_climb (hup : ∀ x p, up x = .ok p → p = x ∨ chain x = some p)
    (h : climb up fuel a b = .ok m) : Ancestor chain m a ∧ Ancestor chain m b := by
  have hback : ∀ x p, up x = .ok p → Ancestor chain m p → Ancestor chain m x := by
    intro x p hx hm
    rcases hup x p hx with rfl | hchain
    · exact hm
    · exact hm.child hchain
  induction fuel generalizing a b with
  | zero =>
      simp only [climb] at h
      split at h
      · simp_all [Ancestor.refl]
      · simp at h
  | succ fuel ih =>
      simp only [climb] at h
      split at h
      · simp_all [Ancestor.refl]
      · split at h
        · obtain ⟨p, hp, hrest⟩ := bind_eq_ok_iff.1 h
          have hmp := ih hrest
          exact ⟨hback a p hp hmp.1, hmp.2⟩
        · obtain ⟨p, hp, hrest⟩ := bind_eq_ok_iff.1 h
          have hmp := ih hrest
          exact ⟨hmp.1, hback b p hp hmp.2⟩

/-- In one tree the fingers do come to rest, and below every common ancestor. -/
theorem exists_climb_ok (hup : ∀ x p, chain x = some p → up x = .ok p) (hfall : Falling chain)
    (hfuel : a + b ≤ fuel) (ha : Ancestor chain r a) (hb : Ancestor chain r b) :
    ∃ m, climb up fuel a b = .ok m ∧
      ∀ c, Ancestor chain c a → Ancestor chain c b → Ancestor chain c m := by
  induction fuel generalizing a b with
  | zero =>
      have heq : a = b := by omega
      subst heq
      exact ⟨a, by simp [climb], fun c hc _ => hc⟩
  | succ fuel ih =>
      by_cases heq : a = b
      · subst heq
        exact ⟨a, by simp [climb], fun c hc _ => hc⟩
      · -- the larger finger is not the root, and no common ancestor is lost when it steps
        rcases Nat.lt_or_gt_of_ne heq with hlt | hlt
        · have hrb : r ≠ b := by
            have := ha.le hfall
            omega
          rcases hb.eq_or_above with h | ⟨p, hp, hrp⟩
          · exact absurd h hrb
          · have hpb := hfall b p hp
            obtain ⟨m, hm, hbest⟩ := ih (by omega) ha hrp
            refine ⟨m, ?_, ?_⟩
            · simp [climb, heq, Nat.not_lt_of_lt hlt, hup b p hp, hm]
            · intro c hca hcb
              have := hca.le hfall
              exact hbest c hca (hcb.above (by omega) hp)
        · have hra : r ≠ a := by
            have := hb.le hfall
            omega
          rcases ha.eq_or_above with h | ⟨p, hp, hrp⟩
          · exact absurd h hra
          · have hpa := hfall a p hp
            obtain ⟨m, hm, hbest⟩ := ih (by omega) hrp hb
            refine ⟨m, ?_, ?_⟩
            · simp [climb, heq, hlt, hup a p hp, hm]
            · intro c hca hcb
              have := hcb.le hfall
              exact hbest c (hca.above (by omega) hp) hcb

end FlowDominance.Dominator
