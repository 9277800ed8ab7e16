import FlowDominance.Proofs.Dominance
import FlowDominance.Proofs.Faultless

/-!
# Listed vertices

Both ways to find dominators list the vertices that the root reaches, work on positions in the list
and write what they find into an array by vertex.
-/

namespace FlowDominance

variable {r : Nat → Nat → Prop} {root count d i u v w : Nat} {order : Array Nat}

def edgeAt (r : Nat → Nat → Prop) (order : Array Nat) (i j : Nat) : Prop :=
  ∃ u v, order[i]? = some u ∧ order[j]? = some v ∧ r u v

/-- The vertices that the root reaches are listed, each once, and the root first. -/
structure Listing (r : Nat → Nat → Prop) (root : Nat) (order : Array Nat) : Prop where
  first : order[0]? = some root
  injective : ∀ i j v : Nat, order[i]? = some v → order[j]? = some v → i = j
  listed_iff : ∀ v, (∃ i : Nat, order[i]? = some v) ↔ Reaches r root v

namespace Listing

theorem relabel_eq : relabel r (fun i => order[i]?.getD 0) (· < order.size) = edgeAt r order := by
  funext i j
  refine propext ⟨?_, ?_⟩
  · rintro ⟨hi, hj, hr⟩
    exact ⟨_, _, by simp [hi], by simp [hj], hr⟩
  · rintro ⟨u, v, hu, hv, hr⟩
    refine ⟨(Array.getElem?_eq_some_iff.1 hu).1, (Array.getElem?_eq_some_iff.1 hv).1, ?_⟩
    simpa [hu, hv] using hr

theorem relabelling (h : Listing r root order) :
    Relabelling r root (fun i => order[i]?.getD 0) (· < order.size) 0 where
  start_mem := (Array.getElem?_eq_some_iff.1 h.first).1
  start_eq := by simp [h.first]
  injective := by
    intro i j hi hj heq
    simp only [Array.getElem?_eq_getElem hi, Array.getElem?_eq_getElem hj, Option.getD_some] at heq
    exact h.injective i j order[i] (Array.getElem?_eq_getElem hi) (by simp [heq, hj])
  closed := by
    intro i b hi hr
    have hreach := (h.listed_iff _).1 ⟨i, Array.getElem?_eq_getElem hi⟩
    simp only [Array.getElem?_eq_getElem hi, Option.getD_some] at hr
    obtain ⟨j, hj⟩ := (h.listed_iff b).2 (hreach.step hr trivial)
    exact ⟨j, (Array.getElem?_eq_some_iff.1 hj).1, by simp [hj]⟩

theorem immediateDominator (h : Listing r root order) (hd : order[d]? = some u)
    (hw : order[w]? = some v) (hidom : ImmediateDominator (edgeAt r order) 0 d w) :
    ImmediateDominator r root u v := by
  have hreach := (h.listed_iff v).1 ⟨w, hw⟩
  have hmoved := h.relabelling.immediateDominator (Array.getElem?_eq_some_iff.1 hd).1
    (Array.getElem?_eq_some_iff.1 hw).1 (by simpa [hw] using hreach) (relabel_eq ▸ hidom)
  simpa [hd, hw] using hmoved

end Listing

/-! ## Dominators by vertex -/

structure IdomArray (r : Nat → Nat → Prop) (root count : Nat) (idom : Array (Option Nat)) :
    Prop where
  size : idom.size = count
  blank : ∀ v, v < count → v = root ∨ ¬Reaches r root v → idom[v]? = some none
  named : ∀ v, v ≠ root → Reaches r root v →
    ∃ d, idom[v]? = some (some d) ∧ ImmediateDominator r root d v

theorem IdomArray.unique {idom idom' : Array (Option Nat)} (h : IdomArray r root count idom)
    (h' : IdomArray r root count idom') : idom = idom' := by
  apply Array.ext_getElem?
  intro v
  by_cases hv : v < count
  · by_cases hout : v = root ∨ ¬Reaches r root v
    · rw [h.blank v hv hout, h'.blank v hv hout]
    · push Not at hout
      obtain ⟨d, hd, himm⟩ := h.named v hout.1 hout.2
      obtain ⟨d', hd', himm'⟩ := h'.named v hout.1 hout.2
      rw [hd, hd', himm.unique himm' hout.2]
  · rw [Array.getElem?_eq_none (by rw [h.size]; omega),
      Array.getElem?_eq_none (by rw [h'.size]; omega)]

theorem Listing.exists_idomArray (h : Listing r root order)
    (hcount : ∀ i v : Nat, order[i]? = some v → v < count)
    {f : Array (Option Nat) → Nat → Except Fault (Array (Option Nat))}
    (hf : ∀ w v, 0 < w → order[w]? = some v → ∃ d u, order[d]? = some u ∧
      ImmediateDominator (edgeAt r order) 0 d w ∧
      ∀ idom, f idom w = Slots.write idom v (some u)) :
    ∃ idom, (List.range' 1 (order.size - 1)).foldlM f (Array.replicate count none) = .ok idom ∧
      IdomArray r root count idom := by
  have hpos := (Array.getElem?_eq_some_iff.1 h.first).1
  obtain ⟨idom, hrun, hsize, hnamed, hblank⟩ := exists_foldlM_range'_ok
    (fun k (idom : Array (Option Nat)) => idom.size = count ∧
      (∀ w v, 0 < w → w < k → order[w]? = some v →
        ∃ u, idom[v]? = some (some u) ∧ ImmediateDominator r root u v) ∧
      ∀ v, v < count → (∀ w, 0 < w → w < k → order[w]? ≠ some v) → idom[v]? = some none)
    1 (order.size - 1) (f := f) (b := Array.replicate count none)
    ⟨by simp, by omega, by simp +contextual⟩ (by
      rintro k idom hk hlt ⟨hsize, hnamed, hblank⟩
      have hksize : k < order.size := by omega
      have hv := Array.getElem?_eq_getElem hksize
      obtain ⟨d, u, hu, hidom, hwrite⟩ := hf k _ hk hv
      obtain ⟨idom', hok, hsize', hat, hother⟩ :=
        Slots.exists_write_ok idom (some u) (hsize ▸ hcount k _ hv)
      refine ⟨idom', (hwrite idom).trans hok, hsize'.trans hsize, ?_, ?_⟩
      · intro w x hw hwk hx
        by_cases hxv : x = order[k]
        · exact ⟨u, hxv ▸ hat, hxv ▸ h.immediateDominator hu hv hidom⟩
        · have hne : w ≠ k := by
            rintro rfl
            rw [hv, Option.some.injEq] at hx
            exact hxv hx.symm
          obtain ⟨u', hu', hidom'⟩ := hnamed w x hw (by omega) hx
          exact ⟨u', (hother x hxv).trans hu', hidom'⟩
      · intro x hx hnone
        have hxv : x ≠ order[k] := by
          rintro rfl
          exact hnone k hk (by omega) hv
        exact (hother x hxv).trans (hblank x hx fun w hw hwk => hnone w hw (by omega)))
  refine ⟨idom, hrun, hsize, ?_, ?_⟩
  · rintro v hv hout
    refine hblank v hv ?_
    intro w hw _ hwv
    rcases hout with rfl | hout
    · exact Nat.ne_of_gt hw (h.injective w 0 v hwv h.first)
    · exact hout ((h.listed_iff v).1 ⟨w, hwv⟩)
  · intro v hne hreach
    obtain ⟨w, hw⟩ := (h.listed_iff v).2 hreach
    have hw0 : 0 < w := by
      rcases Nat.eq_zero_or_pos w with rfl | hpos
      · rw [h.first, Option.some.injEq] at hw
        exact absurd hw.symm hne
      · exact hpos
    have hlt := (Array.getElem?_eq_some_iff.1 hw).1
    exact hnamed w v hw0 (by omega) hw

end FlowDominance
