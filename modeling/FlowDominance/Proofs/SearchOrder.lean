import FlowDominance.Proofs.Ancestry
import FlowDominance.Proofs.Dominance

/-!
# Search orders and semidominators

A search order numbers the vertices of a graph as a depth-first search visits them, the root being
0.  Whenever a path leads from `a` to `b`, its lowest vertex is an ancestor of `b`; all else rests on
that.  The semidominator of `w` is the least `v` from which a path leads to `w` by way of vertices
beyond `w` only.  Semidominators of later vertices give those of earlier ones, and they tell the
immediate dominators.
-/

namespace FlowDominance

structure SearchOrder where
  count : Nat
  edge : Nat → Nat → Prop
  parent : Nat → Option Nat
  edge_lt : ∀ u v, edge u v → u < count ∧ v < count
  falling : Falling parent
  parent_edge : ∀ w p, parent w = some p → edge p w
  exists_parent : ∀ w, 0 < w → w < count → ∃ p, parent w = some p
  /-- The search only goes on from a vertex above the one that it has found last. -/
  parent_ancestor : ∀ w p, parent w = some p → Ancestor parent p (w - 1)
  forward : ∀ u v, edge u v → u < v → Ancestor parent u v

namespace SearchOrder

variable {T : SearchOrder} {a b d m s u v w x y : Nat} {P : Nat → Prop}

/-! ## The tree -/

theorem ancestor_le (h : Ancestor T.parent a b) : a ≤ b := h.le T.falling

theorem parent_lt_count {p : Nat} (h : T.parent w = some p) : w < T.count :=
  (T.edge_lt _ _ (T.parent_edge _ _ h)).2

theorem root_ancestor (h : w < T.count) : Ancestor T.parent 0 w := by
  induction w using Nat.strong_induction_on with
  | _ w ih =>
      rcases Nat.eq_zero_or_pos w with rfl | hpos
      · exact .refl
      · obtain ⟨p, hp⟩ := T.exists_parent w hpos h
        have hlt := T.falling w p hp
        exact (ih p hlt (by omega)).child hp

theorem ancestor_of_between (h : Ancestor T.parent m x) (hmy : m ≤ y) (hyx : y ≤ x) :
    Ancestor T.parent m y := by
  obtain ⟨k, rfl⟩ := Nat.exists_eq_add_of_le hyx
  clear hyx
  induction k with
  | zero => exact h
  | succ k ih =>
      rcases h.eq_or_above with heq | ⟨p, hp, hmp⟩
      · omega
      · exact ih (hmp.trans (T.parent_ancestor _ p hp))

theorem tree_path (h : Ancestor T.parent a b) :
    Through T.edge (fun x => Ancestor T.parent a x ∧ Ancestor T.parent x b) a b := by
  induction h with
  | refl => exact .refl ⟨.refl, .refl⟩
  | @child b c hab hup ih =>
      have hpath : Through T.edge (fun x => Ancestor T.parent a x ∧ Ancestor T.parent x c) a b :=
        ih.mono fun x hx => ⟨hx.1, hx.2.child hup⟩
      exact hpath.step (T.parent_edge _ _ hup) ⟨hab.child hup, .refl⟩

theorem tree_path_ge (h : Ancestor T.parent a b) : Through T.edge (a ≤ ·) a b :=
  (tree_path h).mono fun _ hx => ancestor_le hx.1

theorem tree_path_le (h : v < T.count) : Through T.edge (· ≤ v) 0 v :=
  (tree_path (root_ancestor h)).mono fun _ hx => ancestor_le hx.2

theorem ancestor_of_dominates (h : Dominates T.edge 0 d v) (hv : v < T.count) :
    Ancestor T.parent d v := by
  by_contra hnot
  refine h ((tree_path (root_ancestor hv)).mono ?_)
  rintro x ⟨-, hxv⟩ rfl
  exact hnot hxv

/-! ## Lowest vertices of paths -/

/-- A path of at least one edge leads from `x` to `w` by way of vertices beyond `w`. -/
def SemiPath (T : SearchOrder) (x w : Nat) : Prop :=
  T.edge x w ∨ ∃ a b, T.edge x a ∧ Through T.edge (w < ·) a b ∧ T.edge b w

theorem ancestor_of_edge (hmb : Ancestor T.parent m b) (hbc : T.edge b u) (hmu : m ≤ u) :
    Ancestor T.parent m u := by
  rcases Nat.lt_or_ge b u with hlt | hge
  · exact hmb.trans (T.forward b u hbc hlt)
  · exact ancestor_of_between hmb hmu hge

/-- The lowest vertex `m` of a path is an ancestor of its end, and the part of the path before its
first visit to `m` runs beyond `m`. -/
theorem exists_lowest (h : Through T.edge P a b) :
    ∃ m, P m ∧ Ancestor T.parent m b ∧ Through T.edge (m ≤ ·) a b ∧
      (a = m ∨ ∃ c, Through T.edge (m < ·) a c ∧ T.edge c m) := by
  induction h with
  | refl ha => exact ⟨a, ha, .refl, .refl (Nat.le_refl a), .inl rfl⟩
  | @step b c hab hbc hc ih =>
      obtain ⟨m, hm, hanc, hpath, hfirst⟩ := ih
      rcases Nat.lt_or_ge c m with hlt | hge
      · refine ⟨c, hc, .refl, ?_, .inr ⟨b, hpath.mono ?_, hbc⟩⟩
        · exact (hpath.mono fun x hx => by omega).step hbc (Nat.le_refl c)
        · intro x hx
          omega
      · exact ⟨m, hm, ancestor_of_edge hanc hbc hge, hpath.step hbc hge, hfirst⟩

theorem exists_semiPath (hx : T.edge x a) (h : Through T.edge P a b) :
    ∃ m, P m ∧ Ancestor T.parent m b ∧ T.SemiPath x m := by
  obtain ⟨m, hm, hanc, -, hfirst⟩ := exists_lowest h
  refine ⟨m, hm, hanc, ?_⟩
  rcases hfirst with rfl | ⟨c, hpath, hcm⟩
  · exact .inl hx
  · exact .inr ⟨a, c, hx, hpath, hcm⟩

/-! ## Semidominators -/

noncomputable def sdom (T : SearchOrder) (w : Nat) : Nat := sInf {x | T.SemiPath x w}

theorem sdom_le (h : T.SemiPath x w) : T.sdom w ≤ x := Nat.sInf_le h

theorem semiPath_sdom (hpos : 0 < w) (hw : w < T.count) : T.SemiPath (T.sdom w) w := by
  obtain ⟨p, hp⟩ := T.exists_parent w hpos hw
  have hsemi : T.SemiPath p w := .inl (T.parent_edge w p hp)
  exact Nat.sInf_mem (s := {x | T.SemiPath x w}) ⟨p, hsemi⟩

theorem sdom_le_parent {p : Nat} (hp : T.parent w = some p) : T.sdom w ≤ p :=
  sdom_le (.inl (T.parent_edge w p hp))

theorem sdom_lt (hpos : 0 < w) (hw : w < T.count) : T.sdom w < w := by
  obtain ⟨p, hp⟩ := T.exists_parent w hpos hw
  have hle := sdom_le_parent hp
  have hlt := T.falling w p hp
  omega

theorem SemiPath.through (h : T.SemiPath x w) :
    Through T.edge (fun y => y = x ∨ w ≤ y) x w := by
  rcases h with hedge | ⟨a, b, hxa, hpath, hbw⟩
  · exact (Through.refl (.inl rfl)).step hedge (.inr (Nat.le_refl w))
  · have hinner := hpath.mono (Q := fun y => y = x ∨ w ≤ y) fun y hy => .inr (Nat.le_of_lt hy)
    exact (hinner.head (.inl rfl) hxa).step hbw (.inr (Nat.le_refl w))

theorem SemiPath.ancestor (h : T.SemiPath x w) (hxw : x ≤ w) : Ancestor T.parent x w := by
  have hpath : Through T.edge (x ≤ ·) x w := h.through.mono fun y hy => by omega
  obtain ⟨m, hxm, hanc, hfrom, -⟩ := exists_lowest hpath
  have hmx : m ≤ x := hfrom.left
  exact Nat.le_antisymm hmx hxm ▸ hanc

theorem sdom_ancestor (hpos : 0 < w) (hw : w < T.count) : Ancestor T.parent (T.sdom w) w :=
  (semiPath_sdom hpos hw).ancestor (Nat.le_of_lt (sdom_lt hpos hw))

theorem sdom_le_sdom (hvw : T.edge v w) (huv : Ancestor T.parent u v) (hwu : w < u)
    (hu : u < T.count) : T.sdom w ≤ T.sdom u := by
  have hdown : Through T.edge (w < ·) u v := (tree_path_ge huv).mono fun x hx => by omega
  apply sdom_le
  rcases semiPath_sdom (by omega) hu with hedge | ⟨a, b, hxa, hpath, hbu⟩
  · exact .inr ⟨u, v, hedge, hdown, hvw⟩
  · have hinner : Through T.edge (w < ·) a b := hpath.mono fun x hx => by omega
    exact .inr ⟨a, v, hxa, (hinner.step hbu hwu).trans hdown, hvw⟩

theorem exists_offer (hpos : 0 < w) (hw : w < T.count) :
    (∃ v, T.edge v w ∧ v < w ∧ v = T.sdom w) ∨
      ∃ u v, T.edge v w ∧ Ancestor T.parent u v ∧ w < u ∧ T.sdom u ≤ T.sdom w := by
  rcases semiPath_sdom hpos hw with hedge | ⟨a, b, hxa, hpath, hbw⟩
  · exact .inl ⟨_, hedge, sdom_lt hpos hw, rfl⟩
  · obtain ⟨m, hwm, hanc, hsemi⟩ := exists_semiPath hxa hpath
    exact .inr ⟨m, b, hbw, hanc, hwm, sdom_le hsemi⟩

/-! ## Immediate dominators -/

theorem exists_low_of_avoids (h : Through T.edge (· ≠ s) 0 b) (hsb : s < b) :
    ∃ m x, s < m ∧ Ancestor T.parent m b ∧ x < s ∧ T.SemiPath x m := by
  have hlast : ∀ c, Through T.edge (· ≠ s) 0 c →
      c < s ∨ ∃ x a, x < s ∧ T.edge x a ∧ Through T.edge (s < ·) a c := by
    intro c hc
    induction hc with
    | refl hne => exact .inl (by omega)
    | @step c e _ hce hne ih =>
        rcases Nat.lt_or_gt_of_ne hne with hlt | hgt
        · exact .inl hlt
        · rcases ih with hcs | ⟨x, a, hxs, hxa, hpath⟩
          · exact .inr ⟨c, e, hcs, hce, .refl hgt⟩
          · exact .inr ⟨x, a, hxs, hxa, hpath.step hce hgt⟩
  rcases hlast b h with hbs | ⟨x, a, hxs, hxa, hpath⟩
  · omega
  · obtain ⟨m, hsm, hanc, hsemi⟩ := exists_semiPath hxa hpath
    exact ⟨m, x, hsm, hanc, hxs, hsemi⟩

theorem dominates_sdom (hpos : 0 < w) (hw : w < T.count) (hne : u ≠ w)
    (h : Dominates T.edge 0 u w) : Dominates T.edge 0 u (T.sdom w) := by
  intro hpath
  have huw : u ≤ w := ancestor_le (ancestor_of_dominates h hw)
  have hside := (semiPath_sdom hpos hw).through
  refine h (hpath.trans (hside.mono ?_))
  rintro x (rfl | hx)
  · exact hpath.right
  · omega

/-- A vertex is dominated by its semidominator unless a vertex between them has a lower one. -/
theorem immediateDominator_sdom (hpos : 0 < w) (hw : w < T.count)
    (hmin : ∀ u, T.sdom w < u → Ancestor T.parent u w → T.sdom w ≤ T.sdom u) :
    ImmediateDominator T.edge 0 (T.sdom w) w := by
  refine ⟨Nat.ne_of_lt (sdom_lt hpos hw), ?_, fun u hne h => dominates_sdom hpos hw hne h⟩
  intro hpath
  obtain ⟨m, x, hsm, hanc, hxs, hsemi⟩ := exists_low_of_avoids hpath (sdom_lt hpos hw)
  have hle := sdom_le hsemi
  have hge := hmin m hsm hanc
  omega

/-- A vertex shares its immediate dominator with the vertex between it and its semidominator that
has the lowest semidominator, if that is lower than its own. -/
theorem immediateDominator_of_lower (hpos : 0 < w) (hw : w < T.count) (hsu : T.sdom w < u)
    (huw : Ancestor T.parent u w)
    (hmin : ∀ x, T.sdom w < x → Ancestor T.parent x w → T.sdom u ≤ T.sdom x)
    (hidom : ImmediateDominator T.edge 0 d u) : ImmediateDominator T.edge 0 d w := by
  have hule : u ≤ w := ancestor_le huw
  have hu : u < T.count := by omega
  have hupos : 0 < u := by omega
  have hsdom := sdom_ancestor hpos hw
  have hdu : d < u := by
    have hle := ancestor_le (ancestor_of_dominates hidom.dominates hu)
    have hne := hidom.ne
    omega
  have hdsdom : d ≤ T.sdom u := by
    have hdom := dominates_sdom hupos hu hidom.ne hidom.dominates
    have hlt := sdom_lt hupos hu
    exact ancestor_le (ancestor_of_dominates hdom (by omega))
  refine ⟨by omega, ?_, ?_⟩
  · -- a path around `d` to `w` would give one to `u`
    intro hpath
    obtain ⟨m, x, hdm, hmw, hxd, hsemi⟩ := exists_low_of_avoids hpath (by omega)
    have hlow := sdom_le hsemi
    have hms : m ≤ T.sdom w := by
      by_contra hlt
      have := hmin m (by omega) hmw
      omega
    have hmu : Ancestor T.parent m u := Ancestor.of_le T.falling hmw huw (by omega)
    have hx : x < T.count := by omega
    have hto : Through T.edge (· ≠ d) 0 x := (tree_path_le hx).mono fun y hy => by omega
    have hside : Through T.edge (· ≠ d) x m := hsemi.through.mono fun y hy => by omega
    have hdown : Through T.edge (· ≠ d) m u := (tree_path_ge hmu).mono fun y hy => by omega
    exact hidom.dominates ((hto.trans hside).trans hdown)
  · intro e hne hdom
    have hes := dominates_sdom hpos hw hne hdom
    have hesle : e ≤ T.sdom w :=
      ancestor_le (ancestor_of_dominates hes (by have := sdom_lt hpos hw; omega))
    refine hidom.closest e (by omega) ?_
    intro hpath
    exact hdom (hpath.trans ((tree_path_ge huw).mono fun y hy => by omega))

end SearchOrder

end FlowDominance
