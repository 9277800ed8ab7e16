import FlowDominance.Proofs.ImmediateDominators

/-!
# The loop of the iteration

Passes change candidates in place, so every moment between two assignments counts, not only the ends of
passes.  The loop is told here as steps from moment to moment.  The invariant of candidates holds at
each of them, a step that changes a candidate lowers it, and so the loop ends.
-/

namespace FlowDominance.Dominator.Iterative

variable {E : Nat → Nat → Prop} {count i k : Nat} {doms doms' final : Candidates}
variable {preds : Array (List Nat)}

/-! ## Moments -/

/-- The loop in front of an assignment: whose turn it is, and whether a candidate has changed in this
pass. -/
structure Moment where
  doms : Candidates
  node : Nat
  changed : Bool

inductive Step (preds : Array (List Nat)) : Moment → Moment → Prop
  | assign {doms doms' : Candidates} {node : Nat} {changed : Bool} :
      node < doms.size → relax preds doms node = .ok doms' →
      Step preds ⟨doms, node, changed⟩ ⟨doms', node + 1, changed || doms' != doms⟩
  | again {doms : Candidates} : Step preds ⟨doms, doms.size, true⟩ ⟨doms, 1, false⟩

def opening (count : Nat) : Moment := ⟨initial count, 1, false⟩

def Arises (preds : Array (List Nat)) (count : Nat) (m : Moment) : Prop :=
  Relation.ReflTransGen (Step preds) (opening count) m

def Moment.Meets (m : Moment) (preds : Array (List Nat)) (a p : Nat) : Prop :=
  ∃ row s done rest, preds[m.node]? = some row ∧ start m.doms row m.node = .ok s ∧
    row = done ++ p :: rest ∧ done.foldlM (refine m.doms) s = .ok a ∧ HasCandidate m.doms p

structure Sound (preds : Array (List Nat)) (m : Moment) : Prop where
  first : m.doms[0]? = some (some 0)
  falling : ∀ i d : Nat, 0 < i → m.doms[i]? = some (some d) → d < i
  closed : ∀ i d : Nat, m.doms[i]? = some (some d) → HasCandidate m.doms d
  seeded : m.node < m.doms.size → m.doms[m.node]? = some none →
    ∃ row p, preds[m.node]? = some row ∧ row.min? = some p ∧ p < m.node
  /-- Chains that are made to meet are set all the way up, and they do meet. -/
  meets : m.node < m.doms.size → ∀ a p, m.Meets preds a p →
    HasCandidate m.doms a ∧ ∃ c, meet m.doms a p = .ok c ∧ HasCandidate m.doms c
  goes_on : m.node < m.doms.size → ∃ doms', relax preds m.doms m.node = .ok doms'

def Lowers (m m' : Moment) : Prop :=
  ∀ i : Nat, m'.doms[i]? ≠ m.doms[i]? → i = m.node ∧ ∃ d', m'.doms[i]? = some (some d') ∧
    ∀ d, m.doms[i]? = some (some d) → d' < d

/-! ## The invariant -/

structure Underway (E : Nat → Nat → Prop) (count : Nat) (m : Moment) : Prop where
  refining : Refining E count m.doms
  pos : 0 < m.node
  le : m.node ≤ count
  before : ∀ i, i < m.node → HasCandidate m.doms i

theorem underway_start (hcount : 0 < count) (h : Refining E count doms) :
    Underway E count ⟨doms, 1, false⟩ where
  refining := h
  pos := Nat.one_pos
  le := hcount
  before := by
    intro i hi
    have hzero : i = 0 := Nat.lt_one_iff.1 hi
    exact ⟨0, hzero ▸ h.first⟩

namespace Underway

variable {m m' : Moment}

theorem exists_assign (hrows : Rows E count preds) (h : Underway E count m)
    (hlt : m.node < m.doms.size) : ∃ doms', relax preds m.doms m.node = .ok doms' ∧
      Refining E count doms' ∧ HasCandidate doms' m.node ∧ Lowered m.doms doms' :=
  exists_relax_ok hrows h.refining h.pos (h.refining.size ▸ hlt) h.before

theorem assigned (hrows : Rows E count preds) (h : Underway E count m) (hlt : m.node < m.doms.size)
    (hrelax : relax preds m.doms m.node = .ok doms') :
    Refining E count doms' ∧ HasCandidate doms' m.node ∧ Lowered m.doms doms' := by
  obtain ⟨next, hnext, hassigned⟩ := h.exists_assign hrows hlt
  rw [hrelax, Except.ok.injEq] at hnext
  exact hnext ▸ hassigned

theorem step (hrows : Rows E count preds) (h : Underway E count m) (hstep : Step preds m m') :
    Underway E count m' := by
  cases hstep with
  | assign hlt hrelax =>
      obtain ⟨hrefining, hset, -⟩ := h.assigned hrows hlt hrelax
      refine ⟨hrefining, Nat.succ_pos _, h.refining.size ▸ hlt, ?_⟩
      intro i hi
      exact hrefining.filled i _ (Nat.le_of_lt_succ hi) hset
  | again => exact underway_start (Nat.lt_of_lt_of_le h.pos h.le) h.refining

theorem lowers (hrows : Rows E count preds) (h : Underway E count m) (hstep : Step preds m m') :
    Lowers m m' := by
  intro i hchanged
  cases hstep with
  | again => exact absurd rfl hchanged
  | @assign doms doms' node changed hlt hrelax =>
      have hnode : i = node := by
        by_contra hne
        exact hchanged (relax_other hrelax hne)
      subst hnode
      obtain ⟨-, ⟨d', hd'⟩, hlowered⟩ := h.assigned hrows hlt hrelax
      refine ⟨rfl, d', hd', ?_⟩
      intro d hd
      obtain ⟨c, hcd, hc⟩ := hlowered i d hd
      have heq : c = d' := by simpa [hc] using hd'
      have hne : d' ≠ d := by
        rintro rfl
        exact hchanged (hd'.trans hd.symm)
      omega

theorem hasCandidate_of_refineAll (h : Underway E count m) {done : List Nat} {a s : Nat}
    (hs : HasCandidate m.doms s) (hrefine : done.foldlM (refine m.doms) s = .ok a) :
    HasCandidate m.doms a := by
  have hancestor := (ancestor_of_refineAll h.refining.first hrefine).1
  exact h.refining.filled a s (hancestor.le h.refining.falling) hs

theorem closed (h : Underway E count m) {i d : Nat} (hd : m.doms[i]? = some (some d)) :
    HasCandidate m.doms d := by
  by_cases hi : i = 0
  · subst hi
    have hzero : d = 0 := by simpa [h.refining.first] using hd.symm
    exact ⟨0, hzero ▸ h.refining.first⟩
  · have hlt := (h.refining.candidate i d hi hd).lt
    exact h.refining.filled d i (Nat.le_of_lt hlt) ⟨d, hd⟩

theorem exists_seed (hrows : Rows E count preds) (h : Underway E count m)
    (hlt : m.node < m.doms.size) (hunset : m.doms[m.node]? = some none) :
    ∃ row p, preds[m.node]? = some row ∧ row.min? = some p ∧ p < m.node := by
  have hnode : m.node < count := h.refining.size ▸ hlt
  have hrow : ∃ row, preds[m.node]? = some row :=
    ⟨_, Array.getElem?_eq_getElem (hrows.size ▸ hnode)⟩
  obtain ⟨row, hrow⟩ := hrow
  obtain ⟨s, hstart, hs, -⟩ := exists_start_ok hrows h.refining h.pos hnode hrow h.before
  refine ⟨row, s, hrow, ?_, hs.lt⟩
  rw [start, Slots.read_eq_ok hunset, ok_bind] at hstart
  cases hmin : row.min? with
  | none => simp [hmin] at hstart
  | some p =>
      simp only [hmin] at hstart
      split at hstart
      · exact congrArg some (Except.ok.inj hstart)
      · contradiction

theorem exists_meet (hrows : Rows E count preds) (h : Underway E count m)
    (hlt : m.node < m.doms.size) {a p : Nat} (hmeets : m.Meets preds a p) :
    HasCandidate m.doms a ∧ ∃ c, meet m.doms a p = .ok c ∧ HasCandidate m.doms c := by
  obtain ⟨row, s, done, rest, hrow, hstart, -, hrefine, hp⟩ := hmeets
  obtain ⟨s', hstart', hs, -⟩ :=
    exists_start_ok hrows h.refining h.pos (h.refining.size ▸ hlt) hrow h.before
  rw [hstart, Except.ok.injEq] at hstart'
  have ha := h.hasCandidate_of_refineAll (hstart' ▸ h.before s' hs.lt) hrefine
  obtain ⟨c, hc, -⟩ := h.refining.exists_meet_ok ha hp
  have hca := (ancestor_of_climb (fun _ _ hup => up_eq_ok h.refining.first hup) hc).1
  exact ⟨ha, c, hc, h.refining.filled c a (hca.le h.refining.falling) ha⟩

theorem sound (hrows : Rows E count preds) (h : Underway E count m) : Sound preds m where
  first := h.refining.first
  falling := fun i d hi hd => (h.refining.candidate i d (Nat.ne_of_gt hi) hd).lt
  closed := fun _ _ hd => h.closed hd
  seeded := fun hlt hunset => h.exists_seed hrows hlt hunset
  meets := fun hlt _ _ hmeets => h.exists_meet hrows hlt hmeets
  goes_on := by
    intro hlt
    obtain ⟨doms', hrelax, -⟩ := h.exists_assign hrows hlt
    exact ⟨doms', hrelax⟩

end Underway

theorem Arises.underway {m : Moment} (hrows : Rows E count preds) (hcount : 0 < count)
    (h : Arises preds count m) : Underway E count m := by
  induction h with
  | refl => exact underway_start hcount (refining_initial E hcount)
  | tail _ hstep ih => exact ih.step hrows hstep

/-! ## Termination -/

/-- Candidates weigh most; with the same candidates a pass comes to its end, and a pass without change
is the last. -/
theorem Underway.rank_lt {m m' : Moment} (hrows : Rows E count preds) (h : Underway E count m)
    (hstep : Step preds m m') :
    Prod.Lex (· < ·) (Prod.Lex (· < ·) (· < ·))
      (weight m'.doms, m'.changed.toNat, count - m'.node)
      (weight m.doms, m.changed.toNat, count - m.node) := by
  cases hstep with
  | again => exact .right _ (.left _ _ Nat.zero_lt_one)
  | @assign doms doms' node changed hlt hrelax =>
      obtain ⟨hrefining, -, hlowered⟩ := h.assigned hrows hlt hrelax
      have hsize : doms'.size = doms.size := hrefining.size.trans h.refining.size.symm
      by_cases hsame : doms' = doms
      · subst hsame
        have hle : doms'.size = count := h.refining.size
        simp only [bne_self_eq_false, Bool.or_false]
        exact .right _ (.right _ (by omega))
      · exact .left _ _ (weight_lt hsize hlowered (fun i d hd => hrefining.lt_size hd) hsame)

theorem Underway.accessible {m : Moment} (hrows : Rows E count preds) (h : Underway E count m) :
    Acc (fun next now => Step preds now next) m := by
  refine .intro m ?_
  intro next hstep
  exact accessible hrows (h.step hrows hstep)
termination_by (weight m.doms, m.changed.toNat, count - m.node)
decreasing_by exact h.rank_lt hrows hstep

/-! ## The result -/

theorem size_initial (count : Nat) : (initial count).size = count := by simp [initial]

theorem size_of_relax (h : relax preds doms k = .ok doms') : doms'.size = doms.size := by
  unfold relax at h
  obtain ⟨row, -, h⟩ := bind_eq_ok_iff.1 h
  obtain ⟨s, -, h⟩ := bind_eq_ok_iff.1 h
  obtain ⟨c, -, h⟩ := bind_eq_ok_iff.1 h
  unfold Slots.write at h
  split at h
  · exact (Except.ok.inj h) ▸ Array.size_set ..
  · contradiction

theorem steps_of_relaxAll {a n : Nat} (changed : Bool) (hend : a + n = doms.size)
    (h : (List.range' a n).foldlM (relax preds) doms = .ok doms') :
    Relation.ReflTransGen (Step preds) ⟨doms, a, changed⟩
      ⟨doms', a + n, changed || doms' != doms⟩ ∧ doms'.size = doms.size := by
  induction n generalizing a doms changed with
  | zero =>
      have heq : doms = doms' := Except.ok.inj h
      subst heq
      rw [bne_self_eq_false, Bool.or_false]
      exact ⟨.refl, rfl⟩
  | succ n ih =>
      rw [List.range'_succ, List.foldlM_cons] at h
      obtain ⟨next, hrelax, hrest⟩ := bind_eq_ok_iff.1 h
      have hsize := size_of_relax hrelax
      obtain ⟨hsteps, hsize'⟩ := ih (changed || next != doms) (by omega) hrest
      have hchanged : (next != doms || doms' != next) = (doms' != doms) := by
        by_cases hfirst : next = doms
        · simp [hfirst]
        · have hkept : doms' ≠ doms := by
            rintro rfl
            refine hfirst (Array.ext_getElem? ?_)
            intro i
            by_cases hia : i = a
            · exact (relaxAll_before hrest (by omega)).symm
            · exact relax_other hrelax hia
          rw [bne_iff_ne.2 hfirst, bne_iff_ne.2 hkept, Bool.true_or]
      have hstep : Step preds ⟨doms, a, changed⟩ ⟨next, a + 1, changed || next != doms⟩ :=
        .assign (by omega) hrelax
      rw [Bool.or_assoc, hchanged, show a + 1 + n = a + (n + 1) by omega] at hsteps
      exact ⟨.head hstep hsteps, hsize'.trans hsize⟩

theorem steps_of_settle (hpos : 0 < doms.size) (h : settle preds doms = .ok final) :
    Relation.ReflTransGen (Step preds) ⟨doms, 1, false⟩ ⟨final, doms.size, false⟩ := by
  have hend : 1 + (doms.size - 1) = doms.size := by omega
  fun_induction settle preds doms with
  | case1 doms fault hpass => contradiction
  | case2 doms hpass =>
      have heq : doms = final := Except.ok.inj h
      have hsteps := (steps_of_relaxAll false hend hpass).1
      rw [hend, bne_self_eq_false] at hsteps
      exact heq ▸ hsteps
  | case3 doms next hpass hne hlt ih =>
      obtain ⟨hsteps, hsize⟩ := steps_of_relaxAll false hend hpass
      have hchanged : (next != doms) = true := by simpa using hne
      rw [hend, Bool.false_or, hchanged, ← hsize] at hsteps
      have hrest := ih (by omega) h (by omega)
      rw [← hsize]
      exact (hsteps.tail .again).trans hrest
  | case4 doms next hpass hne hge => contradiction

end Dominator.Iterative

open Dominator.Iterative

theorem passes_keep_sound_and_end {g : FlowGraph} {entry : Value} (hwf : g.WellFormed)
    (hentry : g.contains entry = true) :
    ∃ tree preds, g.spanningTree (.ofList g.vertices) entry = .ok tree ∧
      predecessorRows (g.numbered (.ofList g.vertices)) tree.reversePostorder = .ok preds ∧
      (∀ m, Arises preds tree.reversePostorder.size m →
        Sound preds m ∧ ∀ m', Step preds m m' → Lowers m m') ∧
      (¬∃ run : Nat → Moment, run 0 = opening tree.reversePostorder.size ∧
        ∀ k, Step preds (run k) (run (k + 1))) ∧
      ∃ doms, settle preds (initial tree.reversePostorder.size) = .ok doms ∧
        Arises preds tree.reversePostorder.size ⟨doms, tree.reversePostorder.size, false⟩ := by
  obtain ⟨root, outs, tree, -, -, htree, hsearched, hsources⟩ :=
    FlowGraph.exists_searching hwf hentry
  obtain ⟨preds, hpreds, hrows⟩ := exists_predecessorRows_ok hsearched hsources
  have hpos := (Array.getElem?_eq_some_iff.1 hsearched.listing_reversePostorder.first).1
  refine ⟨tree, preds, htree, hpreds, ?_, ?_, ?_⟩
  · intro m hm
    have hunderway := hm.underway hrows hpos
    exact ⟨hunderway.sound hrows, fun m' hstep => hunderway.lowers hrows hstep⟩
  · rintro ⟨run, hzero, hrun⟩
    have hacc := (Arises.underway hrows hpos .refl).accessible hrows
    exact (acc_iff_isEmpty_descending_chain.1 hacc).false ⟨run, hzero, hrun⟩
  · obtain ⟨doms, hsettle, -⟩ := exists_settle_ok hrows (refining_initial _ hpos)
    have hsize : (initial tree.reversePostorder.size).size = tree.reversePostorder.size :=
      size_initial _
    have hsteps := steps_of_settle (hsize.symm ▸ hpos) hsettle
    rw [hsize] at hsteps
    exact ⟨doms, hsettle, hsteps⟩

theorem passes_keep_sound_and_end_twoWayLoop :
    twoWayLoop.graph.WellFormed ∧ twoWayLoop.graph.contains (.bool true) = true ∧
    ∃ tree preds,
      twoWayLoop.graph.spanningTree (.ofList twoWayLoop.graph.vertices) (.bool true) = .ok tree ∧
      predecessorRows (twoWayLoop.graph.numbered (.ofList twoWayLoop.graph.vertices))
        tree.reversePostorder = .ok preds ∧
      (∀ m, Arises preds tree.reversePostorder.size m →
        Sound preds m ∧ ∀ m', Step preds m m' → Lowers m m') ∧
      (¬∃ run : Nat → Moment, run 0 = opening tree.reversePostorder.size ∧
        ∀ k, Step preds (run k) (run (k + 1))) ∧
      ∃ doms, settle preds (initial tree.reversePostorder.size) = .ok doms ∧
        Arises preds tree.reversePostorder.size ⟨doms, tree.reversePostorder.size, false⟩ :=
  ⟨twoWayLoop_wellFormed, by decide,
    passes_keep_sound_and_end twoWayLoop_wellFormed (by decide)⟩

end FlowDominance
