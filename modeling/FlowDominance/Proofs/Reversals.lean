import FlowDominance.Proofs.EdgeLog
import FlowDominance.Proofs.Refusals

/-!
# Stacks of reversals

However views are stacked, what is seen is the graph, its reversal or the reversal of that.  The last of
these differs from the graph in nothing but what it says of its exit: a reversed graph takes the other
end for granted, and so promises an exit that may not be there.
-/

namespace FlowDominance

namespace FlowGraph

variable {g : FlowGraph}

theorem map_reversed_twice (row : Except Fault (List Edge)) :
    (row.map (List.map Edge.reversed)).map (List.map Edge.reversed) = row := by
  cases row with
  | error fault => rfl
  | ok es => simp [Except.map, Function.comp_def]

theorem reversed_reversed (h : g.hasExit = true) : g.reversed.reversed = g := by
  cases g with
  | mk vertices inEdges outEdges entry exit hasExit =>
      cases h
      simp only [reversed, map_reversed_twice, if_true]

end FlowGraph

namespace View

variable {g : FlowGraph}

inductive Turn where
  | reverse
  | wrap
  deriving DecidableEq, Repr

def Turn.apply : Turn → View → View
  | .reverse, v => v.reverse
  | .wrap, v => v.wrap

def Turn.depth : Turn → Nat → Nat
  | .reverse, 0 => 1
  | .reverse, m + 1 => m
  | .wrap, m => m + 1

def stacked (g : FlowGraph) (turns : List Turn) : View :=
  turns.foldl (fun v turn => turn.apply v) (.of g)

def depth (turns : List Turn) : Nat := turns.foldl (fun m turn => turn.depth m) 0

theorem Turn.apply_mk (turn : Turn) (g : FlowGraph) (m : Nat) :
    turn.apply ⟨g, m⟩ = ⟨g, turn.depth m⟩ := by
  cases turn with
  | reverse => cases m <;> rfl
  | wrap => rfl

theorem stacked_eq (g : FlowGraph) (turns : List Turn) : stacked g turns = ⟨g, depth turns⟩ := by
  have hfrom : ∀ m, turns.foldl (fun v turn => turn.apply v) ⟨g, m⟩ =
      (⟨g, turns.foldl (fun m turn => turn.depth m) m⟩ : View) := by
    induction turns with
    | nil => exact fun m => rfl
    | cons turn turns ih =>
        intro m
        rw [List.foldl_cons, turn.apply_mk, ih, List.foldl_cons]
  exact hfrom 0

theorem even_depth (turns : List Turn) : Even (depth turns) ↔ Even turns.length := by
  have hfrom : ∀ m, Even (turns.foldl (fun m turn => turn.depth m) m) ↔ Even (m + turns.length) := by
    induction turns with
    | nil => exact fun m => Iff.rfl
    | cons turn turns ih =>
        intro m
        have hstep : Even (turn.depth m) ↔ Even (m + 1) := by
          cases turn with
          | wrap => exact Iff.rfl
          | reverse => cases m <;> simp [Turn.depth, Nat.even_add_one]
        rw [List.foldl_cons, ih, List.length_cons]
        simp only [Nat.even_add, Nat.even_add_one] at hstep ⊢
        rw [hstep]
        tauto
  simpa [depth] using hfrom 0

theorem through_add_two (g : FlowGraph) (m : Nat) : through g (m + 3) = through g (m + 1) :=
  FlowGraph.reversed_reversed rfl

theorem through_odd {m : Nat} (h : ¬Even m) : through g m = g.reversed := by
  obtain ⟨k, rfl⟩ := Nat.not_even_iff_odd.1 h
  induction k with
  | zero => rfl
  | succ k ih => exact (through_add_two g (2 * k)).trans (ih (by simp))

theorem through_even {m : Nat} (h : Even m) (hpos : m ≠ 0) :
    through g m = g.reversed.reversed := by
  cases m with
  | zero => contradiction
  | succ m =>
      have hodd : ¬Even m := by simpa [Nat.even_add_one] using h
      rw [through, through_odd hodd]

theorem contains_through (g : FlowGraph) (m : Nat) (v : Value) :
    (through g m).contains v = g.contains v := by
  induction m with
  | zero => rfl
  | succ m ih => rw [through, FlowGraph.contains_reversed, ih]

theorem size_through (g : FlowGraph) (m : Nat) : (through g m).size = g.size := by
  induction m with
  | zero => rfl
  | succ m ih => rw [through, FlowGraph.size_reversed, ih]

/-! ## Promised exits -/

/-- What the view says about its exit is so, and where the exit is missing, post-dominance is empty. -/
structure TrueToExit (v : View) : Prop where
  hasExit_iff : v.graph.hasExit = true ↔ ∃ x, v.graph.exit = .ok x ∧ v.graph.contains x = true
  missing_iff : familyOf v.graph.exit = some .missingExit ↔ v.graph.hasExit = false
  empty : (∀ x, v.graph.exit ≠ .ok x) → ∀ setting m,
    ((Analysis.postIdoms v setting).apply m).1 = .ok .empty ∧
    ((Analysis.postFrontiers v setting).apply m).1 = .ok .empty

end View

namespace Adjacency

variable {g : Adjacency} {turns : List View.Turn}

def exitBehind (g : Adjacency) (turns : List View.Turn) : Option Value :=
  if Even turns.length then g.exit? else g.entry?

def exitFault (turns : List View.Turn) : Fault :=
  if View.depth turns = 0 then .noExit
  else if Even turns.length then .noReversedEntry else .noEntry

theorem exit_stacked (g : Adjacency) (turns : List View.Turn) :
    (View.stacked g.graph turns).graph.exit =
      (g.exitBehind turns).elim (.error (exitFault turns)) .ok := by
  rw [View.stacked_eq, exitBehind, exitFault]
  change (View.through g.graph (View.depth turns)).exit = _
  by_cases heven : Even turns.length
  · rw [if_pos heven, if_pos heven]
    by_cases hzero : View.depth turns = 0
    · rw [hzero, if_pos rfl]
      rfl
    · rw [View.through_even ((View.even_depth turns).2 heven) hzero, if_neg hzero]
      cases hexit : g.exit? <;> simp [FlowGraph.reversed, graph, hexit]
  · have hodd : ¬Even (View.depth turns) := fun h => heven ((View.even_depth turns).1 h)
    have hzero : View.depth turns ≠ 0 := fun h => hodd (by simp [h])
    rw [View.through_odd hodd, if_neg heven, if_neg heven, if_neg hzero]
    rfl

theorem hasExit_stacked (g : Adjacency) (turns : List View.Turn) :
    (View.stacked g.graph turns).graph.hasExit =
      (decide (View.depth turns ≠ 0) || g.exit?.isSome) := by
  rw [View.stacked_eq]
  change (View.through g.graph (View.depth turns)).hasExit = _
  cases View.depth turns with
  | zero => rfl
  | succ m => simp [View.through, FlowGraph.reversed]

theorem entry_behind (h : View.depth turns ≠ 0) :
    (View.stacked g.graph turns).reverse.graph.entry = (View.stacked g.graph turns).graph.exit := by
  rw [View.stacked_eq]
  cases hdepth : View.depth turns with
  | zero => contradiction
  | succ m => rfl

theorem Reached.contains_exitBehind {x : Value} (hg : g.Reached) (hx : g.exitBehind turns = some x) :
    (View.stacked g.graph turns).graph.contains x = true := by
  obtain ⟨log, hlog⟩ := hg.exists_logged
  rw [View.stacked_eq]
  change (View.through g.graph (View.depth turns)).contains x = true
  rw [View.contains_through, contains_graph]
  unfold exitBehind at hx
  split at hx
  · exact hlog.exit_mem x hx
  · exact hlog.entry_mem x hx

theorem trueToExit_of (hg : g.Reached)
    (h : View.depth turns = 0 ∨ (g.exitBehind turns).isSome = true) :
    (View.stacked g.graph turns).TrueToExit := by
  have hexit := exit_stacked g turns
  have hhas := hasExit_stacked g turns
  cases hbehind : g.exitBehind turns with
  | some x =>
      rw [hbehind, Option.elim_some] at hexit
      have htrue : (View.stacked g.graph turns).graph.hasExit = true := by
        rw [hhas]
        by_cases hzero : View.depth turns = 0
        · have heven : Even turns.length := (View.even_depth turns).1 (by simp [hzero])
          rw [exitBehind, if_pos heven] at hbehind
          simp [hbehind]
        · simp [hzero]
      exact {
        hasExit_iff := iff_of_true htrue ⟨x, hexit, hg.contains_exitBehind hbehind⟩
        missing_iff := by simp [hexit, htrue, familyOf]
        empty := fun hnone => absurd hexit (hnone x) }
  | none =>
      have hzero : View.depth turns = 0 := by simpa [hbehind] using h
      have heven : Even turns.length := (View.even_depth turns).1 (by simp [hzero])
      rw [hbehind, Option.elim_none, exitFault, if_pos hzero] at hexit
      rw [exitBehind, if_pos heven] at hbehind
      have hfalse : (View.stacked g.graph turns).graph.hasExit = false := by
        simp [hhas, hzero, hbehind]
      exact {
        hasExit_iff := by simp [hexit, hfalse]
        missing_iff := by simp [hexit, hfalse, familyOf, Fault.family]
        empty := fun _ setting m => ⟨Analysis.postIdoms_without_exit _ hfalse setting m,
          Analysis.postFrontiers_without_exit _ hfalse setting m⟩ }

end Adjacency

open Adjacency

theorem trueToExit_iff {g : Adjacency} (hg : g.Reached) (turns : List View.Turn) :
    ((View.stacked g.graph turns).TrueToExit ↔
      View.depth turns = 0 ∨ (g.exitBehind turns).isSome = true) ∧
    (¬(View.stacked g.graph turns).TrueToExit →
      (View.stacked g.graph turns).graph.hasExit = true ∧
      (View.stacked g.graph turns).graph.exit = .error (exitFault turns) ∧
      ∀ setting m, ((Analysis.postIdoms (View.stacked g.graph turns) setting).apply m).1 =
          .error (exitFault turns) ∧
        ∀ context, setting.resolve = .ok context →
          ((Analysis.postFrontiers (View.stacked g.graph turns) setting).apply m).1 =
            .error (exitFault turns)) := by
  have hfalse : ¬(View.depth turns = 0 ∨ (g.exitBehind turns).isSome = true) →
      (View.stacked g.graph turns).graph.hasExit = true ∧
      (View.stacked g.graph turns).graph.exit = .error (exitFault turns) := by
    intro h
    rw [not_or, Bool.not_eq_true, Option.isSome_eq_false_iff, Option.isNone_iff_eq_none] at h
    rw [hasExit_stacked, exit_stacked, h.2]
    exact ⟨by simp [h.1], rfl⟩
  have hiff : (View.stacked g.graph turns).TrueToExit ↔
      View.depth turns = 0 ∨ (g.exitBehind turns).isSome = true := by
    refine ⟨fun htrue => ?_, trueToExit_of hg⟩
    by_contra h
    obtain ⟨hhas, hexit⟩ := hfalse h
    obtain ⟨x, hx, -⟩ := htrue.hasExit_iff.1 hhas
    rw [hexit] at hx
    cases hx
  refine ⟨hiff, fun h => ?_⟩
  rw [hiff] at h
  obtain ⟨hhas, hexit⟩ := hfalse h
  refine ⟨hhas, hexit, fun setting m => ⟨?_, fun context hresolve => ?_⟩⟩
  · rw [Analysis.postIdoms_outcome _ hhas, entry_behind (not_or.1 h).1, hexit]
    rfl
  · rw [Analysis.postFrontiers_outcome _ hhas, hresolve, ok_bind, entry_behind (not_or.1 h).1, hexit]
    rfl

theorem trueToExit_iff_unmarkedEdge :
    unmarkedEdge.Reached ∧ (View.stacked unmarkedEdge.graph [.wrap, .reverse]).TrueToExit ∧
    ¬(View.stacked unmarkedEdge.graph [.reverse, .wrap]).TrueToExit ∧
    ((Analysis.postIdoms (View.stacked unmarkedEdge.graph [.reverse, .wrap]) .standard).apply
      (.new (.new false .console) .warning .steady)).1 = .error .noReversedEntry := by
  have htwice : ¬(View.stacked unmarkedEdge.graph [.reverse, .wrap]).TrueToExit := by
    rw [(trueToExit_iff unmarkedEdge_reached _).1]
    decide
  refine ⟨unmarkedEdge_reached, ?_, htwice, ?_⟩
  · rw [(trueToExit_iff unmarkedEdge_reached _).1]
    decide
  · exact (((trueToExit_iff unmarkedEdge_reached _).2 htwice).2.2 _ _).1

/-- A reversed graph promises an exit even where the graph behind it has no vertex at all. -/
theorem reversed_empty_not_trueToExit :
    Adjacency.empty.Reached ∧ ¬(View.stacked Adjacency.empty.graph [.wrap]).TrueToExit ∧
    (View.stacked Adjacency.empty.graph [.wrap]).graph.hasExit = true ∧
    (View.stacked Adjacency.empty.graph [.wrap]).graph.exit = .error .noEntry ∧
    ((Analysis.postIdoms (View.stacked Adjacency.empty.graph [.wrap]) .standard).apply
      (.new (.new false .console) .warning .steady)).1 = .error .noEntry := by
  refine ⟨.designated none none rfl, ?_, rfl, rfl, rfl⟩
  intro htrue
  obtain ⟨x, hx, -⟩ := htrue.hasExit_iff.1 rfl
  cases hx

end FlowDominance
