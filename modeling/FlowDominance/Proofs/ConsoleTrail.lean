import FlowDominance.Monitor.Script
import FlowDominance.Proofs.Faultless

/-!
# The trail of a console

All that the steps of a script depend on, and all that they leave behind but clock and records, is the
path of the open scopes and the paths of those that ended.  Both make a stack with a history.  A
step makes moves on it: a block makes those of its inner steps between one that opens its scope and
one that ends a scope, however the block comes to its end.
-/

namespace FlowDominance

/-- The names of the open scopes, the outermost first, and the paths of the scopes that ended. -/
structure Trail where
  path : List String
  ended : List (List String)
  deriving DecidableEq, Repr

def Console.trail (c : Console) : Trail := ⟨c.path, c.history.map Ended.path⟩

namespace Trail

inductive Move where
  | push (name : String)
  | pop
  deriving DecidableEq, Repr

def push (t : Trail) (name : String) : Trail := { t with path := t.path ++ [name] }

def pop (t : Trail) : Except Fault Unit × Trail :=
  if t.path = [] then (.error .endAtRoot, t)
  else (.ok (), ⟨t.path.dropLast, t.ended ++ [t.path]⟩)

def move (t : Trail) : Move → Trail
  | .push name => t.push name
  | .pop => t.pop.2

def along (t : Trail) (moves : List Move) : Trail := moves.foldl move t

@[simp] theorem along_nil (t : Trail) : t.along [] = t := rfl

@[simp] theorem along_push (t : Trail) (name : String) (moves : List Move) :
    t.along (.push name :: moves) = (t.push name).along moves := rfl

@[simp] theorem along_pop (t : Trail) (moves : List Move) :
    t.along (.pop :: moves) = t.pop.2.along moves := rfl

@[simp] theorem along_append (t : Trail) (moves later : List Move) :
    t.along (moves ++ later) = (t.along moves).along later := List.foldl_append ..

variable {t : Trail}

theorem pop_of_nil (h : t.path = []) : t.pop = (.error .endAtRoot, t) := if_pos h

theorem pop_of_ne_nil (h : t.path ≠ []) :
    t.pop = (.ok (), ⟨t.path.dropLast, t.ended ++ [t.path]⟩) := if_neg h

theorem exists_ended (t : Trail) (moves : List Move) :
    ∃ new, (t.along moves).ended = t.ended ++ new ∧ [] ∉ new := by
  induction moves generalizing t with
  | nil => exact ⟨[], by simp⟩
  | cons move moves ih =>
      cases move with
      | push name => exact ih (t.push name)
      | pop =>
          obtain ⟨new, hended, hnew⟩ := ih t.pop.2
          rw [along_pop, hended]
          by_cases hpath : t.path = []
          · exact ⟨new, by rw [pop_of_nil hpath], hnew⟩
          · refine ⟨t.path :: new, by simp [pop_of_ne_nil hpath], ?_⟩
            simpa [hnew] using Ne.symm hpath

/-- The height of a stack after the moves, unless they reach below its bottom. -/
def height : Nat → List Move → Option Nat
  | n, [] => some n
  | n, .push _ :: moves => height (n + 1) moves
  | 0, .pop :: _ => none
  | n + 1, .pop :: moves => height n moves

def Balanced (moves : List Move) : Prop := height 0 moves = some 0

instance (moves : List Move) : Decidable (Balanced moves) :=
  inferInstanceAs (Decidable (height 0 moves = some 0))

/-- Moves that stay above `base` leave it in place, and the scopes that they end lie in it. -/
theorem along_above {base extra : List String} {n : Nat} (moves : List Move)
    (hpath : t.path = base ++ extra) (hheight : height extra.length moves = some n) :
    ∃ left new, left.length = n ∧ t.along moves = ⟨base ++ left, t.ended ++ new⟩ ∧
      ∀ p ∈ new, ∃ q, q ≠ [] ∧ p = base ++ q := by
  induction moves generalizing t extra with
  | nil =>
      refine ⟨extra, [], Option.some.inj hheight, ?_, by simp⟩
      rw [along_nil, ← hpath, List.append_nil]
  | cons move moves ih =>
      cases move with
      | push name =>
          have hpush : (t.push name).path = base ++ (extra ++ [name]) := by simp [push, hpath]
          exact ih hpush (by simpa [height] using hheight)
      | pop =>
          rcases List.eq_nil_or_concat extra with rfl | ⟨outer, top, rfl⟩
          · simp [height] at hheight
          · rw [List.concat_eq_append] at hpath hheight
            have hne : t.path ≠ [] := by simp [hpath]
            have hpop : t.pop.2 = ⟨base ++ outer, t.ended ++ [t.path]⟩ := by
              rw [pop_of_ne_nil hne, hpath, ← List.append_assoc, List.dropLast_concat]
            have hbelow : t.pop.2.path = base ++ outer := by rw [hpop]
            obtain ⟨left, new, hlen, halong, hnew⟩ := ih hbelow (by simpa [height] using hheight)
            refine ⟨left, t.path :: new, hlen, ?_, ?_⟩
            · rw [along_pop, halong, hpop]
              simp
            · rintro p (_ | ⟨_, hp⟩)
              · exact ⟨outer ++ [top], by simp, hpath⟩
              · exact hnew p hp

end Trail

namespace Monitor

open Trail (Move)

mutual

/-- The moves of a step.  They are the same whether or not a block raises a fault. -/
def Step.moves : Step → List Move
  | .enter name => [.push name]
  | .leave => [.pop]
  | .output _ => []
  | .verbose _ => []
  | .block name steps _ => .push name :: (allMoves steps ++ [.pop])

def allMoves : List Step → List Move
  | [] => []
  | step :: rest => step.moves ++ allMoves rest

end

def sightAt (t : Trail) (outcome : Except Fault Unit) (inner : Option (List Sight)) : Sight :=
  .mk outcome ("[ " ++ " | ".intercalate t.path ++ " ]") t.path.isEmpty inner

mutual

def sightOf (t : Trail) : Step → Sight
  | .enter name => sightAt (t.push name) (.ok ()) none
  | .leave => sightAt t.pop.2 t.pop.1 none
  | .output _ => sightAt t (.ok ()) none
  | .verbose _ => sightAt t (.ok ()) none
  | .block name steps raises =>
      let inside := (t.push name).along (allMoves steps)
      let outcome := do
        inside.pop.1
        if raises then .error (.raised name) else .ok ()
      sightAt inside.pop.2 outcome (some (sightsOf (t.push name) steps))

def sightsOf (t : Trail) : List Step → List Sight
  | [] => []
  | step :: rest => sightOf t step :: sightsOf (t.along step.moves) rest

end

variable {steps : List Step}

theorem trail_enter (m : Monitor) (name : String) :
    (m.enter name).console.trail = m.console.trail.push name := by
  simp [enter, tick, push, output, log, Console.trail, Console.path, Trail.push]

theorem leave_by_trail (m : Monitor) :
    (leave.apply m).1 = m.console.trail.pop.1 ∧
      (leave.apply m).2.console.trail = m.console.trail.pop.2 := by
  rw [leave, Change.apply_mk]
  cases hscopes : m.console.scopes with
  | nil => simp [hscopes, Trail.pop, Console.trail, Console.path, tick]
  | cons scope rest =>
      simp [hscopes, Trail.pop, Console.trail, Console.path, tick, output, log, Monitor.pop]

theorem sight_eq (m : Monitor) (outcome : Except Fault Unit) (inner : Option (List Sight)) :
    m.sight outcome inner = sightAt m.console.trail outcome inner := by
  simp [sight, sightAt, Console.trail, Console.pathText, Console.atRoot, Console.path]

theorem perform_leave (m : Monitor) : perform .leave m =
    ((leave.apply m).2.sight (leave.apply m).1 none, (leave.apply m).2) := rfl

theorem apply_phase {α : Type} (name : String) (body : Change Monitor α) (m : Monitor) :
    (Monitored.phase name body).apply m =
      ((do
          (leave.apply (body.apply (m.enter name)).2).1
          (body.apply (m.enter name)).1),
        (leave.apply (body.apply (m.enter name)).2).2) := by
  rw [Monitored.phase, Change.apply_mk]
  rcases hended : leave.apply (body.apply (m.enter name)).2 with ⟨_ | _, after⟩ <;>
    simp [Monitored.watch, Change.within, Monitored.monitor, Monitored.withMonitor,
      Change.apply_mk, hended]

/-- However the body of a phase ends, one scope is ended behind it, and a fault in that takes the
place of the outcome. -/
theorem phase_by_trail {α : Type} (name : String) (body : Change Monitor α) (m : Monitor) :
    ((Monitored.phase name body).apply m).1 =
        (do
          (body.apply (m.enter name)).2.console.trail.pop.1
          (body.apply (m.enter name)).1) ∧
      ((Monitored.phase name body).apply m).2.console.trail =
        (body.apply (m.enter name)).2.console.trail.pop.2 := by
  obtain ⟨houtcome, htrail⟩ := leave_by_trail (body.apply (m.enter name)).2
  rw [apply_phase, ← houtcome, ← htrail]
  exact ⟨rfl, rfl⟩

def blockBody (name : String) (steps : List Step) (raises : Bool) : Change Monitor Unit :=
  ExceptT.mk fun m => (if raises then .error (.raised name) else .ok (), (performAll steps m).2)

theorem perform_block (name : String) (steps : List Step) (raises : Bool) (m : Monitor) :
    perform (.block name steps raises) m =
      (((Monitored.phase name (blockBody name steps raises)).apply m).2.sight
        ((Monitored.phase name (blockBody name steps raises)).apply m).1
        (some (performAll steps (m.enter name)).1),
      ((Monitored.phase name (blockBody name steps raises)).apply m).2) := by
  rw [perform, apply_phase]
  rcases hended : leave.apply (performAll steps (m.enter name)).2 with ⟨_ | _, after⟩ <;>
    simp [blockBody, blockOutcome, Change.apply_mk, hended]

theorem performAll_cons (step : Step) (rest : List Step) (m : Monitor) :
    performAll (step :: rest) m =
      ((perform step m).1 :: (performAll rest (perform step m).2).1,
        (performAll rest (perform step m).2).2) := by
  rw [performAll]

mutual

theorem perform_by_trail (step : Step) (m : Monitor) :
    (perform step m).1 = sightOf m.console.trail step ∧
      (perform step m).2.console.trail = m.console.trail.along step.moves := by
  cases step with
  | enter name =>
      rw [perform, sightOf, Step.moves, sight_eq, trail_enter]
      exact ⟨rfl, rfl⟩
  | leave =>
      obtain ⟨houtcome, htrail⟩ := leave_by_trail m
      rw [perform_leave, sightOf, Step.moves, sight_eq, houtcome, htrail]
      exact ⟨rfl, rfl⟩
  | output text =>
      rw [perform, sightOf, Step.moves, sight_eq]
      exact ⟨rfl, rfl⟩
  | verbose value =>
      rw [perform, sightOf, Step.moves, sight_eq]
      exact ⟨rfl, rfl⟩
  | block name steps raises =>
      obtain ⟨hinner, hinside⟩ := performAll_by_trail steps (m.enter name)
      obtain ⟨houtcome, htrail⟩ := phase_by_trail name (blockBody name steps raises) m
      rw [trail_enter] at hinner hinside
      rw [blockBody, Change.apply_mk, hinside] at houtcome htrail
      rw [perform_block, sightOf, Step.moves, sight_eq, hinner, blockBody, houtcome, htrail]
      refine ⟨rfl, ?_⟩
      rw [← List.cons_append, Trail.along_append]
      rfl

theorem performAll_by_trail (steps : List Step) (m : Monitor) :
    (performAll steps m).1 = sightsOf m.console.trail steps ∧
      (performAll steps m).2.console.trail = m.console.trail.along (allMoves steps) := by
  cases steps with
  | nil => exact ⟨rfl, rfl⟩
  | cons step rest =>
      obtain ⟨hseen, htrail⟩ := perform_by_trail step m
      obtain ⟨hlater, hrest⟩ := performAll_by_trail rest (perform step m).2
      rw [htrail] at hlater hrest
      rw [performAll_cons, sightsOf, allMoves, Trail.along_append, hseen, hlater, hrest]
      exact ⟨rfl, rfl⟩

end

/-! ## Faults that end what is around them -/

mutual

/-- A step in a run that no fault survives: a block is a phase, and a fault in it goes on behind it. -/
def run : Step → Change Monitor Unit
  | .enter name => modify (enter name)
  | .leave => leave
  | .output text => modify (·.output text)
  | .verbose value => modify fun m => { m with console.verbose := value }
  | .block name steps raises => Monitored.phase name do
      runAll steps
      if raises then throw (.raised name)

def runAll : List Step → Change Monitor Unit
  | [] => pure ()
  | step :: rest => do
      run step
      runAll rest

end

mutual

def cut : Step → Monitor → Step
  | .block name steps raises, m => .block name (cutAll steps (m.enter name)) raises
  | step, _ => step

def cutAll : List Step → Monitor → List Step
  | [], _ => []
  | step :: rest, m =>
      cut step m ::
        if ((run step).apply m).1.isOk then cutAll rest ((run step).apply m).2 else []

end

theorem monitor_block (name : String) (steps : List Step) (raises : Bool) (m : Monitor) :
    (perform (.block name steps raises) m).2 =
      (leave.apply (performAll steps (m.enter name)).2).2 := by
  rw [perform_block, apply_phase]
  rfl

theorem monitor_raise {c : Change Monitor Unit} {fault : Fault} (raises : Bool) (m : Monitor) :
    ((do
      c
      if raises then throw fault : Change Monitor Unit).apply m).2 = (c.apply m).2 := by
  rcases hrun : c.apply m with ⟨_ | _, after⟩
  · rw [Change.apply_bind_error hrun]
  · rw [Change.apply_bind_ok hrun]
    cases raises <;> rfl

mutual

/-- A run that ends with its first fault does what the steps do that it came to. -/
theorem run_eq_perform_cut (step : Step) (m : Monitor) :
    ((run step).apply m).2 = (perform (cut step m) m).2 := by
  cases step with
  | enter name => rfl
  | leave => rfl
  | output text => rfl
  | verbose value => rfl
  | block name steps raises =>
      rw [run, apply_phase, cut, monitor_block, monitor_raise, runAll_eq_performAll_cut]

theorem runAll_eq_performAll_cut (steps : List Step) (m : Monitor) :
    ((runAll steps).apply m).2 = (performAll (cutAll steps m) m).2 := by
  cases steps with
  | nil => rfl
  | cons step rest =>
      have hstep := run_eq_perform_cut step m
      rw [runAll, cutAll, performAll_cons, ← hstep]
      rcases hrun : (run step).apply m with ⟨fault | _, after⟩
      · rw [Change.apply_bind_error hrun]
        rfl
      · rw [Change.apply_bind_ok hrun]
        exact runAll_eq_performAll_cut rest after

end

theorem trail_runAll (steps : List Step) (m : Monitor) :
    ((runAll steps).apply m).2.console.trail =
      m.console.trail.along (allMoves (cutAll steps m)) := by
  rw [runAll_eq_performAll_cut, (performAll_by_trail _ m).2]

/-! ## Counting the ends -/

mutual

def endings : Step → Sight → Nat
  | .leave, .mk (.ok ()) _ _ _ => 1
  | .block _ steps _, .mk (.error .endAtRoot) _ _ (some inner) => allEndings steps inner
  | .block _ steps _, .mk _ _ _ (some inner) => allEndings steps inner + 1
  | _, _ => 0

def allEndings : List Step → List Sight → Nat
  | step :: steps, sight :: sights => endings step sight + allEndings steps sights
  | _, _ => 0

end

theorem endings_leave (t : Trail) :
    t.pop.2.ended.length = t.ended.length + endings .leave (sightOf t .leave) := by
  by_cases hpath : t.path = []
  · rw [sightOf, Trail.pop_of_nil hpath]
    rfl
  · rw [sightOf, Trail.pop_of_ne_nil hpath]
    exact List.length_append

mutual

theorem length_ended (step : Step) (t : Trail) :
    (t.along step.moves).ended.length = t.ended.length + endings step (sightOf t step) := by
  cases step with
  | enter name => rfl
  | leave => exact endings_leave t
  | output text => rfl
  | verbose value => rfl
  | block name steps raises =>
      have hinner := length_allEnded steps (t.push name)
      have hmoves : t.along (Step.block name steps raises).moves =
          ((t.push name).along (allMoves steps)).pop.2 := by simp [Step.moves]
      rw [hmoves, sightOf]
      by_cases hpath : ((t.push name).along (allMoves steps)).path = []
      · rw [Trail.pop_of_nil hpath]
        exact hinner
      · rw [Trail.pop_of_ne_nil hpath, List.length_append, hinner]
        cases raises <;> rfl

theorem length_allEnded (steps : List Step) (t : Trail) :
    (t.along (allMoves steps)).ended.length =
      t.ended.length + allEndings steps (sightsOf t steps) := by
  cases steps with
  | nil => rfl
  | cons step rest =>
      have hstep := length_ended step t
      have hrest := length_allEnded rest (t.along step.moves)
      rw [allMoves, Trail.along_append, sightsOf, allEndings, hrest, hstep, Nat.add_assoc]

end

theorem trail_block (name : String) (steps : List Step) (raises : Bool) (m : Monitor) :
    (perform (.block name steps raises) m).2.console.trail =
      (performAll steps (m.enter name)).2.console.trail.pop.2 := by
  rw [perform_block, (phase_by_trail name (blockBody name steps raises) m).2]
  rfl

theorem block_of_balanced (m : Monitor) (name : String) (raises : Bool)
    (hbal : Trail.Balanced (allMoves steps)) :
    ∃ inner,
      (performAll steps (m.enter name)).2.console.trail =
          ⟨m.console.path ++ [name], m.console.trail.ended ++ inner⟩ ∧
        (∀ p ∈ inner, ∃ q, q ≠ [] ∧ p = m.console.path ++ [name] ++ q) ∧
        (perform (.block name steps raises) m).2.console.trail =
          ⟨m.console.path, m.console.trail.ended ++ inner ++ [m.console.path ++ [name]]⟩ := by
  have hpath : (m.console.trail.push name).path = (m.console.path ++ [name]) ++ [] :=
    (List.append_nil _).symm
  obtain ⟨left, inner, hlen, halong, hinner⟩ := Trail.along_above (allMoves steps) hpath hbal
  obtain rfl := List.eq_nil_of_length_eq_zero hlen
  have hinside : (performAll steps (m.enter name)).2.console.trail =
      ⟨m.console.path ++ [name], m.console.trail.ended ++ inner⟩ := by
    rw [(performAll_by_trail steps (m.enter name)).2, trail_enter, halong, List.append_nil]
    rfl
  refine ⟨inner, hinside, hinner, ?_⟩
  rw [trail_block, hinside, Trail.pop_of_ne_nil (by simp)]
  simp

/-- A run of steps on a console is a run of moves on a stack with a history.  No empty path comes into
the history, and the scopes that ended are counted by the ends that were seen to succeed.  A block
around balanced steps comes back to the path it started on and is the last that ended. -/
theorem performAll_on_stack (steps : List Step) (m : Monitor) :
    (performAll steps m).1 = sightsOf m.console.trail steps ∧
      (performAll steps m).2.console.trail = m.console.trail.along (allMoves steps) ∧
      (∃ new, (performAll steps m).2.console.trail.ended = m.console.trail.ended ++ new ∧
        [] ∉ new ∧ new.length = allEndings steps (performAll steps m).1) ∧
      (∀ name raises, Trail.Balanced (allMoves steps) → ∃ inner,
        (performAll steps (m.enter name)).2.console.trail =
            ⟨m.console.path ++ [name], m.console.trail.ended ++ inner⟩ ∧
          (∀ p ∈ inner, ∃ q, q ≠ [] ∧ p = m.console.path ++ [name] ++ q) ∧
          (perform (.block name steps raises) m).2.console.trail =
            ⟨m.console.path, m.console.trail.ended ++ inner ++ [m.console.path ++ [name]]⟩) ∧
      (∀ (α : Type) (name : String) (body : Change Monitor α),
        ((Monitored.phase name body).apply m).1 =
            (do
              (body.apply (m.enter name)).2.console.trail.pop.1
              (body.apply (m.enter name)).1) ∧
          ((Monitored.phase name body).apply m).2.console.trail =
            (body.apply (m.enter name)).2.console.trail.pop.2) ∧
      Fault.endAtRoot.family = .type := by
  obtain ⟨hseen, htrail⟩ := performAll_by_trail steps m
  obtain ⟨new, hended, hnew⟩ := m.console.trail.exists_ended (allMoves steps)
  refine ⟨hseen, htrail, ⟨new, htrail ▸ hended, hnew, ?_⟩, ?_, ?_, rfl⟩
  · have hcount := length_allEnded steps m.console.trail
    rw [hended, List.length_append] at hcount
    rw [hseen]
    exact Nat.add_left_cancel hcount
  · intro name raises hbal
    exact block_of_balanced m name raises hbal
  · intro α name body
    exact phase_by_trail name body m

def nestedSteps : List Step :=
  [.enter "tree", .block "search" [.output "start"] true, .leave, .verbose true]

def atRest : Monitor := .new (.new false .console) .warning .steady

theorem performAll_on_stack_nestedSteps :
    Trail.Balanced (allMoves nestedSteps) ∧ ∃ inner,
      (performAll nestedSteps (atRest.enter "outer")).2.console.trail = ⟨["outer"], inner⟩ ∧
        (∀ p ∈ inner, ∃ q, q ≠ [] ∧ p = ["outer"] ++ q) ∧
        (perform (.block "outer" nestedSteps true) atRest).2.console.trail =
          ⟨[], inner ++ [["outer"]]⟩ :=
  have hbal : Trail.Balanced (allMoves nestedSteps) := by decide
  ⟨hbal, (performAll_on_stack nestedSteps atRest).2.2.2.1 "outer" true hbal⟩

end Monitor
end FlowDominance
