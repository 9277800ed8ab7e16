import FlowDominance.Analysis.Bench
import FlowDominance.Proofs.Analysis

/-!
# Builders through failures

A builder works step by step on a graph, with options and dominators that may change under it, while its
index stays the one it was set up with.  A step that fails keeps the frontiers, and of the dominators
it changes only what its own first phase has found; the console comes back from every step.
-/

namespace FlowDominance

namespace Monitored

theorem phase_congr {σ α : Type} [Monitored σ] (name : String) {body : Change σ α} {s s' : σ}
    (h : body.apply (withMonitor s ((monitor s).enter name)) =
      body.apply (withMonitor s' ((monitor s').enter name))) :
    (phase name body).apply s = (phase name body).apply s' := by
  rw [phase, Change.apply_mk, Change.apply_mk, h]

end Monitored

theorem Workbench.construct_afresh {g : FlowGraph} {b : Builder} {idoms : IdomMap}
    (hfound : b.found g = .ok idoms) (other : Option IdomMap) (m : Monitor) :
    (construct g).apply ⟨{ b with idoms? := other }, m⟩ = (construct g).apply ⟨b, m⟩ := by
  have hbuild : (buildIdoms g).apply ⟨{ b with idoms? := other }, m⟩ =
      (buildIdoms g).apply ⟨b, m⟩ := by
    refine Monitored.phase_congr _ ?_
    rw [Change.apply_bind_ok (Change.apply_get _), Change.apply_bind_ok (Change.apply_get _)]
    refine (Change.apply_lift_bind_ok hfound).trans (Eq.symm ?_)
    exact (Change.apply_lift_bind_ok hfound).trans rfl
  unfold construct
  cases hrun : (buildIdoms g).apply ⟨b, m⟩ with
  | mk outcome w =>
      rw [hrun] at hbuild
      cases outcome with
      | error fault =>
          rw [Change.apply_bind_error (Change.apply_discard hbuild),
            Change.apply_bind_error (Change.apply_discard hrun)]
      | ok found =>
          rw [Change.apply_bind_ok (Change.apply_discard hbuild),
            Change.apply_bind_ok (Change.apply_discard hrun)]

namespace Bench

variable {b b' : Bench} {step : Step} {outcome : Except Fault (Option Answer)}

/-! ## Steps -/

def Step.seeks (b : Bench) : Step → Bool
  | .buildIdoms | .construct => true
  | .buildFrontiers => b.work.builder.idoms?.isNone
  | _ => false

def Step.found? (b : Bench) (step : Step) : Option IdomMap :=
  if step.seeks b then (b.work.builder.found b.graph).toOption else none

def Step.phases (b : Bench) (step : Step) : List (List String) :=
  (if step.seeks b then Workbench.treePhase else []) ++
    match step with
    | .buildFrontiers => Workbench.frontierPhase (b.work.builder.known b.graph)
    | .construct => Workbench.frontierPhase (b.work.builder.found b.graph)
    | _ => []

/-- Dominators and frontiers are at hand, and the frontiers are those of the graph, the dominators and
the options as they are now. -/
structure Walked (b : Bench) (idoms : IdomMap) (frontiers : FrontierMap) : Prop where
  idoms_eq : b.work.builder.idoms? = some idoms
  frontiers_eq : b.work.builder.frontiers? = some frontiers
  walk : walkFrontiers b.graph b.work.builder.entry idoms b.work.builder.config.pruneEmpty =
    .ok frontiers

/-- What holds of a step from `b` to `b'`, whether it fails or not. -/
structure Survives (b : Bench) (step : Step) (outcome : Except Fault (Option Answer))
    (b' : Bench) : Prop where
  frontiers_kept : ∀ fault, outcome = .error fault →
    b'.work.builder.frontiers? = b.work.builder.frontiers?
  idoms_kept : ∀ fault, outcome = .error fault →
    b'.work.builder.idoms? = (step.found? b).or b.work.builder.idoms?
  walked : step = .buildFrontiers → ∀ answer, outcome = .ok answer →
    ∃ idoms frontiers, answer = some (.frontiers frontiers) ∧ b'.Walked idoms frontiers
  afresh : step = .construct → ∀ answer, outcome = .ok answer →
    (∃ idoms frontiers, b.work.builder.found b.graph = .ok idoms ∧
      answer = some (.frontiers frontiers) ∧ b'.Walked idoms frontiers) ∧
    ∀ other, (perform .construct).apply ((perform (.setIdoms other)).apply b).2 = (outcome, b')
  passed : b.work.monitor.console.Passed b'.work.monitor.console (step.phases b)
  frozen : b'.work.builder.entry = b.work.builder.entry ∧
    b'.work.builder.index = b.work.builder.index

theorem apply_answer {α : Type} (answer : α → Answer) {work : FlowGraph → Change Workbench α}
    {o : Except Fault α} {w : Workbench} (h : (work b.graph).apply b.work = (o, w)) :
    (do return some (answer (← employ work)) : Change Bench (Option Answer)).apply b =
      (o.map fun a => some (answer a), { b with work := w }) := by
  have hemploy : (employ work).apply b = (o, { b with work := w }) := by
    rw [employ, Change.apply_bind_ok (Change.apply_get _), Change.within, Change.apply_mk]
    simp only [h]
  rw [bind_pure_comp, Change.apply_map hemploy]

theorem survives_buildIdoms (b : Bench) : b.Survives .buildIdoms
    ((perform .buildIdoms).apply b).1 ((perform .buildIdoms).apply b).2 := by
  obtain ⟨m, hbuild, hpassed⟩ := Workbench.exists_apply_buildIdoms b.graph b.work
  rw [perform, apply_answer .idoms hbuild]
  exact {
    frontiers_kept := fun _ _ => rfl
    idoms_kept := fun _ _ => rfl
    walked := by simp
    afresh := by simp
    passed := by simpa [Step.phases, Step.seeks] using hpassed
    frozen := ⟨rfl, rfl⟩ }

theorem frontiers_keeping_of_error {builder : Builder} {along : Except Fault IdomMap}
    {frontiers : Except Fault FrontierMap} {f : FrontierMap → Option Answer} {fault : Fault}
    (h : frontiers.map f = .error fault) :
    (builder.keeping along frontiers).frontiers? = builder.frontiers? := by
  cases frontiers with
  | error _ => rfl
  | ok map => simp [Except.map] at h

theorem exists_walked {along : Except Fault IdomMap} {answer : Option Answer} (m : Monitor)
    (h : (b.work.builder.walked b.graph along).map (fun map => some (Answer.frontiers map)) =
      .ok answer) : ∃ idoms frontiers, along = .ok idoms ∧ answer = some (.frontiers frontiers) ∧
        ({ b with work := ⟨b.work.builder.keeping along (b.work.builder.walked b.graph along), m⟩ } :
          Bench).Walked idoms frontiers := by
  cases hwalked : b.work.builder.walked b.graph along with
  | error fault => simp [hwalked, Except.map] at h
  | ok frontiers =>
      rw [hwalked] at h
      cases h
      obtain ⟨idoms, rfl, hwalk⟩ := bind_eq_ok_iff.1 hwalked
      exact ⟨idoms, frontiers, rfl, rfl, rfl, rfl, hwalk⟩

theorem survives_buildFrontiers (b : Bench) : b.Survives .buildFrontiers
    ((perform .buildFrontiers).apply b).1 ((perform .buildFrontiers).apply b).2 := by
  obtain ⟨m, hbuild, hpassed⟩ := Workbench.exists_apply_buildFrontiers b.graph b.work
  rw [perform, apply_answer .frontiers hbuild]
  exact {
    frontiers_kept := fun _ => frontiers_keeping_of_error
    idoms_kept := by
      intro fault _
      change (b.work.builder.known b.graph).toOption.or b.work.builder.idoms? = _
      unfold Step.found? Step.seeks Builder.known
      cases b.work.builder.idoms? with
      | none => simp
      | some idoms => simp [Except.toOption]
    walked := by
      rintro - answer hanswer
      obtain ⟨idoms, frontiers, -, hanswer, hwalked⟩ := exists_walked m hanswer
      exact ⟨idoms, frontiers, hanswer, hwalked⟩
    afresh := by simp
    passed := hpassed
    frozen := ⟨rfl, rfl⟩ }

theorem survives_construct (b : Bench) : b.Survives .construct
    ((perform .construct).apply b).1 ((perform .construct).apply b).2 := by
  obtain ⟨m, hbuild, hpassed⟩ := Workbench.exists_apply_construct b.graph b.work
  rw [perform, apply_answer .frontiers hbuild]
  exact {
    frontiers_kept := fun _ => frontiers_keeping_of_error
    idoms_kept := fun _ _ => rfl
    walked := by simp
    afresh := by
      rintro - answer hanswer
      obtain ⟨idoms, frontiers, hfound, hanswer', hwalked⟩ := exists_walked m hanswer
      refine ⟨⟨idoms, frontiers, hfound, hanswer', hwalked⟩, ?_⟩
      intro other
      have hsame := Workbench.construct_afresh hfound other b.work.monitor
      exact apply_answer (b := { b with work.builder.idoms? := other }) .frontiers
        (hsame.trans hbuild)
    passed := hpassed
    frozen := ⟨rfl, rfl⟩ }

theorem survives_setIdoms (b : Bench) (idoms : Option IdomMap) : b.Survives (.setIdoms idoms)
    ((perform (.setIdoms idoms)).apply b).1 ((perform (.setIdoms idoms)).apply b).2 where
  frontiers_kept := fun _ _ => rfl
  idoms_kept := by rintro fault ⟨⟩
  walked := by simp
  afresh := by simp
  passed := Console.passed_refl _
  frozen := ⟨rfl, rfl⟩

theorem survives_aside (config : Config) (hwork : b'.work = { b.work with builder.config := config })
    (hphases : step.phases b = []) (hfound : step.found? b = none)
    (hstep : step ≠ .buildFrontiers ∧ step ≠ .construct) : b.Survives step outcome b' where
  frontiers_kept := fun _ _ => by rw [hwork]
  idoms_kept := fun _ _ => by rw [hwork, hfound, Option.none_or]
  walked := fun h => absurd h hstep.1
  afresh := fun h => absurd h hstep.2
  passed := by
    rw [hwork, hphases]
    exact Console.passed_refl _
  frozen := by
    rw [hwork]
    exact ⟨rfl, rfl⟩

theorem survives_setOption (b : Bench) (name value : Value) : b.Survives (.setOption name value)
    ((perform (.setOption name value)).apply b).1 ((perform (.setOption name value)).apply b).2 := by
  have hstep : Step.setOption name value ≠ .buildFrontiers ∧ Step.setOption name value ≠ .construct :=
    by simp
  rw [perform, setOption, bind_assoc, Change.apply_bind_ok (Change.apply_get _), bind_assoc]
  cases hoption : b.work.builder.config.setOption name value with
  | ok config =>
      rw [Change.apply_lift_bind_ok rfl]
      exact survives_aside config rfl rfl rfl hstep
  | error fault =>
      rw [Change.apply_lift_bind_error rfl]
      exact survives_aside b.work.builder.config rfl rfl rfl hstep

theorem survives_addEdge (b : Bench) (source target : Value) : b.Survives (.addEdge source target)
    ((perform (.addEdge source target)).apply b).1
    ((perform (.addEdge source target)).apply b).2 := by
  have hstep : Step.addEdge source target ≠ .buildFrontiers ∧ Step.addEdge source target ≠ .construct :=
    by simp
  have hadded : ∃ o store, (addEdge source target).apply b = (o, { b with store }) := ⟨_, _, rfl⟩
  obtain ⟨o, store, hrun⟩ := hadded
  rw [perform, bind_pure_comp, Change.apply_map hrun]
  exact survives_aside b.work.builder.config rfl rfl rfl hstep

theorem survives (step : Step) (b : Bench) :
    b.Survives step ((perform step).apply b).1 ((perform step).apply b).2 := by
  cases step with
  | buildIdoms => exact survives_buildIdoms b
  | buildFrontiers => exact survives_buildFrontiers b
  | construct => exact survives_construct b
  | setIdoms idoms => exact survives_setIdoms b idoms
  | setOption name value => exact survives_setOption b name value
  | addEdge source target => exact survives_addEdge b source target

/-! ## Runs -/

inductive Survived : Bench → List Step → List (Except Fault (Option Answer) × Bench) → Prop
  | nil (b : Bench) : Survived b [] []
  | cons {b b' : Bench} {step : Step} {steps : List Step} {outcome : Except Fault (Option Answer)}
      {results : List (Except Fault (Option Answer) × Bench)} :
      b.Survives step outcome b' → Survived b' steps results →
      Survived b (step :: steps) ((outcome, b') :: results)

end Bench

theorem builder_survives_every_run (b : Bench) (steps : List Bench.Step) :
    b.Survived steps (b.performAll steps) := by
  induction steps generalizing b with
  | nil => exact .nil b
  | cons step steps ih => exact .cons (Bench.survives step b) (ih _)

end FlowDominance
