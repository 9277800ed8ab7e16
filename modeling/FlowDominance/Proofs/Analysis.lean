import FlowDominance.Analysis.Query
import FlowDominance.Proofs.Faultless

/-!
# What an analysis comes to

A monitor does not interfere.  Phases open and end scopes in pairs, so none of them ends in a fault of
its own, and the outcome of an analysis is what its parts come to, one after the other.
-/

namespace FlowDominance

/-! ## Monitors -/

/-- The console is back at the scope that it had, and some phases have ended in between, with these
paths below that scope. -/
structure Console.Passed (before after : Console) (phases : List (List String)) : Prop where
  scopes : after.scopes = before.scopes
  history : ∃ ended, after.history = before.history ++ ended ∧
    ended.map Ended.path = phases.map (before.path ++ ·)

namespace Console

variable {a b c : Console} {phases later : List (List String)}

theorem passed_refl (c : Console) : c.Passed c [] := ⟨rfl, [], by simp⟩

theorem Passed.trans (h : a.Passed b phases) (h' : b.Passed c later) :
    a.Passed c (phases ++ later) := by
  obtain ⟨hscopes, ended, hhistory, hpaths⟩ := h
  obtain ⟨hscopes', ended', hhistory', hpaths'⟩ := h'
  have hpath : b.path = a.path := by rw [path, hscopes, path]
  refine ⟨hscopes'.trans hscopes, ended ++ ended', ?_, ?_⟩
  · rw [hhistory', hhistory, List.append_assoc]
  · rw [List.map_append, hpaths, hpaths', hpath, List.map_append]

end Console

theorem Monitor.exists_leave_ok {m m' : Monitor} {name : String} {phases : List (List String)}
    (h : (m.enter name).console.Passed m'.console phases) :
    ∃ m'', Monitor.leave.apply m' = (.ok (), m'') ∧
      m.console.Passed m''.console (phases.map (name :: ·) ++ [[name]]) := by
  obtain ⟨hscopes, ended, hhistory, hpaths⟩ := h
  have hopen : m'.console.scopes = ⟨name, m.now⟩ :: m.console.scopes := hscopes
  have hpath : m'.console.path = m.console.path ++ [name] := by
    simp [Console.path, hopen]
  have hinner : (m.enter name).console.path = m.console.path ++ [name] := by
    rw [← hpath, Console.path, Console.path, hscopes]
  refine ⟨(m'.tick.output ("end   " ++ m'.console.pathText ++ " " ++
    Duration.textOfReal (m'.now - m.now))).pop (m'.now - m.now), ?_, ?_, ?_⟩
  · rw [leave, Change.apply_mk]
    simp only [hopen]
  · change m'.console.scopes.tail = m.console.scopes
    rw [hopen, List.tail_cons]
  · refine ⟨ended ++ [⟨m'.console.path, m'.now - m.now⟩], ?_, ?_⟩
    · change m'.console.history ++ _ = _
      rw [hhistory, List.append_assoc]
      rfl
    · simp [hpaths, hpath, hinner]

namespace Monitored

variable {σ α : Type} [Monitored σ] {s t : σ} {o : Except Fault α}

theorem apply_note (channel : Channel) (severity : Severity) (messages : List String) (s : σ) :
    (note channel severity messages : Change σ Unit).apply s =
      (.ok (), withMonitor s ((monitor s).logAll channel severity messages)) := rfl

/-- A phase whose body ends the scopes that it opens comes to what its body comes to. -/
theorem exists_apply_phase (name : String) (body : Change σ α) {phases : List (List String)}
    (h : body.apply (withMonitor s ((monitor s).enter name)) = (o, t))
    (hpassed : ((monitor s).enter name).console.Passed (monitor t).console phases) :
    ∃ m, (phase name body).apply s = (o, withMonitor t m) ∧
      (monitor s).console.Passed m.console (phases.map (name :: ·) ++ [[name]]) := by
  obtain ⟨m, hleave, hback⟩ := Monitor.exists_leave_ok hpassed
  refine ⟨m, ?_, hback⟩
  have hwatch : (watch Monitor.leave : Change σ Unit).apply t = (.ok (), withMonitor t m) := by
    rw [watch, Change.within, Change.apply_mk]
    simp only [hleave]
  rw [phase, Change.apply_mk]
  simp only [h, hwatch]

end Monitored

/-- From every monitor the change comes to `o`, through these phases. -/
def Monitor.Runs {α : Type} (c : Change Monitor α) (o : Except Fault α)
    (phases : List (List String)) : Prop :=
  ∀ m, ∃ m', c.apply m = (o, m') ∧ m.console.Passed m'.console phases

namespace Monitor.Runs

open Monitored

variable {α β : Type} {c : Change Monitor α} {o : Except Fault α} {phases : List (List String)}

protected theorem phase (h : Runs c o phases) (name : String) :
    Runs (phase name c) o (phases.map (name :: ·) ++ [[name]]) := by
  intro m
  obtain ⟨m', hc, hpassed⟩ := h (m.enter name)
  exact exists_apply_phase (s := m) name c hc hpassed

protected theorem note (h : Runs c o phases) (channel : Channel) (severity : Severity)
    (messages : List String) : Runs (do note channel severity messages; c) o phases := by
  intro m
  rw [Change.apply_bind_ok (apply_note channel severity messages m)]
  exact h (m.logAll channel severity messages)

theorem lift_ok {a : β} {f : β → Change Monitor α} (h : Runs (f a) o phases) :
    Runs (Change.lift (.ok a) >>= f) o phases := by
  intro m
  rw [Change.apply_lift_bind_ok rfl]
  exact h m

theorem lift_error (fault : Fault) (f : β → Change Monitor α) :
    Runs (Change.lift (.error fault) >>= f) (.error fault) [] :=
  fun m => ⟨m, Change.apply_lift_bind_error rfl, Console.passed_refl _⟩

end Monitor.Runs

/-! ## Builders -/

namespace Builder

def found (b : Builder) (g : FlowGraph) : Except Fault IdomMap :=
  findIdoms g b.entry b.config.algorithm b.index

def known (b : Builder) (g : FlowGraph) : Except Fault IdomMap :=
  match b.idoms? with
  | some idoms => .ok idoms
  | none => b.found g

def walked (b : Builder) (g : FlowGraph) (along : Except Fault IdomMap) :
    Except Fault FrontierMap := do
  walkFrontiers g b.entry (← along) b.config.pruneEmpty

/-- The builder after a step: what came out is kept, and what did not come out stays as it was. -/
def keeping (b : Builder) (idoms : Except Fault IdomMap) (frontiers : Except Fault FrontierMap) :
    Builder :=
  { b with
    idoms? := idoms.toOption.or b.idoms?
    frontiers? := frontiers.toOption.or b.frontiers? }

end Builder

namespace Workbench

open Monitored

variable (g : FlowGraph) (w : Workbench)

def treePhase : List (List String) := [["dominator tree"]]

/-- The second phase is started only if the first has ended well. -/
def frontierPhase (along : Except Fault IdomMap) : List (List String) :=
  if along.isOk then [["dominance frontier"]] else []

theorem exists_apply_buildIdoms : ∃ m, (buildIdoms g).apply w =
      (w.builder.found g,
        ⟨{ w.builder with idoms? := (w.builder.found g).toOption.or w.builder.idoms? }, m⟩) ∧
    w.monitor.console.Passed m.console treePhase := by
  unfold buildIdoms
  cases hfound : w.builder.found g with
  | ok idoms =>
      refine exists_apply_phase _ _ (s := w) (t := ⟨{ w.builder with idoms? := some idoms },
        (w.monitor.enter "dominator tree").logAll .dominators .debug
          (Report.idomLines Value.display idoms)⟩) ?_ (Console.passed_refl _)
      rw [Change.apply_bind_ok (Change.apply_get _)]
      exact Change.apply_lift_bind_ok hfound
  | error fault =>
      refine exists_apply_phase _ _ (s := w)
        (t := ⟨w.builder, w.monitor.enter "dominator tree"⟩) ?_ (Console.passed_refl _)
      rw [Change.apply_bind_ok (Change.apply_get _)]
      exact Change.apply_lift_bind_error hfound

theorem exists_apply_walk (frontiersFor : Builder → Except Fault FrontierMap) :
    ∃ m, (walk frontiersFor).apply w = (frontiersFor w.builder,
        ⟨{ w.builder with
            frontiers? := (frontiersFor w.builder).toOption.or w.builder.frontiers? }, m⟩) ∧
      w.monitor.console.Passed m.console [["dominance frontier"]] := by
  unfold walk
  cases hfound : frontiersFor w.builder with
  | ok frontiers =>
      obtain ⟨m, hphase, hpassed⟩ := exists_apply_phase "dominance frontier" (do
          let frontiers ← Change.lift (frontiersFor (← get).builder)
          modify ({ · with builder.frontiers? := some frontiers })
          return frontiers)
        (s := w) (o := .ok frontiers) (t := ⟨{ w.builder with frontiers? := some frontiers },
          w.monitor.enter "dominance frontier"⟩) (by
          rw [Change.apply_bind_ok (Change.apply_get _)]
          exact Change.apply_lift_bind_ok hfound) (Console.passed_refl _)
      refine ⟨m.logAll .frontiers .debug (Report.frontierLines Value.display frontiers), ?_,
        hpassed⟩
      rw [Change.apply_bind_ok hphase]
      rfl
  | error fault =>
      obtain ⟨m, hphase, hpassed⟩ := exists_apply_phase "dominance frontier" (do
          let frontiers ← Change.lift (frontiersFor (← get).builder)
          modify ({ · with builder.frontiers? := some frontiers })
          return frontiers)
        (s := w) (o := .error fault) (t := ⟨w.builder, w.monitor.enter "dominance frontier"⟩) (by
          rw [Change.apply_bind_ok (Change.apply_get _)]
          exact Change.apply_lift_bind_error hfound) (Console.passed_refl _)
      exact ⟨m, Change.apply_bind_error hphase, hpassed⟩

theorem exists_apply_currentIdoms : ∃ m, (currentIdoms g).apply w =
      (w.builder.known g,
        ⟨{ w.builder with idoms? := (w.builder.known g).toOption.or w.builder.idoms? }, m⟩) ∧
    w.monitor.console.Passed m.console
      (if w.builder.idoms?.isNone then treePhase else []) := by
  unfold currentIdoms Builder.known
  rw [Change.apply_bind_ok (Change.apply_get _)]
  cases hidoms : w.builder.idoms? with
  | some idoms =>
      refine ⟨w.monitor, ?_, Console.passed_refl _⟩
      rw [Change.apply_pure]
      simp only [Except.toOption, ← hidoms, Option.or_self]
  | none =>
      obtain ⟨m, hbuild, hpassed⟩ := exists_apply_buildIdoms g w
      rw [hidoms] at hbuild
      exact ⟨m, hbuild, hpassed⟩

theorem exists_apply_buildFrontiers : ∃ m, (buildFrontiers g).apply w =
      (w.builder.walked g (w.builder.known g), ⟨w.builder.keeping (w.builder.known g)
        (w.builder.walked g (w.builder.known g)), m⟩) ∧
    w.monitor.console.Passed m.console ((if w.builder.idoms?.isNone then treePhase else []) ++
      frontierPhase (w.builder.known g)) := by
  obtain ⟨m, hcurrent, hpassed⟩ := exists_apply_currentIdoms g w
  unfold buildFrontiers
  cases hknown : w.builder.known g with
  | error fault =>
      rw [hknown] at hcurrent
      refine ⟨m, Change.apply_bind_error hcurrent, ?_⟩
      simpa [frontierPhase, Except.isOk, Except.toBool] using hpassed
  | ok idoms =>
      rw [hknown] at hcurrent
      obtain ⟨m', hwalk, hpassed'⟩ := exists_apply_walk
        ⟨{ w.builder with idoms? := some idoms }, m⟩
        fun b => walkFrontiers g b.entry idoms b.config.pruneEmpty
      exact ⟨m', (Change.apply_bind_ok hcurrent).trans hwalk, hpassed.trans hpassed'⟩

theorem exists_apply_construct : ∃ m, (construct g).apply w =
      (w.builder.walked g (w.builder.found g), ⟨w.builder.keeping (w.builder.found g)
        (w.builder.walked g (w.builder.found g)), m⟩) ∧
    w.monitor.console.Passed m.console (treePhase ++ frontierPhase (w.builder.found g)) := by
  obtain ⟨m, hbuild, hpassed⟩ := exists_apply_buildIdoms g w
  have hdiscard := Change.apply_discard hbuild
  unfold construct
  cases hfound : w.builder.found g with
  | error fault =>
      rw [hfound] at hdiscard
      refine ⟨m, Change.apply_bind_error hdiscard, ?_⟩
      simpa [frontierPhase, Except.isOk, Except.toBool] using hpassed
  | ok idoms =>
      rw [hfound] at hdiscard
      obtain ⟨m', hfrontiers, hpassed'⟩ := exists_apply_buildFrontiers g
        ⟨{ w.builder with idoms? := some idoms }, m⟩
      exact ⟨m', (Change.apply_bind_ok hdiscard).trans hfrontiers, hpassed.trans hpassed'⟩

theorem apply_employ {α : Type} {entry : Value} {config : Config} {work : Change Workbench α}
    {m : Monitor} {o : Except Fault α} {t : Workbench} (hentry : g.contains entry = true)
    (h : work.apply ⟨⟨entry, .ofList g.vertices, config, none, none⟩, m⟩ = (o, t)) :
    (employ g entry config work).apply m = (o, t.monitor) := by
  rw [employ, Change.apply_mk]
  simp only [Builder.new, hentry, if_true, h]

theorem apply_employ_error {α : Type} {entry : Value} (config : Config)
    (work : Change Workbench α) (m : Monitor) (hentry : g.contains entry = false) :
    (employ g entry config work).apply m = (.error (.invalidEntry entry), m) := by
  rw [employ, Change.apply_mk]
  simp [Builder.new, hentry]

end Workbench

/-! ## Analyses -/

namespace Analysis

open Monitored

variable {setting : Setting} {context : Context} {entry : Value}

def findFrom (g : FlowGraph) (entry : Value) (config : Config) : Except Fault IdomMap := do
  let builder ← Builder.new g entry config
  builder.found g

def walkFrom (g : FlowGraph) (entry : Value) (config : Config) : Except Fault FrontierMap := do
  walkFrontiers g entry (← findFrom g entry config) config.pruneEmpty

theorem findFrom_known {g : FlowGraph} (config : Config) (hentry : g.contains entry = true) :
    findFrom g entry config =
      (⟨entry, .ofList g.vertices, config, none, none⟩ : Builder).found g := by
  simp [findFrom, Builder.new, hentry]

theorem findFrom_unknown {g : FlowGraph} (config : Config) (hentry : g.contains entry = false) :
    findFrom g entry config = .error (.invalidEntry entry) := by
  simp [findFrom, Builder.new, hentry]

theorem runs_employ_unknown {α : Type} {g : FlowGraph} (config : Config)
    (work : Change Workbench α) (hentry : g.contains entry = false) :
    Monitor.Runs (Workbench.employ g entry config work) (.error (.invalidEntry entry)) [] :=
  fun m => ⟨m, Workbench.apply_employ_error g config work m hentry, Console.passed_refl _⟩

theorem runs_employ {α : Type} {g : FlowGraph} {config : Config} {work : Change Workbench α}
    {o : Except Fault α} {phases : List (List String)} (hentry : g.contains entry = true)
    (hwork : ∀ m, ∃ b m', work.apply ⟨⟨entry, .ofList g.vertices, config, none, none⟩, m⟩ =
      (o, ⟨b, m'⟩) ∧ m.console.Passed m'.console phases) :
    Monitor.Runs (Workbench.employ g entry config work) o phases := by
  intro m
  obtain ⟨b, m', hrun, hpassed⟩ := hwork m
  exact ⟨m', Workbench.apply_employ g hentry hrun, hpassed⟩

theorem runs_buildIdoms (g : FlowGraph) (entry : Value) (config : Config) :
    Monitor.Runs (Workbench.employ g entry config (Workbench.buildIdoms g))
      (findFrom g entry config) (if g.contains entry then Workbench.treePhase else []) := by
  cases hentry : g.contains entry with
  | false =>
      rw [findFrom_unknown config hentry]
      exact runs_employ_unknown config _ hentry
  | true =>
      rw [findFrom_known config hentry]
      refine runs_employ hentry fun m => ?_
      obtain ⟨m', hbuild, hpassed⟩ := Workbench.exists_apply_buildIdoms g
        ⟨⟨entry, .ofList g.vertices, config, none, none⟩, m⟩
      exact ⟨_, m', hbuild, hpassed⟩

theorem runs_construct (g : FlowGraph) (entry : Value) (config : Config) :
    Monitor.Runs (Workbench.employ g entry config (Workbench.construct g))
      (walkFrom g entry config) (if g.contains entry then
        Workbench.treePhase ++ Workbench.frontierPhase (findFrom g entry config) else []) := by
  unfold walkFrom
  cases hentry : g.contains entry with
  | false =>
      rw [findFrom_unknown config hentry]
      exact runs_employ_unknown config _ hentry
  | true =>
      rw [findFrom_known config hentry]
      refine runs_employ hentry fun m => ?_
      obtain ⟨m', hwork, hpassed⟩ := Workbench.exists_apply_construct g
        ⟨⟨entry, .ofList g.vertices, config, none, none⟩, m⟩
      exact ⟨_, m', hwork, hpassed⟩

theorem apply_openUp (h : setting.resolve = .ok context) (m : Monitor) :
    setting.openUp.apply m = (.ok context.config, { m with console := context.console }) :=
  Change.apply_lift_bind_ok h

theorem apply_openUp_error {fault : Fault} (h : setting.resolve = .error fault) (m : Monitor) :
    setting.openUp.apply m = (.error fault, m) :=
  Change.apply_lift_bind_error h

theorem idoms_outcome (v : View) (entry : Value) (setting : Setting) (m : Monitor) :
    ((idoms v entry setting).apply m).1 =
      setting.resolve >>= fun context => findFrom v.graph entry context.config := by
  unfold idoms
  cases hresolve : setting.resolve with
  | error fault =>
      rw [Change.apply_bind_error (apply_openUp_error hresolve m)]
      rfl
  | ok context =>
      rw [Change.apply_bind_ok (apply_openUp hresolve m)]
      obtain ⟨m', hbuild, -⟩ := runs_buildIdoms v.graph entry context.config _
      exact congrArg Prod.fst hbuild

theorem phase_outcome (name : String) (lines : List String)
    (body : Config → Change Monitor FrontierMap) (result : Config → Except Fault FrontierMap)
    (hbody : ∀ config, ∃ phases, Monitor.Runs (body config) (result config) phases)
    (setting : Setting) (m : Monitor) :
    ((do
      let config ← setting.openUp
      note .frontiers .debug lines
      phase name (body config) : Change Monitor FrontierMap).apply m).1 =
      setting.resolve >>= fun context => result context.config := by
  cases hresolve : setting.resolve with
  | error fault =>
      rw [Change.apply_bind_error (apply_openUp_error hresolve m)]
      rfl
  | ok context =>
      rw [Change.apply_bind_ok (apply_openUp hresolve m)]
      obtain ⟨phases, hruns⟩ := hbody context.config
      obtain ⟨m', hphase, -⟩ := (hruns.phase name).note .frontiers .debug lines _
      exact congrArg Prod.fst hphase

theorem frontiers_outcome (v : View) (entry : Option Value) (setting : Setting) (m : Monitor) :
    ((frontiers v entry setting).apply m).1 = entryOr v.graph entry >>= fun entry =>
      setting.resolve >>= fun context => walkFrom v.graph entry context.config := by
  unfold frontiers
  cases hentry : entryOr v.graph entry with
  | error fault =>
      rw [Change.apply_lift_bind_error rfl]
      rfl
  | ok entry =>
      rw [Change.apply_lift_bind_ok rfl]
      exact phase_outcome _ _ _ _ (fun config => ⟨_, runs_construct v.graph entry config⟩) setting m

theorem postIdoms_outcome (v : View) (hexit : v.graph.hasExit = true) (setting : Setting)
    (m : Monitor) : ((postIdoms v setting).apply m).1 = v.reverse.graph.entry >>= fun entry =>
      setting.resolve >>= fun context => findFrom v.reverse.graph entry context.config := by
  unfold postIdoms
  rw [if_pos hexit]
  cases hentry : v.reverse.graph.entry with
  | error fault =>
      rw [Change.apply_lift_bind_error rfl]
      rfl
  | ok entry =>
      rw [Change.apply_lift_bind_ok rfl]
      exact idoms_outcome v.reverse entry setting m

theorem postIdoms_without_exit (v : View) (hexit : v.graph.hasExit = false) (setting : Setting)
    (m : Monitor) : ((postIdoms v setting).apply m).1 = .ok .empty := by
  unfold postIdoms
  rw [hexit]
  rfl

theorem postFrontiers_outcome (v : View) (hexit : v.graph.hasExit = true) (setting : Setting)
    (m : Monitor) : ((postFrontiers v setting).apply m).1 = setting.resolve >>= fun context =>
      v.reverse.graph.entry >>= fun entry =>
        walkFrom v.reverse.graph entry context.config := by
  unfold postFrontiers
  rw [if_pos hexit]
  refine phase_outcome "post-dominance" ["Post-Dominance Frontiers"]
    (fun config => do
      let entry ← Change.lift v.reverse.graph.entry
      Workbench.employ v.reverse.graph entry config (Workbench.construct v.reverse.graph))
    (fun config => v.reverse.graph.entry >>= fun entry => walkFrom v.reverse.graph entry config)
    ?_ setting m
  intro config
  cases hentry : v.reverse.graph.entry with
  | error fault => exact ⟨[], .lift_error fault _⟩
  | ok entry => exact ⟨_, (runs_construct v.reverse.graph entry config).lift_ok⟩

theorem postFrontiers_without_exit (v : View) (hexit : v.graph.hasExit = false)
    (setting : Setting) (m : Monitor) : ((postFrontiers v setting).apply m).1 = .ok .empty := by
  unfold postFrontiers
  rw [hexit]
  rfl

end Analysis

end FlowDominance
