import FlowDominance.Proofs.LiveEdges
import FlowDominance.Proofs.Reversals

/-!
# Analyses and what watches them

Neither side gets in the way of the other.  What an analysis comes to is a matter of the graph, the
question and whether empty frontiers are left out; which algorithm is asked and who watches makes no
difference.  And the console finds its scopes as they were, with the phases of the analysis behind its
history, however the analysis ends.
-/

namespace FlowDominance

/-! ## Reversed views -/

theorem FlowGraph.WellFormed.of_reversed {g : FlowGraph} (h : g.reversed.WellFormed) :
    g.WellFormed := by
  have htwice := h.reversed
  have hout : g.reversed.reversed.outEdges = g.outEdges := funext fun v => map_reversed_twice _
  have hin : g.reversed.reversed.inEdges = g.inEdges := funext fun v => map_reversed_twice _
  exact {
    null_not_mem := htwice.null_not_mem
    exists_out := hout ▸ htwice.exists_out
    exists_in := hin ▸ htwice.exists_in
    mirrored := hout ▸ hin ▸ htwice.mirrored }

theorem View.reverse_wellFormed {v : View} (h : v.graph.WellFormed) :
    v.reverse.graph.WellFormed := by
  cases v with
  | mk base reversals =>
      cases reversals with
      | zero => exact h.reversed
      | succ m => exact FlowGraph.WellFormed.of_reversed h

/-! ## Empty frontiers -/

def Answer.withoutEmpty : Answer → Answer
  | .idoms map => .idoms map
  | .frontiers map => .frontiers (map.filter fun _ frontier => frontier ≠ [])

def FrontierMap.cut (pruneEmpty : Bool) (map : FrontierMap) : FrontierMap :=
  if pruneEmpty then map.prune else map

def Answer.cut (pruneEmpty : Bool) : Answer → Answer
  | .idoms map => .idoms map
  | .frontiers map => .frontiers (map.cut pruneEmpty)

theorem Answer.cut_false (answer : Answer) : answer.cut false = answer := by
  cases answer <;> rfl

theorem Answer.cut_true (answer : Answer) : answer.cut true = answer.withoutEmpty := by
  cases answer with
  | idoms map => rfl
  | frontiers map =>
      have hempty : ∀ frontier : List Value, (!frontier.isEmpty) = decide (frontier ≠ []) := by
        intro frontier
        cases frontier <;> simp
      simp only [cut, FrontierMap.cut, FrontierMap.prune, withoutEmpty, hempty, if_true]

theorem walkFrontiers_cut (g : FlowGraph) (entry : Value) (idoms : IdomMap) (pruneEmpty : Bool) :
    walkFrontiers g entry idoms pruneEmpty =
      (walkFrontiers g entry idoms false).map (FrontierMap.cut pruneEmpty) := by
  unfold walkFrontiers
  cases g.vertices.foldlM (Frontier.walkVertex g entry idoms) (Frontier.bare g) <;> rfl

theorem walkFrontiersAlong_cut (g : FlowGraph) (groups : FrontierMap) (pruneEmpty : Bool) :
    walkFrontiersAlong g groups pruneEmpty =
      (walkFrontiersAlong g groups false).map (FrontierMap.cut pruneEmpty) := by
  unfold walkFrontiersAlong
  cases g.vertices.foldlM (Frontier.walkGroupVertex g groups) (Frontier.bare g) <;> rfl

/-! ## Runs of builders -/

namespace Analysis

open Monitored

variable {g : FlowGraph} {entry : Value}

theorem findFrom_default (hwf : g.WellFormed) (entry : Value) (config : Config) :
    findFrom g entry config = findFrom g entry .default := by
  cases hentry : g.contains entry with
  | false => rw [findFrom_unknown config hentry, findFrom_unknown .default hentry]
  | true =>
      obtain ⟨idoms, hfind, htree⟩ := exists_findFrom_ok config hwf hentry
      obtain ⟨idoms', hfind', htree'⟩ := exists_findFrom_ok .default hwf hentry
      rw [hfind, hfind', htree.unique hwf hentry htree']

theorem walkFrom_cut (hwf : g.WellFormed) (entry : Value) (config : Config) :
    walkFrom g entry config =
      (walkFrom g entry .default).map (FrontierMap.cut config.pruneEmpty) := by
  unfold walkFrom
  rw [findFrom_default hwf entry config]
  cases findFrom g entry .default with
  | error fault => rfl
  | ok idoms => exact walkFrontiers_cut g entry idoms config.pruneEmpty

def walkKnown (g : FlowGraph) (known : Option IdomMap) (entry : Value) (config : Config) :
    Except Fault FrontierMap :=
  match known with
  | none => walkFrom g entry config
  | some idoms =>
      if g.contains entry then walkFrontiers g entry idoms config.pruneEmpty
      else .error (.invalidEntry entry)

def walkAlong (g : FlowGraph) (groups : FrontierMap) (entry : Value) (config : Config) :
    Except Fault FrontierMap :=
  if g.contains entry then walkFrontiersAlong g groups config.pruneEmpty
  else .error (.invalidEntry entry)

theorem walkKnown_cut (hwf : g.WellFormed) (known : Option IdomMap) (entry : Value)
    (config : Config) : walkKnown g known entry config =
      (walkKnown g known entry .default).map (FrontierMap.cut config.pruneEmpty) := by
  cases known with
  | none => exact walkFrom_cut hwf entry config
  | some idoms =>
      unfold walkKnown
      cases g.contains entry with
      | false => rfl
      | true => exact walkFrontiers_cut g entry idoms config.pruneEmpty

theorem walkAlong_cut (g : FlowGraph) (groups : FrontierMap) (entry : Value) (config : Config) :
    walkAlong g groups entry config =
      (walkAlong g groups entry .default).map (FrontierMap.cut config.pruneEmpty) := by
  unfold walkAlong
  cases g.contains entry with
  | false => rfl
  | true => exact walkFrontiersAlong_cut g groups config.pruneEmpty

def phasesFrom (g : FlowGraph) (entry : Value) (seeks walks : Bool) : List (List String) :=
  if g.contains entry then
    (if seeks then [["dominator tree"]] else []) ++
      if walks then [["dominance frontier"]] else []
  else []

theorem runs_find (g : FlowGraph) (entry : Value) (config : Config) :
    Monitor.Runs (Workbench.employ g entry config (Workbench.buildIdoms g))
      (findFrom g entry config) (phasesFrom g entry true false) :=
  runs_buildIdoms g entry config

theorem runs_walk (hwf : g.WellFormed) (entry : Value) (config : Config) :
    Monitor.Runs (Workbench.employ g entry config (Workbench.construct g))
      (walkFrom g entry config) (phasesFrom g entry true true) := by
  have hruns := runs_construct g entry config
  unfold phasesFrom
  cases hentry : g.contains entry with
  | false =>
      rw [hentry] at hruns
      exact hruns
  | true =>
      obtain ⟨idoms, hfind, -⟩ := exists_findFrom_ok config hwf hentry
      rw [hentry, hfind] at hruns
      exact hruns

theorem runs_walkKnown (hwf : g.WellFormed) (known : Option IdomMap) (entry : Value)
    (config : Config) :
    Monitor.Runs (Workbench.employ g entry config do
        modify ({ · with builder.idoms? := known })
        Workbench.buildFrontiers g)
      (walkKnown g known entry config) (phasesFrom g entry known.isNone true) := by
  cases hentry : g.contains entry with
  | false =>
      have hwalk : walkKnown g known entry config = .error (.invalidEntry entry) := by
        cases known <;> simp [walkKnown, walkFrom, findFrom_unknown config hentry, hentry]
      rw [hwalk, phasesFrom, hentry]
      exact runs_employ_unknown config _ hentry
  | true =>
      have hknown : ∃ idoms, (⟨entry, .ofList g.vertices, config, known, none⟩ : Builder).known g =
          .ok idoms := by
        cases known with
        | some idoms => exact ⟨idoms, rfl⟩
        | none =>
            obtain ⟨idoms, hfind, -⟩ := exists_findFrom_ok config hwf hentry
            exact ⟨idoms, (findFrom_known config hentry).symm.trans hfind⟩
      have hwalk : walkKnown g known entry config =
          (⟨entry, .ofList g.vertices, config, known, none⟩ : Builder).walked g
            ((⟨entry, .ofList g.vertices, config, known, none⟩ : Builder).known g) := by
        cases known with
        | some idoms => simp [walkKnown, hentry, Builder.walked, Builder.known]
        | none => rw [walkKnown, walkFrom, findFrom_known config hentry]; rfl
      refine runs_employ hentry fun m => ?_
      obtain ⟨m', hrun, hpassed⟩ := Workbench.exists_apply_buildFrontiers g
        ⟨⟨entry, .ofList g.vertices, config, known, none⟩, m⟩
      obtain ⟨idoms, hidoms⟩ := hknown
      refine ⟨_, m', (Change.apply_bind_ok (Change.apply_modify _ _)).trans (hwalk ▸ hrun), ?_⟩
      rw [hidoms] at hpassed
      rw [phasesFrom, hentry]
      exact hpassed

theorem runs_walkAlong (g : FlowGraph) (groups : FrontierMap) (entry : Value) (config : Config) :
    Monitor.Runs (Workbench.employ g entry config (Workbench.buildFrontiersAlong g groups))
      (walkAlong g groups entry config) (phasesFrom g entry false true) := by
  unfold walkAlong phasesFrom
  cases hentry : g.contains entry with
  | false => exact runs_employ_unknown config _ hentry
  | true =>
      refine runs_employ hentry fun m => ?_
      obtain ⟨m', hrun, hpassed⟩ := Workbench.exists_apply_walk
        ⟨⟨entry, .ofList g.vertices, config, none, none⟩, m⟩
        fun b => walkFrontiersAlong g groups b.config.pruneEmpty
      exact ⟨_, m', hrun, hpassed⟩

/-! ## Runs under a context -/

section Contexts

variable {α β : Type} {f : Setting → Change Monitor α} {o : Config → Except Fault α}
variable {phases : List (List String)}

/-- Under every context the analysis comes to what `o` says of its options, and a console that is in
use at the call is in use behind it, past these phases. -/
def Answers (f : Setting → Change Monitor α) (o : Config → Except Fault α)
    (phases : List (List String)) : Prop :=
  ∀ c m, ∃ m', (f (.context c)).apply m = (o c.config, m') ∧
    (m.console = c.console → c.console.Passed m'.console phases)

def phasesAfter (r : Except Fault β) (phases : β → List (List String)) : List (List String) :=
  match r with
  | .ok b => phases b
  | .error _ => []

def phaseAround (name : String) (phases : List (List String)) : List (List String) :=
  phases.map (name :: ·) ++ [[name]]

theorem answers_of_runs {c : Change Monitor α} {outcome : Except Fault α}
    (h : Monitor.Runs c outcome phases) : Answers (fun _ => c) (fun _ => outcome) phases := by
  intro context m
  obtain ⟨m', hc, hpassed⟩ := h m
  refine ⟨m', hc, ?_⟩
  intro hconsole
  exact hconsole ▸ hpassed

theorem answers_openUp {k : Config → Change Monitor α}
    (h : ∀ config, Monitor.Runs (k config) (o config) phases) :
    Answers (fun setting => setting.openUp >>= k) o phases := by
  intro c m
  obtain ⟨m', hk, hpassed⟩ := h c.config { m with console := c.console }
  exact ⟨m', (Change.apply_bind_ok (apply_openUp rfl m)).trans hk, fun _ => hpassed⟩

theorem answers_lift (r : Except Fault β) {f : Setting → β → Change Monitor α}
    {o : β → Config → Except Fault α} {phases : β → List (List String)}
    (h : ∀ b, Answers (fun setting => f setting b) (o b) (phases b)) :
    Answers (fun setting => Change.lift r >>= f setting) (fun config => r >>= fun b => o b config)
      (phasesAfter r phases) := by
  cases r with
  | error fault =>
      intro c m
      exact ⟨m, Change.apply_lift_bind_error rfl, fun hm => hm ▸ Console.passed_refl _⟩
  | ok b =>
      intro c m
      obtain ⟨m', hf, hpassed⟩ := h b c m
      exact ⟨m', (Change.apply_lift_bind_ok rfl).trans hf, hpassed⟩

theorem Answers.map (h : Answers f o phases) (answer : α → β) :
    Answers (fun setting => answer <$> f setting) (fun config => (o config).map answer) phases := by
  intro c m
  obtain ⟨m', hf, hpassed⟩ := h c m
  exact ⟨m', Change.apply_map hf, hpassed⟩

end Contexts

section Answers

variable {v : View}

theorem answers_idoms (v : View) (entry : Value) :
    Answers (idoms v entry) (findFrom v.graph entry) (phasesFrom v.graph entry true false) :=
  answers_openUp (runs_find v.graph entry)

theorem answers_frontiers (hwf : v.graph.WellFormed) (given : Option Value) :
    Answers (frontiers v given)
      (fun config => entryOr v.graph given >>= fun entry => walkFrom v.graph entry config)
      (phasesAfter (entryOr v.graph given) fun entry =>
        phaseAround "dominance" (phasesFrom v.graph entry true true)) :=
  answers_lift _ fun entry => answers_openUp fun config =>
    ((runs_walk hwf entry config).phase "dominance").note .frontiers .debug _

theorem answers_frontiersFrom (hwf : v.graph.WellFormed) (known : Option IdomMap)
    (given : Option Value) :
    Answers (frontiersFrom v known given)
      (fun config => entryOr v.graph given >>= fun entry => walkKnown v.graph known entry config)
      (phasesAfter (entryOr v.graph given) fun entry =>
        phasesFrom v.graph entry known.isNone true) :=
  answers_lift _ fun entry => answers_openUp (runs_walkKnown hwf known entry)

theorem answers_frontiersAlong (v : View) (groups : FrontierMap) (given : Option Value) :
    Answers (frontiersAlong v groups given)
      (fun config => entryOr v.graph given >>= fun entry => walkAlong v.graph groups entry config)
      (phasesAfter (entryOr v.graph given) fun entry => phasesFrom v.graph entry false true) :=
  answers_lift _ fun entry => answers_openUp (runs_walkAlong v.graph groups entry)

def ifExit {β : Type} (v : View) (present absent : β) : β :=
  if v.graph.hasExit then present else absent

theorem answers_postIdoms (v : View) :
    Answers (postIdoms v)
      (fun config => ifExit v
        (v.reverse.graph.entry >>= fun entry => findFrom v.reverse.graph entry config) (.ok .empty))
      (ifExit v (phasesAfter v.reverse.graph.entry fun entry =>
        phasesFrom v.reverse.graph entry true false) []) := by
  unfold postIdoms ifExit
  cases v.graph.hasExit with
  | true => exact answers_lift _ fun entry => answers_idoms v.reverse entry
  | false => exact answers_of_runs fun m => ⟨_, rfl, Console.passed_refl _⟩

theorem answers_postFrontiers (hwf : v.graph.WellFormed) :
    Answers (postFrontiers v)
      (fun config => ifExit v
        (v.reverse.graph.entry >>= fun entry => walkFrom v.reverse.graph entry config) (.ok .empty))
      (ifExit v (phaseAround "post-dominance" (phasesAfter v.reverse.graph.entry fun entry =>
        phasesFrom v.reverse.graph entry true true)) []) := by
  unfold postFrontiers ifExit
  cases v.graph.hasExit with
  | true =>
      refine answers_openUp fun config =>
        Monitor.Runs.note (Monitor.Runs.phase ?_ "post-dominance") .frontiers .debug _
      cases v.reverse.graph.entry with
      | error fault => exact .lift_error fault _
      | ok entry => exact (runs_walk (View.reverse_wellFormed hwf) entry config).lift_ok
  | false => exact answers_of_runs fun m => ⟨_, rfl, Console.passed_refl _⟩

end Answers

end Analysis

/-! ## Queries -/

namespace Query

open Analysis

def outcome (v : View) (config : Config) : Query → Except Fault Answer
  | .idoms entry => (findFrom v.graph entry config).map .idoms
  | .frontiers given =>
      (entryOr v.graph given >>= fun entry => walkFrom v.graph entry config).map .frontiers
  | .frontiersFrom known given =>
      (entryOr v.graph given >>= fun entry => walkKnown v.graph known entry config).map .frontiers
  | .frontiersAlong groups given =>
      (entryOr v.graph given >>= fun entry => walkAlong v.graph groups entry config).map .frontiers
  | .postIdoms => (ifExit v (v.reverse.graph.entry >>= fun entry =>
      findFrom v.reverse.graph entry config) (.ok .empty)).map .idoms
  | .postFrontiers => (ifExit v (v.reverse.graph.entry >>= fun entry =>
      walkFrom v.reverse.graph entry config) (.ok .empty)).map .frontiers

def phases (v : View) : Query → List (List String)
  | .idoms entry => phasesFrom v.graph entry true false
  | .frontiers given => phasesAfter (entryOr v.graph given) fun entry =>
      phaseAround "dominance" (phasesFrom v.graph entry true true)
  | .frontiersFrom known given => phasesAfter (entryOr v.graph given) fun entry =>
      phasesFrom v.graph entry known.isNone true
  | .frontiersAlong _ given => phasesAfter (entryOr v.graph given) fun entry =>
      phasesFrom v.graph entry false true
  | .postIdoms => ifExit v (phasesAfter v.reverse.graph.entry fun entry =>
      phasesFrom v.reverse.graph entry true false) []
  | .postFrontiers => ifExit v (phaseAround "post-dominance"
      (phasesAfter v.reverse.graph.entry fun entry =>
        phasesFrom v.reverse.graph entry true true)) []

variable {v : View}

theorem answers (hwf : v.graph.WellFormed) (q : Query) :
    Answers (fun setting => q.run v setting) (fun config => q.outcome v config) (q.phases v) := by
  cases q with
  | idoms entry => exact (answers_idoms v entry).map Answer.idoms
  | frontiers given => exact (answers_frontiers hwf given).map Answer.frontiers
  | frontiersFrom known given => exact (answers_frontiersFrom hwf known given).map Answer.frontiers
  | frontiersAlong groups given => exact (answers_frontiersAlong v groups given).map Answer.frontiers
  | postIdoms => exact (answers_postIdoms v).map Answer.idoms
  | postFrontiers => exact (answers_postFrontiers hwf).map Answer.frontiers

theorem map_frontiers_cut {β : Type} {pruneEmpty : Bool} (r : Except Fault β)
    {walk full : β → Except Fault FrontierMap}
    (h : ∀ b, walk b = (full b).map (FrontierMap.cut pruneEmpty)) :
    (r >>= walk).map Answer.frontiers =
      ((r >>= full).map Answer.frontiers).map (Answer.cut pruneEmpty) := by
  cases r with
  | error fault => rfl
  | ok b =>
      rw [ok_bind, ok_bind, h b]
      cases full b <;> rfl

theorem map_idoms_cut (pruneEmpty : Bool) (r : Except Fault IdomMap) :
    r.map Answer.idoms = (r.map Answer.idoms).map (Answer.cut pruneEmpty) := by
  cases r <;> rfl

theorem outcome_cut (hwf : v.graph.WellFormed) (config : Config) (q : Query) :
    q.outcome v config = (q.outcome v .default).map (Answer.cut config.pruneEmpty) := by
  have hreverse := View.reverse_wellFormed hwf
  cases q with
  | idoms entry =>
      rw [outcome, outcome, findFrom_default hwf entry config]
      exact map_idoms_cut config.pruneEmpty _
  | frontiers given => exact map_frontiers_cut _ fun entry => walkFrom_cut hwf entry config
  | frontiersFrom known given =>
      exact map_frontiers_cut _ fun entry => walkKnown_cut hwf known entry config
  | frontiersAlong groups given =>
      exact map_frontiers_cut _ fun entry => walkAlong_cut v.graph groups entry config
  | postIdoms =>
      simp only [outcome, findFrom_default hreverse _ config]
      exact map_idoms_cut config.pruneEmpty _
  | postFrontiers =>
      unfold outcome ifExit
      cases v.graph.hasExit with
      | true => exact map_frontiers_cut _ fun entry => walkFrom_cut hreverse entry config
      | false => cases config.pruneEmpty <;> rfl

end Query

theorem diagnostics_do_not_interfere {v : View} (hwf : v.graph.WellFormed) (q : Query) :
    (∀ (c c' : Context) (m m' : Monitor), c.config.pruneEmpty = c'.config.pruneEmpty →
      ((q.run v (.context c)).apply m).1 = ((q.run v (.context c')).apply m').1) ∧
    (∀ (c c' : Context) (m m' : Monitor), c.config.pruneEmpty = true →
      c'.config.pruneEmpty = false → ((q.run v (.context c)).apply m).1 =
        ((q.run v (.context c')).apply m').1.map Answer.withoutEmpty) ∧
    ∀ (config : Config) (m : Monitor), m.console.Passed
      ((q.run v (.context ⟨config, m.console⟩)).apply m).2.console (q.phases v) := by
  have houtcome : ∀ (c : Context) (m : Monitor), ((q.run v (.context c)).apply m).1 =
      (q.outcome v .default).map (Answer.cut c.config.pruneEmpty) := by
    intro c m
    obtain ⟨m', hrun, -⟩ := Query.answers hwf q c m
    exact (congrArg Prod.fst hrun).trans (Query.outcome_cut hwf c.config q)
  refine ⟨?_, ?_, ?_⟩
  · intro c c' m m' hprune
    rw [houtcome c m, houtcome c' m', hprune]
  · intro c c' m m' hprune hfull
    rw [houtcome c m, houtcome c' m', hprune, hfull]
    cases q.outcome v .default with
    | error fault => rfl
    | ok answer =>
        change Except.ok (answer.cut true) = .ok (answer.cut false).withoutEmpty
        rw [Answer.cut_true, Answer.cut_false]
  · intro config m
    obtain ⟨m', hrun, hpassed⟩ := Query.answers hwf q ⟨config, m.console⟩ m
    change (q.run v (.context ⟨config, m.console⟩)).apply m = _ at hrun
    rw [hrun]
    exact hpassed rfl

def busyConsole : Console :=
  ⟨true, .console, [⟨"inner", 1.5⟩, ⟨"outer", 1.0⟩], [⟨["earlier"], 0.25⟩]⟩

theorem diagnostics_do_not_interfere_twoWayLoop :
    (View.of twoWayLoop.graph).graph.WellFormed ∧
    (((Query.frontiers none).run (.of twoWayLoop.graph)
        (.context ⟨⟨.iterative, true, true⟩, busyConsole⟩)).apply
      (.new busyConsole .debug .steady)).1 =
    (((Query.frontiers none).run (.of twoWayLoop.graph)
        (.context ⟨⟨.lengauerTarjan, true, false⟩, .new false .console⟩)).apply
      (.new (.new false .console) .warning .steady)).1 ∧
    busyConsole.Passed (((Query.frontiers none).run (.of twoWayLoop.graph)
        (.context ⟨⟨.iterative, true, true⟩, busyConsole⟩)).apply
      (.new busyConsole .debug .steady)).2.console
      [["dominance", "dominator tree"], ["dominance", "dominance frontier"], ["dominance"]] := by
  have hwf : (View.of twoWayLoop.graph).graph.WellFormed := twoWayLoop_wellFormed
  have hphases : (Query.frontiers none).phases (.of twoWayLoop.graph) =
      [["dominance", "dominator tree"], ["dominance", "dominance frontier"], ["dominance"]] := by
    decide
  obtain ⟨hsame, -, hpassed⟩ := diagnostics_do_not_interfere hwf (.frontiers none)
  refine ⟨hwf, hsame _ _ _ _ rfl, ?_⟩
  rw [← hphases]
  exact hpassed ⟨.iterative, true, true⟩ (.new busyConsole .debug .steady)

end FlowDominance
