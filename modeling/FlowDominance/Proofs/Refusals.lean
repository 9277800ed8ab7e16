import FlowDominance.Proofs.PostDominance

/-!
# Refusals

An analysis of an adjacency graph refuses its arguments in a fixed order, and behind that nothing goes
wrong.  Options are looked at before the entry, but after a missing entry; where there is no exit,
post-dominance looks at nothing else.
-/

namespace FlowDominance

def familyOf {α : Type} : Except Fault α → Option Family
  | .ok _ => none
  | .error fault => some fault.family

theorem familyOf_bind {α β : Type} {x : Except Fault α} {f : α → Except Fault β} {accepted : Bool}
    {first : Family} {second : Option Family}
    (hx : familyOf x = if accepted then none else some first)
    (hf : ∀ a, familyOf (f a) = second) :
    familyOf (x >>= f) = if accepted then second else some first := by
  cases x with
  | ok a =>
      cases accepted with
      | true => simpa using hf a
      | false => simp [familyOf] at hx
  | error fault =>
      cases accepted with
      | true => simp [familyOf] at hx
      | false => exact hx

/-! ## Options -/

namespace Config

def takes (name value : Value) : Bool :=
  match name with
  | .str "algorithm" => value ∈ [Value.str "lengauer-tarjan", Value.str "iterative"]
  | .str "prune_empty" | .str "verbose" => value ∈ [Value.bool true, Value.bool false]
  | _ => false

theorem isSome_ofName? (value : Value) : (Algorithm.ofName? value).isSome =
    decide (value ∈ [Value.str "lengauer-tarjan", Value.str "iterative"]) := by
  unfold Algorithm.ofName?
  split
  · rfl
  · rfl
  · simp_all

theorem familyOf_setOption (c : Config) (name value : Value) :
    familyOf (c.setOption name value) = if takes name value then none else some .config := by
  unfold setOption takes
  split
  · rw [← isSome_ofName?]
    cases Algorithm.ofName? value <;> rfl
  · cases value with
    | bool b => cases b <;> rfl
    | _ => rfl
  · cases value with
    | bool b => cases b <;> rfl
    | _ => rfl
  · simp [familyOf, Fault.family]

theorem familyOf_foldlM (options : List (Value × Value)) (c : Config) :
    familyOf (options.foldlM (fun c option => c.setOption option.1 option.2) c) =
      if options.all fun option => takes option.1 option.2 then none else some .config := by
  induction options generalizing c with
  | nil => rfl
  | cons option options ih =>
      rw [List.foldlM_cons, familyOf_bind (familyOf_setOption c option.1 option.2) ih, List.all_cons]
      cases takes option.1 option.2 <;> rfl

end Config

namespace Setting

variable {setting : Setting} {table : Table Value}

def Named : Setting → Prop
  | .options table => ∀ k ∈ table.keys, ∃ name, k = .str name ∧ name ≠ "self"
  | _ => True

def fits : Setting → Bool
  | .options table => table.entries.all fun option => Config.takes option.1 option.2
  | _ => true

theorem exists_accept_ok (h : (options table).Named) : ∃ named,
    Config.signature.accept table = .ok named ∧
      named.map (fun option => (Value.str option.1, option.2)) = table.entries := by
  have htext : ∀ option ∈ table.entries, ∃ named, Signature.textName option = .ok named ∧
      (Value.str named.1, named.2) = option := by
    intro option hoption
    obtain ⟨name, hname, -⟩ := h option.1 (List.mem_map_of_mem hoption)
    exact ⟨(name, option.2), by simp [Signature.textName, hname], by simp [← hname]⟩
  obtain ⟨named, hrun, hall⟩ := exists_mapM_ok table.entries
    (fun option (named : String × Value) => (Value.str named.1, named.2) = option) htext
  have hnamed : named.map (fun option => (Value.str option.1, option.2)) = table.entries :=
    List.forall₂_eq_eq_eq ▸ List.forall₂_map_left_iff.2 hall.flip
  have hfree : named.find? (fun option => Config.signature.parameters.contains option.1) = none := by
    rw [List.find?_eq_none]
    intro option hoption
    have hmem : (Value.str option.1, option.2) ∈ table.entries := hnamed ▸ List.mem_map_of_mem hoption
    obtain ⟨name, hname, hne⟩ := h (.str option.1) (List.mem_map_of_mem hmem)
    cases hname
    simpa [Config.signature] using hne
  refine ⟨named, ?_, hnamed⟩
  simp only [Signature.accept, hrun, ok_bind, hfree]
  rfl

theorem ofOptions_eq (h : (options table).Named) : Config.ofOptions table =
    table.entries.foldlM (fun c option => c.setOption option.1 option.2) .default := by
  obtain ⟨named, haccept, hnamed⟩ := exists_accept_ok h
  rw [Config.ofOptions, haccept, ok_bind, ← hnamed, List.foldlM_map]

theorem familyOf_resolve (h : setting.Named) :
    familyOf setting.resolve = if setting.fits then none else some .config := by
  cases setting with
  | options table =>
      have hall := Config.familyOf_foldlM table.entries .default
      rw [← ofOptions_eq h] at hall
      rw [resolve, fits, ← hall]
      cases Config.ofOptions table <;> rfl
  | _ => rfl

/-- What refuses an analysis from a vertex: its options, or else the vertex. -/
def refusal (setting : Setting) (g : FlowGraph) (entry : Value) : Option Family :=
  if setting.fits then if g.contains entry then none else some .invalidEntry else some .config

end Setting

/-! ## Analyses -/

namespace Analysis

variable {g : FlowGraph}

theorem familyOf_findFrom (hwf : g.WellFormed) (entry : Value) (config : Config) :
    familyOf (findFrom g entry config) =
      if g.contains entry then none else some .invalidEntry := by
  cases hentry : g.contains entry with
  | true =>
      obtain ⟨idoms, hfind, -⟩ := exists_findFrom_ok config hwf hentry
      rw [hfind]
      rfl
  | false =>
      rw [findFrom_unknown config hentry]
      rfl

theorem familyOf_walkFrom (hwf : g.WellFormed) (entry : Value) (config : Config) :
    familyOf (walkFrom g entry config) =
      if g.contains entry then none else some .invalidEntry := by
  cases hentry : g.contains entry with
  | true =>
      rw [walkFrom_eq config hwf hentry]
      rfl
  | false =>
      rw [walkFrom, findFrom_unknown config hentry]
      rfl

end Analysis

namespace Adjacency

variable {g : Adjacency} {exit : Value}

theorem entryOr_graph (g : Adjacency) (given : Option Value) :
    Analysis.entryOr g.graph given = (given.or g.entry?).elim (.error .noEntry) .ok := by
  cases given <;> rfl

theorem hasExit_graph (h : g.exit? = some exit) : (View.of g.graph).graph.hasExit = true := by
  change g.exit?.isSome = true
  rw [h]
  rfl

theorem reverse_entry (h : g.exit? = some exit) :
    (View.of g.graph).reverse.graph.entry = .ok exit := by
  change g.graph.reversed.entry = .ok exit
  simp [FlowGraph.reversed, graph, h]

end Adjacency

theorem refusals_in_order {g : Adjacency} {setting : Setting} (m : Monitor) (hg : g.Reached)
    (hnamed : setting.Named) (e : Value) :
    familyOf ((Analysis.idoms (.of g.graph) e setting).apply m).1 =
      setting.refusal g.graph e ∧
    familyOf ((Analysis.frontiers (.of g.graph) e.present? setting).apply m).1 =
      (match e.present?.or g.entry? with
      | none => some .graph
      | some entry => setting.refusal g.graph entry) ∧
    (g.exit? = none →
      ((Analysis.postIdoms (.of g.graph) setting).apply m).1 = .ok .empty ∧
      ((Analysis.postFrontiers (.of g.graph) setting).apply m).1 = .ok .empty) ∧
    (g.exit? ≠ none →
      familyOf ((Analysis.postIdoms (.of g.graph) setting).apply m).1 =
        (if setting.fits then none else some .config) ∧
      familyOf ((Analysis.postFrontiers (.of g.graph) setting).apply m).1 =
        (if setting.fits then none else some .config)) := by
  obtain ⟨log, hlog⟩ := hg.exists_logged
  have hwf := hlog.wellFormed
  refine ⟨?_, ?_, ?_, ?_⟩
  · rw [Analysis.idoms_outcome]
    exact familyOf_bind (Setting.familyOf_resolve hnamed) fun context =>
      Analysis.familyOf_findFrom hwf e context.config
  · have hentry : Analysis.entryOr (View.of g.graph).graph e.present? = _ :=
      g.entryOr_graph e.present?
    rw [Analysis.frontiers_outcome, hentry]
    cases e.present?.or g.entry? with
    | none => rfl
    | some entry =>
        rw [Option.elim_some, ok_bind]
        exact familyOf_bind (Setting.familyOf_resolve hnamed) fun context =>
          Analysis.familyOf_walkFrom hwf entry context.config
  · intro hexit
    have hnone : (View.of g.graph).graph.hasExit = false := by
      change g.exit?.isSome = false
      rw [hexit]
      rfl
    exact ⟨Analysis.postIdoms_without_exit _ hnone setting m,
      Analysis.postFrontiers_without_exit _ hnone setting m⟩
  · intro hexit
    obtain ⟨exit, hexit⟩ := Option.ne_none_iff_exists'.1 hexit
    have hmem : g.graph.reversed.contains exit = true := hlog.exit_mem exit hexit
    constructor
    · rw [Analysis.postIdoms_outcome _ (Adjacency.hasExit_graph hexit),
        Adjacency.reverse_entry hexit, ok_bind]
      exact familyOf_bind (Setting.familyOf_resolve hnamed) fun context =>
        (Analysis.familyOf_findFrom hwf.reversed exit context.config).trans (if_pos hmem)
    · rw [Analysis.postFrontiers_outcome _ (Adjacency.hasExit_graph hexit),
        Adjacency.reverse_entry hexit]
      exact familyOf_bind (Setting.familyOf_resolve hnamed) fun context =>
        (Analysis.familyOf_walkFrom hwf.reversed exit context.config).trans (if_pos hmem)

def unmarkedEdge : Adjacency := ((Adjacency.addEdge (.str "a") (.str "b")).apply .empty).2

theorem unmarkedEdge_reached : unmarkedEdge.Reached := .addEdge _ _ (.designated none none rfl)

/-- The second option is a number where a truth value is wanted. -/
def numberForVerbose : Setting :=
  .options (.ofList [(.str "algorithm", .str "iterative"), (.str "verbose", .int 1)])

theorem refusals_in_order_unmarkedEdge :
    unmarkedEdge.Reached ∧ numberForVerbose.Named ∧
    familyOf ((Analysis.idoms (.of unmarkedEdge.graph) .null numberForVerbose).apply
      (.new (.new false .console) .warning .steady)).1 = some .config ∧
    familyOf ((Analysis.frontiers (.of unmarkedEdge.graph) none numberForVerbose).apply
      (.new (.new false .console) .warning .steady)).1 = some .graph ∧
    ((Analysis.postIdoms (.of unmarkedEdge.graph) numberForVerbose).apply
      (.new (.new false .console) .warning .steady)).1 = .ok .empty ∧
    ((Analysis.postFrontiers (.of unmarkedEdge.graph) numberForVerbose).apply
      (.new (.new false .console) .warning .steady)).1 = .ok .empty := by
  have hnamed : numberForVerbose.Named := by
    intro k hk
    fin_cases hk
    · exact ⟨"algorithm", rfl, by decide⟩
    · exact ⟨"verbose", rfl, by decide⟩
  obtain ⟨hidoms, hfrontiers, hempty, -⟩ := refusals_in_order
    (.new (.new false .console) .warning .steady) unmarkedEdge_reached hnamed .null
  exact ⟨unmarkedEdge_reached, hnamed, hidoms.trans (by decide), hfrontiers.trans (by decide),
    hempty (by decide)⟩

end FlowDominance
