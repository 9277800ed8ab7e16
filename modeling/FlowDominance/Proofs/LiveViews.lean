import FlowDominance.Workspace
import FlowDominance.Proofs.Reversals

/-!
# Live views

Views of a graph under several names, put up one from the other while the graph behind them grows.  With
its entry and its exit marked, a graph is seen as it is now through an even number of turns, and turned
round through an odd number; an analysis of the one is then the dual analysis of the other.
-/

namespace FlowDominance

/-! ## Seen through turns -/

namespace View

variable {g : FlowGraph} {turns : List Turn}

theorem graph_stacked_even (hexit : g.hasExit = true) (h : Even turns.length) :
    (stacked g turns).graph = g := by
  rw [stacked_eq]
  change through g (depth turns) = g
  by_cases hzero : depth turns = 0
  · rw [hzero]
    rfl
  · rw [through_even ((even_depth turns).2 h) hzero, FlowGraph.reversed_reversed hexit]

theorem graph_stacked_odd (h : ¬Even turns.length) : (stacked g turns).graph = g.reversed := by
  rw [stacked_eq]
  exact through_odd fun heven => h ((even_depth turns).1 heven)

theorem reverse_stacked (g : FlowGraph) (turns : List Turn) :
    (stacked g turns).reverse = stacked g (turns ++ [.reverse]) := by
  simp [stacked, Turn.apply]

end View

structure FlowGraph.Mirrors (v g : FlowGraph) : Prop where
  vertices : v.vertices = g.vertices
  contains : ∀ x, v.contains x = g.contains x
  size : v.size = g.size
  inEdges : ∀ x, v.inEdges x = (g.outEdges x).map (List.map Edge.reversed)
  outEdges : ∀ x, v.outEdges x = (g.inEdges x).map (List.map Edge.reversed)
  entry : v.entry = g.exit
  exit : v.exit = g.entry
  edges : ∃ es all, g.edges = .ok es ∧ v.edges = .ok all ∧ all.Perm (es.map Edge.reversed)

namespace Adjacency

variable {g : Adjacency} {log : List Edge}

theorem Logged.reversed_edges_eq (h : Logged g log) : g.graph.reversed.edges =
    .ok ((g.outgoing.keys.flatMap fun u => log.filter fun e => u.same e.target).map
      Edge.reversed) := by
  have hrows : g.outgoing.keys.mapM g.graph.reversed.outEdges = .ok (g.outgoing.keys.map
      fun u => (log.filter fun e => u.same e.target).map Edge.reversed) := by
    refine mapM_eq_ok fun u hu => FlowGraph.reversed_outEdges ?_
    have hmem : g.incoming.contains u = true :=
      h.contains_incoming.trans (Value.occursIn_of_mem hu)
    simp [graph, row, h.incoming_filed u hmem]
  change (g.outgoing.keys.mapM g.graph.reversed.outEdges).map List.flatten = _
  rw [hrows, List.map_flatMap]
  rfl

theorem Logged.reversed_mirrors (h : Logged g log) (hexit : g.exit?.isSome = true) :
    g.graph.reversed.Mirrors g.graph where
  vertices := rfl
  contains := fun _ => rfl
  size := rfl
  inEdges := fun _ => rfl
  outEdges := fun _ => rfl
  entry := if_pos hexit
  exit := rfl
  edges := by
    obtain ⟨es, hes, hlog⟩ := h.exists_edges
    have hcovered : ∀ e ∈ log, e.target.occursIn g.outgoing.keys = true := fun e he => (h.ends e he).2
    have hturned := (flatMap_filter_perm g.outgoing.distinct Edge.target hcovered).map Edge.reversed
    exact ⟨es, _, hes, h.reversed_edges_eq, hturned.trans (hlog.symm.map Edge.reversed)⟩

end Adjacency

/-! ## Analyses of views -/

theorem Query.run_congr {v v' : View} (h : v.graph = v'.graph)
    (hreverse : v.reverse.graph = v'.reverse.graph) (setting : Setting) (q : Query) :
    q.run v setting = q.run v' setting := by
  cases q <;> simp only [Query.run, Analysis.idoms, Analysis.frontiers, Analysis.frontiersFrom,
    Analysis.frontiersAlong, Analysis.postIdoms, Analysis.postFrontiers, h, hreverse]

/-- What the one view says of dominance the other says of post-dominance, and the other way round. -/
structure View.Dual (v w : View) (entry exit : Value) : Prop where
  idoms : ∀ setting m, ((Analysis.idoms v exit setting).apply m).1 =
    ((Analysis.postIdoms w setting).apply m).1
  frontiers : ∀ setting m, ((Analysis.frontiers v none setting).apply m).1 =
    ((Analysis.postFrontiers w setting).apply m).1
  postIdoms : ∀ setting m, ((Analysis.postIdoms v setting).apply m).1 =
    ((Analysis.idoms w entry setting).apply m).1
  postFrontiers : ∀ setting m, ((Analysis.postFrontiers v setting).apply m).1 =
    ((Analysis.frontiers w none setting).apply m).1

section Dual

variable {v w : View} {entry exit : Value}

theorem Analysis.idoms_eq_postIdoms (hexit : w.graph.hasExit = true)
    (hentry : w.reverse.graph.entry = .ok entry) (hgraph : v.graph = w.reverse.graph)
    (setting : Setting) (m : Monitor) : ((idoms v entry setting).apply m).1 =
      ((postIdoms w setting).apply m).1 := by
  rw [idoms_outcome, postIdoms_outcome w hexit, hentry, ok_bind, hgraph]

theorem Analysis.frontiers_eq_postFrontiers (hexit : w.graph.hasExit = true)
    (hentry : w.reverse.graph.entry = .ok entry) (hgraph : v.graph = w.reverse.graph)
    (setting : Setting) (m : Monitor) : ((frontiers v none setting).apply m).1 =
      ((postFrontiers w setting).apply m).1 := by
  have hown : entryOr v.graph none = .ok entry := by rw [hgraph, ← hentry, entryOr]
  rw [frontiers_outcome, postFrontiers_outcome w hexit, hown, hentry, hgraph]
  rfl

theorem View.dual_of_reverse (hgraph : v.graph = w.reverse.graph) (hback : w.graph = v.reverse.graph)
    (hhas : w.graph.hasExit = true) (hhas' : v.graph.hasExit = true)
    (hentry : w.graph.entry = .ok entry) (hexit : v.graph.entry = .ok exit) :
    v.Dual w entry exit where
  idoms := Analysis.idoms_eq_postIdoms hhas (hgraph ▸ hexit) hgraph
  frontiers := Analysis.frontiers_eq_postFrontiers hhas (hgraph ▸ hexit) hgraph
  postIdoms := fun setting m =>
    (Analysis.idoms_eq_postIdoms hhas' (hback ▸ hentry) hback setting m).symm
  postFrontiers := fun setting m =>
    (Analysis.frontiers_eq_postFrontiers hhas' (hback ▸ hentry) hback setting m).symm

end Dual

/-! ## Names of views -/

namespace Workspace

variable {w : Workspace} {name other base : String} {h : Handle} {g : Adjacency} {α : Type}
variable {state : String × Workspace}

theorem lookup_bound_self (name : String) (a : α) (entries : List (String × α)) :
    lookup name (bound name a entries) = .ok a := by
  simp [lookup, bound]

theorem lookup_bound_of_ne (hne : name ≠ other) (a : α) (entries : List (String × α)) :
    lookup name (bound other a entries) = lookup name entries := by
  have hsame : ∀ entry : String × α, (entry.1 ≠ other ∧ entry.1 = name) ↔ entry.1 = name :=
    fun entry => ⟨And.right, fun hentry => ⟨hentry ▸ hne, hentry⟩⟩
  simp only [lookup, bound, unbound, List.find?_cons, List.find?_filter, Ne.symm hne, decide_false,
    decide_eq_true_eq, hsame]

/-- A turn from the latest view to one of another name, or a change of the graph behind them all. -/
inductive Move where
  | view (turn : View.Turn) (newName : String)
  | grow (call : Growth)

namespace Move

def turn? : Move → Option View.Turn
  | .view turn _ => some turn
  | .grow _ => none

def call? : Move → Option Growth
  | .view _ _ => none
  | .grow call => some call

def newName? : Move → Option String
  | .view _ newName => some newName
  | .grow _ => none

def command (base latest : String) : Move → String × Command
  | .view .reverse newName => (latest, .reverse newName)
  | .view .wrap newName => (latest, .wrap newName)
  | .grow call => (base, .grow call)

def make (base : String) (state : String × Workspace) (move : Move) : String × Workspace :=
  let (name, command) := move.command base state.1
  (move.newName?.getD state.1, ((perform name command).apply state.2).2)

end Move

def follow (base : String) (moves : List Move) (w : Workspace) : String × Workspace :=
  moves.foldl (Move.make base) (base, w)

/-! ## Moves -/

theorem apply_handle (hname : lookup name w.handles = .ok h) :
    (handle name).apply w = (.ok h, w) := by
  rw [handle, Change.apply_bind_ok (Change.apply_get _), Change.apply_lift, hname]

theorem exists_make_view (base : String) (turn : View.Turn) (newName : String)
    (hname : lookup state.1 state.2.handles = .ok h) : ∃ stamps w',
      stamps.length = turn.depth h.stamps.length ∧
      Move.make base state (.view turn newName) = (newName, w') ∧ w'.stores = state.2.stores ∧
      w'.handles = bound newName ⟨h.store, stamps⟩ state.2.handles := by
  have hhandle := apply_handle hname
  cases turn with
  | wrap =>
      refine ⟨state.2.nextStamp :: h.stamps, _, rfl, rfl, ?_⟩
      rw [perform, Change.apply_bind_ok hhandle]
      exact ⟨rfl, rfl⟩
  | reverse =>
      cases h with
      | mk store stamps =>
          cases stamps with
          | nil =>
              refine ⟨[state.2.nextStamp], _, rfl, rfl, ?_⟩
              rw [perform, Change.apply_bind_ok hhandle]
              exact ⟨rfl, rfl⟩
          | cons stamp stamps =>
              refine ⟨stamps, _, rfl, rfl, ?_⟩
              rw [perform, Change.apply_bind_ok hhandle]
              exact ⟨rfl, rfl⟩

theorem apply_grow {i : Nat} (call : Growth) (hstore : w.stores[i]? = some (.adjacency g)) :
    (grow ⟨i, []⟩ call).apply w = (((Adjacency.grow call).apply g).1,
      { w with stores := w.stores.set i (.adjacency ((Adjacency.grow call).apply g).2) }) := by
  have hread : w.store ⟨i, []⟩ = .ok (.adjacency g) := by
    simp only [store, hstore]
  have hgrow : (Store.growBehind 0 call).apply (.adjacency g) = _ := Adjacency.apply_grow_store call g
  rw [grow, Change.apply_bind_ok (Change.apply_get _), Change.apply_lift_bind_ok hread]
  simp only [List.length_nil, hgrow]
  rfl

theorem exists_make_grow {i : Nat} (call : Growth)
    (hbase : lookup base state.2.handles = .ok ⟨i, []⟩)
    (hstore : state.2.stores[i]? = some (.adjacency g)) :
    ∃ w', Move.make base state (.grow call) = (state.1, w') ∧ w'.handles = state.2.handles ∧
      w'.stores[i]? = some (.adjacency ((Adjacency.grow call).apply g).2) := by
  refine ⟨_, rfl, ?_⟩
  rw [perform, Change.apply_bind_ok (apply_handle hbase), bind_pure_comp,
    Change.apply_map (apply_grow call hstore)]
  obtain ⟨hlt, -⟩ := List.getElem?_eq_some_iff.1 hstore
  exact ⟨rfl, by simp [hlt]⟩

/-- The graph has its name and its store, and the latest view leads there through reversals. -/
structure Watches (base : String) (i : Nat) (g : Adjacency) (depth : Nat)
    (state : String × Workspace) : Prop where
  base_eq : lookup base state.2.handles = .ok ⟨i, []⟩
  store_eq : state.2.stores[i]? = some (.adjacency g)
  latest : ∃ stamps, lookup state.1 state.2.handles = .ok ⟨i, stamps⟩ ∧ stamps.length = depth

theorem Watches.make {i depth : Nat} {move : Move}
    (h : Watches base i g depth state) (hmove : move.newName? ≠ some base) :
    Watches base i (move.call?.elim g fun call => ((Adjacency.grow call).apply g).2)
      (move.turn?.elim depth fun turn => turn.depth depth) (move.make base state) := by
  obtain ⟨hbase, hstore, stamps, hlatest, hdepth⟩ := h
  cases move with
  | view turn newName =>
      have hne : base ≠ newName := fun heq => hmove (congrArg some heq.symm)
      obtain ⟨stamps', w', hlength, hmake, hstores, hhandles⟩ :=
        exists_make_view base turn newName hlatest
      rw [hmake]
      exact {
        base_eq := by rw [hhandles, lookup_bound_of_ne hne, hbase]
        store_eq := by
          rw [hstores]
          exact hstore
        latest := ⟨stamps', by rw [hhandles, lookup_bound_self], by rw [hlength, ← hdepth]; rfl⟩ }
  | grow call =>
      obtain ⟨w', hmake, hhandles, hstores⟩ := exists_make_grow call hbase hstore
      rw [hmake]
      exact {
        base_eq := hhandles ▸ hbase
        store_eq := hstores
        latest := ⟨stamps, hhandles ▸ hlatest, hdepth⟩ }

theorem Watches.run {i depth : Nat} {moves : List Move}
    (h : Watches base i g depth state) (hmoves : ∀ move ∈ moves, move.newName? ≠ some base) :
    Watches base i (Adjacency.after (moves.filterMap Move.call?) g)
      ((moves.filterMap Move.turn?).foldl (fun m turn => turn.depth m) depth)
      (moves.foldl (Move.make base) state) := by
  induction moves generalizing g depth state with
  | nil => exact h
  | cons move moves ih =>
      have hstep := h.make (hmoves move (by simp))
      have hrest := ih hstep fun later hlater => hmoves later (by simp [hlater])
      cases move with
      | view turn newName => exact hrest
      | grow call => exact hrest

theorem exists_view_follow {i : Nat} {moves : List Move} (hbase : lookup base w.handles = .ok ⟨i, []⟩)
    (hstore : w.stores[i]? = some (.adjacency g))
    (hmoves : ∀ move ∈ moves, move.newName? ≠ some base) : ∃ h,
      lookup (follow base moves w).1 (follow base moves w).2.handles = .ok h ∧
      (follow base moves w).2.view h =
        .ok (View.stacked (Adjacency.after (moves.filterMap Move.call?) g).graph
          (moves.filterMap Move.turn?)) ∧
      (follow base moves w).2.store ⟨i, []⟩ =
        .ok (.adjacency (Adjacency.after (moves.filterMap Move.call?) g)) := by
  have hstart : Watches base i g 0 (base, w) := ⟨hbase, hstore, [], hbase, rfl⟩
  obtain ⟨-, hnow, stamps, hlatest, hdepth⟩ := hstart.run hmoves
  have hread : ∀ stamps, (follow base moves w).2.store ⟨i, stamps⟩ =
      .ok (.adjacency (Adjacency.after (moves.filterMap Move.call?) g)) := by
    intro stamps
    simp only [store, follow, hnow]
  refine ⟨⟨i, stamps⟩, hlatest, ?_, hread []⟩
  rw [View.stacked_eq, View.depth, ← hdepth, view, hread, ok_bind]
  rfl

end Workspace

namespace Adjacency

variable {g g' : Adjacency} {call : Growth} {outcome : Except Fault (Option Edge)}

def Marked (g : Adjacency) : Prop := g.entry?.isSome = true ∧ g.exit?.isSome = true

theorem Grows.marked (h : Grows g call outcome g') (hg : g.Marked) : g'.Marked := by
  obtain ⟨hentry, hexit⟩ := hg
  cases h <;> simp [Marked, withEdge, hentry, hexit]

theorem marked_after (calls : List Growth) (hg : g.Marked) : (after calls g).Marked := by
  induction calls generalizing g with
  | nil => exact hg
  | cons call calls ih => exact ih ((grows call g).marked hg)

theorem Reached.exists_logged_after (hg : g.Reached) (calls : List Growth) :
    ∃ log, (after calls g).Logged log := by
  obtain ⟨log, hlog⟩ := hg.exists_logged
  have hheld : g.Holds g.outgoing.keys log :=
    ⟨hlog, (Value.firsts_of_distinct g.outgoing.distinct).symm, rfl, rfl⟩
  exact ⟨_, (holds_after calls hheld).logged⟩

end Adjacency

open Workspace

theorem views_show_graph_or_mirror {w : Workspace} {base : String} {i : Nat} {g : Adjacency}
    (hbase : lookup base w.handles = .ok ⟨i, []⟩) (hstore : w.stores[i]? = some (.adjacency g))
    (hg : g.Reached) (hmarked : g.Marked) {moves : List Move}
    (hmoves : ∀ move ∈ moves, move.newName? ≠ some base) :
    let now := Adjacency.after (moves.filterMap Move.call?) g
    let turns := moves.filterMap Move.turn?
    ∃ h v, lookup (follow base moves w).1 (follow base moves w).2.handles = .ok h ∧
      (follow base moves w).2.view h = .ok v ∧
      (follow base moves w).2.store ⟨i, []⟩ = .ok (.adjacency now) ∧
      (Even turns.length → v.graph = now.graph ∧
        ∀ q setting, Query.run v setting q = Query.run (.of now.graph) setting q) ∧
      (¬Even turns.length → v.graph.Mirrors now.graph ∧
        ∃ entry exit, now.entry? = some entry ∧ now.exit? = some exit ∧
          v.Dual (.of now.graph) entry exit) := by
  intro now turns
  obtain ⟨h, hlookup, hview, hread⟩ := exists_view_follow hbase hstore hmoves
  obtain ⟨log, hlog⟩ := hg.exists_logged_after (moves.filterMap Move.call?)
  obtain ⟨hentry, hexit⟩ := Adjacency.marked_after (moves.filterMap Move.call?) hmarked
  have hback : Even (turns ++ [View.Turn.reverse]).length ↔ ¬Even turns.length := by
    rw [List.length_append, List.length_singleton, Nat.even_add_one]
  refine ⟨h, View.stacked now.graph turns, hlookup, hview, hread, fun heven => ?_, fun hodd => ?_⟩
  · have hgraph := View.graph_stacked_even (g := now.graph) hexit heven
    refine ⟨hgraph, fun q setting => Query.run_congr hgraph ?_ setting q⟩
    rw [View.reverse_stacked, View.graph_stacked_odd fun h => hback.1 h heven]
    rfl
  · have hgraph := View.graph_stacked_odd (g := now.graph) hodd
    obtain ⟨entry, hentry⟩ := Option.isSome_iff_exists.1 hentry
    obtain ⟨exit, hexit'⟩ := Option.isSome_iff_exists.1 hexit
    refine ⟨hgraph ▸ hlog.reversed_mirrors hexit, entry, exit, hentry, hexit', ?_⟩
    refine View.dual_of_reverse hgraph ?_ hexit ?_ ?_ ?_
    · rw [View.reverse_stacked, View.graph_stacked_even hexit (hback.2 hodd)]
      rfl
    · rw [hgraph]
      rfl
    · change now.entry?.elim _ _ = _
      rw [hentry]
      rfl
    · rw [hgraph]
      exact Adjacency.reverse_entry hexit'

/-- Five turns, with the graph growing in between and its exit moving to a new vertex at the end. -/
def turnsAndGrowth : List Workspace.Move :=
  [.view .wrap "a", .grow (.edge (.int 1) (.str "late")), .view .reverse "b", .view .wrap "a",
    .view .wrap "c", .grow (.edge (.str "late") .null), .view .reverse "d", .grow (.exit (.str "late"))]

def endlessAlone : Workspace :=
  ((Workspace.create "g" (.ok (.adjacency endless, 0))).apply .empty).2

theorem views_show_graph_or_mirror_turnsAndGrowth :
    endless.Reached ∧ endless.Marked ∧
    (∀ move ∈ turnsAndGrowth, move.newName? ≠ some "g") ∧
    ∃ h v, lookup "d" (follow "g" turnsAndGrowth endlessAlone).2.handles = .ok h ∧
      (follow "g" turnsAndGrowth endlessAlone).2.view h = .ok v ∧
      v.graph.entry = .ok (.str "late") ∧ v.graph.exit = .ok (.str "a") ∧
      v.graph.Mirrors (Adjacency.after (turnsAndGrowth.filterMap Move.call?) endless).graph := by
  have hreached : endless.Reached := .ofEdges endlessBranch (.str "a") (some (.int 1)) [] rfl
  have hmarked : endless.Marked := ⟨rfl, rfl⟩
  have hmoves : ∀ move ∈ turnsAndGrowth, move.newName? ≠ some "g" := by decide
  obtain ⟨h, v, hlookup, hview, -, -, hodd⟩ := views_show_graph_or_mirror
    (w := endlessAlone) (i := 0) rfl rfl hreached hmarked hmoves
  have hmirrors := (hodd (by decide)).1
  refine ⟨hreached, hmarked, hmoves, h, v, hlookup, hview, ?_, ?_, hmirrors⟩
  · rw [hmirrors.entry]
    rfl
  · rw [hmirrors.exit]
    rfl

end FlowDominance
