import FlowDominance.Frontier
import FlowDominance.Proofs.ImmediateDominators

/-!
# Walks along any map

Nothing is asked of the map of dominators here.  A chain of such a map may end, may lead to a vertex that
is unknown, or may run in circles, and which of these happens is decided within as many steps as there are
distinct vertices: a chain that comes to an end never passes a vertex twice.
-/

namespace FlowDominance

/-! ## First failures -/

section FirstFailures

variable {α β : Type} {fails : α → Fault → Prop} {xs : List α} {fault : Fault}

def FirstFails (fails : α → Fault → Prop) (xs : List α) (fault : Fault) : Prop :=
  ∃ done x rest, xs = done ++ x :: rest ∧ (∀ y ∈ done, ∀ fault', ¬fails y fault') ∧ fails x fault

theorem not_fails_of_not_firstFails (h : ∀ fault, ¬FirstFails fails xs fault) :
    ∀ x ∈ xs, ∀ fault, ¬fails x fault := by
  induction xs with
  | nil => simp
  | cons x xs ih =>
      have hx : ∀ fault, ¬fails x fault :=
        fun fault hfails => h fault ⟨[], x, xs, rfl, by simp, hfails⟩
      have hxs : ∀ fault, ¬FirstFails fails xs fault := by
        rintro fault ⟨done, y, rest, rfl, hdone, hy⟩
        exact h fault ⟨x :: done, y, rest, rfl, by simpa [hx] using hdone, hy⟩
      simpa [hx] using ih hxs

/-- A fold that keeps an invariant as long as nothing fails ends with the first failure. -/
theorem FirstFails.foldlM_eq {f : β → α → Except Fault β} {b : β} (I : List α → β → Prop)
    (hinit : I [] b)
    (hok : ∀ done x now, x ∈ xs → (∀ fault, ¬fails x fault) → I done now →
      ∃ next, f now x = .ok next ∧ I (done ++ [x]) next)
    (herror : ∀ done x now fault, x ∈ xs → fails x fault → I done now → f now x = .error fault)
    (h : FirstFails fails xs fault) : xs.foldlM f b = .error fault := by
  obtain ⟨done, x, rest, rfl, hdone, hx⟩ := h
  obtain ⟨now, hrun, hnow⟩ := exists_foldlM_ok I done hinit (by
    rintro before y after now rfl hnow
    exact hok before y now (by simp) (hdone y (by simp)) hnow)
  rw [List.foldlM_append, hrun, ok_bind, List.foldlM_cons,
    herror done x now fault (by simp) hx hnow, error_bind]

end FirstFailures

namespace FlowGraph

variable {g : FlowGraph} {v : Value}

def firstMentions (g : FlowGraph) : FlowGraph := { g with vertices := Value.firsts g.vertices }

theorem contains_firstMentions : g.firstMentions.contains v = g.contains v :=
  Value.occursIn_firsts

end FlowGraph

namespace Frontier

variable {g : FlowGraph} {entry n r x start : Value} {idoms : IdomMap} {e : Edge} {fault : Fault}
variable {idom next o o' o'' : Option Value} {passed passed' : List Value} {left : Nat}
variable {frontiers frontiers' : FrontierMap}
variable {P Q : Value → Prop} {F F' F'' : Value → List Value}

/-! ## What a step adds -/

def Shows (g : FlowGraph) (F : Value → List Value) (frontiers : FrontierMap) : Prop :=
  frontiers.entries = g.vertices.map fun x => (x, F x)

def Added (P : Value → Prop) (n : Value) (F F' : Value → List Value) : Prop :=
  ∀ x, (P x → F' x = add n (F x)) ∧ (¬P x → F' x = F x)

theorem add_add (n : Value) (row : List Value) : add n (add n row) = add n row := by
  have hmem : n.occursIn (add n row) = true := by
    unfold add
    split
    · assumption
    · exact Value.occursIn_of_mem (by simp)
  rw [add, if_pos hmem]

theorem Added.of_not (h : ∀ x, ¬P x) : Added P n F F :=
  fun x => ⟨fun hx => absurd hx (h x), fun _ => rfl⟩

theorem Added.congr (h : Added P n F F') (hPQ : ∀ x, P x ↔ Q x) : Added Q n F F' := by
  intro x
  rw [← hPQ x]
  exact h x

theorem Added.trans (h : Added P n F F') (h' : Added Q n F' F'') :
    Added (fun x => P x ∨ Q x) n F F'' := by
  intro x
  by_cases hP : P x
  · have hfirst := (h x).1 hP
    refine ⟨fun _ => ?_, fun hnot => absurd (.inl hP) hnot⟩
    by_cases hQ : Q x
    · rw [(h' x).1 hQ, hfirst, add_add]
    · rw [(h' x).2 hQ, hfirst]
  · have hfirst := (h x).2 hP
    constructor
    · rintro (hP' | hQ)
      · exact absurd hP' hP
      · rw [(h' x).1 hQ, hfirst]
    · intro hnot
      rw [(h' x).2 fun hQ => hnot (.inr hQ), hfirst]

theorem Shows.size_eq (h : Shows g F frontiers) : frontiers.size = g.size := by
  unfold Shows at h
  simp [Table.size, h, FlowGraph.size]

theorem Shows.exists_lookup (h : Shows g F frontiers) (hr : g.contains r = true) :
    ∃ row, lookup frontiers r = .ok row := by
  obtain ⟨w, hw, hcanon⟩ := Value.occursIn_iff.1 hr
  have hmem : (w, F w) ∈ frontiers.entries := by
    rw [h]
    exact List.mem_map.2 ⟨w, hw, rfl⟩
  exact ⟨F w, by simp [lookup, Table.get?_eq_some_iff.2 ⟨w, hmem, hcanon⟩]⟩

theorem Shows.exists_modify (h : Shows g F frontiers) : ∃ F', Shows g F' (frontiers.modify r (add n)) ∧
    Added (fun x => x.canon = r.canon) n F F' := by
  refine ⟨fun x => if r.same x then add n (F x) else F x, ?_, ?_⟩
  · unfold Shows at h ⊢
    simp [Table.modify, h]
  · intro x
    constructor
    · intro hx
      simp [Value.same, hx]
    · intro hx
      simp [Value.same, Ne.symm hx]

/-! ## Chains -/

inductive OnChain (idoms : IdomMap) : Option Value → Option Value → Prop
  | here {o : Option Value} : OnChain idoms o o
  | up {r : Value} {next o : Option Value} :
      idoms.get? r = some next → OnChain idoms next o → OnChain idoms (some r) o

structure Passes (g : FlowGraph) (idoms : IdomMap) (n : Value) (idom : Option Value) (r : Value)
    (next : Option Value) : Prop where
  not_stops : stops idom n r = false
  contains : g.contains r = true
  get : idoms.get? r = some next

/-- The walk to `n` goes on from `o`, past the listed vertices, to `o'`. -/
inductive Climbs (g : FlowGraph) (idoms : IdomMap) (n : Value) (idom : Option Value) :
    Option Value → List Value → Option Value → Prop
  | here {o : Option Value} : Climbs g idoms n idom o [] o
  | pass {r : Value} {next o : Option Value} {passed : List Value} :
      Passes g idoms n idom r next → Climbs g idoms n idom next passed o →
      Climbs g idoms n idom (some r) (r :: passed) o

def Over (n : Value) (idom : Option Value) : Option Value → Prop
  | none => True
  | some r => stops idom n r = true

/-- The walk to `n` is not at its end, but cannot go on. -/
structure BreaksOff (g : FlowGraph) (idoms : IdomMap) (n : Value) (idom : Option Value) (r : Value) :
    Prop where
  not_stops : stops idom n r = false
  unknown : g.contains r = false ∨ idoms.get? r = none

/-- The chain stays among the vertices and among the keys of the map, and has no end. -/
def Endless (g : FlowGraph) (idoms : IdomMap) (n : Value) (idom o : Option Value) : Prop :=
  ∀ o', OnChain idoms o o' → ∃ r next, o' = some r ∧ Passes g idoms n idom r next

def Circles (idoms : IdomMap) (o : Option Value) : Prop :=
  ∃ r next r', OnChain idoms o (some r) ∧ idoms.get? r = some next ∧
    OnChain idoms next (some r') ∧ r.same r' = true

theorem over_or_breaksOff_or_passes (g : FlowGraph) (idoms : IdomMap) (n : Value)
    (idom o : Option Value) : Over n idom o ∨
      (∃ r, o = some r ∧ BreaksOff g idoms n idom r) ∨
      ∃ r next, o = some r ∧ Passes g idoms n idom r next := by
  cases o with
  | none => exact .inl trivial
  | some r =>
      cases hstops : stops idom n r with
      | true => exact .inl hstops
      | false =>
          cases hcontains : g.contains r with
          | false => exact .inr (.inl ⟨r, rfl, hstops, .inl hcontains⟩)
          | true =>
              cases hget : idoms.get? r with
              | none => exact .inr (.inl ⟨r, rfl, hstops, .inr hget⟩)
              | some next => exact .inr (.inr ⟨r, next, rfl, hstops, hcontains, hget⟩)

theorem Passes.congr {r' : Value} (h : Passes g idoms n idom r next) (hr : r.canon = r'.canon) :
    Passes g idoms n idom r' next where
  not_stops := by
    have := h.not_stops
    rwa [stops, Value.same, hr, show r.same = r'.same by funext v; simp [Value.same, hr]] at this
  contains := (FlowGraph.contains_congr hr).symm.trans h.contains
  get := (Table.get?_congr hr).symm.trans h.get

theorem Over.not_passes (h : Over n idom o) :
    ∀ r next, o = some r → ¬Passes g idoms n idom r next := by
  rintro r next rfl hpass
  have hstops : stops idom n r = true := h
  simp [hpass.not_stops] at hstops

theorem BreaksOff.not_passes (h : BreaksOff g idoms n idom r) :
    ∀ w next, some r = some w → ¬Passes g idoms n idom w next := by
  rintro w next ⟨⟩ hpass
  cases h.unknown with
  | inl hcontains => simp [hpass.contains] at hcontains
  | inr hget => simp [hpass.get] at hget

namespace Climbs

/-- Nothing branches: a walk that cannot go on has everything on it that any other passes. -/
theorem isPrefix (h : Climbs g idoms n idom o passed o')
    (hlast : ∀ r next, o' = some r → ¬Passes g idoms n idom r next)
    (h' : Climbs g idoms n idom o passed' o'') : passed' <+: passed := by
  induction h' generalizing passed with
  | here => exact List.nil_prefix
  | @pass r next _ _ hpass _ ih =>
      cases h with
      | here => exact absurd hpass (hlast r next rfl)
      | @pass _ next' _ _ hpass' hrest =>
          have hnext : next' = next := by simpa [hpass.get] using hpass'.get.symm
          exact (List.prefix_cons_inj r).2 (ih (hnext ▸ hrest))

theorem exists_occursIn_iff (h : Climbs g idoms n idom o passed o')
    (hlast : ∀ r next, o' = some r → ¬Passes g idoms n idom r next) :
    (∃ passed' o'', Climbs g idoms n idom o passed' o'' ∧ x.occursIn passed' = true) ↔
      x.occursIn passed = true := by
  constructor
  · rintro ⟨passed', o'', h', hx⟩
    obtain ⟨w, hw, hcanon⟩ := Value.occursIn_iff.1 hx
    exact Value.occursIn_iff.2 ⟨w, (h.isPrefix hlast h').subset hw, hcanon⟩
  · intro hx
    exact ⟨passed, o', h, hx⟩

theorem onChain (h : Climbs g idoms n idom o passed o') (hr : r ∈ passed) :
    OnChain idoms o (some r) := by
  induction h with
  | here => simp at hr
  | pass hpass _ ih =>
      cases List.mem_cons.1 hr with
      | inl heq => exact heq ▸ .here
      | inr hmem => exact .up hpass.get (ih hmem)

theorem suffix {before after : List Value} (h : Climbs g idoms n idom o passed o')
    (hpassed : passed = before ++ r :: after) :
    Climbs g idoms n idom (some r) (r :: after) o' := by
  induction h generalizing before with
  | here => simp at hpassed
  | @pass w next _ passed hpass hrest ih =>
      cases before with
      | nil =>
          obtain ⟨rfl, rfl⟩ : w = r ∧ passed = after := by simpa using hpassed
          exact .pass hpass hrest
      | cons b before =>
          have htail : passed = before ++ r :: after := (List.cons.inj hpassed).2
          exact ih htail

theorem contains_of_mem (h : Climbs g idoms n idom o passed o') (hr : r ∈ passed) :
    g.contains r = true := by
  induction h with
  | here => simp at hr
  | pass hpass _ ih =>
      cases List.mem_cons.1 hr with
      | inl heq => exact heq ▸ hpass.contains
      | inr hmem => exact ih hmem

theorem distinct (h : Climbs g idoms n idom o passed o')
    (hlast : ∀ r next, o' = some r → ¬Passes g idoms n idom r next) : Distinct passed := by
  induction h with
  | here => exact .nil
  | @pass r next _ passed hpass hrest ih =>
      refine .cons ?_ (ih hlast)
      intro w hw
      by_contra hsame
      have hcanon : r.canon = w.canon := Value.same_iff.1 (by simpa using hsame)
      obtain ⟨before, after, hsplit⟩ := List.append_of_mem hw
      -- from its second mention on, the walk would be the same as from the first and yet shorter
      have hlong : Climbs g idoms n idom (some w) (w :: passed) _ := .pass (hpass.congr hcanon) hrest
      have hle := ((hrest.suffix hsplit).isPrefix hlast hlong).length_le
      simp [hsplit] at hle
      omega

theorem distinct_of_not_circles (h : Climbs g idoms n idom o passed o')
    (hcircles : ¬Circles idoms o) : Distinct passed := by
  induction h with
  | here => exact .nil
  | @pass r next _ passed hpass hrest ih =>
      refine .cons ?_ (ih ?_)
      · intro w hw
        by_contra hsame
        exact hcircles ⟨r, next, w, .here, hpass.get, hrest.onChain hw, by simpa using hsame⟩
      · rintro ⟨w, after, w', hw, hafter, hw', hsame⟩
        exact hcircles ⟨w, after, w', .up hpass.get hw, hafter, hw', hsame⟩

theorem length_le (h : Climbs g idoms n idom o passed o') (hdistinct : Distinct passed) :
    passed.length ≤ (Value.firsts g.vertices).length := by
  have hsubset : passed.map Value.canon ⊆ (Value.firsts g.vertices).map Value.canon := by
    intro c hc
    obtain ⟨w, hw, rfl⟩ := List.mem_map.1 hc
    exact Value.occursIn_iff_mem.1 (Value.occursIn_firsts.trans (h.contains_of_mem hw))
  simpa using (distinct_iff_nodup.1 hdistinct).length_le_of_subset hsubset

end Climbs

theorem Endless.exists_passes (h : Endless g idoms n idom o) :
    ∃ r next, o = some r ∧ Passes g idoms n idom r next ∧ Endless g idoms n idom next := by
  obtain ⟨r, next, rfl, hpass⟩ := h o .here
  exact ⟨r, next, rfl, hpass, fun o' ho' => h o' (.up hpass.get ho')⟩

theorem Endless.exists_climbs (h : Endless g idoms n idom o) (k : Nat) :
    ∃ passed o', Climbs g idoms n idom o passed o' ∧ passed.length = k := by
  induction k generalizing o with
  | zero => exact ⟨[], o, .here, rfl⟩
  | succ k ih =>
      obtain ⟨r, next, rfl, hpass, hnext⟩ := h.exists_passes
      obtain ⟨passed, o', hclimbs, hlength⟩ := ih hnext
      exact ⟨r :: passed, o', .pass hpass hclimbs, by simp [hlength]⟩

theorem Endless.circles (h : Endless g idoms n idom o) : Circles idoms o := by
  by_contra hcircles
  obtain ⟨passed, o', hclimbs, hlength⟩ :=
    h.exists_climbs ((Value.firsts g.vertices).length + 1)
  have hle := hclimbs.length_le (hclimbs.distinct_of_not_circles hcircles)
  omega

theorem ends_or_breaksOff_or_endless (g : FlowGraph) (idoms : IdomMap) (n : Value)
    (idom o : Option Value) :
    (∃ passed o', Climbs g idoms n idom o passed o' ∧ Over n idom o') ∨
      (∃ passed r, Climbs g idoms n idom o passed (some r) ∧ BreaksOff g idoms n idom r) ∨
      Endless g idoms n idom o := by
  by_cases hgoes : ∀ passed o', Climbs g idoms n idom o passed o' →
      ∃ r next, o' = some r ∧ Passes g idoms n idom r next
  · refine .inr (.inr ?_)
    intro o' ho'
    induction ho' with
    | here => exact hgoes [] _ .here
    | @up r next o' hget _ ih =>
        obtain ⟨r', next', heq, hpass⟩ := hgoes [] _ .here
        cases heq
        have hnext : next' = next := by simpa [hget] using hpass.get.symm
        subst hnext
        exact ih fun passed o' hclimbs => hgoes (r :: passed) o' (.pass hpass hclimbs)
  · push Not at hgoes
    obtain ⟨passed, o', hclimbs, hlast⟩ := hgoes
    rcases over_or_breaksOff_or_passes g idoms n idom o' with hover | ⟨r, rfl, hbreaks⟩ |
      ⟨r, next, heq, hpass⟩
    · exact .inl ⟨passed, o', hclimbs, hover⟩
    · exact .inr (.inl ⟨passed, r, hclimbs, hbreaks⟩)
    · exact absurd hpass (hlast r next heq)

/-! ## Failures -/

inductive WalkFails (g : FlowGraph) (idoms : IdomMap) (n : Value) (idom : Option Value) (e : Edge) :
    Fault → Prop
  | endless : Endless g idoms n idom e.source.present? →
      WalkFails g idoms n idom e (.brokenChain e.source)
  | breaksOff {passed : List Value} {r : Value} :
      Climbs g idoms n idom e.source.present? passed (some r) → BreaksOff g idoms n idom r →
      WalkFails g idoms n idom e (.missingKey r)

inductive EdgeFails (g : FlowGraph) (entry : Value) (idoms : IdomMap) (n : Value)
    (idom : Option Value) (e : Edge) : Fault → Prop
  | missing : idoms.get? e.source = none →
      EdgeFails g entry idoms n idom e (.missingKey e.source)
  | walk {above : Option Value} {fault : Fault} : idoms.get? e.source = some above →
      skipped entry e.source above = false → WalkFails g idoms n idom e fault →
      EdgeFails g entry idoms n idom e fault

inductive VertexFails (g : FlowGraph) (entry : Value) (idoms : IdomMap) (n : Value) : Fault → Prop
  | missing : idoms.get? n = none → VertexFails g entry idoms n (.missingKey n)
  | edge {idom : Option Value} {ins : List Edge} {fault : Fault} : idoms.get? n = some idom →
      skipped entry n idom = false → g.inEdges n = .ok ins →
      FirstFails (EdgeFails g entry idoms n idom) ins fault → VertexFails g entry idoms n fault

theorem VertexFails.family (h : VertexFails g entry idoms n fault) :
    fault.family = .internal ∨ fault.family = .key := by
  cases h with
  | missing => exact .inr rfl
  | edge _ _ _ hfirst =>
      obtain ⟨-, e, -, -, -, hfails⟩ := hfirst
      cases hfails with
      | missing => exact .inr rfl
      | walk _ _ hwalk =>
          cases hwalk with
          | endless => exact .inl rfl
          | breaksOff => exact .inr rfl

theorem VertexFails.circles {p : Value} (h : VertexFails g entry idoms n (.brokenChain p)) :
    Circles idoms p.present? := by
  cases h with
  | edge _ _ _ hfirst =>
      obtain ⟨-, e, -, -, -, hfails⟩ := hfirst
      cases hfails with
      | walk _ _ hwalk =>
          cases hwalk with
          | endless hendless => exact hendless.circles

/-! ## Hits -/

def EdgeHits (g : FlowGraph) (entry : Value) (idoms : IdomMap) (n : Value) (idom : Option Value)
    (x : Value) (e : Edge) : Prop :=
  ∃ above passed o, idoms.get? e.source = some above ∧ skipped entry e.source above = false ∧
    Climbs g idoms n idom e.source.present? passed o ∧ x.occursIn passed = true

def Hits (g : FlowGraph) (entry : Value) (idoms : IdomMap) (x n : Value) : Prop :=
  ∃ idom ins, idoms.get? n = some idom ∧ skipped entry n idom = false ∧ g.inEdges n = .ok ins ∧
    ∃ e ∈ ins, EdgeHits g entry idoms n idom x e

noncomputable def hitsAmong (g : FlowGraph) (entry : Value) (idoms : IdomMap) (x : Value)
    (vs : List Value) : List Value :=
  open Classical in Value.firsts (vs.filter fun n => decide (Hits g entry idoms x n))

noncomputable def hitTable (g : FlowGraph) (entry : Value) (idoms : IdomMap) : FrontierMap where
  entries := (Value.firsts g.vertices).map fun x => (x, hitsAmong g entry idoms x g.vertices)
  distinct := by simpa [Function.comp_def] using distinct_firsts g.vertices

theorem add_firsts (n : Value) (vs : List Value) :
    add n (Value.firsts vs) = Value.firsts (vs ++ [n]) := by
  rw [add, Value.occursIn_firsts, Value.firsts_concat]

theorem hitsAmong_concat_of (vs : List Value) (h : Hits g entry idoms x n) :
    hitsAmong g entry idoms x (vs ++ [n]) = add n (hitsAmong g entry idoms x vs) := by
  simp [hitsAmong, add_firsts, h]

theorem hitsAmong_concat_of_not (vs : List Value) (h : ¬Hits g entry idoms x n) :
    hitsAmong g entry idoms x (vs ++ [n]) = hitsAmong g entry idoms x vs := by
  simp [hitsAmong, h]

/-! ## Steps of a climb -/

theorem lookup_eq_ok {α : Type} {t : Table α} {a : α} (h : t.get? r = some a) :
    lookup t r = .ok a := by
  rw [lookup, h]

theorem lookup_eq_error {α : Type} {t : Table α} (h : t.get? r = none) :
    lookup t r = .error (.missingKey r) := by
  rw [lookup, h]

theorem Shows.lookup_unknown (hshows : Shows g F frontiers) (hr : g.contains r = false) :
    lookup frontiers r = .error (.missingKey r) := by
  cases hget : frontiers.get? r with
  | none => exact lookup_eq_error hget
  | some row =>
      obtain ⟨w, hmem, hcanon⟩ := Table.get?_eq_some_iff.1 hget
      rw [hshows] at hmem
      obtain ⟨v, hv, heq⟩ := List.mem_map.1 hmem
      cases heq
      have hcontains : g.contains r = true := Value.occursIn_iff.2 ⟨w, hv, hcanon⟩
      simp [hr] at hcontains

theorem climb_over (start : Value) (left : Nat) (frontiers : FrontierMap) (h : Over n idom o) :
    climb idoms n idom start left o frontiers = .ok frontiers := by
  cases o with
  | none => rw [climb]
  | some r => rw [climb, if_pos (show stops idom n r = true from h)]

section Climb

variable (hshows : Shows g.firstMentions F frontiers)
include hshows

theorem climb_breaksOff (start : Value) (left : Nat) (h : BreaksOff g idoms n idom r) :
    climb idoms n idom start left (some r) frontiers = .error (.missingKey r) := by
  rw [climb, if_neg (by simp [h.not_stops])]
  cases hcontains : g.contains r with
  | false =>
      rw [hshows.lookup_unknown (FlowGraph.contains_firstMentions.trans hcontains)]
      rfl
  | true =>
      have hget : idoms.get? r = none := h.unknown.resolve_left (by simp [hcontains])
      obtain ⟨row, hrow⟩ := hshows.exists_lookup (FlowGraph.contains_firstMentions.trans hcontains)
      rw [hrow, discard_ok, ok_bind, lookup_eq_error hget, error_bind]

theorem climb_spent (start : Value) (h : Passes g idoms n idom r next) :
    climb idoms n idom start 0 (some r) frontiers = .error (.brokenChain start) := by
  obtain ⟨row, hrow⟩ := hshows.exists_lookup (FlowGraph.contains_firstMentions.trans h.contains)
  rw [climb, if_neg (by simp [h.not_stops]), hrow, discard_ok, ok_bind, lookup_eq_ok h.get, ok_bind]

theorem climb_passes (start : Value) (left : Nat) (h : Passes g idoms n idom r next) :
    climb idoms n idom start (left + 1) (some r) frontiers =
      climb idoms n idom start left next (frontiers.modify r (add n)) := by
  obtain ⟨row, hrow⟩ := hshows.exists_lookup (FlowGraph.contains_firstMentions.trans h.contains)
  rw [climb, if_neg (by simp [h.not_stops]), hrow, discard_ok, ok_bind, lookup_eq_ok h.get, ok_bind]

/-! ## Whole climbs -/

theorem climb_endless (start : Value) (left : Nat) (h : Endless g idoms n idom o) :
    climb idoms n idom start left o frontiers = .error (.brokenChain start) := by
  induction left generalizing o frontiers F with
  | zero =>
      obtain ⟨r, next, rfl, hpass, -⟩ := h.exists_passes
      exact climb_spent hshows start hpass
  | succ left ih =>
      obtain ⟨r, next, rfl, hpass, hnext⟩ := h.exists_passes
      obtain ⟨F', hshows', -⟩ := hshows.exists_modify (r := r) (n := n)
      rw [climb_passes hshows start left hpass]
      exact ih hshows' hnext

theorem Climbs.climb_eq_error (start : Value) (hclimbs : Climbs g idoms n idom o passed (some r))
    (h : BreaksOff g idoms n idom r) (hleft : passed.length ≤ left) :
    climb idoms n idom start left o frontiers = .error (.missingKey r) := by
  generalize hlast : some r = o' at hclimbs
  induction hclimbs generalizing left frontiers F with
  | here => exact hlast ▸ climb_breaksOff hshows start left h
  | pass hpass _ ih =>
      obtain ⟨F', hshows', -⟩ := hshows.exists_modify (n := n)
      cases left with
      | zero => simp at hleft
      | succ left =>
          rw [climb_passes hshows start left hpass]
          exact ih hshows' (by simpa using hleft) hlast

theorem Climbs.exists_climb_ok (start : Value) (hclimbs : Climbs g idoms n idom o passed o')
    (h : Over n idom o') (hleft : passed.length ≤ left) :
    ∃ frontiers' F', climb idoms n idom start left o frontiers = .ok frontiers' ∧
      Shows g.firstMentions F' frontiers' ∧
      Added (fun x => x.occursIn passed = true) n F F' := by
  induction hclimbs generalizing left frontiers F with
  | here =>
      refine ⟨frontiers, F, climb_over start left frontiers h, hshows, .of_not ?_⟩
      simp [Value.occursIn]
  | @pass r next _ passed hpass _ ih =>
      obtain ⟨F₁, hshows₁, hadded₁⟩ := hshows.exists_modify (r := r) (n := n)
      cases left with
      | zero => simp at hleft
      | succ left =>
          obtain ⟨frontiers', F', hclimb, hshows', hadded'⟩ := ih hshows₁ h (by simpa using hleft)
          refine ⟨frontiers', F', ?_, hshows', (hadded₁.trans hadded').congr ?_⟩
          · rw [climb_passes hshows start left hpass, hclimb]
          · intro x
            rw [Value.occursIn_cons, Bool.or_eq_true, Value.same_iff]

/-! ## Edges and vertices -/

theorem Climbs.length_le_size (hclimbs : Climbs g idoms n idom o passed o')
    (hlast : ∀ r next, o' = some r → ¬Passes g idoms n idom r next) :
    passed.length ≤ frontiers.size := by
  rw [hshows.size_eq]
  exact hclimbs.length_le (hclimbs.distinct hlast)

theorem WalkFails.climb_eq (h : WalkFails g idoms n idom e fault) :
    climb idoms n idom e.source frontiers.size e.source.present? frontiers = .error fault := by
  cases h with
  | endless hendless => exact climb_endless hshows e.source frontiers.size hendless
  | breaksOff hclimbs hbreaks =>
      exact hclimbs.climb_eq_error hshows e.source hbreaks
        (hclimbs.length_le_size hshows hbreaks.not_passes)

theorem exists_climb_ok_of_not_walkFails (h : ∀ fault, ¬WalkFails g idoms n idom e fault) :
    ∃ frontiers' F',
      climb idoms n idom e.source frontiers.size e.source.present? frontiers = .ok frontiers' ∧
      Shows g.firstMentions F' frontiers' ∧
      Added (fun x => ∃ passed o, Climbs g idoms n idom e.source.present? passed o ∧
        x.occursIn passed = true) n F F' := by
  rcases ends_or_breaksOff_or_endless g idoms n idom e.source.present? with
    ⟨passed, o', hclimbs, hover⟩ | ⟨passed, r, hclimbs, hbreaks⟩ | hendless
  · obtain ⟨frontiers', F', hclimb, hshows', hadded⟩ := hclimbs.exists_climb_ok hshows e.source hover
      (hclimbs.length_le_size hshows hover.not_passes)
    refine ⟨frontiers', F', hclimb, hshows', hadded.congr fun x => ?_⟩
    exact (hclimbs.exists_occursIn_iff hover.not_passes).symm
  · exact absurd (.breaksOff hclimbs hbreaks) (h _)
  · exact absurd (.endless hendless) (h _)

theorem EdgeFails.walkEdge_eq (h : EdgeFails g entry idoms n idom e fault) :
    walkEdge entry idoms n idom frontiers e = .error fault := by
  cases h with
  | missing hget => simp [walkEdge, lookup_eq_error hget]
  | walk hget hskipped hwalk =>
      simp [walkEdge, lookup_eq_ok hget, hskipped, hwalk.climb_eq hshows]

theorem exists_walkEdge_ok_of_not_edgeFails
    (h : ∀ fault, ¬EdgeFails g entry idoms n idom e fault) :
    ∃ frontiers' F', walkEdge entry idoms n idom frontiers e = .ok frontiers' ∧
      Shows g.firstMentions F' frontiers' ∧
      Added (fun x => EdgeHits g entry idoms n idom x e) n F F' := by
  cases hget : idoms.get? e.source with
  | none => exact absurd (.missing hget) (h _)
  | some above =>
      cases hskipped : skipped entry e.source above with
      | true =>
          refine ⟨frontiers, F, by simp [walkEdge, lookup_eq_ok hget, hskipped], hshows, .of_not ?_⟩
          rintro x ⟨above', -, -, habove, hcounts, -⟩
          cases hget.symm.trans habove
          simp [hskipped] at hcounts
      | false =>
          obtain ⟨frontiers', F', hclimb, hshows', hadded⟩ := exists_climb_ok_of_not_walkFails hshows
            (g := g) fun fault hfails => h fault (.walk hget hskipped hfails)
          refine ⟨frontiers', F', ?_, hshows', hadded.congr fun x => ?_⟩
          · simp [walkEdge, lookup_eq_ok hget, hskipped, hclimb]
          · simp [EdgeHits, hget, hskipped]

theorem VertexFails.walkVertex_eq (h : VertexFails g entry idoms n fault) :
    walkVertex g entry idoms frontiers n = .error fault := by
  cases h with
  | missing hget => simp [walkVertex, lookup_eq_error hget]
  | @edge idom ins _ hget hskipped hins hfirst =>
      have hrun : ins.foldlM (walkEdge entry idoms n idom) frontiers = .error fault :=
        hfirst.foldlM_eq (fun _ now => ∃ F', Shows g.firstMentions F' now) ⟨F, hshows⟩
          (by
            rintro done e now - hgood ⟨F₁, hshows₁⟩
            obtain ⟨next, F₂, hwalk, hshows₂, -⟩ :=
              exists_walkEdge_ok_of_not_edgeFails hshows₁ hgood
            exact ⟨next, hwalk, F₂, hshows₂⟩)
          (by
            rintro done e now fault' - hfails ⟨F₁, hshows₁⟩
            exact hfails.walkEdge_eq hshows₁)
      simp [walkVertex, lookup_eq_ok hget, hskipped, hins, hrun]

theorem exists_walkVertex_ok_of_not_vertexFails (hins : ∃ ins, g.inEdges n = .ok ins)
    (h : ∀ fault, ¬VertexFails g entry idoms n fault) :
    ∃ frontiers' F', walkVertex g entry idoms frontiers n = .ok frontiers' ∧
      Shows g.firstMentions F' frontiers' ∧ Added (fun x => Hits g entry idoms x n) n F F' := by
  obtain ⟨ins, hins⟩ := hins
  cases hget : idoms.get? n with
  | none => exact absurd (.missing hget) (h _)
  | some idom =>
      cases hskipped : skipped entry n idom with
      | true =>
          refine ⟨frontiers, F, by simp [walkVertex, lookup_eq_ok hget, hskipped], hshows, .of_not ?_⟩
          rintro x ⟨idom', -, hidom, hcounts, -⟩
          cases hget.symm.trans hidom
          simp [hskipped] at hcounts
      | false =>
          have hgood := not_fails_of_not_firstFails fun fault hfirst =>
            h fault (.edge hget hskipped hins hfirst)
          obtain ⟨frontiers', hrun, F', hshows', hadded⟩ := exists_foldlM_ok
            (f := walkEdge entry idoms n idom)
            (fun done now => ∃ F', Shows g.firstMentions F' now ∧
              Added (fun x => ∃ e ∈ done, EdgeHits g entry idoms n idom x e) n F F')
            ins ⟨F, hshows, .of_not (by simp)⟩ (by
              rintro done e rest now hsplit ⟨F₁, hshows₁, hadded₁⟩
              obtain ⟨next, F₂, hwalk, hshows₂, hadded₂⟩ :=
                exists_walkEdge_ok_of_not_edgeFails hshows₁ (hgood e (by simp [hsplit]))
              refine ⟨next, hwalk, F₂, hshows₂, (hadded₁.trans hadded₂).congr fun x => ?_⟩
              simp [or_and_right, exists_or])
          refine ⟨frontiers', F', ?_, hshows', hadded.congr fun x => ?_⟩
          · simp [walkVertex, lookup_eq_ok hget, hskipped, hins, hrun]
          · simp [Hits, hget, hskipped, hins]

end Climb

/-! ## The whole walk -/

theorem shows_bare (g : FlowGraph) (entry : Value) (idoms : IdomMap) :
    Shows g.firstMentions (fun x => hitsAmong g entry idoms x []) (bare g) :=
  Table.entries_ofList_const g.vertices []

/-- The vertices come in their order, so a frontier grows at its end. -/
theorem exists_walkVertex_ok_shows {done : List Value} (hins : ∃ ins, g.inEdges n = .ok ins)
    (h : ∀ fault, ¬VertexFails g entry idoms n fault)
    (hshows : Shows g.firstMentions (fun x => hitsAmong g entry idoms x done) frontiers) :
    ∃ frontiers', walkVertex g entry idoms frontiers n = .ok frontiers' ∧
      Shows g.firstMentions (fun x => hitsAmong g entry idoms x (done ++ [n])) frontiers' := by
  obtain ⟨frontiers', F', hwalk, hshows', hadded⟩ :=
    exists_walkVertex_ok_of_not_vertexFails hshows hins h
  refine ⟨frontiers', hwalk, ?_⟩
  have heq : F' = fun x => hitsAmong g entry idoms x (done ++ [n]) := by
    funext x
    by_cases hx : Hits g entry idoms x n
    · rw [(hadded x).1 hx, hitsAmong_concat_of done hx]
    · rw [(hadded x).2 hx, hitsAmong_concat_of_not done hx]
  exact heq ▸ hshows'

theorem Climbs.not_walkFails (hclimbs : Climbs g idoms n idom e.source.present? passed o)
    (hover : Over n idom o) : ¬WalkFails g idoms n idom e fault := by
  intro hfails
  have hshows := shows_bare g e.source idoms
  obtain ⟨frontiers, -, hclimb, -⟩ := hclimbs.exists_climb_ok hshows e.source hover
    (hclimbs.length_le_size hshows hover.not_passes)
  simp [hfails.climb_eq hshows] at hclimb

section Whole

variable (hins : ∀ n ∈ g.vertices, ∃ ins, g.inEdges n = .ok ins)
include hins

theorem walkFrontiers_of_firstFails (pruneEmpty : Bool)
    (h : FirstFails (VertexFails g entry idoms) g.vertices fault) :
    walkFrontiers g entry idoms pruneEmpty = .error fault := by
  have hrun : g.vertices.foldlM (walkVertex g entry idoms) (bare g) = .error fault :=
    h.foldlM_eq
      (fun done now => Shows g.firstMentions (fun x => hitsAmong g entry idoms x done) now)
      (shows_bare g entry idoms)
      (by
        intro done n now hn hgood hshows
        exact exists_walkVertex_ok_shows (hins n hn) hgood hshows)
      (by
        intro done n now fault' _ hfails hshows
        exact hfails.walkVertex_eq hshows)
  rw [walkFrontiers, hrun, error_bind]

theorem walkFrontiers_of_not_firstFails (pruneEmpty : Bool)
    (h : ∀ fault, ¬FirstFails (VertexFails g entry idoms) g.vertices fault) :
    walkFrontiers g entry idoms pruneEmpty =
      .ok (if pruneEmpty then (hitTable g entry idoms).prune else hitTable g entry idoms) := by
  have hgood := not_fails_of_not_firstFails h
  obtain ⟨frontiers, hrun, hshows⟩ := exists_foldlM_ok (f := walkVertex g entry idoms)
    (fun done now => Shows g.firstMentions (fun x => hitsAmong g entry idoms x done) now)
    g.vertices (shows_bare g entry idoms) (by
      intro done n rest now hsplit hshows
      have hn : n ∈ g.vertices := by simp [hsplit]
      exact exists_walkVertex_ok_shows (hins n hn) (hgood n hn) hshows)
  have htable : frontiers = hitTable g entry idoms := by
    cases frontiers
    cases hshows
    rfl
  simp [walkFrontiers, hrun, htable]

theorem walkFrontiers_eq_error_iff (pruneEmpty : Bool) :
    walkFrontiers g entry idoms pruneEmpty = .error fault ↔
      FirstFails (VertexFails g entry idoms) g.vertices fault := by
  constructor
  · intro hrun
    by_contra hfirst
    by_cases hnone : ∀ fault', ¬FirstFails (VertexFails g entry idoms) g.vertices fault'
    · simp [walkFrontiers_of_not_firstFails hins pruneEmpty hnone] at hrun
    · push Not at hnone
      obtain ⟨fault', hfirst'⟩ := hnone
      have hrun' := walkFrontiers_of_firstFails hins pruneEmpty hfirst'
      cases hrun.symm.trans hrun'
      exact hfirst hfirst'
  · exact walkFrontiers_of_firstFails hins pruneEmpty

end Whole

/-! ## Counting steps -/

def climbCounting (idoms : IdomMap) (n : Value) (idom : Option Value) (start : Value) :
    Nat → Option Value → FrontierMap → Except Fault FrontierMap × Nat
  | _, none, frontiers => (.ok frontiers, 0)
  | left, some runner, frontiers =>
      if stops idom n runner then (.ok frontiers, 0)
      else
        match lookup frontiers runner, lookup idoms runner with
        | .error fault, _ | .ok _, .error fault => (.error fault, 1)
        | .ok _, .ok next =>
            match left with
            | 0 => (.error (.brokenChain start), 1)
            | left + 1 =>
                let rest :=
                  climbCounting idoms n idom start left next (frontiers.modify runner (add n))
                (rest.1, rest.2 + 1)

theorem climbCounting_fst (start : Value) (left : Nat) (o : Option Value) (frontiers : FrontierMap) :
    (climbCounting idoms n idom start left o frontiers).1 =
      climb idoms n idom start left o frontiers := by
  fun_induction climbCounting idoms n idom start left o frontiers with
  | case1 => rw [climb]
  | case2 left r frontiers hstops => simp [climb, hstops]
  | case3 left r frontiers hstops fault hrow =>
      rw [climb, if_neg hstops, hrow]
      rfl
  | case4 left r frontiers hstops row fault hget hrow => simp [climb, hstops, hrow, hget]
  | case5 r frontiers hstops row next hget hrow => simp [climb, hstops, hrow, hget]
  | case6 r frontiers hstops row next hget hrow left rest ih =>
      simp [climb, hstops, hrow, hget, rest, ih]

theorem climbCounting_snd_le (start : Value) (left : Nat) (o : Option Value)
    (frontiers : FrontierMap) :
    (climbCounting idoms n idom start left o frontiers).2 ≤ left + 1 := by
  fun_induction climbCounting idoms n idom start left o frontiers with
  | case6 r frontiers hstops row next hget hrow left rest ih => exact Nat.succ_le_succ ih
  | _ => simp

def Walks (g : FlowGraph) (entry : Value) (idoms : IdomMap) (n : Value) (idom : Option Value) (e : Edge)
    (frontiers : FrontierMap) : Prop :=
  ∃ before after middle done rest above, g.vertices = before ++ n :: after ∧
    before.foldlM (walkVertex g entry idoms) (bare g) = .ok middle ∧
    idoms.get? n = some idom ∧ skipped entry n idom = false ∧
    g.inEdges n = .ok (done ++ e :: rest) ∧
    done.foldlM (walkEdge entry idoms n idom) middle = .ok frontiers ∧
    idoms.get? e.source = some above ∧ skipped entry e.source above = false

theorem climb_eq_ok (h : climb idoms n idom start left o frontiers = .ok frontiers') :
    frontiers' = frontiers ∨ ∃ spare r next, left = spare + 1 ∧
      climb idoms n idom start spare next (frontiers.modify r (add n)) = .ok frontiers' := by
  cases o with
  | none =>
      rw [climb] at h
      exact .inl (Except.ok.inj h).symm
  | some r =>
      rw [climb] at h
      split at h
      · exact .inl (Except.ok.inj h).symm
      · obtain ⟨-, -, h⟩ := bind_eq_ok_iff.1 h
        obtain ⟨next, -, h⟩ := bind_eq_ok_iff.1 h
        cases left with
        | zero => contradiction
        | succ spare => exact .inr ⟨spare, r, next, rfl, h⟩

theorem size_of_climb (h : climb idoms n idom start left o frontiers = .ok frontiers') :
    frontiers'.size = frontiers.size := by
  induction left generalizing o frontiers with
  | zero =>
      rcases climb_eq_ok h with rfl | ⟨spare, -, -, hleft, -⟩
      · rfl
      · omega
  | succ left ih =>
      rcases climb_eq_ok h with rfl | ⟨spare, r, next, hleft, hrest⟩
      · rfl
      · cases hleft
        exact (ih hrest).trans (by simp [Table.size, Table.modify])

theorem size_of_walkEdge (h : walkEdge entry idoms n idom frontiers e = .ok frontiers') :
    frontiers'.size = frontiers.size := by
  rw [walkEdge, bind_eq_ok_iff] at h
  obtain ⟨above, -, h⟩ := h
  split at h
  · rw [Except.ok.inj h]
  · exact size_of_climb h

theorem size_of_walkVertex (h : walkVertex g entry idoms frontiers n = .ok frontiers') :
    frontiers'.size = frontiers.size := by
  rw [walkVertex, bind_eq_ok_iff] at h
  obtain ⟨idom, -, h⟩ := h
  split at h
  · rw [Except.ok.inj h]
  · obtain ⟨ins, -, h⟩ := bind_eq_ok_iff.1 h
    exact foldlM_keeps (P := fun now => now.size = frontiers.size)
      (fun _ _ _ _ hwalk hnow => (size_of_walkEdge hwalk).trans hnow) h rfl

theorem Walks.size_eq (h : Walks g entry idoms n idom e frontiers) :
    frontiers.size = (Value.firsts g.vertices).length := by
  obtain ⟨before, -, middle, done, -, -, -, hbefore, -, -, -, hdone, -⟩ := h
  have hbare : (bare g).size = (Value.firsts g.vertices).length :=
    (shows_bare g entry idoms).size_eq
  have hmiddle := foldlM_keeps (P := fun now => now.size = (Value.firsts g.vertices).length)
    (fun _ _ _ _ hwalk hnow => (size_of_walkVertex hwalk).trans hnow) hbefore hbare
  exact foldlM_keeps (P := fun now => now.size = (Value.firsts g.vertices).length)
    (fun _ _ _ _ hwalk hnow => (size_of_walkEdge hwalk).trans hnow) hdone hmiddle

theorem Walks.walkEdge_eq (h : Walks g entry idoms n idom e frontiers) :
    walkEdge entry idoms n idom frontiers e =
      climb idoms n idom e.source frontiers.size e.source.present? frontiers := by
  obtain ⟨-, -, -, -, -, above, -, -, -, -, -, -, hget, hskipped⟩ := h
  simp [walkEdge, lookup_eq_ok hget, hskipped]

end Frontier

open Frontier

theorem walkFrontiers_along_any_map {g : FlowGraph}
    (hins : ∀ n ∈ g.vertices, ∃ ins, g.inEdges n = .ok ins) (entry : Value) (idoms : IdomMap)
    (pruneEmpty : Bool) :
    (∀ fault, walkFrontiers g entry idoms pruneEmpty = .error fault ↔
      FirstFails (VertexFails g entry idoms) g.vertices fault) ∧
    (∀ fault, walkFrontiers g entry idoms pruneEmpty = .error fault →
      fault.family = .internal ∨ fault.family = .key) ∧
    (∀ p, walkFrontiers g entry idoms pruneEmpty = .error (.brokenChain p) →
      Circles idoms p.present?) ∧
    ((∀ fault, ¬FirstFails (VertexFails g entry idoms) g.vertices fault) →
      walkFrontiers g entry idoms pruneEmpty =
        .ok (if pruneEmpty then (hitTable g entry idoms).prune else hitTable g entry idoms)) ∧
    ∀ n idom e frontiers, Walks g entry idoms n idom e frontiers →
      let counted := climbCounting idoms n idom e.source frontiers.size e.source.present? frontiers
      walkEdge entry idoms n idom frontiers e = counted.1 ∧
        counted.2 ≤ (Value.firsts g.vertices).length + 1 := by
  have hfault : ∀ fault, walkFrontiers g entry idoms pruneEmpty = .error fault ↔
      FirstFails (VertexFails g entry idoms) g.vertices fault :=
    fun _ => walkFrontiers_eq_error_iff hins pruneEmpty
  refine ⟨hfault, ?_, ?_, walkFrontiers_of_not_firstFails hins pruneEmpty, ?_⟩
  · intro fault hrun
    obtain ⟨-, n, -, -, -, hfails⟩ := (hfault fault).1 hrun
    exact hfails.family
  · intro p hrun
    obtain ⟨-, n, -, -, -, hfails⟩ := (hfault _).1 hrun
    exact hfails.circles
  · intro n idom e frontiers hwalks
    refine ⟨hwalks.walkEdge_eq.trans (climbCounting_fst ..).symm, ?_⟩
    exact hwalks.size_eq ▸ climbCounting_snd_le ..

/-- Two vertices that are made the dominators of each other, and a stranger above a third. -/
def circlingMap : IdomMap :=
  .ofList [(.int 0, none), (.int 1, some (.int 2)), (.int 2, some (.bool true)),
    (.int 3, some (.int 0)), (.int 4, some (.str "stranger"))]

theorem walkFrontiers_along_any_map_circlingMap :
    (∀ n ∈ twoWayLoop.graph.vertices, ∃ ins, twoWayLoop.graph.inEdges n = .ok ins) ∧
    walkFrontiers twoWayLoop.graph (.bool false) circlingMap true = .error (.brokenChain (.int 1)) ∧
    FirstFails (VertexFails twoWayLoop.graph (.bool false) circlingMap) twoWayLoop.graph.vertices
      (.brokenChain (.int 1)) ∧
    Circles circlingMap (some (.int 1)) := by
  have hins : ∀ n ∈ twoWayLoop.graph.vertices, ∃ ins, twoWayLoop.graph.inEdges n = .ok ins := by
    intro n hn
    obtain ⟨ins, hrow, -⟩ := twoWayLoop_wellFormed.exists_in n (FlowGraph.contains_of_mem hn)
    exact ⟨ins, hrow⟩
  have hrun : walkFrontiers twoWayLoop.graph (.bool false) circlingMap true =
      .error (.brokenChain (.int 1)) := rfl
  obtain ⟨hfault, -, hcircles, -⟩ := walkFrontiers_along_any_map hins (.bool false) circlingMap true
  exact ⟨hins, hrun, (hfault _).1 hrun, hcircles _ hrun⟩

end FlowDominance
