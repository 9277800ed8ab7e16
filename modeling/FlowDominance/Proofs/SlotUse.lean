import FlowDominance.Proofs.Semidominators
import FlowDominance.Proofs.TracedRuns

/-!
# The use of slots

All slots keep their number, so a run that returns a result has used none out of range.  A step puts
its vertex into the bucket of the semidominator and takes out the vertices on the branch that it has
linked; every vertex but the first is on just one branch.
-/

namespace FlowDominance

namespace Dominator.LengauerTarjan

/-! ## Queries and links -/

variable {visits vertices : Nat}

structure Event.Plain (visits vertices : Nat) (e : Event) : Prop where
  inRange : e.InRange visits vertices
  put?_eq : e.put? = none
  take?_eq : e.take? = none

structure Event.Aside (visits vertices : Nat) (e : Event) : Prop extends
    e.Plain visits vertices where
  settled?_eq : e.settled? = none

section Events

variable {bank : Bank} {i : Nat} (h : i < bank.size visits vertices)

include h

theorem Event.plain_read : (Event.read bank (some i)).Plain visits vertices :=
  ⟨⟨i, h, rfl⟩, rfl, rfl⟩

theorem Event.plain_write : (Event.write bank i).Plain visits vertices := ⟨h, rfl, rfl⟩

theorem Event.aside_read : (Event.read bank (some i)).Aside visits vertices :=
  ⟨Event.plain_read h, rfl⟩

end Events

theorem compress_eq (f : Forest) (u : Nat) : f.compress u = (do
    let a ← Slots.readFilled f.ancestor u
    match ← Slots.read f.ancestor a with
    | none => .ok f
    | some _ => if a < u then do (← f.compress a).shorten u else .error .indexOutOfRange) := by
  rw [Forest.compress]
  cases Slots.readFilled f.ancestor u with
  | error fault => rfl
  | ok a =>
      dsimp only
      rw [ok_bind]
      rcases Slots.read f.ancestor a with fault | _ | b
      · rfl
      · rfl
      · rfl

structure Sized (count : Nat) (f : Forest) : Prop where
  semi : f.semi.size = count
  ancestor : f.ancestor.size = count
  best : f.best.size = count

section Forest

variable (vertices : Nat) {f : Forest} (hf : Sized visits f)

include hf

theorem confined_setSemi (w s : Nat) :
    Confined (Event.Aside visits vertices) (Traced.setSemi f w s) (f.setSemi w s)
      (Sized visits) := by
  refine (Confined.write fun hi => ⟨Event.plain_write (hf.semi ▸ hi), rfl⟩).bind ?_
  intro semi hsemi
  exact .pure ⟨hsemi.trans hf.semi, hf.ancestor, hf.best⟩

theorem confined_link (p w : Nat) :
    Confined (Event.Aside visits vertices) (Traced.link f p w) (f.link p w) (Sized visits) := by
  refine (Confined.write fun hi => ⟨Event.plain_write (hf.ancestor ▸ hi), rfl⟩).bind ?_
  intro ancestor hanc
  refine (Confined.write fun hi => ⟨Event.plain_write (hf.best ▸ hi), rfl⟩).bind ?_
  intro best hbest
  exact .pure ⟨hf.semi, hanc.trans hf.ancestor, hbest.trans hf.best⟩

theorem confined_shorten (x : Nat) :
    Confined (Event.Aside visits vertices) (Traced.shorten f x) (f.shorten x) (Sized visits) := by
  unfold Traced.shorten Forest.shorten
  refine .filled (fun hx => Event.aside_read (hf.ancestor ▸ hx)) fun a ha => ?_
  have hskip : ∀ best : Array Nat, best.size = visits → Confined (Event.Aside visits vertices)
      (do
        let ancestor ← Traced.write .ancestor f.ancestor x
          (← Traced.read .ancestor f.ancestor (some a))
        return { f with best, ancestor })
      (do
        let ancestor ← Slots.write f.ancestor x (← Slots.read f.ancestor a)
        return { f with best, ancestor })
      (Sized visits) := by
    intro best hbest
    refine (Confined.read fun hi => Event.aside_read (hf.ancestor ▸ hi)).bind fun above _ => ?_
    refine (Confined.write fun hi => ⟨Event.plain_write (hf.ancestor ▸ hi), rfl⟩).bind ?_
    intro ancestor hanc
    exact .pure ⟨hf.semi, hanc.trans hf.ancestor, hbest⟩
  refine (Confined.read fun hi => Event.aside_read (hf.best ▸ hi)).bind fun above _ => ?_
  refine (Confined.read fun hi => Event.aside_read (hf.best ▸ hi)).bind fun own _ => ?_
  refine (Confined.read fun hi => Event.aside_read (hf.semi ▸ hi)).bind fun low _ => ?_
  refine (Confined.read fun hi => Event.aside_read (hf.semi ▸ hi)).bind fun high _ => ?_
  dsimp only
  split
  · refine (Confined.write fun hi => ⟨Event.plain_write (hf.best ▸ hi), rfl⟩).bind ?_
    intro best hbest
    exact hskip best (hbest.trans hf.best)
  · rw [pure_bind, pure_bind]
    exact hskip f.best hf.best

theorem confined_compress (u : Nat) :
    Confined (Event.Aside visits vertices) (Traced.compress f u) (f.compress u) (Sized visits) := by
  induction u using Nat.strong_induction_on with
  | _ u ih =>
      rw [compress_eq, Traced.compress]
      refine .filled (fun hu => Event.aside_read (hf.ancestor ▸ hu)) fun a ha => ?_
      refine (Confined.read fun hi => Event.aside_read (hf.ancestor ▸ hi)).bind ?_
      rintro (_ | b) _
      · exact .pure hf
      · dsimp only [Option.getD_some]
        split
        · rename_i hlt
          exact (ih a hlt).bind fun f' hf' => confined_shorten vertices hf' u
        · exact Traces.error _

theorem confined_eval (v : Nat) :
    Confined (Event.Aside visits vertices) (Traced.eval f v) (f.eval v)
      fun found => Sized visits found.2 := by
  refine (confined_compress vertices hf v).bind fun f' hf' => ?_
  exact (Confined.read fun hi => Event.aside_read (hf'.best ▸ hi)).bind fun y _ => .pure hf'

theorem confined_evalSemi (v : Nat) :
    Confined (Event.Aside visits vertices) (Traced.evalSemi f v) (f.evalSemi v)
      fun found => Sized visits found.2 := by
  refine (confined_eval vertices hf v).bind fun found hfound => ?_
  exact (Confined.read fun hi => Event.aside_read (hfound.semi ▸ hi)).bind fun s _ => .pure hfound

theorem confined_semidominator (w p : Nat) (preds : List Nat) :
    Confined (Event.Aside visits vertices) (Traced.semidominator f w p preds)
      (semidominator f w p preds) fun found => Sized visits found.2 := by
  refine .foldlM hf ?_
  rintro ⟨s, f'⟩ v hf'
  by_cases hvw : v ≤ w
  · simp only [Traced.offer, offer, hvw, if_true]
    exact .pure hf'
  · simp only [Traced.offer, offer, hvw, if_false]
    exact (confined_evalSemi vertices hf' v).bind fun found hfound => .pure hfound

end Forest

/-! ## Reading the tree -/

structure Laid (visits vertices : Nat) (tree : SpanningTree) : Prop where
  preorder : tree.preorder.size = visits
  dfnum : tree.dfnum.size = vertices
  parent : tree.parent.size = vertices

variable {n : Numbered} {tree : SpanningTree} {T : SearchOrder} {s : Sweep} {k w : Nat}

theorem confined_parentOf (htree : Laid visits vertices tree) (w : Nat) :
    Confined (Event.Aside visits vertices) (Traced.parentOf tree w) (parentOf tree w)
      fun _ => True := by
  refine (Confined.read fun hi => Event.aside_read (htree.preorder ▸ hi)).bind fun v _ => ?_
  refine .filled (fun hi => Event.aside_read (htree.parent ▸ hi)) fun q _ => ?_
  refine (Confined.read fun hi => Event.aside_read (htree.dfnum ▸ hi)).bind ?_
  rintro (_ | p) _
  · exact Traces.error _
  · exact .pure trivial

theorem confined_predecessors (htree : Laid visits vertices tree) (n : Numbered) (w : Nat) :
    Confined (Event.Aside visits vertices) (Traced.predecessors n tree w) (predecessors n tree w)
      fun _ => True := by
  refine (Confined.read fun hi => Event.aside_read (htree.preorder ▸ hi)).bind fun v _ => ?_
  refine (Confined.lift _).bind fun row _ => ?_
  refine (Confined.mapM row fun link _ => ?_).bind fun visits _ => .pure trivial
  refine (Confined.lift link).bind fun u _ => ?_
  exact (Confined.read fun hi => Event.aside_read (htree.dfnum ▸ hi)).mono
    fun _ _ h => ⟨trivial, h.2⟩

/-! ## A step of the sweep -/

/-- What the events come to, all of them in range: what is put into buckets, what is taken out, and
the vertices for which something is written. -/
structure Tally (visits vertices : Nat) (events : List Event) (puts takes : List (Nat × Nat))
    (settled : List Nat) : Prop where
  inRange : ∀ e ∈ events, e.InRange visits vertices
  puts_eq : events.filterMap Event.put? = puts
  takes_eq : events.filterMap Event.take? = takes
  settled_eq : events.filterMap Event.settled? = settled

namespace Tally

variable {events later : List Event} {puts puts' takes takes' : List (Nat × Nat)}
variable {settled settled' : List Nat}

theorem append (h : Tally visits vertices events puts takes settled)
    (h' : Tally visits vertices later puts' takes' settled') :
    Tally visits vertices (events ++ later) (puts ++ puts') (takes ++ takes')
      (settled ++ settled') where
  inRange := List.forall_mem_append.2 ⟨h.inRange, h'.inRange⟩
  puts_eq := by rw [List.filterMap_append, h.puts_eq, h'.puts_eq]
  takes_eq := by rw [List.filterMap_append, h.takes_eq, h'.takes_eq]
  settled_eq := by rw [List.filterMap_append, h.settled_eq, h'.settled_eq]

theorem of_aside (h : ∀ e ∈ events, e.Aside visits vertices) :
    Tally visits vertices events [] [] [] where
  inRange := fun e he => (h e he).inRange
  puts_eq := List.filterMap_eq_nil_iff.2 fun e he => (h e he).put?_eq
  takes_eq := List.filterMap_eq_nil_iff.2 fun e he => (h e he).take?_eq
  settled_eq := List.filterMap_eq_nil_iff.2 fun e he => (h e he).settled?_eq

theorem behind (h : ∀ e ∈ events, e.Aside visits vertices)
    (h' : Tally visits vertices later puts takes settled) :
    Tally visits vertices (events ++ later) puts takes settled := (of_aside h).append h'

theorem put (v b : Nat) (h : Tally visits vertices later puts takes settled) :
    Tally visits vertices (.put v b :: later) ((v, b) :: puts) takes settled := by
  have hput : Tally visits vertices [.put v b] [(v, b)] [] [] :=
    ⟨by simp [Event.InRange], rfl, rfl, rfl⟩
  exact hput.append h

theorem take (v b : Nat) (h : Tally visits vertices later puts takes settled) :
    Tally visits vertices (.take v b :: later) puts ((v, b) :: takes) settled := by
  have htake : Tally visits vertices [.take v b] [] [(v, b)] [] :=
    ⟨by simp [Event.InRange], rfl, rfl, rfl⟩
  exact htake.append h

end Tally

structure Fits (count : Nat) (s : Sweep) : Prop where
  forest : Sized count s.forest
  bucket : s.bucket.size = count
  idom : s.idom.size = count
  samedom : s.samedom.size = count

theorem fits_initial (count : Nat) : Fits count (.initial count) := by
  refine ⟨⟨?_, ?_, ?_⟩, ?_, ?_, ?_⟩ <;> simp [Sweep.initial, Forest.initial]

theorem traces_resolve (vertices : Nat) (hs : Fits visits s) (p v : Nat) :
    Traces (Traced.resolve p s v) (resolve p s v) fun s' new =>
      Fits visits s' ∧ Tally visits vertices new [] [(v, p)] [v] := by
  refine .note_bind _ ?_
  refine Traces.bind (confined_eval vertices hs.forest v) ?_
  rintro ⟨y, forest⟩ asked - ⟨hforest, hasked⟩
  have hread : ∀ i : Nat, Confined (Event.Aside visits vertices)
      (Traced.read .semi forest.semi (some i)) (Slots.read forest.semi i)
      fun a => forest.semi[i]? = some a :=
    fun i => .read fun hi => Event.aside_read (hforest.semi ▸ hi)
  refine Traces.bind (hread y) ?_
  rintro low looked - ⟨-, hlooked⟩
  refine Traces.bind (hread v) ?_
  rintro own looked' - ⟨-, hlooked'⟩
  split
  · refine (Traces.write .idom s.idom v (some p)).bind ?_
    rintro idom _ - ⟨hv, hidom, rfl⟩
    refine .pure ⟨⟨hforest, hs.bucket, hidom.trans hs.idom, hs.samedom⟩, ?_⟩
    refine .take v p (.behind hasked (.behind hlooked (.behind hlooked' ?_)))
    exact ⟨by simpa [Event.InRange, Bank.size, ← hs.idom] using hv, rfl, rfl, rfl⟩
  · refine (Traces.write .samedom s.samedom v (some y)).bind ?_
    rintro samedom _ - ⟨hv, hsamedom, rfl⟩
    refine .pure ⟨⟨hforest, hs.bucket, hs.idom, hsamedom.trans hs.samedom⟩, ?_⟩
    refine .take v p (.behind hasked (.behind hlooked (.behind hlooked' ?_)))
    exact ⟨by simpa [Event.InRange, Bank.size, ← hs.samedom] using hv, rfl, rfl, rfl⟩

theorem traces_resolveAll (vertices : Nat) (hs : Fits visits s) (p : Nat) (waiting : List Nat) :
    Traces (waiting.foldlM (Traced.resolve p) s) (waiting.foldlM (resolve p) s) fun s' new =>
      Fits visits s' ∧ Tally visits vertices new [] (waiting.map (·, p)) waiting := by
  refine .foldlM (fun done s' new =>
    Fits visits s' ∧ Tally visits vertices new [] (done.map (·, p)) done) ?_ ?_
  · exact ⟨hs, .of_aside (by simp)⟩
  · rintro done x rest s' new - ⟨hs', hnew⟩
    refine (traces_resolve vertices hs' p x).mono ?_
    rintro s'' later ⟨hs'', hlater⟩
    exact ⟨hs'', by simpa using hnew.append hlater⟩

/-- In a step for `w` the vertices `waiting` are taken out of the bucket of its parent `p`, after
`w` has been put into the bucket of `semi`. -/
structure Round (n : Numbered) (tree : SpanningTree) (s : Sweep) (w p semi : Nat)
    (waiting : List Nat) : Prop where
  parentOf_eq : parentOf tree w = .ok p
  semidominator_eq : ∃ preds forest, predecessors n tree w = .ok preds ∧
    semidominator s.forest w p preds = .ok (semi, forest)
  waits : ∃ old bucket, s.bucket[semi]? = some old ∧
    Slots.write s.bucket semi (old ++ [w]) = .ok bucket ∧ bucket[p]? = some waiting

theorem traces_step (htree : Laid visits vertices tree) (hs : Fits visits s) (w : Nat) :
    Traces (Traced.step n tree s w) (step n tree s w) fun s' new =>
      Fits visits s' ∧ ∃ p semi waiting, Round n tree s w p semi waiting ∧
        Tally visits vertices new [(w, semi)] (waiting.map (·, p)) waiting := by
  refine Traces.bind (confined_parentOf htree w) ?_
  rintro p ups hp ⟨-, hups⟩
  refine Traces.bind (confined_predecessors htree n w) ?_
  rintro preds rows hpreds ⟨-, hrows⟩
  refine Traces.bind (confined_semidominator vertices hs.forest w p preds) ?_
  rintro ⟨semi, forest⟩ asked hsemi ⟨hforest, hasked⟩
  refine Traces.bind (confined_setSemi vertices hforest w semi) ?_
  rintro forest₁ set - ⟨hforest₁, hset⟩
  have hreadAt : ∀ {xs : Array (List Nat)}, xs.size = visits → ∀ i : Nat,
      Confined (Event.Aside visits vertices) (Traced.read .bucket xs (some i)) (Slots.read xs i)
        fun a => xs[i]? = some a :=
    fun hsize i => .read fun hi => Event.aside_read (hsize ▸ hi)
  have hwriteAt : ∀ {xs : Array (List Nat)}, xs.size = visits → ∀ (i : Nat) row,
      Confined (Event.Aside visits vertices) (Traced.write .bucket xs i row) (Slots.write xs i row)
        fun ys => ys.size = xs.size :=
    fun hsize i row => .write fun hi => ⟨Event.plain_write (hsize ▸ hi), rfl⟩
  refine Traces.bind (hreadAt hs.bucket semi) ?_
  rintro old looked - ⟨hold, hlooked⟩
  refine Traces.bind (hwriteAt hs.bucket semi (old ++ [w])) ?_
  rintro bucket added hwrite ⟨hsize, hadded⟩
  refine .note_bind _ ?_
  refine Traces.bind (confined_link vertices hforest₁ p w) ?_
  rintro forest₂ linked - ⟨hforest₂, hlinked⟩
  refine Traces.bind (hreadAt (hsize.trans hs.bucket) p) ?_
  rintro waiting looked' - ⟨hwaiting, hlooked'⟩
  have hready : Fits visits { s with forest := forest₂, bucket } :=
    ⟨hforest₂, hsize.trans hs.bucket, hs.idom, hs.samedom⟩
  refine Traces.bind (traces_resolveAll vertices hready p waiting) ?_
  rintro s₁ settled - ⟨hs₁, hsettled⟩
  refine Traces.bind (hwriteAt hs₁.bucket p []) ?_
  rintro bucket' emptied - ⟨hsize', hemptied⟩
  refine .pure ⟨⟨hs₁.forest, hsize'.trans hs₁.bucket, hs₁.idom, hs₁.samedom⟩, p, semi, waiting,
    ⟨hp, ⟨preds, forest, hpreds, hsemi⟩, old, bucket, hold, hwrite, hwaiting⟩, ?_⟩
  refine .behind hups (.behind hrows (.behind hasked (.behind hset (.behind hlooked
    (.behind hadded (.put w semi (.behind hlinked (.behind hlooked' ?_))))))))
  simpa using hsettled.append (.of_aside hemptied)

/-! ## The sweep -/

open SearchOrder

theorem Swept.round {p semi : Nat} {waiting : List Nat} (h : Swept T (k + 1) s)
    (hreads : Reads n tree T) (hk : k + 1 < T.count)
    (hround : Round n tree s (k + 1) p semi waiting) :
    semi = T.sdom (k + 1) ∧ waiting.Nodup ∧ (∀ x ∈ waiting, T.sdom x = p) ∧
      ∀ x, x ∈ waiting ↔ x < T.count ∧ T.Branch (k + 1) x := by
  obtain ⟨hparentOf, ⟨preds, forest, hpreds, hsemi⟩, old, bucket, hold, hwrite, hwaiting⟩ := hround
  obtain ⟨q, hq⟩ := T.exists_parent (k + 1) (by omega) hk
  obtain rfl : p = q := Except.ok.inj (hparentOf.symm.trans (hreads.parentOf_eq _ _ hq))
  obtain ⟨row, hrow, hmem⟩ := hreads.exists_predecessors (k + 1) (by omega) hk
  obtain rfl : preds = row := Except.ok.inj (hpreds.symm.trans hrow)
  obtain ⟨forest', hrun, -⟩ := exists_semidominator_ok h.represents h.semi_eq hq hmem
  obtain ⟨rfl, -⟩ : semi = T.sdom (k + 1) ∧ forest = forest' := by simpa [hsemi] using hrun
  obtain ⟨-, -, hat, hother⟩ := Slots.of_write_eq_ok hwrite
  obtain ⟨hnodup, hfilled⟩ := mem_bucket_add h hk hold hat hother p waiting hwaiting
  exact ⟨rfl, hnodup, fun x hx => ((hfilled x).1 hx).2.2.1, fun x => mem_waiting_iff hq hfilled⟩

theorem traces_sweep (htree : Laid T.count vertices tree) (hreads : Reads n tree T)
    (hs : Fits T.count s) (h : Swept T k s) (hk : k < T.count) :
    Traces (Traced.sweep n tree k s) (sweep n tree k s) fun s' new =>
      Fits T.count s' ∧ ∃ settled : List Nat,
        Tally T.count vertices new ((List.range' 1 k).reverse.map fun w => (w, T.sdom w))
          (settled.map fun x => (x, T.sdom x)) settled ∧
        settled.Nodup ∧ ∀ x, x ∈ settled ↔ x < T.count ∧ ∃ c, c ≤ k ∧ T.Branch c x := by
  induction k generalizing s with
  | zero =>
      refine .pure ⟨hs, [], .of_aside (by simp), .nil, fun x => ?_⟩
      simp only [List.not_mem_nil, false_iff]
      rintro ⟨-, c, hc, hbranch⟩
      have := hbranch.pos
      omega
  | succ k ih =>
      refine Traces.bind (traces_step htree hs (k + 1)) ?_
      rintro s₁ new hstep ⟨hs₁, p, semi, waiting, hround, hnew⟩
      obtain ⟨rfl, hnodup, hsdom, hwaiting⟩ := h.round hreads hk hround
      obtain ⟨preds, hpreds, hmem⟩ := hreads.exists_predecessors (k + 1) (by omega) hk
      obtain ⟨s₁', hstep', h₁⟩ := exists_step_ok h hk (hreads.parentOf_eq (k + 1)) hpreds hmem
      obtain rfl : s₁ = s₁' := Except.ok.inj (hstep.symm.trans hstep')
      refine (ih hs₁ h₁ (by omega)).mono ?_
      rintro s' later ⟨hs', settled, hlater, hnodup', hsettled⟩
      have htaken : waiting.map (·, p) = waiting.map fun x => (x, T.sdom x) :=
        List.map_congr_left fun x hx => by rw [hsdom x hx]
      refine ⟨hs', waiting ++ settled, ?_, ?_, ?_⟩
      · rw [htaken] at hnew
        simpa [List.range'_1_concat, Nat.add_comm 1 k] using hnew.append hlater
      · refine hnodup.append hnodup' fun x hx hx' => ?_
        obtain ⟨-, c, hc, hbranch⟩ := (hsettled x).1 hx'
        have := hbranch.unique ((hwaiting x).1 hx).2
        omega
      · intro x
        rw [List.mem_append, hwaiting, hsettled]
        constructor
        · rintro (⟨hx, hbranch⟩ | ⟨hx, c, hc, hbranch⟩)
          · exact ⟨hx, k + 1, Nat.le_refl _, hbranch⟩
          · exact ⟨hx, c, by omega, hbranch⟩
        · rintro ⟨hx, c, hc, hbranch⟩
          by_cases heq : c = k + 1
          · exact .inl ⟨hx, heq ▸ hbranch⟩
          · exact .inr ⟨hx, c, by omega, hbranch⟩

/-! ## Last round and result -/

theorem confined_takeOver (vertices : Nat) (hs : Fits visits s) (w : Nat) :
    Confined (Event.Plain visits vertices) (Traced.takeOver s w) (takeOver s w) (Fits visits) := by
  refine (Confined.read fun hi => Event.plain_read (hs.samedom ▸ hi)).bind ?_
  rintro (_ | y) _
  · exact .pure hs
  · refine (Confined.read fun hi => Event.plain_read (hs.idom ▸ hi)).bind fun d _ => ?_
    refine (Confined.write fun hi => Event.plain_write (hs.idom ▸ hi)).bind fun idom hidom => ?_
    exact .pure ⟨hs.forest, hs.bucket, hidom.trans hs.idom, hs.samedom⟩

theorem confined_named (htree : Laid visits vertices tree) (hs : Fits visits s) :
    Confined (Event.Plain visits vertices) (Traced.named vertices tree s) (named vertices tree s)
      fun idom => idom.size = vertices := by
  refine .foldlM (by simp) fun idom w hidom => ?_
  refine .filled (fun hi => Event.plain_read (hs.idom ▸ hi)) fun d _ => ?_
  refine (Confined.read fun hi => Event.plain_read (htree.preorder ▸ hi)).bind fun v _ => ?_
  refine (Confined.read fun hi => Event.plain_read (htree.preorder ▸ hi)).bind fun u _ => ?_
  exact (Confined.write fun hi => Event.plain_write (hidom ▸ hi)).mono
    fun idom' _ h => ⟨h.1.trans hidom, h.2⟩

theorem idom_of_takeOver {s' : Sweep} {x : Nat} (h : takeOver s w = .ok s') (hne : x ≠ w) :
    s'.idom[x]? = s.idom[x]? := by
  obtain ⟨o, -, h⟩ := bind_eq_ok_iff.1 h
  cases o with
  | none => rw [Except.ok.inj h]
  | some y =>
      obtain ⟨d, -, h⟩ := bind_eq_ok_iff.1 h
      obtain ⟨idom, hwrite, h⟩ := bind_eq_ok_iff.1 h
      rw [← Except.ok.inj h]
      exact (Slots.of_write_eq_ok hwrite).2.2.2 x hne

theorem exists_before {count v y : Nat} {s' : Sweep} (hv : 0 < v) (hvc : v < count) (hyv : y < v)
    (h : (List.range' 1 (count - 1)).foldlM takeOver s = .ok s') :
    ∃ before, (List.range' 1 (v - 1)).foldlM takeOver s = .ok before ∧
      s'.idom[y]? = before.idom[y]? := by
  have hsplit : List.range' 1 (count - 1) = List.range' 1 (v - 1) ++ List.range' v (count - v) := by
    have happend := List.range'_append_1 (s := 1) (m := v - 1) (n := count - v)
    rw [show 1 + (v - 1) = v by omega, show v - 1 + (count - v) = count - 1 by omega] at happend
    exact happend.symm
  rw [hsplit, List.foldlM_append, bind_eq_ok_iff] at h
  obtain ⟨before, hbefore, hrest⟩ := h
  refine ⟨before, hbefore, ?_⟩
  refine foldlM_keeps (P := fun now => now.idom[y]? = before.idom[y]?) ?_ hrest rfl
  intro now w next hw hnext hnow
  have hvw : v ≤ w := (List.mem_range'_1.1 hw).1
  exact (idom_of_takeOver hnext (by omega)).trans hnow

/-- A run that returns a result: the states after the sweep and after the last round, the result,
and the events of the sweep and those behind it. -/
structure Run (n : Numbered) (tree : SpanningTree) where
  swept : Sweep
  done : Sweep
  result : Array (Option Nat)
  early : List Event
  later : List Event
  sweep_eq : sweep n tree (tree.preorder.size - 1) (.initial tree.preorder.size) = .ok swept
  compute_eq : compute n tree = .ok done
  idoms_eq : idoms n tree = .ok result
  traced_sweep_eq : (Traced.sweep n tree (tree.preorder.size - 1)
    (.initial tree.preorder.size)).apply [] = (.ok swept, early)
  traced_idoms_eq : (Traced.idoms n tree).apply [] = (.ok result, early ++ later)

namespace Run

variable (run : Run n tree)

def events : List Event := run.early ++ run.later

def puts : List (Nat × Nat) := run.events.filterMap Event.put?

def takes : List (Nat × Nat) := run.events.filterMap Event.take?

/-- No slot is used out of range, and each vertex but the first goes through one bucket and comes
out of it with its dominator or with a vertex that has the same. -/
structure Settles : Prop where
  inRange : ∀ e ∈ run.events, e.InRange tree.preorder.size n.count
  put_once : run.puts.map Prod.fst = (List.range' 1 (tree.preorder.size - 1)).reverse
  taken_once : run.takes.Perm run.puts
  settled : run.early.filterMap Event.settled? = run.takes.map Prod.fst
  emptied : ∀ (b : Nat) row, run.swept.bucket[b]? = some row → row = []
  one_of_two : ∀ v, 0 < v → v < tree.preorder.size →
    (∃ d, run.swept.idom[v]? = some (some d) ∧ run.swept.samedom[v]? = some none) ∨
      ∃ y, run.swept.idom[v]? = some none ∧ run.swept.samedom[v]? = some (some y)
  put_off : ∀ v y : Nat, run.swept.samedom[v]? = some (some y) → y < v ∧
    ∃ before d, (List.range' 1 (v - 1)).foldlM takeOver run.swept = .ok before ∧
      before.idom[y]? = some (some d) ∧ run.done.idom[y]? = some (some d)
  below : ∀ w, 0 < w → w < tree.preorder.size → ∃ d, run.done.idom[w]? = some (some d) ∧ d < w

end Run

theorem Swept.emptied (h : Swept T 0 s) {b : Nat} {row : List Nat}
    (hrow : s.bucket[b]? = some row) : row = [] := by
  refine List.eq_nil_iff_forall_not_mem.2 fun x hx => ?_
  obtain ⟨-, -, -, c, hc, hbranch⟩ := (h.mem_bucket b row x hrow).1 hx
  have := hbranch.pos
  omega

theorem Swept.resolved_of_pos (h : Swept T 0 s) {v : Nat} (hv : 0 < v) (hlt : v < T.count) :
    Resolved T s v := by
  obtain ⟨c, hc⟩ := exists_branch (T := T) hv hlt
  exact h.resolved v c hlt hc hc.pos

theorem Swept.samedom_lt (h : Swept T 0 s) {v y : Nat} (hlt : v < T.count)
    (hy : s.samedom[v]? = some (some y)) : 0 < y ∧ y < v := by
  have hv : 0 < v := by
    by_contra hle
    obtain rfl : v = 0 := by omega
    have hblank := (h.blank 0 hlt fun c hc => ancestor_le hc.2).2
    simp [hy] at hblank
  rcases h.resolved_of_pos hv hlt with ⟨d, -, hnone, -⟩ | ⟨y', -, hy', hpos, hlt', -⟩
  · simp [hy] at hnone
  · obtain rfl : y = y' := by simpa [hy] using hy'
    exact ⟨hpos, hlt'⟩

theorem perm_of_branches {settled : List Nat} (hnodup : settled.Nodup)
    (hmem : ∀ x, x ∈ settled ↔ x < T.count ∧ ∃ c, c ≤ T.count - 1 ∧ T.Branch c x) :
    settled.Perm (List.range' 1 (T.count - 1)).reverse := by
  refine (List.perm_ext_iff_of_nodup hnodup (List.nodup_reverse.2 List.nodup_range')).2 fun x => ?_
  rw [hmem, List.mem_reverse, List.mem_range'_1]
  constructor
  · rintro ⟨hx, c, -, hbranch⟩
    have hpos := hbranch.pos
    have hle := ancestor_le hbranch.2
    omega
  · rintro ⟨hpos, hx⟩
    have hlt : x < T.count := by omega
    obtain ⟨c, hc⟩ := exists_branch (T := T) hpos hlt
    have hle := ancestor_le hc.2
    exact ⟨hlt, c, by omega, hc⟩

theorem Run.settles_of_tally (run : Run n tree) {settled : List Nat} (hreads : Reads n tree T)
    (hswept : Swept T 0 run.swept) (hfits : Fits T.count run.swept)
    (htally : Tally T.count n.count run.early
      ((List.range' 1 (T.count - 1)).reverse.map fun w => (w, T.sdom w))
      (settled.map fun x => (x, T.sdom x)) settled)
    (hperm : settled.Perm (List.range' 1 (T.count - 1)).reverse)
    (hlater : ∀ e ∈ run.later, e.Plain T.count n.count) (hpos : 0 < T.count) : run.Settles := by
  obtain ⟨done, hcompute, hdone⟩ := exists_compute_ok hreads hpos
  obtain rfl : run.done = done := Except.ok.inj (run.compute_eq.symm.trans hcompute)
  have hputs : run.puts = (List.range' 1 (T.count - 1)).reverse.map fun w => (w, T.sdom w) := by
    rw [puts, events, List.filterMap_append, htally.puts_eq,
      List.filterMap_eq_nil_iff.2 fun e he => (hlater e he).put?_eq, List.append_nil]
  have htakes : run.takes = settled.map fun x => (x, T.sdom x) := by
    rw [takes, events, List.filterMap_append, htally.takes_eq,
      List.filterMap_eq_nil_iff.2 fun e he => (hlater e he).take?_eq, List.append_nil]
  have hsweep := run.sweep_eq
  rw [compute, hsweep, ok_bind] at hcompute
  have hcount := hreads.count_eq
  refine ⟨?_, ?_, ?_, ?_, fun b row => hswept.emptied, ?_, ?_, ?_⟩
  · rw [hcount]
    exact List.forall_mem_append.2 ⟨htally.inRange, fun e he => (hlater e he).inRange⟩
  · simp [hputs, hcount, Function.comp_def]
  · rw [hputs, htakes]
    exact hperm.map _
  · simp [htally.settled_eq, htakes, Function.comp_def]
  · intro v hv hlt
    rcases hswept.resolved_of_pos hv (hcount ▸ hlt) with ⟨d, hidom, hsame, -⟩ | ⟨y, hidom, hsame, -⟩
    · exact .inl ⟨d, hidom, hsame⟩
    · exact .inr ⟨y, hidom, hsame⟩
  · intro v y hy
    have hlt : v < T.count := hfits.samedom ▸ (Array.getElem?_eq_some_iff.1 hy).1
    obtain ⟨hy0, hyv⟩ := hswept.samedom_lt hlt hy
    obtain ⟨before, hbefore, hsame⟩ := exists_before (by omega) (hcount ▸ hlt) hyv hcompute
    obtain ⟨d, hd, -⟩ := hdone y hy0 (by omega)
    exact ⟨hyv, before, d, hbefore, hsame ▸ hd, hd⟩
  · intro w hw hlt
    obtain ⟨d, hd, himm⟩ := hdone w hw (hcount ▸ hlt)
    have hle := ancestor_le (ancestor_of_dominates himm.dominates (hcount ▸ hlt))
    exact ⟨d, hd, Nat.lt_of_le_of_ne hle himm.ne⟩

theorem exists_settles {result : Array (Option Nat)} (htree : Laid T.count n.count tree)
    (hreads : Reads n tree T) (hpos : 0 < T.count) (hidoms : idoms n tree = .ok result) :
    ∃ run : Run n tree, run.Settles := by
  have hcount := hreads.count_eq
  obtain ⟨swept, hsweep, hswept⟩ := exists_sweep_ok hreads (swept_initial T) (by omega)
  obtain ⟨done, hcompute, -⟩ := exists_compute_ok hreads hpos
  have hlast : (List.range' 1 (T.count - 1)).foldlM takeOver swept = .ok done := by
    simpa only [compute, hcount, hsweep, ok_bind] using hcompute
  have hnamed : named n.count tree done = .ok result := by
    simpa only [idoms, hcompute, ok_bind] using hidoms
  obtain ⟨early, hearly, hfits, settled, htally, hnodup, hsettled⟩ :=
    traces_sweep htree hreads (fits_initial T.count) (swept_initial T) (by omega) swept hsweep []
  obtain ⟨late, hlate, hfits', hlateEvents⟩ :=
    Confined.foldlM hfits (fun s w hs => confined_takeOver n.count hs w) done hlast early
  obtain ⟨last, hlastRun, -, hlastEvents⟩ :=
    confined_named htree hfits' result hnamed (early ++ late)
  have hrun : (Traced.compute n tree).apply [] = (.ok done, early ++ late) := by
    rw [Traced.compute, hcount, Change.apply_bind_ok hearly]
    exact hlate
  have hrun' : (Traced.idoms n tree).apply [] = (.ok result, early ++ (late ++ last)) := by
    rw [Traced.idoms, Change.apply_bind_ok hrun, hlastRun, List.append_assoc]
  have hlater : ∀ e ∈ late ++ last, e.Plain T.count n.count :=
    List.forall_mem_append.2 ⟨hlateEvents, hlastEvents⟩
  let run : Run n tree := ⟨swept, done, result, early, late ++ last, hcount ▸ hsweep, hcompute,
    hidoms, hcount ▸ hearly, hrun'⟩
  exact ⟨run, run.settles_of_tally hreads hswept hfits htally (perm_of_branches hnodup hsettled)
    hlater hpos⟩

end Dominator.LengauerTarjan

open Dominator.LengauerTarjan (Run)

variable {g : FlowGraph} {start : Value}

/-- For a well-formed graph the algorithm returns a result, uses every slot in range on the way
there, and settles each vertex but the first once. -/
theorem slots_in_range_and_vertices_settled_once (hwf : g.WellFormed)
    (hstart : g.contains start = true) :
    ∃ tree, g.spanningTree (.ofList g.vertices) start = .ok tree ∧
      ∃ run : Run (g.numbered (.ofList g.vertices)) tree, run.Settles := by
  obtain ⟨root, outs, tree, -, -, htree, hsearched, hsources⟩ :=
    FlowGraph.exists_searching hwf hstart
  have hreads := Dominator.LengauerTarjan.reads_of_searching hsearched
    fun v _ hreach => hsources v hreach
  obtain ⟨result, hidoms, -⟩ := Dominator.LengauerTarjan.exists_idoms_ok hsearched
    fun v _ hreach => hsources v hreach
  have hreads' : Dominator.LengauerTarjan.Reads (g.numbered (.ofList g.vertices)) tree
      hsearched.order := ⟨hreads.count_eq, hreads.parentOf_eq, hreads.exists_predecessors⟩
  have hidoms' := (Algorithm.idoms_withRow .lengauerTarjan _ _ tree).symm.trans hidoms
  refine ⟨tree, htree, ?_⟩
  exact Dominator.LengauerTarjan.exists_settles
    ⟨rfl, hsearched.size_dfnum, hsearched.size_parent⟩ hreads' hsearched.size_pos hidoms'

theorem slots_in_range_and_vertices_settled_once_twoWayLoop :
    twoWayLoop.graph.WellFormed ∧ twoWayLoop.graph.contains (.bool false) = true ∧
    ∃ tree,
      twoWayLoop.graph.spanningTree (.ofList twoWayLoop.graph.vertices) (.bool false) = .ok tree ∧
      ∃ run : Run (twoWayLoop.graph.numbered (.ofList twoWayLoop.graph.vertices)) tree,
        run.Settles :=
  ⟨twoWayLoop_wellFormed, by decide,
    slots_in_range_and_vertices_settled_once twoWayLoop_wellFormed (by decide)⟩

end FlowDominance
