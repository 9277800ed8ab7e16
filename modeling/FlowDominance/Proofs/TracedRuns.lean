import FlowDominance.Dominator.LengauerTarjan
import FlowDominance.Proofs.Faultless

/-!
# Dominators by semidominators, with a log

The algorithm is run with a log of every number under which one of its slots is used, also of those
that are missing because nothing was written where they were read, and of every vertex that is put
into a bucket or taken out of one.  Where the algorithm returns a result it returns the same with the
log, so the log tells what it does.
-/

namespace FlowDominance

namespace Dominator.LengauerTarjan

/-! ## Events -/

inductive Bank where
  | semi
  | ancestor
  | best
  | idom
  | samedom
  | bucket
  | preorder
  | dfnum
  | parent
  | result
  deriving DecidableEq, Repr

def Bank.size (visits vertices : Nat) : Bank → Nat
  | .dfnum | .parent | .result => vertices
  | _ => visits

inductive Event where
  | read (bank : Bank) (i : Option Nat)
  | write (bank : Bank) (i : Nat)
  | put (v b : Nat)
  | take (v b : Nat)
  deriving DecidableEq, Repr

namespace Event

def InRange (visits vertices : Nat) : Event → Prop
  | read bank i => ∃ j < bank.size visits vertices, i = some j
  | write bank i => i < bank.size visits vertices
  | _ => True

def put? : Event → Option (Nat × Nat)
  | put v b => some (v, b)
  | _ => none

def take? : Event → Option (Nat × Nat)
  | take v b => some (v, b)
  | _ => none

def settled? : Event → Option Nat
  | write .idom v | write .samedom v => some v
  | _ => none

end Event

abbrev Traced (α : Type) := Change (List Event) α

namespace Traced

variable {α β : Type}

def note (e : Event) : Traced Unit := modify (· ++ [e])

def read (bank : Bank) (xs : Array α) (i : Option Nat) : Traced α := do
  note (.read bank i)
  match i with
  | some i => .lift (Slots.read xs i)
  | none => .lift (.error .indexOutOfRange)

def write (bank : Bank) (xs : Array α) (i : Nat) (a : α) : Traced (Array α) := do
  note (.write bank i)
  .lift (Slots.write xs i a)

/-! ## The algorithm with its log -/

def setSemi (f : Forest) (w s : Nat) : Traced Forest := do
  return { f with semi := ← write .semi f.semi w s }

def link (f : Forest) (p w : Nat) : Traced Forest := do
  return { f with
    ancestor := ← write .ancestor f.ancestor w (some p)
    best := ← write .best f.best w w }

def shorten (f : Forest) (x : Nat) : Traced Forest := do
  let a ← read .ancestor f.ancestor (some x)
  let above ← read .best f.best a
  let own ← read .best f.best (some x)
  let best ←
    if (← read .semi f.semi (some above)) < (← read .semi f.semi (some own)) then
      write .best f.best x above
    else pure f.best
  let ancestor ← write .ancestor f.ancestor x (← read .ancestor f.ancestor a)
  return { f with best, ancestor }

def compress (f : Forest) (u : Nat) : Traced Forest := do
  let a ← read .ancestor f.ancestor (some u)
  match ← read .ancestor f.ancestor a with
  | none => return f
  | some _ =>
      if a.getD u < u then shorten (← compress f (a.getD u)) u
      else .lift (.error .indexOutOfRange)
termination_by u

def eval (f : Forest) (v : Nat) : Traced (Nat × Forest) := do
  let f ← compress f v
  return (← read .best f.best (some v), f)

def evalSemi (f : Forest) (v : Nat) : Traced (Nat × Forest) := do
  let (y, f) ← eval f v
  return (← read .semi f.semi (some y), f)

def predecessors (n : Numbered) (tree : SpanningTree) (w : Nat) : Traced (List Nat) := do
  let row ← .lift (n.predecessors (← read .preorder tree.preorder (some w)))
  let visits ← row.mapM fun link => do read .dfnum tree.dfnum (some (← .lift link))
  return visits.filterMap id

def parentOf (tree : SpanningTree) (w : Nat) : Traced Nat := do
  let v ← read .preorder tree.preorder (some w)
  match ← read .dfnum tree.dfnum (← read .parent tree.parent (some v)) with
  | some p => return p
  | none => .lift (.error .indexOutOfRange)

def offer (w : Nat) : Nat × Forest → Nat → Traced (Nat × Forest)
  | (s, forest), v =>
      if v ≤ w then pure (min s v, forest)
      else do
        let (candidate, forest) ← evalSemi forest v
        return (min s candidate, forest)

def semidominator (forest : Forest) (w p : Nat) (preds : List Nat) : Traced (Nat × Forest) :=
  preds.foldlM (offer w) (p, forest)

def resolve (p : Nat) (s : Sweep) (v : Nat) : Traced Sweep := do
  note (.take v p)
  let (y, forest) ← eval s.forest v
  if (← read .semi forest.semi (some y)) = (← read .semi forest.semi (some v)) then
    return { s with forest, idom := ← write .idom s.idom v (some p) }
  else
    return { s with forest, samedom := ← write .samedom s.samedom v (some y) }

def step (n : Numbered) (tree : SpanningTree) (s : Sweep) (w : Nat) : Traced Sweep := do
  let p ← parentOf tree w
  let (semi, forest) ← semidominator s.forest w p (← predecessors n tree w)
  let forest ← setSemi forest w semi
  let bucket ← write .bucket s.bucket semi ((← read .bucket s.bucket (some semi)) ++ [w])
  note (.put w semi)
  let forest ← link forest p w
  let waiting ← read .bucket bucket (some p)
  let s ← waiting.foldlM (resolve p) { s with forest, bucket }
  return { s with bucket := ← write .bucket s.bucket p [] }

def sweep (n : Numbered) (tree : SpanningTree) : Nat → Sweep → Traced Sweep
  | 0, s => pure s
  | w + 1, s => do sweep n tree w (← step n tree s (w + 1))

def takeOver (s : Sweep) (w : Nat) : Traced Sweep := do
  match ← read .samedom s.samedom (some w) with
  | none => return s
  | some y =>
      return { s with idom := ← write .idom s.idom w (← read .idom s.idom (some y)) }

def compute (n : Numbered) (tree : SpanningTree) : Traced Sweep := do
  let count := tree.preorder.size
  let s ← sweep n tree (count - 1) (.initial count)
  (List.range' 1 (count - 1)).foldlM takeOver s

def named (count : Nat) (tree : SpanningTree) (s : Sweep) : Traced (Array (Option Nat)) :=
  (List.range' 1 (tree.preorder.size - 1)).foldlM
    (fun idom w => do
      let d ← read .idom s.idom (some w)
      write .result idom (← read .preorder tree.preorder (some w))
        (some (← read .preorder tree.preorder d)))
    (Array.replicate count none)

def idoms (n : Numbered) (tree : SpanningTree) : Traced (Array (Option Nat)) := do
  named n.count tree (← compute n tree)

end Traced

/-! ## Following a run -/

variable {α β : Type} {c : Traced α} {f : α → Traced β} {r : Except Fault α}
variable {g : α → Except Fault β} {R R' : α → List Event → Prop} {S : β → List Event → Prop}

/-- Where `r` returns a result, so does `c`, with events of which `R` holds. -/
def Traces (c : Traced α) (r : Except Fault α) (R : α → List Event → Prop) : Prop :=
  ∀ a, r = .ok a → ∀ log, ∃ new, c.apply log = (.ok a, log ++ new) ∧ R a new

namespace Traces

theorem mono (h : Traces c r R) (himp : ∀ a new, R a new → R' a new) : Traces c r R' := by
  intro a ha log
  obtain ⟨new, hrun, hnew⟩ := h a ha log
  exact ⟨new, hrun, himp a new hnew⟩

theorem pure {a : α} (h : R a []) : Traces (pure a) (.ok a) R := by
  intro b hb log
  obtain rfl : a = b := Except.ok.inj hb
  exact ⟨[], by simp, h⟩

theorem error (fault : Fault) : Traces c (.error fault) R := by
  intro a ha
  contradiction

protected theorem bind (h : Traces c r R)
    (hnext : ∀ a new, r = .ok a → R a new → Traces (f a) (g a) fun b later => S b (new ++ later)) :
    Traces (c >>= f) (r >>= g) S := by
  intro b hb log
  obtain ⟨a, ha, hga⟩ := bind_eq_ok_iff.1 hb
  obtain ⟨new, hrun, hnew⟩ := h a ha log
  obtain ⟨later, hlater, hS⟩ := hnext a new ha hnew b hga (log ++ new)
  refine ⟨new ++ later, ?_, hS⟩
  rw [Change.apply_bind_ok hrun, hlater, List.append_assoc]

theorem note_bind {c : Unit → Traced α} (e : Event)
    (h : Traces (c ()) r fun a later => R a (e :: later)) : Traces (Traced.note e >>= c) r R := by
  intro a ha log
  obtain ⟨later, hrun, hlater⟩ := h a ha (log ++ [e])
  refine ⟨e :: later, ?_, hlater⟩
  have hnote : (Traced.note e).apply log = (.ok (), log ++ [e]) := rfl
  rw [Change.apply_bind_ok hnote, hrun, List.append_assoc]
  rfl

theorem read (bank : Bank) (xs : Array α) (i : Nat) :
    Traces (Traced.read bank xs (some i)) (Slots.read xs i)
      fun a new => xs[i]? = some a ∧ new = [.read bank (some i)] := by
  refine note_bind _ ?_
  intro a ha log
  exact ⟨[], by simp [ha], Slots.read_eq_ok_iff.1 ha, rfl⟩

theorem write (bank : Bank) (xs : Array α) (i : Nat) (a : α) :
    Traces (Traced.write bank xs i a) (Slots.write xs i a)
      fun ys new => i < xs.size ∧ ys.size = xs.size ∧ new = [.write bank i] := by
  refine note_bind _ ?_
  intro ys hys log
  obtain ⟨hi, hsize, -⟩ := Slots.of_write_eq_ok hys
  exact ⟨[], by simp [hys], hi, hsize, rfl⟩

protected theorem foldlM {f : β → α → Traced β} {g : β → α → Except Fault β} {xs : List α} {b : β}
    (I : List α → β → List Event → Prop) (hinit : I [] b [])
    (hstep : ∀ done x rest b new, xs = done ++ x :: rest → I done b new →
      Traces (f b x) (g b x) fun b' later => I (done ++ [x]) b' (new ++ later)) :
    Traces (xs.foldlM f b) (xs.foldlM g b) (I xs) := by
  have hrun : ∀ rest done b new, xs = done ++ rest → I done b new →
      Traces (rest.foldlM f b) (rest.foldlM g b) fun b' later => I xs b' (new ++ later) := by
    intro rest
    induction rest with
    | nil =>
        intro done b new hxs hdone
        rw [List.append_nil] at hxs
        exact .pure (by simpa [hxs] using hdone)
    | cons x rest ih =>
        intro done b new hxs hdone
        rw [List.foldlM_cons, List.foldlM_cons]
        refine (hstep done x rest b new hxs hdone).bind fun b' later _ hdone' => ?_
        refine (ih (done ++ [x]) b' (new ++ later) (by simp [hxs]) hdone').mono ?_
        intro b'' last hlast
        rwa [List.append_assoc] at hlast
  exact hrun xs [] b [] rfl hinit

end Traces

/-- Where `r` returns a result, of which `Q` holds then, so does `c`, with nothing but events of the
kind `P`. -/
def Confined (P : Event → Prop) (c : Traced α) (r : Except Fault α) (Q : α → Prop) : Prop :=
  Traces c r fun a new => Q a ∧ ∀ e ∈ new, P e

namespace Confined

variable {P : Event → Prop} {Q : α → Prop} {Q' : β → Prop} {bank : Bank} {i : Nat} {a : α}

theorem pure (h : Q a) : Confined P (pure a) (.ok a) Q := Traces.pure ⟨h, by simp⟩

theorem lift (r : Except Fault α) : Confined P (.lift r) r fun a => r = .ok a := by
  rintro a rfl log
  exact ⟨[], by simp, rfl, by simp⟩

protected theorem bind (h : Confined P c r Q) (hnext : ∀ a, Q a → Confined P (f a) (g a) Q') :
    Confined P (c >>= f) (r >>= g) Q' := by
  refine Traces.bind h fun a new _ hnew => (hnext a hnew.1).mono ?_
  rintro b later ⟨hb, hlater⟩
  exact ⟨hb, List.forall_mem_append.2 ⟨hnew.2, hlater⟩⟩

theorem read {xs : Array α} (hP : i < xs.size → P (.read bank (some i))) :
    Confined P (Traced.read bank xs (some i)) (Slots.read xs i) fun a => xs[i]? = some a := by
  refine (Traces.read bank xs i).mono ?_
  rintro a _ ⟨ha, rfl⟩
  exact ⟨ha, by simpa using hP (Array.getElem?_eq_some_iff.1 ha).1⟩

theorem write {xs : Array α} (hP : i < xs.size → P (.write bank i)) :
    Confined P (Traced.write bank xs i a) (Slots.write xs i a) fun ys => ys.size = xs.size := by
  refine (Traces.write bank xs i a).mono ?_
  rintro ys _ ⟨hi, hsize, rfl⟩
  exact ⟨hsize, by simpa using hP hi⟩

theorem filled {xs : Array (Option Nat)} {f : Option Nat → Traced β} {g : Nat → Except Fault β}
    (hP : i < xs.size → P (.read bank (some i)))
    (hnext : ∀ a, xs[i]? = some (some a) → Confined P (f (some a)) (g a) Q') :
    Confined P (Traced.read bank xs (some i) >>= f) (Slots.readFilled xs i >>= g) Q' := by
  unfold Slots.readFilled
  rw [bind_assoc]
  refine (read hP).bind ?_
  rintro (_ | a) ha
  · exact Traces.error _
  · exact hnext a ha

protected theorem foldlM {f : β → α → Traced β} {g : β → α → Except Fault β} {xs : List α} {b : β}
    (hb : Q' b) (hstep : ∀ b x, Q' b → Confined P (f b x) (g b x) Q') :
    Confined P (xs.foldlM f b) (xs.foldlM g b) Q' := by
  induction xs generalizing b with
  | nil => exact pure hb
  | cons x xs ih =>
      rw [List.foldlM_cons, List.foldlM_cons]
      exact (hstep b x hb).bind fun b' hb' => ih hb'

protected theorem mapM {f : α → Traced β} {g : α → Except Fault β} (xs : List α)
    (h : ∀ x ∈ xs, Confined P (f x) (g x) fun _ => True) :
    Confined P (xs.mapM f) (xs.mapM g) fun _ => True := by
  induction xs with
  | nil => exact pure trivial
  | cons x xs ih =>
      rw [List.mapM_cons, List.mapM_cons]
      refine (h x (by simp)).bind fun y _ => ?_
      exact (ih fun z hz => h z (by simp [hz])).bind fun ys _ => pure trivial

end Confined

end Dominator.LengauerTarjan

end FlowDominance
