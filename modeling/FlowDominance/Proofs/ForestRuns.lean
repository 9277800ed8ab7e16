import FlowDominance.Proofs.Forest

/-!
# Runs of a compressed forest

A forest is built by giving a root its `semi` and putting it below a smaller root, and is asked in
between.  Beside it stand the links as they were made, with nothing shortened, and a walk along them
that looks at every node.  Every run of the forest gives the answers of the walk.
-/

namespace FlowDominance.Dominator

inductive Move where
  | assign (w s : Nat)
  | link (p w : Nat)
  | query (v : Nat)
  deriving DecidableEq, Repr

/-! ## Links as they were made -/

structure Links where
  semi : Nat → Nat
  up : Nat → Option Nat
  falling : Falling up

namespace Links

variable {l : Links} {a p v y : Nat}

def initial : Links := ⟨id, fun _ => none, by simp [Falling]⟩

def assign (l : Links) (w s : Nat) : Links := { l with semi := Function.update l.semi w s }

def link (l : Links) (p w : Nat) : Links :=
  if h : p < w then
    { l with
      up := Forest.linkUp l.up p w
      falling := by
        intro x q hx
        by_cases hxw : x = w
        · subst hxw
          obtain rfl : p = q := by simpa [Forest.linkUp] using hx
          exact h
        · exact l.falling x q (by simpa [Forest.linkUp, hxw] using hx) }
  else l

def after (l : Links) : Move → Links
  | .assign w s => l.assign w s
  | .link p w => l.link p w
  | .query _ => l

def along (l : Links) (moves : List Move) : Links := moves.foldl after l

def way (l : Links) (v : Nat) : List Nat :=
  match _h : l.up v with
  | none => []
  | some p => v :: l.way p
termination_by v
decreasing_by exact l.falling v p _h

def nearest (l : Links) (v : Nat) : Option Nat := (l.way v).argmin l.semi

def IsNearest (l : Links) (v y : Nat) : Prop :=
  ∃ nearer farther, l.way v = nearer ++ y :: farther ∧ (∀ x ∈ nearer, l.semi y < l.semi x) ∧
    ∀ x ∈ farther, l.semi y ≤ l.semi x

def answer (l : Links) : Move → List Nat
  | .query v => (l.nearest v).toList
  | _ => []

def answers (l : Links) : List Move → List Nat
  | [] => []
  | m :: rest => l.answer m ++ (l.after m).answers rest

/-- A root is assigned to, a root is put below a smaller root, and linked nodes are asked for. -/
def Allows (count : Nat) (l : Links) : Move → Prop
  | .assign w _ => w < count ∧ l.up w = none
  | .link p w => p < w ∧ w < count ∧ l.up p = none ∧ l.up w = none
  | .query v => (l.up v).isSome = true

def AllowsAll (count : Nat) : Links → List Move → Prop
  | _, [] => True
  | l, m :: rest => l.Allows count m ∧ AllowsAll count (l.after m) rest

instance (count : Nat) (l : Links) (m : Move) : Decidable (l.Allows count m) :=
  match m with
  | .assign w _ => inferInstanceAs (Decidable (w < count ∧ l.up w = none))
  | .link p w =>
      inferInstanceAs (Decidable (p < w ∧ w < count ∧ l.up p = none ∧ l.up w = none))
  | .query v => inferInstanceAs (Decidable ((l.up v).isSome = true))

instance decidableAllowsAll (count : Nat) (l : Links) (moves : List Move) :
    Decidable (l.AllowsAll count moves) :=
  match moves with
  | [] => isTrue trivial
  | m :: rest =>
      have := decidableAllowsAll count (l.after m) rest
      inferInstanceAs (Decidable (l.Allows count m ∧ (l.after m).AllowsAll count rest))

theorem way_of_root (h : l.up v = none) : l.way v = [] := by
  rw [way]
  split <;> simp_all

theorem way_of_link (h : l.up v = some p) : l.way v = v :: l.way p := by
  rw [way]
  split <;> simp_all

theorem nearest_of_leastOn (h : Forest.LeastOn l.semi l.up v a y) (ha : l.up a = none) :
    l.nearest v = some y := by
  unfold nearest
  induction h with
  | last hup => simp [way_of_link hup, way_of_root ha]
  | more hup _ ih =>
      rw [way_of_link hup, List.argmin_cons, ih ha]
      simp only [Forest.lower]
      split <;> rfl

theorem isNearest_of_nearest (h : l.nearest v = some y) : l.IsNearest v y := by
  obtain ⟨hmem, hleast, hfirst⟩ := List.argmin_eq_some_iff.1 h
  obtain ⟨nearer, farther, hway, hnot⟩ := List.eq_append_cons_of_mem hmem
  rw [hway] at hleast hfirst
  refine ⟨nearer, farther, hway, ?_, fun x hx => hleast x (by simp [hx])⟩
  intro x hx
  by_contra hle
  have hbefore := hfirst x (by simp [hx]) (Nat.le_of_not_lt hle)
  rw [List.idxOf_append_of_notMem hnot, List.idxOf_append_of_mem hx] at hbefore
  have hlt := List.idxOf_lt_length_of_mem hx
  omega

end Links

/-! ## Runs -/

namespace Forest

variable {f : Forest} {l : Links} {count : Nat} {m : Move}

def move (f : Forest) : Move → Except Fault (List Nat × Forest)
  | .assign w s => do return ([], ← f.setSemi w s)
  | .link p w => do return ([], ← f.link p w)
  | .query v => do
      let (y, f) ← f.eval v
      return ([y], f)

def play (f : Forest) : List Move → Except Fault (List Nat × Forest)
  | [] => .ok ([], f)
  | m :: rest => do
      let (answer, f) ← f.move m
      let (answers, f) ← f.play rest
      return (answer ++ answers, f)

structure StandsFor (f : Forest) (count : Nat) (l : Links) : Prop where
  represents : f.Represents l.up
  size : f.semi.size = count
  semi : ∀ x, x < count → f.semiOf x = l.semi x

theorem standsFor_initial (count : Nat) : (initial count).StandsFor count .initial where
  represents := represents_initial count
  size := by simp [initial]
  semi := by
    intro x hx
    simp [initial, semiOf, Links.initial, hx]

namespace StandsFor

theorem exists_eval (h : f.StandsFor count l) {v : Nat} (hv : (l.up v).isSome = true) :
    ∃ y f', f.eval v = .ok (y, f') ∧ l.nearest v = some y ∧ f'.StandsFor count l := by
  obtain ⟨p, hp⟩ := Option.isSome_iff_exists.1 hv
  obtain ⟨y, f', c, hrun, hrep, hsemi, hc, hleast⟩ := exists_eval_ok h.represents hp
  have hsame : ∀ x q, l.up x = some q → f.semiOf x = l.semi x := fun x q hx =>
    h.semi x (h.size ▸ h.represents.lt_size x q hx)
  refine ⟨y, f', hrun, Links.nearest_of_leastOn (hleast.congr hsame) hc, hrep, ?_, ?_⟩
  · rw [hsemi, h.size]
  · rw [semiOf_congr hsemi]
    exact h.semi

theorem exists_move (h : f.StandsFor count l) (hm : l.Allows count m) :
    ∃ f', f.move m = .ok (l.answer m, f') ∧ f'.StandsFor count (l.after m) := by
  cases m with
  | assign w s =>
      obtain ⟨hw, hroot⟩ := hm
      obtain ⟨f', hrun, hrep, hsize, hat, hother⟩ :=
        exists_setSemi_ok h.represents (h.size ▸ hw) hroot s
      refine ⟨f', by simp [move, hrun, Links.answer], hrep, hsize.trans h.size, ?_⟩
      intro x hx
      by_cases hxw : x = w
      · simp [Links.after, Links.assign, hxw, hat]
      · simp [Links.after, Links.assign, hxw, hother x hxw, h.semi x hx]
  | link p w =>
      obtain ⟨hpw, hw, -, hroot⟩ := hm
      obtain ⟨f', hrun, hrep, hsemi⟩ := exists_link_ok h.represents (h.size ▸ hw) hroot hpw
      have hafter : l.after (.link p w) = l.link p w := rfl
      rw [hafter, Links.link, dif_pos hpw]
      refine ⟨f', by simp [move, hrun, Links.answer], hrep, hsemi ▸ h.size, ?_⟩
      rw [semiOf_congr hsemi]
      exact h.semi
  | query v =>
      obtain ⟨y, f', hrun, hnearest, h'⟩ := h.exists_eval hm
      exact ⟨f', by simp [move, hrun, Links.answer, hnearest], h'⟩

theorem exists_play (h : f.StandsFor count l) {moves : List Move}
    (hmoves : l.AllowsAll count moves) :
    ∃ f', f.play moves = .ok (l.answers moves, f') ∧ f'.StandsFor count (l.along moves) := by
  induction moves generalizing f l with
  | nil => exact ⟨f, rfl, h⟩
  | cons m rest ih =>
      obtain ⟨f₁, hmove, h₁⟩ := h.exists_move hmoves.1
      obtain ⟨f₂, hplay, h₂⟩ := ih h₁ hmoves.2
      exact ⟨f₂, by simp [play, hmove, hplay, Links.answers], h₂⟩

end StandsFor

/-- Every run gives the answers of the naive walk over the links.  A query finds the nearest of the
least nodes between the node and its root, and no later answer depends on whether it was made. -/
theorem queries_as_uncompressed {count : Nat} {moves : List Move}
    (h : Links.initial.AllowsAll count moves) :
    ∃ f, (initial count).play moves = .ok (Links.initial.answers moves, f) ∧
      (∀ x, x < count → f.semi[x]? = some ((Links.initial.along moves).semi x)) ∧
      ∀ v, ((Links.initial.along moves).up v).isSome = true → ∃ y f', f.eval v = .ok (y, f') ∧
        (Links.initial.along moves).nearest v = some y ∧
        (Links.initial.along moves).IsNearest v y ∧
        ∀ later, (Links.initial.along moves).AllowsAll count later → ∃ f₁ f₂,
          f.play later = .ok ((Links.initial.along moves).answers later, f₁) ∧
          f'.play later = .ok ((Links.initial.along moves).answers later, f₂) := by
  obtain ⟨f, hplay, hf⟩ := (standsFor_initial count).exists_play h
  refine ⟨f, hplay, ?_, ?_⟩
  · intro x hx
    rw [getElem?_semi (hf.size ▸ hx), hf.semi x hx]
  · intro v hv
    obtain ⟨y, f', hrun, hnearest, hf'⟩ := hf.exists_eval hv
    refine ⟨y, f', hrun, hnearest, Links.isNearest_of_nearest hnearest, ?_⟩
    intro later hlater
    obtain ⟨f₁, hplay₁, -⟩ := hf.exists_play hlater
    obtain ⟨f₂, hplay₂, -⟩ := hf'.exists_play hlater
    exact ⟨f₁, f₂, hplay₁, hplay₂⟩

/-- The middle of a chain ties with its end, and the chain gets a new top after it was shortened. -/
def tiedChain : List Move :=
  [.assign 4 2, .link 3 4, .query 4, .assign 3 2, .link 1 3, .query 4, .assign 1 0, .link 0 1]

theorem queries_as_uncompressed_tiedChain :
    Links.initial.AllowsAll 5 tiedChain ∧
    (Links.initial.along tiedChain).AllowsAll 5 [.query 3] ∧
    ∃ f f', (initial 5).play tiedChain = .ok ([4, 4], f) ∧ f.eval 4 = .ok (1, f') ∧
      ∃ f₁ f₂, f.play [.query 3] = .ok ([1], f₁) ∧ f'.play [.query 3] = .ok ([1], f₂) := by
  have hmoves : Links.initial.AllowsAll 5 tiedChain := by decide
  have hlater : (Links.initial.along tiedChain).AllowsAll 5 [.query 3] := by decide
  have hanswers : Links.initial.answers tiedChain = [4, 4] := by decide +kernel
  have hlast : (Links.initial.along tiedChain).answers [.query 3] = [1] := by decide +kernel
  have hnearest : (Links.initial.along tiedChain).nearest 4 = some 1 := by decide +kernel
  obtain ⟨f, hplay, -, hqueries⟩ := queries_as_uncompressed hmoves
  obtain ⟨y, f', hrun, hy, -, hrest⟩ := hqueries 4 (by decide)
  obtain rfl : 1 = y := by simpa [hnearest] using hy
  exact ⟨hmoves, hlater, f, f', hanswers ▸ hplay, hrun, hlast ▸ hrest _ hlater⟩

end Forest

end FlowDominance.Dominator
