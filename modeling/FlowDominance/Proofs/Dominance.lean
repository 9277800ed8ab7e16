import Mathlib

/-!
# Dominance along a relation

`Through r P a b` says that some path along `r` leads from `a` to `b` and that all its vertices, both
ends included, satisfy `P`.  With respect to a root, a vertex dominates another if no path from the
root to the other avoids it.
-/

namespace FlowDominance

variable {α β : Type} {r : α → α → Prop} {P Q : α → Prop} {root a b c d e u v : α}

/-! ## Paths inside a set -/

inductive Through (r : α → α → Prop) (P : α → Prop) (a : α) : α → Prop
  | refl : P a → Through r P a a
  | step {b c : α} : Through r P a b → r b c → P c → Through r P a c

abbrev Reaches (r : α → α → Prop) (a b : α) : Prop := Through r (fun _ => True) a b

namespace Through

theorem left (h : Through r P a b) : P a := by
  induction h with
  | refl ha => exact ha
  | step _ _ _ ih => exact ih

theorem right (h : Through r P a b) : P b := by
  cases h with
  | refl ha => exact ha
  | step _ _ hb => exact hb

theorem mono (hPQ : ∀ x, P x → Q x) (h : Through r P a b) : Through r Q a b := by
  induction h with
  | refl ha => exact .refl (hPQ _ ha)
  | step _ hr hc ih => exact ih.step hr (hPQ _ hc)

theorem trans (hab : Through r P a b) (hbc : Through r P b c) : Through r P a c := by
  induction hbc with
  | refl _ => exact hab
  | step _ hr hc ih => exact ih.step hr hc

theorem head (ha : P a) (hr : r a b) (h : Through r P b c) : Through r P a c :=
  ((refl ha).step hr h.left).trans h

theorem hits (h : Through r P a b) (he : ¬Through r (· ≠ e) a b) : Through r P a e := by
  induction h with
  | refl ha =>
      have : a = e := by
        by_contra hne
        exact he (.refl hne)
      exact this ▸ .refl ha
  | @step b c hab hr hc ih =>
      by_cases hb : Through r (· ≠ e) a b
      · have : c = e := by
          by_contra hne
          exact he (hb.step hr hne)
        exact this ▸ hab.step hr hc
      · exact ih hb

/-- Edges from a vertex to itself and edges out of what `a` does not reach are never needed. -/
theorem of_live {s : α → α → Prop} (h : Through r P a b)
    (hlive : ∀ x y, x ≠ y → Reaches r a x → r x y → s x y) : Through s P a b := by
  induction h with
  | refl ha => exact .refl ha
  | @step b c hab hr hc ih =>
      by_cases hbc : b = c
      · exact hbc ▸ ih
      · exact ih.step (hlive b c hbc (hab.mono fun _ _ => trivial) hr) hc

theorem turned (h : Through r P a b) : Through (flip r) P b a := by
  induction h with
  | refl ha => exact .refl ha
  | step _ hr hc ih => exact ih.head hc hr

end Through

theorem through_flip : Through (flip r) P b a ↔ Through r P a b :=
  ⟨Through.turned, Through.turned⟩

/-! ## Dominators -/

def Dominates (r : α → α → Prop) (root d v : α) : Prop := ¬Through r (· ≠ d) root v

theorem dominates_self : Dominates r root v v := fun h => h.right rfl

theorem dominates_flip : Dominates (flip r) b d a ↔ Dominates r a d b :=
  not_congr through_flip

namespace Dominates

theorem reaches (h : Dominates r root d v) (hv : Reaches r root v) : Reaches r root d :=
  hv.hits h

theorem trans (hde : Dominates r root d e) (hev : Dominates r root e v) :
    Dominates r root d v := fun h => hde (h.hits hev)

theorem of_edge (h : Dominates r root d v) (hne : v ≠ d) (hr : r u v) :
    Dominates r root d u := fun hu => h (hu.step hr hne)

theorem antisymm (hdv : Dominates r root d v) (hvd : Dominates r root v d)
    (hv : Reaches r root v) : d = v := by
  by_contra hne
  have havoid : ∀ x, Reaches r root x → Through r (fun y => y ≠ d ∧ y ≠ v) root x := by
    intro x hx
    induction hx with
    | refl _ =>
        refine .refl ⟨?_, ?_⟩
        · rintro rfl
          exact hvd (.refl hne)
        · rintro rfl
          exact hdv (.refl (Ne.symm hne))
    | @step b c _ hr _ ih =>
        refine ih.step hr ⟨?_, ?_⟩
        · rintro rfl
          exact hvd ((ih.mono fun _ h => h.2).step hr hne)
        · rintro rfl
          exact hdv ((ih.mono fun _ h => h.1).step hr (Ne.symm hne))
  exact (havoid v hv).right.2 rfl

end Dominates

/-- The strict dominator of `v` that all its strict dominators dominate. -/
structure ImmediateDominator (r : α → α → Prop) (root d v : α) : Prop where
  ne : d ≠ v
  dominates : Dominates r root d v
  closest : ∀ u, u ≠ v → Dominates r root u v → Dominates r root u d

theorem ImmediateDominator.unique (hd : ImmediateDominator r root d v)
    (he : ImmediateDominator r root e v) (hv : Reaches r root v) : d = e :=
  (he.closest d hd.ne hd.dominates).antisymm (hd.closest e he.ne he.dominates)
    (he.dominates.reaches hv)

/-! ## Relabelling

The part of a graph that the root reaches may be given other labels.  Labels are taken from a set
`D`; each stands for one vertex, and every edge out of a labelled vertex leads to a labelled one. -/

def relabel (r : α → α → Prop) (f : β → α) (D : β → Prop) (x y : β) : Prop :=
  D x ∧ D y ∧ r (f x) (f y)

theorem through_labelled_iff {f : β → α} {D : β → Prop} {start y : β}
    (hinj : ∀ x y, D x → D y → f x = f y → x = y) (hstart : D start) (hy : D y) :
    Through r (fun b => ∃ x, D x ∧ f x = b) (f start) (f y) ↔
      Reaches (relabel r f D) start y := by
  constructor
  · intro hthrough
    have hlabel : ∀ b, Through r (fun b => ∃ x, D x ∧ f x = b) (f start) b →
        ∃ x, D x ∧ f x = b ∧ Reaches (relabel r f D) start x := by
      intro b hb
      induction hb with
      | refl _ => exact ⟨start, hstart, rfl, .refl trivial⟩
      | step _ hr hc ih =>
          obtain ⟨x, hx, rfl, hpath⟩ := ih
          obtain ⟨z, hz, rfl⟩ := hc
          exact ⟨z, hz, rfl, hpath.step ⟨hx, hz, hr⟩ trivial⟩
    obtain ⟨x, hx, heq, hpath⟩ := hlabel (f y) hthrough
    exact hinj x y hx hy heq ▸ hpath
  · intro hreach
    induction hreach with
    | refl _ => exact .refl ⟨start, hstart, rfl⟩
    | @step x z _ hr _ ih => exact (ih hr.1).step hr.2.2 ⟨z, hr.2.1, rfl⟩

structure Relabelling (r : α → α → Prop) (root : α) (f : β → α) (D : β → Prop) (start : β) :
    Prop where
  start_mem : D start
  start_eq : f start = root
  injective : ∀ x y, D x → D y → f x = f y → x = y
  closed : ∀ x b, D x → r (f x) b → ∃ y, D y ∧ f y = b

namespace Relabelling

variable {f : β → α} {D : β → Prop} {start x y : β}

theorem through_iff (h : Relabelling r root f D start) (hy : D y) :
    Through r P root (f y) ↔ Through (relabel r f D) (fun x => P (f x)) start y := by
  constructor
  · intro hthrough
    have hlabel : ∀ b, Through r P root b →
        ∃ x, D x ∧ f x = b ∧ Through (relabel r f D) (fun x => P (f x)) start x := by
      intro b hb
      induction hb with
      | refl hroot =>
          exact ⟨start, h.start_mem, h.start_eq, .refl (by simpa [h.start_eq] using hroot)⟩
      | @step b c _ hr hc ih =>
          obtain ⟨x, hx, rfl, hpath⟩ := ih
          obtain ⟨z, hz, rfl⟩ := h.closed x c hx hr
          exact ⟨z, hz, rfl, hpath.step ⟨hx, hz, hr⟩ hc⟩
    obtain ⟨x, hx, heq, hpath⟩ := hlabel (f y) hthrough
    exact h.injective x y hx hy heq ▸ hpath
  · intro hthrough
    induction hthrough with
    | refl hstart => exact h.start_eq ▸ .refl hstart
    | step _ hr hc ih => exact (ih hr.1).step hr.2.2 hc

theorem reaches_iff (h : Relabelling r root f D start) (hy : D y) :
    Reaches r root (f y) ↔ Reaches (relabel r f D) start y := h.through_iff hy

theorem exists_label (h : Relabelling r root f D start) (hb : Reaches r root b) :
    ∃ x, D x ∧ f x = b := by
  induction hb with
  | refl _ => exact ⟨start, h.start_mem, h.start_eq⟩
  | step _ hr _ ih =>
      obtain ⟨x, hx, rfl⟩ := ih
      exact h.closed x _ hx hr

theorem dominates_iff (h : Relabelling r root f D start) (hx : D x) (hy : D y) :
    Dominates r root (f x) (f y) ↔ Dominates (relabel r f D) start x y := by
  unfold Dominates
  rw [h.through_iff hy, not_iff_not]
  constructor
  · exact Through.mono fun z hz heq => hz (heq ▸ rfl)
  · intro hthrough
    have hlabelled : Through (relabel r f D) (fun z => D z ∧ z ≠ x) start y := by
      induction hthrough with
      | refl hne => exact .refl ⟨h.start_mem, hne⟩
      | step _ hr hne ih => exact (ih hr.1).step hr ⟨hr.2.1, hne⟩
    exact hlabelled.mono fun z hz heq => hz.2 (h.injective z x hz.1 hx heq)

theorem immediateDominator (h : Relabelling r root f D start) (hx : D x) (hy : D y)
    (hreach : Reaches r root (f y)) (hidom : ImmediateDominator (relabel r f D) start x y) :
    ImmediateDominator r root (f x) (f y) := by
  refine ⟨fun heq => hidom.ne (h.injective x y hx hy heq),
    (h.dominates_iff hx hy).2 hidom.dominates, ?_⟩
  intro u hu hdom
  obtain ⟨z, hz, rfl⟩ := h.exists_label (hdom.reaches hreach)
  have hzy : z ≠ y := fun heq => hu (heq ▸ rfl)
  have hzx := hidom.closest z hzy ((h.dominates_iff hz hy).1 hdom)
  exact (h.dominates_iff hz hx).2 hzx

end Relabelling

end FlowDominance
