import FlowDominance.Change
import FlowDominance.Slots
import Mathlib

/-!
# Computations without faults

What it takes for reads, writes, folds and changes to come to an end without a fault, and what they
then come to.
-/

namespace FlowDominance

variable {α β : Type}

@[simp] theorem ok_bind (a : α) (f : α → Except Fault β) : (Except.ok a >>= f) = f a := rfl

@[simp] theorem error_bind (fault : Fault) (f : α → Except Fault β) :
    ((Except.error fault : Except Fault α) >>= f) = .error fault := rfl

@[simp] theorem pure_eq_ok (a : α) : (pure a : Except Fault α) = .ok a := rfl

@[simp] theorem discard_ok (a : α) : discard (Except.ok a : Except Fault α) = .ok () := rfl

theorem bind_eq_ok_iff {x : Except Fault α} {f : α → Except Fault β} {b : β} :
    (x >>= f) = .ok b ↔ ∃ a, x = .ok a ∧ f a = .ok b := by
  cases x with
  | error fault => simp
  | ok a => simp

/-! ## Lists -/

theorem mapM_eq_pure {m : Type → Type} [Monad m] [LawfulMonad m] {xs : List α} {f : α → m β}
    {g : α → β} (h : ∀ x ∈ xs, f x = pure (g x)) : xs.mapM f = pure (xs.map g) := by
  induction xs with
  | nil => simp
  | cons x xs ih =>
      have hxs := ih fun y hy => h y (by simp [hy])
      simp [List.mapM_cons, h x (by simp), hxs]

theorem mapM_eq_ok {xs : List α} {f : α → Except Fault β} {g : α → β}
    (h : ∀ x ∈ xs, f x = .ok (g x)) : xs.mapM f = .ok (xs.map g) := mapM_eq_pure h

theorem exists_mapM_ok (xs : List α) {f : α → Except Fault β} (Q : α → β → Prop)
    (h : ∀ x ∈ xs, ∃ y, f x = .ok y ∧ Q x y) : ∃ ys, xs.mapM f = .ok ys ∧ List.Forall₂ Q xs ys := by
  induction xs with
  | nil => exact ⟨[], rfl, .nil⟩
  | cons x xs ih =>
      obtain ⟨y, hy, hxy⟩ := h x (by simp)
      obtain ⟨ys, hys, hall⟩ := ih fun z hz => h z (by simp [hz])
      exact ⟨y :: ys, by simp [List.mapM_cons, hy, hys], .cons hxy hall⟩

theorem mapM_cases (xs : List α) (f : α → Except Fault β) :
    (∀ x ∈ xs, ∃ y, f x = .ok y) ∨
      ∃ x ∈ xs, ∃ fault, f x = .error fault ∧ xs.mapM f = .error fault := by
  induction xs with
  | nil => exact .inl (by simp)
  | cons x xs ih =>
      cases hx : f x with
      | error fault => exact .inr ⟨x, by simp, fault, hx, by simp [List.mapM_cons, hx]⟩
      | ok y =>
          cases ih with
          | inl hall => exact .inl (by simpa [hx] using hall)
          | inr hfault =>
              obtain ⟨z, hz, fault, hf, hrun⟩ := hfault
              exact .inr ⟨z, by simp [hz], fault, hf, by simp [List.mapM_cons, hx, hrun]⟩

/-- A fold keeps an invariant of the part of the list that it has gone through. -/
theorem exists_foldlM_ok {f : β → α → Except Fault β} (I : List α → β → Prop) (xs : List α)
    {b : β} (hinit : I [] b)
    (hstep : ∀ done x rest b, xs = done ++ x :: rest → I done b →
      ∃ b', f b x = .ok b' ∧ I (done ++ [x]) b') :
    ∃ b', xs.foldlM f b = .ok b' ∧ I xs b' := by
  have hrun : ∀ rest done b, xs = done ++ rest → I done b →
      ∃ b', rest.foldlM f b = .ok b' ∧ I xs b' := by
    intro rest
    induction rest with
    | nil =>
        intro done b hxs hdone
        rw [List.append_nil] at hxs
        exact ⟨b, rfl, hxs ▸ hdone⟩
    | cons x rest ih =>
        intro done b hxs hdone
        obtain ⟨b', hf, hdone'⟩ := hstep done x rest b hxs hdone
        obtain ⟨b'', hrest, hall⟩ := ih (done ++ [x]) b' (by simp [hxs]) hdone'
        exact ⟨b'', by rw [List.foldlM_cons, hf, ok_bind, hrest], hall⟩
  exact hrun xs [] b rfl hinit

theorem foldlM_keeps {f : β → α → Except Fault β} {P : β → Prop} {xs : List α} {b b' : β}
    (hstep : ∀ b x b', x ∈ xs → f b x = .ok b' → P b → P b') (h : xs.foldlM f b = .ok b')
    (hb : P b) : P b' := by
  induction xs generalizing b with
  | nil =>
      have heq : b = b' := Except.ok.inj h
      exact heq ▸ hb
  | cons x xs ih =>
      rw [List.foldlM_cons, bind_eq_ok_iff] at h
      obtain ⟨next, hnext, hrest⟩ := h
      have hkept := hstep b x next (by simp) hnext hb
      exact ih (fun b y b' hy => hstep b y b' (by simp [hy])) hrest hkept

theorem exists_foldlM_range'_ok {f : β → Nat → Except Fault β} (I : Nat → β → Prop)
    (start count : Nat) {b : β} (hinit : I start b)
    (hstep : ∀ i b, start ≤ i → i < start + count → I i b → ∃ b', f b i = .ok b' ∧ I (i + 1) b') :
    ∃ b', (List.range' start count).foldlM f b = .ok b' ∧ I (start + count) b' := by
  induction count generalizing start b with
  | zero => exact ⟨b, rfl, hinit⟩
  | succ count ih =>
      obtain ⟨b', hf, hnext⟩ := hstep start b (Nat.le_refl start) (by omega) hinit
      obtain ⟨b'', hrest, hall⟩ := ih (start + 1) hnext
        fun i b hle hlt => hstep i b (by omega) (by omega)
      refine ⟨b'', ?_, by rwa [show start + (count + 1) = start + 1 + count by omega]⟩
      rw [List.range'_succ, List.foldlM_cons, hf, ok_bind, hrest]

/-! ## Slots -/

namespace Slots

variable {xs ys : Array α} {i j : Nat} {a : α}

theorem read_eq_ok_iff : read xs i = .ok a ↔ xs[i]? = some a := by
  unfold read
  cases xs[i]? with
  | none => simp
  | some b => simp

theorem read_eq_ok (h : xs[i]? = some a) : read xs i = .ok a := read_eq_ok_iff.2 h

theorem readFilled_eq_ok {xs : Array (Option α)} (h : xs[i]? = some (some a)) :
    readFilled xs i = .ok a := by
  simp [readFilled, read_eq_ok h]

theorem of_write_eq_ok (h : write xs i a = .ok ys) : i < xs.size ∧ ys.size = xs.size ∧
    ys[i]? = some a ∧ ∀ j, j ≠ i → ys[j]? = xs[j]? := by
  unfold write at h
  split at h
  · rename_i hi
    obtain rfl := Except.ok.inj h
    exact ⟨hi, by simp, by simp, fun j hne => Array.getElem?_set_ne hi (Ne.symm hne)⟩
  · contradiction

theorem exists_write_ok (xs : Array α) (a : α) (h : i < xs.size) :
    ∃ ys, write xs i a = .ok ys ∧ ys.size = xs.size ∧ ys[i]? = some a ∧
      ∀ j, j ≠ i → ys[j]? = xs[j]? := by
  have hrun : write xs i a = .ok (xs.set i a h) := by simp [write, h]
  exact ⟨_, hrun, (of_write_eq_ok hrun).2⟩

theorem mapM_read_ok {xs : Array (Option α)} {row : List Nat} (h : ∀ u ∈ row, u < xs.size) :
    ((row.map Except.ok : List (Except Fault Nat)).mapM fun link => do read xs (← link)) =
      .ok (row.map fun u => xs[u]?.join) := by
  rw [List.mapM_map]
  refine mapM_eq_ok fun u hu => ?_
  simp [read_eq_ok (Array.getElem?_eq_getElem (h u hu)), h u hu]

theorem exists_mapM_read_error {xs : Array (Option α)} {links : List (Except Fault Nat)}
    {fault : Fault} (hlt : ∀ i, Except.ok i ∈ links → i < xs.size)
    (hfault : Except.error fault ∈ links) : ∃ fault', Except.error fault' ∈ links ∧
      (links.mapM fun link => do read xs (← link)) = .error fault' := by
  rcases mapM_cases links (fun link => do read xs (← link)) with hall | ⟨link, hlink, fault', hread, hrun⟩
  · obtain ⟨y, hy⟩ := hall _ hfault
    simp at hy
  · cases link with
    | error fault₁ =>
        cases hread
        exact ⟨fault', hlink, hrun⟩
    | ok i => simp [read_eq_ok (Array.getElem?_eq_getElem (hlt i hlink))] at hread

theorem mem_filled_iff {xs : Array (Option α)} {row : List Nat} :
    a ∈ (row.map fun u => xs[u]?.join).filterMap id ↔ ∃ u ∈ row, xs[u]? = some (some a) := by
  simp [List.mem_filterMap, Option.join_eq_some_iff]

end Slots

/-! ## Changes -/

namespace Change

variable {σ α β : Type} {c : Change σ α} {f : α → Change σ β} {s t : σ} {a : α} {fault : Fault}

@[simp] theorem apply_pure (a : α) (s : σ) : (pure a : Change σ α).apply s = (.ok a, s) := rfl

@[simp] theorem apply_lift (r : Except Fault α) (s : σ) :
    (lift r : Change σ α).apply s = (r, s) := rfl

@[simp] theorem apply_get (s : σ) : (get : Change σ σ).apply s = (.ok s, s) := rfl

@[simp] theorem apply_modify (f : σ → σ) (s : σ) :
    (modify f : Change σ PUnit).apply s = (.ok ⟨⟩, f s) := rfl

theorem apply_mk (run : StateM σ (Except Fault α)) (s : σ) :
    apply (ExceptT.mk run) s = run s := rfl

theorem apply_bind_ok (h : c.apply s = (.ok a, t)) : (c >>= f).apply s = (f a).apply t := by
  unfold apply at h ⊢
  rw [ExceptT.run_bind, StateT.run_bind, h]
  rfl

theorem apply_bind_error (h : c.apply s = (.error fault, t)) :
    (c >>= f).apply s = (.error fault, t) := by
  unfold apply at h ⊢
  rw [ExceptT.run_bind, StateT.run_bind, h]
  rfl

theorem apply_map {f : α → β} {o : Except Fault α} (h : c.apply s = (o, t)) :
    (f <$> c).apply s = (o.map f, t) := by
  unfold apply at h ⊢
  rw [ExceptT.run_map, StateT.run_map, h]
  rfl

theorem outcome_map (f : α → β) (c : Change σ α) (s : σ) :
    ((f <$> c).apply s).1 = (c.apply s).1.map f := congrArg Prod.fst (apply_map rfl)

theorem apply_discard {o : Except Fault α} (h : c.apply s = (o, t)) :
    (discard c).apply s = (o.map fun _ => (), t) := apply_map h

theorem apply_lift_bind_ok {r : Except Fault α} (h : r = .ok a) :
    (lift r >>= f).apply s = (f a).apply s := apply_bind_ok (by rw [apply_lift, h])

theorem apply_lift_bind_error {r : Except Fault α} (h : r = .error fault) :
    (lift r >>= f).apply s = (.error fault, s) := apply_bind_error (by rw [apply_lift, h])

end Change

end FlowDominance
