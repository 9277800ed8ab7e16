/-!
# Values

Vertices, option values and attribute values come from one small universe: null, booleans, integers,
texts and tuples of these.  Two values are *the same* when they agree once every boolean is read as
the number 0 or 1, also inside tuples; `canon` does that reading, so sameness is an equivalence.
-/

namespace FlowDominance

inductive Value where
  | null
  | bool (b : Bool)
  | int (n : Int)
  | str (s : String)
  | tuple (items : List Value)
  deriving Repr, Inhabited

namespace Value

mutual

def decEq : (a b : Value) → Decidable (a = b)
  | .null, .null => isTrue rfl
  | .bool a, .bool b => decidable_of_iff (a = b) (by simp)
  | .int a, .int b => decidable_of_iff (a = b) (by simp)
  | .str a, .str b => decidable_of_iff (a = b) (by simp)
  | .tuple xs, .tuple ys =>
      match decEqItems xs ys with
      | isTrue h => isTrue (by rw [h])
      | isFalse h => isFalse (by simpa using h)
  | .null, .bool _ | .null, .int _ | .null, .str _ | .null, .tuple _
  | .bool _, .null | .bool _, .int _ | .bool _, .str _ | .bool _, .tuple _
  | .int _, .null | .int _, .bool _ | .int _, .str _ | .int _, .tuple _
  | .str _, .null | .str _, .bool _ | .str _, .int _ | .str _, .tuple _
  | .tuple _, .null | .tuple _, .bool _ | .tuple _, .int _ | .tuple _, .str _ =>
      isFalse (by simp)

def decEqItems : (xs ys : List Value) → Decidable (xs = ys)
  | [], [] => isTrue rfl
  | [], _ :: _ | _ :: _, [] => isFalse (by simp)
  | x :: xs, y :: ys =>
      match decEq x y, decEqItems xs ys with
      | isTrue hx, isTrue hxs => isTrue (by rw [hx, hxs])
      | isFalse hx, _ => isFalse (by simp [hx])
      | _, isFalse hxs => isFalse (by simp [hxs])

end

instance : DecidableEq Value := decEq

/-! ## Sameness -/

mutual

/-- The value with every boolean read as 0 or 1. -/
def canon : Value → Value
  | .bool b => .int (if b then 1 else 0)
  | .tuple items => .tuple (canonItems items)
  | .null => .null
  | .int n => .int n
  | .str s => .str s

def canonItems : List Value → List Value
  | [] => []
  | v :: rest => v.canon :: canonItems rest

end

def same (a b : Value) : Bool := decide (a.canon = b.canon)

theorem same_iff {a b : Value} : a.same b = true ↔ a.canon = b.canon := by
  simp [same]

@[simp] theorem same_refl (a : Value) : a.same a = true := by
  simp [same]

theorem same_symm {a b : Value} (h : a.same b = true) : b.same a = true := by
  rw [same_iff] at h ⊢
  exact h.symm

theorem same_trans {a b c : Value} (hab : a.same b = true) (hbc : b.same c = true) :
    a.same c = true := by
  rw [same_iff] at hab hbc ⊢
  exact hab.trans hbc

/-- Null stands for the absence of a value wherever one may be missing. -/
def present? : Value → Option Value
  | .null => none
  | v => some v

def ofOption : Option Value → Value
  | none => .null
  | some v => v

def occursIn (v : Value) (vs : List Value) : Bool := vs.any v.same

def firsts : List Value → List Value
  | [] => []
  | v :: rest => v :: (firsts rest).filter (fun w => !v.same w)

/-- The distinct values of the list, each as often as it occurs. -/
def grouped (vs : List Value) : List Value :=
  (firsts vs).flatMap fun v => List.replicate (vs.countP v.same) v

end Value

/-! ## Distinct values -/

def Distinct (vs : List Value) : Prop := vs.Pairwise (fun a b => a.same b = false)

theorem distinct_firsts (vs : List Value) : Distinct (Value.firsts vs) := by
  induction vs with
  | nil => exact .nil
  | cons v rest ih =>
      refine .cons ?_ (ih.sublist List.filter_sublist)
      intro w hw
      simpa using (List.mem_filter.1 hw).2

theorem distinct_append {vs : List Value} {v : Value} (h : Distinct vs)
    (hv : v.occursIn vs = false) : Distinct (vs ++ [v]) := by
  refine List.pairwise_append.2 ⟨h, List.pairwise_singleton .., ?_⟩
  intro a ha b hb
  rw [List.mem_singleton.1 hb]
  have hva : v.same a = false := by
    simpa using List.any_eq_false.1 hv a ha
  rw [Bool.eq_false_iff] at hva ⊢
  exact fun h => hva (Value.same_symm h)

end FlowDominance
