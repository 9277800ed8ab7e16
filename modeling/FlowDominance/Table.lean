import FlowDominance.Value

/-!
# Tables

A table maps values to results and remembers the order in which its keys came.  Keys are compared
up to sameness; the first spelling of a key stays, with its position, whatever is stored under it
later.
-/

namespace FlowDominance

structure Table (α : Type) where
  entries : List (Value × α)
  distinct : Distinct (entries.map Prod.fst)

namespace Table

variable {α : Type}

def empty : Table α := ⟨[], .nil⟩

def keys (t : Table α) : List Value := t.entries.map Prod.fst

def size (t : Table α) : Nat := t.entries.length

def contains (t : Table α) (k : Value) : Bool := k.occursIn t.keys

def get? (t : Table α) (k : Value) : Option α :=
  (t.entries.find? (fun e => k.same e.1)).map Prod.snd

def modify (t : Table α) (k : Value) (f : α → α) : Table α where
  entries := t.entries.map (fun e => (e.1, if k.same e.1 then f e.2 else e.2))
  distinct := by simpa [Function.comp_def] using t.distinct

/-- Store `a` under `k`: in place if `k` is a key already, behind all others if not. -/
def insert (t : Table α) (k : Value) (a : α) : Table α :=
  if h : t.contains k then t.modify k (fun _ => a)
  else
    { entries := t.entries ++ [(k, a)]
      distinct := by
        simpa using distinct_append t.distinct (by simpa [contains, keys] using h) }

/-- A repeated key keeps its first position and spelling and gets its last result. -/
def ofList (entries : List (Value × α)) : Table α :=
  entries.foldl (fun t e => t.insert e.1 e.2) empty

def filter (t : Table α) (p : Value → α → Bool) : Table α where
  entries := t.entries.filter (fun e => p e.1 e.2)
  distinct := t.distinct.sublist (List.filter_sublist.map Prod.fst)

end Table

end FlowDominance
