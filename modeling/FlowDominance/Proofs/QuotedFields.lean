import FlowDominance.Dot.Field
import Mathlib

/-!
# Reading quoted fields

A reader of a quoted field lets a backslash take the next character along and stops at the first
quote that is not taken.  As the backslash itself is not escaped, it may take a quote that should
have ended the field, and it may make two texts look alike; both are told exactly here.
-/

namespace FlowDominance.Dot

variable {s t raw left : List Char} {c : Char} {taken : Bool}

/-! ## Where a field ends -/

/-- The text up to the first quote that no backslash takes along, and what is behind that quote;
`taken` tells whether a backslash takes the first character. -/
def readRaw : Bool → List Char → Option (List Char × List Char)
  | _, [] => none
  | taken, c :: rest =>
      if c = '\x22' ∧ taken = false then some ([], rest)
      else (readRaw (c = '\\' && !taken) rest).map fun r => (c :: r.1, r.2)

def readField : List Char → Option (List Char × List Char)
  | [] => none
  | c :: rest => if c = '\x22' then readRaw false rest else none

def delimits : Bool → List Char → Bool
  | taken, [] => !taken
  | taken, c :: rest => !(taken && c = '\x22') && delimits (c = '\\' && !taken) rest

theorem eq_append_of_readRaw (h : readRaw taken t = some (raw, left)) :
    t = raw ++ '\x22' :: left := by
  induction t generalizing taken raw with
  | nil => simp [readRaw] at h
  | cons c rest ih =>
      rw [readRaw] at h
      split at h
      · simp_all
      · obtain ⟨⟨raw', left'⟩, hrest, heq⟩ := Option.map_eq_some_iff.1 h
        simp only [Prod.mk.injEq] at heq
        obtain ⟨rfl, rfl⟩ := heq
        simp [ih hrest]

theorem readRaw_escapedChars_iff : readRaw taken (escapedChars s ++ '\x22' :: t) =
    some (escapedChars s, t) ↔ delimits taken s = true := by
  induction s generalizing taken with
  | nil => cases taken <;> simp [escapedChars, readRaw, delimits]
  | cons c s ih =>
      simp only [escapedChars, List.flatMap_cons] at ih ⊢
      rcases eq_or_ne c '\n' with rfl | hnewline
      · cases taken <;> simp [escapedChar, readRaw, delimits, ← ih]
      rcases eq_or_ne c '\t' with rfl | htab
      · cases taken <;> simp [escapedChar, readRaw, delimits, ← ih]
      rcases eq_or_ne c '\x22' with rfl | hquote
      · cases taken <;> simp [escapedChar, readRaw, delimits, ← ih]
      · simp [escapedChar, hnewline, htab, hquote, readRaw, delimits, ← ih]

def slashes (s : List Char) : Nat := (s.rtakeWhile (· = '\\')).length

/-- Every run of backslashes before a quote or at the end has an even length. -/
def Guarded (s : List Char) : Prop :=
  ∀ before after, s = before ++ after → after = [] ∨ after.head? = some '\x22' →
    Even (slashes before)

@[simp] theorem slashes_concat (s : List Char) (c : Char) :
    slashes (s ++ [c]) = if c = '\\' then slashes s + 1 else 0 := by
  by_cases h : c = '\\' <;> simp [slashes, h]

theorem delimits_iff (done : List Char) : delimits (decide (Odd (slashes done))) s = true ↔
    ∀ before after, s = before ++ after → after = [] ∨ after.head? = some '\x22' →
      Even (slashes (done ++ before)) := by
  induction s generalizing done with
  | nil => simp [delimits]
  | cons c s ih =>
      have htaken : (decide (c = '\\') && !decide (Odd (slashes done))) =
          decide (Odd (slashes (done ++ [c]))) := by
        by_cases hc : c = '\\' <;> simp [hc, Nat.odd_add_one, ← Nat.not_even_iff_odd]
      rw [delimits, htaken, Bool.and_eq_true, ih]
      constructor
      · rintro ⟨hquote, hrest⟩ before after heq hend
        cases before with
        | nil =>
            obtain rfl : after = c :: s := heq.symm
            have hc : c = '\x22' := by simpa using hend
            simpa [hc] using hquote
        | cons d before =>
            obtain ⟨rfl, rfl⟩ := List.cons.inj heq
            simpa using hrest before after rfl hend
      · intro hall
        refine ⟨?_, ?_⟩
        · by_cases hc : c = '\x22'
          · simpa [hc] using hall [] (c :: s) rfl (by simp [hc])
          · simp [hc]
        · intro before after heq hend
          simpa using hall (c :: before) after (by simp [heq]) hend

theorem readField_field_iff (s : String) (t : List Char) :
    readField (field s ++ t) = some (escapedChars s.toList, t) ↔ Guarded s.toList := by
  have hguarded : delimits false s.toList = true ↔ Guarded s.toList := by
    simpa [slashes, Guarded] using delimits_iff (s := s.toList) []
  rw [← hguarded, ← readRaw_escapedChars_iff (t := t)]
  simp [readField, field]

theorem exists_readField_iff (s : String) (t : List Char) :
    (∃ raw, readField (field s ++ t) = some (raw, t)) ↔ Guarded s.toList := by
  rw [← readField_field_iff s t]
  constructor
  · rintro ⟨raw, hraw⟩
    have hread : readRaw false (escapedChars s.toList ++ '\x22' :: t) = some (raw, t) := by
      simpa [readField, field] using hraw
    obtain rfl := List.append_cancel_right (eq_append_of_readRaw hread)
    exact hraw
  · exact fun h => ⟨_, h⟩

/-! ## Which texts look alike -/

def meaning? (c : Char) : Option Char :=
  if c = 'n' then some '\n'
  else if c = 't' then some '\t'
  else if c = '\x22' then some '\x22'
  else none

def unescaped : List Char → List Char
  | c :: d :: rest =>
      match (if c = '\\' then meaning? d else none) with
      | some e => e :: unescaped rest
      | none => c :: unescaped (d :: rest)
  | s => s

def Unspelled (s : List Char) : Prop := s.IsChain fun c d => ¬(c = '\\' ∧ (d = 'n' ∨ d = 't'))

theorem meaning?_cases {d e : Char} (h : meaning? d = some e) :
    d = 'n' ∧ e = '\n' ∨ d = 't' ∧ e = '\t' ∨ d = '\x22' ∧ e = '\x22' := by
  unfold meaning? at h
  split_ifs at h <;> cases h <;> simp_all

theorem unescaped_plain (h : c ≠ '\\') (s : List Char) :
    unescaped (c :: s) = c :: unescaped s := by
  cases s <;> simp [unescaped, h]

theorem unescaped_pair {d e : Char} (h : meaning? d = some e) (s : List Char) :
    unescaped ('\\' :: d :: s) = e :: unescaped s := by
  simp [unescaped, h]

theorem unescaped_slash (h : ∀ d ∈ s.head?, meaning? d = none) :
    unescaped ('\\' :: s) = '\\' :: unescaped s := by
  cases s with
  | nil => simp [unescaped]
  | cons d s => simp [unescaped, h d rfl]

theorem escapedChar_cases (c : Char) :
    (∃ d, escapedChar c = ['\\', d] ∧ meaning? d = some c) ∨
      (escapedChar c = [c] ∧ c ≠ '\x22') := by
  unfold escapedChar
  split_ifs with hnewline htab hquote
  · exact .inl ⟨'n', rfl, by simp [meaning?, hnewline]⟩
  · exact .inl ⟨'t', rfl, by simp [meaning?, htab]⟩
  · exact .inl ⟨'\x22', rfl, by simp [meaning?, hquote]⟩
  · exact .inr ⟨rfl, hquote⟩

@[simp] theorem escapedChars_cons (c : Char) (s : List Char) :
    escapedChars (c :: s) = escapedChar c ++ escapedChars s := rfl

theorem escapedChar_of_meaning {d e : Char} (h : meaning? d = some e) :
    escapedChar e = ['\\', d] := by
  rcases meaning?_cases h with ⟨rfl, rfl⟩ | ⟨rfl, rfl⟩ | ⟨rfl, rfl⟩ <;> rfl

theorem head_escapedChars {d : Char} (h : d ∈ (escapedChars s).head?) :
    d = '\\' ∨ s.head? = some d ∧ d ≠ '\x22' := by
  cases s with
  | nil => simp [escapedChars] at h
  | cons c s =>
      rcases escapedChar_cases c with ⟨e, hesc, -⟩ | ⟨hesc, hquote⟩
      · exact .inl (by simpa [hesc, eq_comm] using h)
      · obtain rfl : c = d := by simpa [hesc] using h
        exact .inr ⟨rfl, hquote⟩

theorem unescaped_escapedChars (h : Unspelled s) : unescaped (escapedChars s) = s := by
  induction s with
  | nil => rfl
  | cons c s ih =>
      obtain ⟨hhead, hrest⟩ := List.isChain_cons.1 h
      rw [escapedChars_cons]
      rcases escapedChar_cases c with ⟨d, hesc, hd⟩ | ⟨hesc, -⟩
      · rw [hesc, List.cons_append, List.singleton_append, unescaped_pair hd, ih hrest]
      · rw [hesc, List.singleton_append]
        by_cases hslash : c = '\\'
        · subst hslash
          rw [unescaped_slash, ih hrest]
          intro d hd
          rcases head_escapedChars hd with rfl | ⟨hs, hquote⟩
          · decide
          · have := hhead d hs
            simp_all [meaning?]
        · rw [unescaped_plain hslash, ih hrest]

theorem behind_slash_cases (s : List Char) :
    (∀ d ∈ (escapedChars s).head?, meaning? d = none) ∨
      ∃ d e rest, s = d :: rest ∧ escapedChar d = [d] ∧ meaning? d = some e := by
  by_cases hnone : ∀ d ∈ (escapedChars s).head?, meaning? d = none
  · exact .inl hnone
  push Not at hnone
  obtain ⟨d, hd, hsome⟩ := hnone
  obtain ⟨e, he⟩ := Option.ne_none_iff_exists'.1 hsome
  rcases head_escapedChars hd with rfl | ⟨hhead, hquote⟩
  · contradiction
  · obtain ⟨rest, rfl⟩ := List.head?_eq_some_iff.1 hhead
    refine .inr ⟨d, e, rest, rfl, ?_, he⟩
    rcases meaning?_cases he with ⟨rfl, -⟩ | ⟨rfl, -⟩ | ⟨rfl, -⟩
    · rfl
    · rfl
    · contradiction

theorem escapedChars_unescaped (s : List Char) :
    escapedChars (unescaped (escapedChars s)) = escapedChars s := by
  -- a backslash may be read together with the character behind it, so one step is not enough
  induction hlen : s.length using Nat.strong_induction_on generalizing s with
  | _ n ih =>
      subst hlen
      cases s with
      | nil => rfl
      | cons c s =>
          have hs := ih s.length (by simp) s rfl
          rcases escapedChar_cases c with ⟨d, hesc, hd⟩ | ⟨hesc, -⟩
          · simp [hesc, unescaped_pair hd, hs]
          by_cases hslash : c = '\\'
          · subst hslash
            rcases behind_slash_cases s with hnone | ⟨d, e, rest, rfl, hplain, he⟩
            · simp [hesc, unescaped_slash hnone, hs]
            · simp [hesc, hplain, unescaped_pair he, escapedChar_of_meaning he,
                ih rest.length (by simp) rest rfl]
          · simp [hesc, unescaped_plain hslash, hs]

theorem head_unescaped {d : Char} (hd : d ∈ (unescaped s).head?) (hnt : d = 'n' ∨ d = 't') :
    s.head? = some d := by
  fun_cases unescaped s with
  | case1 c x rest e he =>
      obtain rfl : e = d := by simpa [unescaped, he] using hd
      have hmeans : meaning? x = some e := (Option.ite_none_right_eq_some.1 he).2
      rcases meaning?_cases hmeans with ⟨-, rfl⟩ | ⟨-, rfl⟩ | ⟨-, rfl⟩ <;> simp at hnt
  | case2 c x rest hnone => simpa [unescaped, hnone] using hd
  | case3 s hs => rw [unescaped] at hd <;> assumption

theorem unspelled_unescaped (s : List Char) : Unspelled (unescaped s) := by
  fun_induction unescaped s with
  | case1 c d rest e he ih =>
      have hmeans : meaning? d = some e := (Option.ite_none_right_eq_some.1 he).2
      refine List.isChain_cons.2 ⟨?_, ih⟩
      rintro y - ⟨rfl, -⟩
      rcases meaning?_cases hmeans with ⟨-, h⟩ | ⟨-, h⟩ | ⟨-, h⟩ <;> simp at h
  | case2 c d rest hnone ih =>
      refine List.isChain_cons.2 ⟨?_, ih⟩
      rintro y hy ⟨rfl, hnt⟩
      obtain rfl : d = y := by simpa using head_unescaped hy hnt
      rcases hnt with rfl | rfl <;> simp [meaning?] at hnone
  | case3 s hs =>
      rcases s with _ | ⟨c, _ | ⟨d, rest⟩⟩
      · exact .nil
      · exact .singleton c
      · exact (hs c d rest rfl).elim

/-! ## Texts without backslashes -/

theorem guarded_of_not_mem (h : '\\' ∉ s) : Guarded s := by
  rintro before after rfl -
  have hrun : before.rtakeWhile (· = '\\') = [] := by
    rw [List.rtakeWhile_eq_nil_iff]
    intro hne hlast
    have hmem := List.getLast_mem hne
    simp_all
  simp [slashes, hrun]

theorem unspelled_of_not_mem (h : '\\' ∉ s) : Unspelled s := by
  induction s with
  | nil => exact .nil
  | cons c s ih =>
      rw [List.mem_cons, not_or] at h
      exact List.isChain_cons.2 ⟨fun d _ hd => h.1 hd.1.symm, ih h.2⟩

/-- A field is read to its end exactly if every run of backslashes before a quote or at the end of its
text is even, and it is the field of exactly one text in which no backslash stands right before an
`n` or a `t`.  A text without backslashes is of both kinds. -/
theorem fields_delimited_and_told_apart (s : String) :
    (∀ t : List Char,
      (∃ raw, readField ('\x22' :: ((escape s).toList ++ '\x22' :: t)) = some (raw, t)) ↔
        Guarded s.toList) ∧
    (∃! p : String, Unspelled p.toList ∧ escape p = escape s) ∧
    ('\\' ∉ s.toList → Guarded s.toList ∧ Unspelled s.toList) := by
  refine ⟨?_, ?_, fun h => ⟨guarded_of_not_mem h, unspelled_of_not_mem h⟩⟩
  · intro t
    simpa [field, escape] using exists_readField_iff s t
  · refine ⟨String.ofList (unescaped (escapedChars s.toList)), ⟨?_, ?_⟩, ?_⟩
    · simpa using unspelled_unescaped _
    · simp [escape, escapedChars_unescaped]
    · rintro p ⟨hp, hsame⟩
      have hchars : escapedChars p.toList = escapedChars s.toList := by
        simpa [escape] using congrArg String.toList hsame
      rw [← hchars, unescaped_escapedChars hp, String.ofList_toList]

theorem fields_delimited_and_told_apart_quotedLine :
    '\\' ∉ "say \"hi\"\n".toList ∧ Guarded "say \"hi\"\n".toList ∧
    ∃ raw, readField ('\x22' :: ((escape "say \"hi\"\n").toList ++ '\x22' :: [';'])) =
      some (raw, [';']) := by
  have hplain : '\\' ∉ "say \"hi\"\n".toList := by decide
  obtain ⟨hread, -, hfree⟩ := fields_delimited_and_told_apart "say \"hi\"\n"
  have hguarded := (hfree hplain).1
  exact ⟨hplain, hguarded, (hread _).2 hguarded⟩

/-- A backslash at the end takes the closing quote along, and one before an `n` looks like the escape
of a newline. -/
theorem backslash_not_delimited :
    (¬∃ raw, readField ('\x22' :: ((escape "\\").toList ++ '\x22' :: [';'])) =
      some (raw, [';'])) ∧
    escape "\n" = escape "\\n" ∧ "\n" ≠ "\\n" := by
  refine ⟨?_, by decide, by decide⟩
  have hread : readField ('\x22' :: ((escape "\\").toList ++ '\x22' :: [';'])) = none := by decide
  simp [hread]

end FlowDominance.Dot
