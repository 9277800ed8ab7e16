import FlowDominance.Proofs.Faultless
import FlowDominance.Proofs.QuotedFields
import FlowDominance.Report.Findings

/-!
# Outlines of drawings

An outline is what a drawing tells of findings: labels by position, the position of the entry, and
three kinds of arrows as pairs of positions.  As no field breaks a line, the text of a drawing falls
apart into its lines, and from each line its part of the outline can be read.
-/

namespace FlowDominance.Report

open Dot (field escapedChars readField unescaped bracketedChars)

inductive Stroke where
  | solid
  | dashed
  | dotted
  deriving DecidableEq, Repr

def Stroke.style : Stroke → List Dot.Attribute
  | .solid => graphStyle
  | .dashed => treeStyle
  | .dotted => frontierStyle

structure Outline where
  name : String
  labels : List String
  entry : Nat
  edges : List (Nat × Nat)
  tree : List (Nat × Nat)
  frontiers : List (Nat × Nat)
  deriving DecidableEq, Repr

namespace Outline

def pairs (o : Outline) : Stroke → List (Nat × Nat)
  | .solid => o.edges
  | .dashed => o.tree
  | .dotted => o.frontiers

def node (entry i : Nat) (label : String) : Dot.Node :=
  ⟨nodeName i, [⟨"label", label⟩, ⟨"shape", if i = entry then "doublecircle" else "ellipse"⟩]⟩

def arrow (stroke : Stroke) (ends : Nat × Nat) : Dot.Arrow :=
  ⟨nodeName ends.1, nodeName ends.2, stroke.style⟩

def digraph (o : Outline) : Dot.Digraph where
  name := o.name
  attrs := []
  nodes := o.labels.mapIdx (node o.entry)
  arrows := o.edges.map (arrow .solid) ++ o.tree.map (arrow .dashed)
    ++ o.frontiers.map (arrow .dotted)

end Outline

/-! ## Lines -/

inductive Line where
  | node (i : Nat) (label : String) (double : Bool)
  | arrow (stroke : Stroke) (ends : Nat × Nat)
  deriving DecidableEq, Repr

namespace Line

def label? : Line → Option String
  | .node _ label _ => some label
  | .arrow _ _ => none

def double? : Line → Option Nat
  | .node i _ true => some i
  | _ => none

def ends? (stroke : Stroke) : Line → Option (Nat × Nat)
  | .node _ _ _ => none
  | .arrow s ends => if s = stroke then some ends else none

def chars : Line → List Char
  | .node i label double =>
      '\t' :: (field (nodeName i) ++ (" [label=".toList ++ (field label ++ (", shape=".toList
        ++ (field (if double then "doublecircle" else "ellipse") ++ "];".toList)))))
  | .arrow stroke ends =>
      '\t' :: (field (nodeName ends.1) ++ (" -> ".toList ++ (field (nodeName ends.2)
        ++ (bracketedChars stroke.style ++ [';']))))

end Line

namespace Outline

def lines (o : Outline) : List Line :=
  o.labels.mapIdx (fun i label => .node i label (i = o.entry))
    ++ (o.edges.map (.arrow .solid) ++ o.tree.map (.arrow .dashed)
      ++ o.frontiers.map (.arrow .dotted))

def heading (o : Outline) : List Char :=
  "digraph ".toList ++ (field o.name ++ " \x7b".toList)

end Outline

/-! ## Reading -/

def readText (cs : List Char) : Option (String × List Char) := do
  let (raw, rest) ← readField cs
  return (String.ofList (unescaped raw), rest)

def readPosition (cs : List Char) : Option (Nat × List Char) := do
  let (name, rest) ← readText cs
  let digits ← name.toList.dropPrefix? ['n']
  return (← (String.ofList digits).toNat?, rest)

def readNode (i : Nat) (cs : List Char) : Option Line := do
  let (label, cs) ← readText (← cs.dropPrefix? " [label=".toList)
  let (shape, cs) ← readText (← cs.dropPrefix? ", shape=".toList)
  guard (cs = "];".toList)
  return .node i label (shape = "doublecircle")

/-- Only its attributes tell what an arrow stands for. -/
def readArrow (i : Nat) (cs : List Char) : Option Line := do
  let (j, cs) ← readPosition cs
  let stroke ← [Stroke.solid, .dashed, .dotted].find? fun stroke =>
    cs = bracketedChars stroke.style ++ [';']
  return .arrow stroke (i, j)

def readLine (cs : List Char) : Option Line := do
  let (i, cs) ← readPosition (← cs.dropPrefix? ['\t'])
  match cs.dropPrefix? " -> ".toList with
  | some cs => readArrow i cs
  | none => readNode i cs

def readHeading (cs : List Char) : Option String := do
  let (name, cs) ← readText (← cs.dropPrefix? "digraph ".toList)
  guard (cs = " \x7b".toList)
  return name

def Outline.ofLines? (name : String) (lines : List Line) : Option Outline := do
  return {
    name
    labels := lines.filterMap Line.label?
    entry := ← lines.findSome? Line.double?
    edges := lines.filterMap (Line.ends? .solid)
    tree := lines.filterMap (Line.ends? .dashed)
    frontiers := lines.filterMap (Line.ends? .dotted) }

def Outline.read? (text : String) : Option Outline := do
  let lines := text.toList.splitOn '\n'
  let name ← readHeading (← lines.head?)
  Outline.ofLines? name (← (lines.tail.takeWhile (· ≠ ['\x7d'])).mapM readLine)

/-! ## Laws of the reader -/

section Reader

variable {s : String} {t : List Char}

theorem not_slash_mem_nodeName (i : Nat) : '\\' ∉ (nodeName i).toList := by
  intro h
  have hdigit : '\\' ∈ Nat.toDigits 10 i := by simpa [nodeName] using h
  have := Nat.isDigit_of_mem_toDigits (by decide) (by decide) hdigit
  contradiction

theorem readText_field (h : '\\' ∉ s.toList) (t : List Char) :
    readText (field s ++ t) = some (s, t) := by
  have hread := (Dot.readField_field_iff s t).2 (Dot.guarded_of_not_mem h)
  simp [readText, hread, Dot.unescaped_escapedChars (Dot.unspelled_of_not_mem h)]

@[simp] theorem readPosition_nodeName (i : Nat) (t : List Char) :
    readPosition (field (nodeName i) ++ t) = some (i, t) := by
  have hdigits : (nodeName i).toList.dropPrefix? ['n'] = some (Nat.toDigits 10 i) := by
    simp [nodeName, List.dropPrefix?]
  have hnumber : (String.ofList (Nat.toDigits 10 i)).toNat? = some i := by
    rw [← Nat.toList_repr, String.ofList_toList, Nat.toNat?_repr]
  simp [readPosition, readText_field (not_slash_mem_nodeName i), hdigits, hnumber]

theorem nodeName_inj {i j : Nat} : nodeName i = nodeName j ↔ i = j := by
  refine ⟨fun h => ?_, congrArg nodeName⟩
  have hread := readPosition_nodeName i []
  rw [h, readPosition_nodeName] at hread
  simpa using hread.symm

theorem readLine_arrow (stroke : Stroke) (ends : Nat × Nat) :
    readLine (Line.arrow stroke ends).chars = some (.arrow stroke ends) := by
  have hstroke : [Stroke.solid, .dashed, .dotted].find? (fun stroke' =>
      bracketedChars stroke.style = bracketedChars stroke'.style) = some stroke := by
    cases stroke <;> decide
  simp [Line.chars, readLine, List.dropPrefix?, readArrow, hstroke]

theorem readLine_node {label : String} (h : '\\' ∉ label.toList) (i : Nat) (double : Bool) :
    readLine (Line.node i label double).chars = some (.node i label double) := by
  have hellipse : '\\' ∉ "ellipse".toList := by decide
  have hdouble : '\\' ∉ "doublecircle".toList := by decide
  cases double <;> simp [Line.chars, readLine, List.dropPrefix?, readNode, readText_field h,
    readText_field hellipse, readText_field hdouble]

end Reader

/-! ## The text of a drawing -/

theorem newline_not_mem_field (s : String) : '\n' ∉ field s := by
  have hchar : ∀ c, '\n' ∉ Dot.escapedChar c := by
    intro c
    unfold Dot.escapedChar
    split_ifs <;> simp_all [eq_comm]
  simp [field, escapedChars, hchar]

theorem Line.newline_not_mem_chars (line : Line) : '\n' ∉ line.chars := by
  cases line with
  | node i label double => simp [chars, newline_not_mem_field]
  | arrow stroke ends => cases stroke <;> simp [chars, newline_not_mem_field] <;> decide

theorem flatMap_newline (lines : List (List Char)) :
    lines.flatMap (· ++ ['\n']) = ['\n'].intercalate (lines ++ [[]]) := by
  induction lines with
  | nil => rfl
  | cons line lines ih =>
      rw [List.flatMap_cons, ih, List.cons_append, List.intercalate_cons_of_ne_nil (by simp)]

namespace Outline

variable {o : Outline}

theorem node_chars (entry i : Nat) (label : String) :
    (node entry i label).chars ['\t'] = (Line.node i label (i = entry)).chars ++ ['\n'] := by
  simp [node, Dot.Node.chars, Line.chars, bracketedChars, Dot.attributeChars, List.intercalate]

theorem arrow_chars (stroke : Stroke) (ends : Nat × Nat) :
    (arrow stroke ends).chars ['\t'] = (Line.arrow stroke ends).chars ++ ['\n'] := by
  simp [arrow, Dot.Arrow.chars, Line.chars]

theorem chars_nodes (o : Outline) : o.digraph.nodes.flatMap (Dot.Node.chars ['\t']) =
    (o.labels.mapIdx (fun i label => Line.node i label (i = o.entry))).flatMap fun line =>
      line.chars ++ ['\n'] := by
  simp only [digraph, List.mapIdx_eq_zipIdx_map, List.flatMap_map, node_chars]

theorem chars_arrows (o : Outline) : o.digraph.arrows.flatMap (Dot.Arrow.chars ['\t']) =
    (o.edges.map (Line.arrow .solid) ++ o.tree.map (Line.arrow .dashed)
      ++ o.frontiers.map (Line.arrow .dotted)).flatMap fun line => line.chars ++ ['\n'] := by
  simp only [digraph, List.flatMap_append, List.flatMap_map, arrow_chars]

theorem heading_newline (o : Outline) :
    o.heading ++ ['\n'] = "digraph ".toList ++ field o.digraph.name ++ " \x7b\n".toList := by
  have hopen : " \x7b\n".toList = " \x7b".toList ++ ['\n'] := by decide
  unfold heading
  rw [hopen, List.append_assoc, List.append_assoc, List.append_assoc]
  rfl

theorem chars_digraph (o : Outline) : o.digraph.chars =
    (o.heading :: (o.lines.map Line.chars ++ [['\x7d']])).flatMap (· ++ ['\n']) := by
  have hclose : "\x7d\n".toList = ['\x7d', '\n'] := by decide
  unfold Dot.Digraph.chars
  rw [← heading_newline, chars_nodes, chars_arrows, hclose]
  simp [digraph, lines, List.flatMap_map]

theorem newline_not_mem_heading (o : Outline) : '\n' ∉ o.heading := by
  have hopen : '\n' ∉ "digraph ".toList := by decide
  have hclose : '\n' ∉ " \x7b".toList := by decide
  unfold heading
  simp only [List.mem_append, hopen, hclose, newline_not_mem_field, or_self, not_false_iff]

theorem splitOn_chars (o : Outline) : o.digraph.chars.splitOn '\n' =
    o.heading :: (o.lines.map Line.chars ++ [['\x7d'], []]) := by
  have hlines : ∀ line ∈ o.heading :: (o.lines.map Line.chars ++ [['\x7d'], []]),
      '\n' ∉ line := by
    simp only [List.mem_cons, List.mem_append, List.mem_map]
    rintro line (rfl | ⟨l, -, rfl⟩ | rfl | rfl | h)
    · exact newline_not_mem_heading o
    · exact l.newline_not_mem_chars
    · decide
    · decide
    · cases h
  rw [chars_digraph, flatMap_newline]
  simpa using List.splitOn_intercalate '\n' hlines (List.cons_ne_nil _ _)

theorem countP_double (h : o.entry < o.labels.length) :
    o.digraph.nodes.countP (fun n => ⟨"shape", "doublecircle"⟩ ∈ n.attrs) = 1 := by
  have hdouble : ∀ e : String × Nat,
      decide (⟨"shape", "doublecircle"⟩ ∈ (node o.entry e.2 e.1).attrs) = (e.2 == o.entry) := by
    rintro ⟨label, i⟩
    by_cases hi : i = o.entry <;> simp [node, hi]
  calc o.digraph.nodes.countP (fun n => ⟨"shape", "doublecircle"⟩ ∈ n.attrs)
      = o.labels.zipIdx.countP (fun e => e.2 == o.entry) := by
        simp only [digraph, List.mapIdx_eq_zipIdx_map, List.countP_map, Function.comp_def, hdouble]
    _ = (o.labels.zipIdx.map Prod.snd).count o.entry := by
        rw [List.count, List.countP_map]
        rfl
    _ = 1 := by
        rw [List.zipIdx_map_snd]
        exact List.count_eq_one_of_mem List.nodup_range' (List.mem_range'_1.2 ⟨by simp, by simpa⟩)

/-! ## The outline of its lines -/

theorem double?_of_mem_lines {line : Line} {i : Nat} (h : line ∈ o.lines)
    (hdouble : line.double? = some i) : i = o.entry := by
  simp only [lines, List.mem_append, List.mem_mapIdx, List.mem_map] at h
  rcases h with ⟨j, hj, rfl⟩ | (⟨ends, -, rfl⟩ | ⟨ends, -, rfl⟩) | ⟨ends, -, rfl⟩
  · by_cases hentry : j = o.entry <;> simp_all [Line.double?]
  all_goals simp [Line.double?] at hdouble

theorem findSome?_double? (h : o.entry < o.labels.length) :
    o.lines.findSome? Line.double? = some o.entry := by
  have hnode : Line.node o.entry o.labels[o.entry] true ∈ o.lines := by
    simp only [lines, List.mem_append, List.mem_mapIdx]
    exact .inl ⟨o.entry, h, by simp⟩
  have hsome : (o.lines.findSome? Line.double?).isSome = true :=
    List.findSome?_isSome_iff.2 ⟨_, hnode, rfl⟩
  obtain ⟨i, hi⟩ := Option.isSome_iff_exists.1 hsome
  obtain ⟨line, hline, hdouble⟩ := List.exists_of_findSome?_eq_some hi
  rw [hi, double?_of_mem_lines hline hdouble]

theorem filterMap_label? (o : Outline) : o.lines.filterMap Line.label? = o.labels := by
  simp [lines, List.mapIdx_eq_zipIdx_map, List.filterMap_map, Function.comp_def, Line.label?]

theorem filterMap_ends? (o : Outline) (stroke : Stroke) :
    o.lines.filterMap (Line.ends? stroke) = o.pairs stroke := by
  cases stroke <;> simp [lines, pairs, List.mapIdx_eq_zipIdx_map, List.filterMap_map,
    Function.comp_def, Line.ends?]

theorem ofLines?_lines (h : o.entry < o.labels.length) : ofLines? o.name o.lines = some o := by
  simp [ofLines?, findSome?_double? h, filterMap_label?, filterMap_ends?, pairs]

theorem mapM_readLine (h : ∀ label ∈ o.labels, '\\' ∉ label.toList) :
    (o.lines.map Line.chars).mapM readLine = some o.lines := by
  rw [List.mapM_map]
  refine (mapM_eq_pure ?_).trans (congrArg some (List.map_id o.lines))
  simp only [lines, List.mem_append, List.mem_mapIdx, List.mem_map]
  rintro line (⟨i, hi, rfl⟩ | (⟨ends, -, rfl⟩ | ⟨ends, -, rfl⟩) | ⟨ends, -, rfl⟩)
  · exact readLine_node (h _ (List.getElem_mem hi)) i _
  all_goals exact readLine_arrow _ ends

theorem readHeading_heading (h : '\\' ∉ o.name.toList) :
    readHeading o.heading = some o.name := by
  unfold heading
  simp [readHeading, List.dropPrefix?, readText_field h]

theorem takeWhile_lines (o : Outline) :
    (o.lines.map Line.chars ++ [['\x7d'], []]).takeWhile (fun line => !decide (line = ['\x7d'])) =
      o.lines.map Line.chars := by
  rw [List.takeWhile_append_of_pos]
  · simp
  · simp only [List.mem_map]
    rintro _ ⟨line, -, rfl⟩
    cases line <;> simp [Line.chars]

theorem read?_text (hname : '\\' ∉ o.name.toList)
    (hlabels : ∀ label ∈ o.labels, '\\' ∉ label.toList)
    (hentry : o.entry < o.labels.length) : read? o.digraph.text = some o := by
  simp [read?, Dot.Digraph.text, splitOn_chars, takeWhile_lines, readHeading_heading hname,
    mapM_readLine hlabels, ofLines?_lines hentry]

end Outline

end FlowDominance.Report
