import FlowDominance.Proofs.Outlines
import FlowDominance.Proofs.Snapshots

/-!
# Drawings of findings

Nodes are drawn under fresh names, and arrows between nodes that are there, so findings about a
well-formed graph are drawn without a fault.  The drawing is that of their outline; its text tells
the outline, if no label and no title has a backslash in it.
-/

namespace FlowDominance

theorem FlowGraph.WellFormed.exists_edges {g : FlowGraph} (h : g.WellFormed) :
    ∃ es, g.edges = .ok es ∧
      ∀ e ∈ es, g.contains e.source = true ∧ g.contains e.target = true := by
  have hrow : ∀ v ∈ g.vertices, ∃ row, g.outEdges v = .ok row ∧
      ∀ e ∈ row, g.contains e.source = true ∧ g.contains e.target = true := by
    intro v hv
    have hcontains := contains_of_mem hv
    obtain ⟨row, hrow, hall⟩ := h.exists_out v hcontains
    refine ⟨row, hrow, fun e he => ⟨?_, (hall e he).2⟩⟩
    rw [contains_congr (Value.same_iff.1 (hall e he).1), hcontains]
  obtain ⟨rows, hrows, hall⟩ := exists_mapM_ok g.vertices _ hrow
  refine ⟨rows.flatten, by rw [edges, hrows, Except.map], ?_⟩
  intro e he
  obtain ⟨row, hmem, he⟩ := List.mem_flatten.1 he
  obtain ⟨⟨i, hi⟩, rfl⟩ := List.mem_iff_get.1 hmem
  exact hall.get (hall.length_eq ▸ hi) hi e he

/-! ## Adding to a drawing -/

namespace Dot.Digraph

variable {d : Digraph} {node : Node} {arrow : Arrow} {name : String}

theorem hasNode_iff : d.hasNode name = true ↔ name ∈ d.nodes.map Node.name := by
  simp [hasNode]

theorem apply_addNode (h : d.hasNode node.name = false) :
    (addNode node).apply d = (.ok (), { d with nodes := d.nodes ++ [node] }) := by
  rw [addNode, Change.apply_bind_ok (Change.apply_get d), h]
  rfl

theorem apply_requireNode (h : d.hasNode name = true) :
    (requireNode name).apply d = (.ok (), d) := by
  rw [requireNode, Change.apply_bind_ok (Change.apply_get d), h]
  rfl

theorem apply_addArrow (hsource : d.hasNode arrow.source = true)
    (htarget : d.hasNode arrow.target = true) :
    (addArrow arrow).apply d = (.ok (), { d with arrows := d.arrows ++ [arrow] }) := by
  rw [addArrow, Change.apply_bind_ok (apply_requireNode hsource),
    Change.apply_bind_ok (apply_requireNode htarget), Change.apply_modify]

end Dot.Digraph

namespace Report

open Dot (Digraph Arrow)

variable {α : Type} {count : Nat}

/-- On a drawing with a node for each of the first positions, the change adds arrows and does nothing
else. -/
def Adds (count : Nat) (c : Change Digraph PUnit) (arrows : List Arrow) : Prop :=
  ∀ d, (∀ i < count, d.hasNode (nodeName i) = true) →
    c.apply d = (.ok (), { d with arrows := d.arrows ++ arrows })

theorem adds_pure : Adds count (pure ()) [] := by
  intro d _
  simp

theorem Adds.seq {c c' : Change Digraph PUnit} {arrows arrows' : List Arrow}
    (h : Adds count c arrows) (h' : Adds count c' arrows') :
    Adds count (c >>= fun _ => c') (arrows ++ arrows') := by
  intro d hd
  rw [Change.apply_bind_ok (h d hd), h' { d with arrows := d.arrows ++ arrows } hd,
    List.append_assoc]

theorem adds_forM {xs : List α} {f : α → Change Digraph PUnit} {arrows : α → List Arrow}
    (h : ∀ x ∈ xs, Adds count (f x) (arrows x)) : Adds count (xs.forM f) (xs.flatMap arrows) := by
  induction xs with
  | nil => exact adds_pure
  | cons x xs ih =>
      rw [List.flatMap_cons]
      exact (h x (by simp)).seq (ih fun y hy => h y (by simp [hy]))

theorem adds_option_forM {o : Option α} {f : α → Change Digraph PUnit} {arrows : α → List Arrow}
    (h : ∀ x ∈ o, Adds count (f x) (arrows x)) :
    Adds count (o.forM f) (o.toList.flatMap arrows) := by
  cases o with
  | none => exact adds_pure
  | some x => simpa using h x rfl

theorem Outline.hasNode_digraph {o : Outline} {i : Nat} (h : i < o.labels.length) :
    o.digraph.hasNode (nodeName i) = true := by
  rw [Dot.Digraph.hasNode_iff, List.mem_map]
  exact ⟨_, List.mem_mapIdx.2 ⟨i, h, rfl⟩, rfl⟩

namespace Findings

variable {f : Findings} {title : String} {entry : Value} {index : Index}

theorem adds_drawArrow {u v : Value} (hu : index.contains u = true)
    (hv : index.contains v = true) (stroke : Stroke) :
    Adds index.count (drawArrow index u v stroke.style)
      [Outline.arrow stroke (index.place u, index.place v)] := by
  intro d hd
  rw [drawArrow, Change.apply_lift_bind_ok (Index.position_eq_place hu),
    Change.apply_lift_bind_ok (Index.position_eq_place hv)]
  exact Dot.Digraph.apply_addArrow (hd _ (Index.place_lt hu)) (hd _ (Index.place_lt hv))

/-! ## The outline of findings -/

def outline (f : Findings) (title : String) (entry : Value) (edges : List Edge) : Outline where
  name := if title.isEmpty then "dominance" else title
  labels := f.index.vertices.map f.label
  entry := f.index.place entry
  edges := edges.map fun e => (f.index.place e.source, f.index.place e.target)
  tree := f.idoms.entries.flatMap fun e =>
    e.2.toList.map fun d => (f.index.place d, f.index.place e.1)
  frontiers := f.frontiers.entries.flatMap fun e =>
    e.2.map fun v => (f.index.place e.1, f.index.place v)

/-- Findings about a well-formed graph and an entry of it, without a backslash in what is written
out. -/
structure Drawable (f : Findings) (title : String) (entry : Value) : Prop where
  wellFormed : f.graph.WellFormed
  current : f.Current
  entry_eq : f.graph.entry = .ok entry
  contains_entry : f.graph.contains entry = true
  within : f.Within
  labels : ∀ v ∈ f.graph.vertices, '\\' ∉ (f.label v).toList
  title : '\\' ∉ title.toList

theorem apply_drawNode {v : Value} {i : Nat} {d : Digraph} (hentry : f.graph.entry = .ok entry)
    (hcontains : f.index.contains entry = true) (hv : f.index.vertices[i]? = some v)
    (hnew : nodeName i ∉ d.nodes.map Dot.Node.name) :
    (f.drawNode v i).apply d = (.ok (), { d with
      nodes := d.nodes ++ [Outline.node (f.index.place entry) i (f.label v)] }) := by
  rw [← Dot.Digraph.hasNode_iff, Bool.not_eq_true] at hnew
  rw [drawNode, Change.apply_lift_bind_ok hentry]
  simp only [Index.same_iff_eq_place hv hcontains]
  exact Dot.Digraph.apply_addNode hnew

theorem apply_drawNodes (hentry : f.graph.entry = .ok entry)
    (hcontains : f.index.contains entry = true) (vs : List Value) {k : Nat} {d : Digraph}
    (hvs : ∀ e ∈ vs.zipIdx k, f.index.vertices[e.2]? = some e.1)
    (hnames : d.nodes.map Dot.Node.name = (List.range k).map nodeName) :
    ((vs.zipIdx k).forM fun e => f.drawNode e.1 e.2).apply d =
      (.ok (), { d with
        nodes := d.nodes ++
          (vs.zipIdx k).map fun e => Outline.node (f.index.place entry) e.2 (f.label e.1) }) := by
  induction vs generalizing k d with
  | nil => simp
  | cons v vs ih =>
      have hnew : nodeName k ∉ d.nodes.map Dot.Node.name := by
        simp [hnames, nodeName_inj]
      have hstep := apply_drawNode hentry hcontains (hvs (v, k) (by simp)) hnew
      rw [List.zipIdx_cons]
      refine (Change.apply_bind_ok hstep).trans ?_
      rw [ih (fun e he => hvs e (by simp [he])) (by simp [hnames, List.range_succ, Outline.node])]
      simp

theorem nodes_outline (f : Findings) (title : String) (entry : Value) (edges : List Edge) :
    (f.outline title entry edges).digraph.nodes = f.index.vertices.zipIdx.map fun e =>
      Outline.node (f.index.place entry) e.2 (f.label e.1) := by
  simp [outline, Outline.digraph, List.mapIdx_eq_zipIdx_map, List.zipIdx_map]

theorem arrows_outline (f : Findings) (title : String) (entry : Value) (edges : List Edge) :
    (f.outline title entry edges).digraph.arrows =
      (edges.flatMap fun e =>
        [Outline.arrow .solid (f.index.place e.source, f.index.place e.target)])
      ++ ((f.idoms.entries.flatMap fun e => e.2.toList.flatMap fun d =>
        [Outline.arrow .dashed (f.index.place d, f.index.place e.1)])
      ++ f.frontiers.entries.flatMap fun e => e.2.flatMap fun v =>
        [Outline.arrow .dotted (f.index.place e.1, f.index.place v)]) := by
  simp only [outline, Outline.digraph, List.map_eq_flatMap, List.flatMap_assoc,
    List.flatMap_singleton, List.append_assoc]

theorem apply_draw (h : f.Drawable title entry) {edges : List Edge}
    (hedges : f.graph.edges = .ok edges)
    (hends : ∀ e ∈ edges, f.graph.contains e.source = true ∧ f.graph.contains e.target = true) :
    f.draw.apply (.new (f.outline title entry edges).name []) =
      (.ok (), (f.outline title entry edges).digraph) := by
  have hcontains : f.index.contains entry = true :=
    (h.current.contains_index entry).trans h.contains_entry
  obtain ⟨hidoms, hfrontiers⟩ := h.within
  simp only [← h.current.contains_index] at hends hidoms hfrontiers
  have hnodes := apply_drawNodes (d := .new (f.outline title entry edges).name []) h.entry_eq
    hcontains f.index.vertices (fun e he => List.mk_mem_zipIdx_iff_getElem?.1 he) rfl
  have hsolid := adds_forM fun e he => adds_drawArrow (hends e he).1 (hends e he).2 .solid
  have hdashed := adds_forM fun e he => adds_option_forM fun d hd =>
    adds_drawArrow ((hidoms e he).2 d hd) (hidoms e he).1 .dashed
  have hdotted := adds_forM fun e he => adds_forM fun v hv =>
    adds_drawArrow (hfrontiers e he).1 ((hfrontiers e he).2 v hv) .dotted
  have harrows := hsolid.seq (hdashed.seq hdotted)
  rw [← nodes_outline f title entry edges] at hnodes
  rw [← arrows_outline f title entry edges] at harrows
  rw [draw]
  refine (Change.apply_bind_ok hnodes).trans ?_
  refine (Change.apply_lift_bind_ok hedges).trans ?_
  refine harrows _ ?_
  exact fun i hi => Outline.hasNode_digraph (by simpa [outline, Index.count] using hi)

theorem drawing_eq (h : f.Drawable title entry) : ∃ edges, f.graph.edges = .ok edges ∧
    f.drawing title = .ok (f.outline title entry edges).digraph := by
  obtain ⟨edges, hedges, hends⟩ := h.wellFormed.exists_edges
  have hname : (f.outline title entry edges).name =
      if title.isEmpty then "dominance" else title := rfl
  refine ⟨edges, hedges, ?_⟩
  rw [drawing, ← hname, apply_draw h hedges hends]

theorem Drawable.entry_lt (h : f.Drawable title entry) (edges : List Edge) :
    (f.outline title entry edges).entry < (f.outline title entry edges).labels.length := by
  have hlt := Index.place_lt ((h.current.contains_index entry).trans h.contains_entry)
  simpa [outline, Index.count] using hlt

theorem Drawable.read?_text (h : f.Drawable title entry) (edges : List Edge) :
    Outline.read? (f.outline title entry edges).digraph.text =
      some (f.outline title entry edges) := by
  apply Outline.read?_text
  · simp only [outline]
    split_ifs
    · decide
    · exact h.title
  · simp only [outline, List.mem_map, ← h.current.vertices_index]
    rintro _ ⟨v, hv, rfl⟩
    exact h.labels v ((Value.firsts_sublist _).mem hv)
  · exact h.entry_lt edges

end Findings

/-- Findings are drawn without a fault and with one double circle.  The text of the drawing tells
their outline, so findings with the same text have the same outline. -/
theorem drawing_tells_outline {f : Findings} {title : String} {entry : Value}
    (h : f.Drawable title entry) : ∃ edges d,
    f.graph.edges = .ok edges ∧ f.drawing title = .ok d ∧
    d.nodes.countP (fun n => ⟨"shape", "doublecircle"⟩ ∈ n.attrs) = 1 ∧
    Outline.read? d.text = some (f.outline title entry edges) ∧
    ∀ f' title' entry' edges' d', Findings.Drawable f' title' entry' →
      f'.graph.edges = .ok edges' → f'.drawing title' = .ok d' → d'.text = d.text →
      f'.outline title' entry' edges' = f.outline title entry edges := by
  obtain ⟨edges, hedges, hdrawing⟩ := Findings.drawing_eq h
  refine ⟨edges, _, hedges, hdrawing, Outline.countP_double (h.entry_lt edges),
    h.read?_text edges, ?_⟩
  intro f' title' entry' edges' d' h' hedges' hdrawing' htext
  obtain ⟨all, hall, hd'⟩ := Findings.drawing_eq h'
  obtain rfl : edges' = all := by simpa [hedges'] using hall
  obtain rfl : d' = (f'.outline title' entry' edges').digraph := by simpa [hdrawing'] using hd'
  have hread := h'.read?_text edges'
  rw [htext, h.read?_text edges] at hread
  exact (Option.some.inj hread).symm

/-- Every vertex has the same label, which looks like the text of a drawing itself. -/
def drawnLabels : Findings where
  graph := EdgeList.graph
    ⟨[.int 0, .int 1, .str "1", .bool true],
      [⟨.int 0, .int 1⟩, ⟨.bool false, .bool true⟩, ⟨.int 1, .str "1"⟩, ⟨.str "1", .str "1"⟩],
      some (.bool false), none⟩
  idoms := .ofList
    [(.str "1", some (.bool true)), (.bool true, some (.int 0)), (.bool false, none)]
  frontiers := .ofList [(.int 1, []), (.str "1", [.str "1", .bool false])]
  label _ := "\"];\n\t\"n0\" -> \"n1\" [color=\"black\"];\n\x7d\n"

theorem drawing_tells_outline_drawnLabels :
    drawnLabels.Drawable "\x7d\n\"" (.bool false) ∧
    ∃ edges d, drawnLabels.graph.edges = .ok edges ∧
      drawnLabels.drawing "\x7d\n\"" = .ok d ∧
      Outline.read? d.text = some (drawnLabels.outline "\x7d\n\"" (.bool false) edges) := by
  have hdrawable : drawnLabels.Drawable "\x7d\n\"" (.bool false) := {
    wellFormed := EdgeList.graph_wellFormed _ (by decide) (by decide)
    current := rfl
    entry_eq := rfl
    contains_entry := by decide
    within := ⟨by decide, by decide⟩
    labels := by decide
    title := by decide }
  obtain ⟨edges, d, hedges, hdrawing, -, hread, -⟩ := drawing_tells_outline hdrawable
  exact ⟨hdrawable, edges, d, hedges, hdrawing, hread⟩

end Report

end FlowDominance
