import PatternAutomata.Proofs.Drawing

/-!
# The rows of a drawing

A drawing has one line for each end of its frame, for each node and for each edge, and each line is
meant to fill one row of the text. A byte stands in the label of its edge as it is, though, and one
byte ends a row: the line of an edge that consumes it is torn, and goes on in the next row. No other
line is, so a drawing is read row by row exactly if no edge consumes that byte.
-/

namespace PatternAutomata

namespace Automaton

/-- The edges of an automaton, those of each node together, in table order. -/
def edges (automaton : Automaton) : List (Edge Transition) :=
  automaton.handles.flatMap automaton.edgesOf

end Automaton

namespace Dot

/-- The byte that ends a row of a text. -/
def lineEnd : UInt8 := 10

/-- What stands before, between and after the line ends of a text. -/
def rows (text : String) : List (List Char) := text.toList.splitOn '\n'

/-- What a row shows. -/
inductive Subject where
  | opening
  | node (id : NodeId)
  | edge (source dest : NodeId)
  /-- An edge up to the line end in its label. -/
  | edgeStart (source dest : NodeId)
  /-- An edge from the line end in its label on. -/
  | edgeRest
  | closing

/-- How a row begins and ends that shows something. -/
inductive Subject.Reads : Subject → List Char → Prop
  | opening : opening.Reads "digraph G \x7b".toList
  | node (id : NodeId) (rest : List Char) :
      (node id).Reads ("  n".toList ++ decimal id.toNat ++ "[shape=".toList ++ rest ++ "]".toList)
  | edge (source dest : NodeId) (rest : List Char) :
      (edge source dest).Reads ("  n".toList ++ decimal source.toNat ++ "->n".toList ++
        decimal dest.toNat ++ "[".toList ++ rest ++ "]".toList)
  | edgeStart (source dest : NodeId) :
      (edgeStart source dest).Reads ("  n".toList ++ decimal source.toNat ++ "->n".toList ++
        decimal dest.toNat ++ "[label=\"".toList)
  | edgeRest : edgeRest.Reads "\"]".toList
  | closing : closing.Reads "\x7d".toList

/-- The frame, and between its ends every node in table order, each followed by its edges in order.
The rows of an edge are given by its source, its destination and the byte it consumes. -/
def subjects (automaton : Automaton) (shown : NodeId → NodeId → UInt8 → List Subject) :
    List Subject :=
  .opening :: (automaton.handles.flatMap fun id =>
    .node id :: (automaton.edgesOf id).flatMap fun edge => shown id edge.dest edge.data.symbol) ++
      [.closing]

/-- Every edge in a row of its own. -/
def whole (source dest : NodeId) (_ : UInt8) : List Subject := [.edge source dest]

/-- Every edge in a row of its own, but in two if the byte it consumes ends the first. -/
def torn (source dest : NodeId) (symbol : UInt8) : List Subject :=
  if symbol = lineEnd then [.edgeStart source dest, .edgeRest] else [.edge source dest]

/-- A text consists of so many lines that end in a line end, one for each subject in turn. -/
def LaidOut (text : String) (count : Nat) (subjects : List Subject) : Prop :=
  ∃ lines, rows text = lines ++ [[]] ∧ lines.length = count ∧
    List.Forall₂ Subject.Reads subjects lines

lemma LaidOut.length_rows {text : String} {count : Nat} {subjects : List Subject}
    (h : LaidOut text count subjects) : (rows text).length = count + 1 := by
  obtain ⟨lines, hrows, hcount, -⟩ := h
  rw [hrows, List.length_append, hcount]
  rfl

/-! ## The rows of a line -/

section Lines

variable {xs ys : List Char}

lemma splitOn_of_notMem (h : '\n' ∉ xs) : xs.splitOn '\n' = [xs] := by
  rw [List.splitOn_eq_splitOnP]
  exact List.splitOnP_eq_singleton fun c hc => beq_false_of_ne fun heq => h (heq ▸ hc)

lemma splitOn_append_cons : (xs ++ '\n' :: ys).splitOn '\n' = xs.splitOn '\n' ++ ys.splitOn '\n' := by
  simp only [List.splitOn_eq_splitOnP]
  exact List.splitOnP_append_cons xs ys (beq_self_eq_true '\n')

lemma lineEnd_notMem_decimal (n : Nat) : '\n' ∉ decimal n := by
  intro h
  have hdigit : Char.isDigit '\n' = true := Nat.isDigit_of_mem_toDigits (by decide) (by decide) h
  simp at hdigit

lemma lineEnd_notMem_caption (id : NodeId) (token : Option UInt32) : '\n' ∉ caption id token := by
  cases token <;> simp [caption, lineEnd_notMem_decimal]

lemma lineEnd_notMem_labelled {symbol : UInt8} (h : symbol ≠ lineEnd) : '\n' ∉ labelled symbol := by
  have hsymbol : '\n' ≠ Char.ofUInt8 symbol := fun heq => h (ofUInt8_injective heq.symm)
  unfold labelled
  split <;> simp [hsymbol]

lemma lineEnd_notMem_stroke {symbol : UInt8} (h : symbol ≠ lineEnd) : '\n' ∉ stroke symbol := by
  unfold stroke
  split <;> simp [lineEnd_notMem_labelled h]

lemma stroke_lineEnd : stroke lineEnd = "label=\"".toList ++ '\n' :: "\"]".toList := by decide

/-- Whatever an edge consumes, its bracket is closed at the end. -/
lemma exists_stroke_eq (symbol : UInt8) : ∃ rest, stroke symbol = rest ++ "]".toList := by
  unfold stroke
  split
  · exact ⟨"style=dotted".toList, by decide⟩
  · exact ⟨"label=\"".toList ++ labelled symbol ++ "\"".toList, by simp⟩

/-- What the rows of a line show. -/
def Line.subjects : Line → List Subject
  | opening => [.opening]
  | node id _ _ => [.node id]
  | edge source dest symbol => torn source dest symbol
  | closing => [.closing]

lemma Line.reads_node (id : NodeId) (shape : Shape) (token : Option UInt32) :
    List.Forall₂ Subject.Reads [.node id] ((node id shape token).chars.splitOn '\n') := by
  have hchars : (node id shape token).chars = "  n".toList ++ decimal id.toNat ++
      "[shape=".toList ++ (shape.name.toList ++ caption id token) ++ "]".toList := by
    simpa using (chars_node id shape token : (node id shape token).chars ++ [] = _)
  have hshape : '\n' ∉ shape.name.toList := by cases shape <;> decide
  have hone : '\n' ∉ (node id shape token).chars := by
    simp [hchars, hshape, lineEnd_notMem_decimal, lineEnd_notMem_caption]
  rw [splitOn_of_notMem hone, hchars]
  exact .cons (.node ..) .nil

lemma Line.reads_edge (source dest : NodeId) (symbol : UInt8) :
    List.Forall₂ Subject.Reads (torn source dest symbol)
      ((edge source dest symbol).chars.splitOn '\n') := by
  have hchars : (edge source dest symbol).chars = "  n".toList ++ decimal source.toNat ++
      "->n".toList ++ decimal dest.toNat ++ "[".toList ++ stroke symbol := by
    simpa using (chars_edge source dest symbol : (edge source dest symbol).chars ++ [] = _)
  unfold torn
  split
  next hend =>
    subst hend
    have hstart : (edge source dest lineEnd).chars = ("  n".toList ++ decimal source.toNat ++
        "->n".toList ++ decimal dest.toNat ++ "[label=\"".toList) ++ '\n' :: "\"]".toList := by
      rw [hchars, stroke_lineEnd]
      simp
    rw [hstart, splitOn_append_cons, splitOn_of_notMem (by simp [lineEnd_notMem_decimal]),
      splitOn_of_notMem (by decide)]
    exact .cons (.edgeStart ..) (.cons .edgeRest .nil)
  next hend =>
    have hone : '\n' ∉ (edge source dest symbol).chars := by
      simp [hchars, lineEnd_notMem_decimal, lineEnd_notMem_stroke hend]
    obtain ⟨rest, hrest⟩ := exists_stroke_eq symbol
    rw [splitOn_of_notMem hone, hchars, hrest, ← List.append_assoc]
    exact .cons (.edge ..) .nil

/-- Only the line of an edge is ever torn, by the byte it consumes. -/
lemma Line.reads (line : Line) :
    List.Forall₂ Subject.Reads line.subjects (line.chars.splitOn '\n') := by
  cases line with
  | opening => exact .cons .opening .nil
  | node id shape token => exact reads_node id shape token
  | edge source dest symbol => exact reads_edge source dest symbol
  | closing => exact .cons .closing .nil

/-- The rows of some lines are those of each in turn, and what stands after the last line end. -/
lemma splitOn_chars (lines : List Line) :
    (chars lines).splitOn '\n' = lines.flatMap (fun line => line.chars.splitOn '\n') ++ [[]] := by
  induction lines with
  | nil => rfl
  | cons line lines ih =>
    rw [chars_cons, splitOn_append_cons, ih, List.flatMap_cons, List.append_assoc]

end Lines

/-! ## The rows of an automaton -/

variable {automaton : Automaton}

/-- The lines of a node that carries its handle show it and its edges. -/
lemma subjects_nodeLines (hs : automaton.Settled) (hd : automaton.picture.Dense) {id : NodeId}
    {node : Node State Transition} (hnode : automaton.node? id = some node) :
    (nodeLines automaton node).flatMap Line.subjects = .node id ::
      (automaton.edgesOf id).flatMap fun edge => torn id edge.dest edge.data.symbol := by
  have hlabel : node.data.id = id := by
    have hlabel := hd.label_eq (Automaton.lt_size_of_node hnode)
    simpa only [Automaton.picture, hnode, Option.elim_some] using hlabel
  unfold nodeLines
  rw [hlabel, ← Automaton.edgesOf_eq hnode, List.flatMap_cons, List.flatMap_map]
  refine congrArg (Subject.node id :: ·) (List.flatMap_congr fun edge he => ?_)
  rw [labelOf_eq hd (hs.dest_lt he)]
  rfl

/-- The lines of an automaton whose nodes carry their handles show it node by node. -/
lemma subjects_lines (hs : automaton.Settled) (hd : automaton.picture.Dense) :
    (lines automaton).flatMap Line.subjects = subjects automaton torn := by
  have hnodes : (automaton.graph.nodes.toList.map fun node =>
        (nodeLines automaton node).flatMap Line.subjects) =
      automaton.handles.map fun id => .node id ::
        (automaton.edgesOf id).flatMap fun edge => torn id edge.dest edge.data.symbol := by
    have hlength : automaton.graph.nodes.toList.length = automaton.handles.length := by
      simp only [Automaton.handles, List.length_map, List.length_range]
      rfl
    refine List.ext_getElem (by simpa using hlength) fun i hi _ => ?_
    rw [List.length_map] at hi
    have hnode : automaton.node? ⟨i⟩ = some automaton.graph.nodes.toList[i] :=
      Array.getElem?_eq_getElem hi
    simp only [List.getElem_map, Automaton.handles, List.getElem_range]
    exact subjects_nodeLines hs hd hnode
  unfold lines subjects
  rw [List.flatMap_append, List.flatMap_cons, List.flatMap_assoc,
    List.flatMap_def (l := automaton.graph.nodes.toList), hnodes, ← List.flatMap_def]
  rfl

lemma length_flatMap_torn (source : NodeId) (edges : List (Edge Transition)) :
    (edges.flatMap fun edge => torn source edge.dest edge.data.symbol).length =
      edges.length + edges.countP fun edge => edge.data.symbol = lineEnd := by
  induction edges with
  | nil => rfl
  | cons edge edges ih =>
    rw [List.flatMap_cons, List.length_append, ih, List.length_cons, List.countP_cons, torn]
    split <;> simp_all <;> omega

lemma length_subjects (automaton : Automaton) : (subjects automaton torn).length =
    2 + automaton.size + automaton.edges.length +
      automaton.edges.countP fun edge => edge.data.symbol = lineEnd := by
  have hbody : ∀ ids : List NodeId, (ids.flatMap fun id => Subject.node id ::
        (automaton.edgesOf id).flatMap fun edge => torn id edge.dest edge.data.symbol).length =
      ids.length + (ids.flatMap automaton.edgesOf).length +
        (ids.flatMap automaton.edgesOf).countP fun edge => edge.data.symbol = lineEnd := by
    intro ids
    induction ids with
    | nil => rfl
    | cons id ids ih =>
      simp only [List.flatMap_cons, List.length_append, List.length_cons, List.countP_append, ih,
        length_flatMap_torn]
      omega
  have hsize : automaton.handles.length = automaton.size := by simp [Automaton.handles]
  unfold subjects Automaton.edges
  rw [List.length_append, List.length_cons, List.length_singleton, hbody, hsize]
  omega

/-- Without a line end among the bytes that are consumed, every edge has a row of its own. -/
lemma subjects_torn (h : ∀ edge ∈ automaton.edges, edge.data.symbol ≠ lineEnd) :
    subjects automaton torn = subjects automaton whole := by
  have hbody : ∀ id ∈ automaton.handles,
      ((automaton.edgesOf id).flatMap fun edge => torn id edge.dest edge.data.symbol) =
        (automaton.edgesOf id).flatMap fun edge => whole id edge.dest edge.data.symbol := by
    intro id hid
    exact List.flatMap_congr fun edge he => if_neg (h edge (List.mem_flatMap.mpr ⟨id, hid, he⟩))
  unfold subjects
  rw [List.flatMap_congr fun id hid => congrArg (Subject.node id :: ·) (hbody id hid)]

/-- The rows of a drawing, and when there is one for each node and each edge. -/
lemma laidOut_text (hs : automaton.Settled) (hd : automaton.picture.Dense) :
    LaidOut (text automaton) (2 + automaton.size + automaton.edges.length +
      automaton.edges.countP fun edge => edge.data.symbol = lineEnd) (subjects automaton torn) := by
  have hrows : rows (text automaton) =
      (lines automaton).flatMap (fun line => line.chars.splitOn '\n') ++ [[]] := by
    unfold rows text
    rw [String.toList_ofList, splitOn_chars]
  have hreads : List.Forall₂ Subject.Reads (subjects automaton torn)
      ((lines automaton).flatMap fun line => line.chars.splitOn '\n') := by
    rw [← subjects_lines hs hd]
    refine List.rel_flatMap (R := Eq) (List.forall₂_refl _) ?_
    rintro line _ rfl
    exact line.reads
  exact ⟨_, hrows, hreads.length_eq ▸ length_subjects automaton, hreads⟩

end Dot

namespace Workspace

variable {workspace : Workspace}

/-- However a workspace was used, the text of its drawing is the frame, the nodes and the edges, row by
row, but that every edge that consumes a line end takes up two rows. -/
theorem Arises.drawing_laidOut (h : workspace.Arises) :
    Dot.LaidOut (Dot.text workspace.automaton)
        (2 + workspace.automaton.size + workspace.automaton.edges.length +
          workspace.automaton.edges.countP fun edge => edge.data.symbol = Dot.lineEnd)
        (Dot.subjects workspace.automaton Dot.torn) ∧
      (Dot.LaidOut (Dot.text workspace.automaton)
          (2 + workspace.automaton.size + workspace.automaton.edges.length)
          (Dot.subjects workspace.automaton Dot.whole) ↔
        ∀ edge ∈ workspace.automaton.edges, edge.data.symbol ≠ Dot.lineEnd) := by
  have hlaid := Dot.laidOut_text h.regular.settled h.regular.dense
  refine ⟨hlaid, fun hwhole => ?_, fun hnone => ?_⟩
  · have hrows := hlaid.length_rows
    rw [hwhole.length_rows] at hrows
    have hcount : (workspace.automaton.edges.countP fun edge => edge.data.symbol = Dot.lineEnd) = 0 := by
      omega
    simpa using hcount
  · have hcount : (workspace.automaton.edges.countP fun edge => edge.data.symbol = Dot.lineEnd) = 0 := by
      simpa using hnone
    rwa [hcount, Dot.subjects_torn hnone] at hlaid

theorem Arises.drawing_laidOut_quoted : ∃ workspace, quoted = .ok workspace ∧ workspace.Arises ∧
    Dot.LaidOut (Dot.text workspace.automaton) 10 (Dot.subjects workspace.automaton Dot.torn) ∧
    ¬ Dot.LaidOut (Dot.text workspace.automaton) 9 (Dot.subjects workspace.automaton Dot.whole) := by
  have hcounts : (quoted.toOption.any fun workspace => decide (workspace.automaton.size = 2 ∧
      workspace.automaton.edges.length = 5 ∧
      (workspace.automaton.edges.countP fun edge => edge.data.symbol = Dot.lineEnd) = 1)) = true := by
    decide +kernel
  obtain ⟨workspace, hquoted, hcounts⟩ := exists_of_any hcounts
  obtain ⟨hsize, hedges, hends⟩ := of_decide_eq_true hcounts
  have harises := arises_quoted hquoted
  obtain ⟨htorn, hwhole⟩ := harises.drawing_laidOut
  rw [hsize, hedges] at hwhole
  rw [hsize, hedges, hends] at htorn
  refine ⟨workspace, hquoted, harises, htorn, fun h => ?_⟩
  have hnone := hwhole.mp h
  rw [List.countP_eq_zero.mpr (by simpa using hnone)] at hends
  exact Nat.zero_ne_one hends

/-- A workspace with the pattern that reads one line end. -/
def brokenLine : Except Fault Workspace := do
  let workspace ← create {}
  let (_, workspace) ← workspace.addPattern 0 "\n"
  return workspace

/-- A pattern is enough to tear a line of the drawing. -/
theorem brokenLine_not_laidOut : ∃ workspace, brokenLine = .ok workspace ∧ workspace.Arises ∧
    ¬ Dot.LaidOut (Dot.text workspace.automaton)
      (2 + workspace.automaton.size + workspace.automaton.edges.length)
      (Dot.subjects workspace.automaton Dot.whole) := by
  have hrows : (brokenLine.toOption.any fun workspace =>
      decide (((Dot.chars (Dot.lines workspace.automaton)).splitOn '\n').length ≠
        2 + workspace.automaton.size + workspace.automaton.edges.length + 1)) = true := by
    decide +kernel
  obtain ⟨workspace, hbroken, hrows⟩ := exists_of_any hrows
  have harises : workspace.Arises := by
    unfold brokenLine at hbroken
    obtain ⟨_, hcreate, h⟩ := exists_of_bind_eq_ok hbroken
    obtain ⟨⟨_, _⟩, hpattern, h⟩ := exists_of_bind_eq_ok h
    cases h
    exact (Arises.create hcreate).use (.addPattern trivial hpattern)
  refine ⟨workspace, hbroken, harises, fun h => of_decide_eq_true hrows ?_⟩
  have hlength := h.length_rows
  rwa [Dot.rows, Dot.text, String.toList_ofList] at hlength

end Workspace

end PatternAutomata
