import PatternAutomata.Automaton.Dot
import PatternAutomata.Proofs.Usage

/-!
# Drawings lose nothing

No line of a drawing begins another, whatever bytes its label stands for. So a text is the drawing of
one list of lines only, and the lines show of every node whether it is dead, with which token it
accepts, and its edges in order. Two workspaces that are drawn alike therefore have the same nodes.
-/

namespace PatternAutomata

/-- What a drawing shows of a node: whether it is dead, its token if it accepts, and the bytes and
destinations of its edges. -/
structure Sketch where
  dead : Bool
  token : Option UInt32
  edges : List (UInt8 × NodeId)
deriving DecidableEq

def Node.sketch (node : Node State Transition) : Sketch where
  dead := node.data.isDead
  token := node.data.accepted
  edges := node.edges.toList.map fun edge => (edge.data.symbol, edge.dest)

/-- What a drawing shows of every node, in table order. -/
def Automaton.outline (automaton : Automaton) : List Sketch :=
  automaton.graph.nodes.toList.map Node.sketch

namespace Dot

/-! ## No line begins another -/

section Prefixes

variable {rest rest' : List Char}

lemma takeWhile_decimal (n : Nat) {c : Char} (hc : c.isDigit = false) :
    (decimal n ++ c :: rest).takeWhile Char.isDigit = decimal n := by
  unfold decimal
  rw [List.takeWhile_append_of_pos fun d hd => Nat.isDigit_of_mem_toDigits (by decide) (by decide) hd,
    List.takeWhile_cons_of_neg (by simp [hc]), List.append_nil]

/-- A number ends where the digits end. -/
lemma decimal_append_inj {m n : Nat} {c d : Char} (hc : c.isDigit = false) (hd : d.isDigit = false)
    (h : decimal m ++ c :: rest = decimal n ++ d :: rest') : m = n ∧ c :: rest = d :: rest' := by
  have hdigits := congrArg (List.takeWhile Char.isDigit) h
  rw [takeWhile_decimal m hc, takeWhile_decimal n hd] at hdigits
  have hnumber := congrArg (fun digits => Nat.ofDigitChars 10 digits 0) hdigits
  refine ⟨by simpa [decimal] using hnumber, ?_⟩
  rw [hdigits] at h
  exact List.append_cancel_left h

lemma ofUInt8_injective : Function.Injective Char.ofUInt8 := by
  intro a b h
  have hword : a.toUInt32 = b.toUInt32 := congrArg Char.val h
  rw [← UInt8.toUInt8_toUInt32 a, hword, UInt8.toUInt8_toUInt32]

lemma labelled_append_inj {a b : UInt8} (h : labelled a ++ rest = labelled b ++ rest') :
    a = b ∧ rest = rest' := by
  have hbackslash : '\\' = Char.ofUInt8 92 := rfl
  unfold labelled at h
  by_cases ha : a = 34 ∨ a = 92
  · by_cases hb : b = 34 ∨ b = 92
    · rw [if_pos ha, if_pos hb] at h
      simp only [List.cons_append, List.nil_append, List.cons.injEq, true_and] at h
      exact ⟨ofUInt8_injective h.1, h.2⟩
    · rw [if_pos ha, if_neg hb] at h
      simp only [List.cons_append, List.nil_append, List.cons.injEq] at h
      exact absurd (.inr (ofUInt8_injective (hbackslash ▸ h.1)).symm) hb
  · by_cases hb : b = 34 ∨ b = 92
    · rw [if_neg ha, if_pos hb] at h
      simp only [List.cons_append, List.nil_append, List.cons.injEq] at h
      exact absurd (.inr (ofUInt8_injective (hbackslash ▸ h.1))) ha
    · rw [if_neg ha, if_neg hb] at h
      simp only [List.cons_append, List.nil_append, List.cons.injEq] at h
      exact ⟨ofUInt8_injective h.1, h.2⟩

lemma shapeName_append_inj {a b : Shape} (h : a.name.toList ++ rest = b.name.toList ++ rest') :
    a = b ∧ rest = rest' := by
  cases a <;> cases b <;> simp_all [Shape.name]

/-- What follows the shape of a node. -/
def caption (id : NodeId) (token : Option UInt32) : List Char :=
  token.elim [] fun token => ",label=\"n".toList ++ (decimal id.toNat ++
    ("\\n".toList ++ (decimal token.toNat ++ "\"".toList)))

lemma caption_append_inj {id : NodeId} {a b : Option UInt32}
    (h : caption id a ++ ']' :: rest = caption id b ++ ']' :: rest') : a = b ∧ rest = rest' := by
  cases a with
  | none =>
    cases b with
    | none => simpa [caption] using h
    | some b => simp [caption] at h
  | some a =>
    cases b with
    | none => simp [caption] at h
    | some b =>
      have hcut : decimal a.toNat ++ '"' :: ']' :: rest = decimal b.toNat ++ '"' :: ']' :: rest' := by
        simpa [caption] using h
      obtain ⟨htoken, hrest⟩ := decimal_append_inj rfl rfl hcut
      exact ⟨congrArg some (UInt32.toNat_inj.mp htoken), by simpa using hrest⟩

/-- What stands in brackets after the ends of an edge, with the closing bracket. -/
def stroke (symbol : UInt8) : List Char :=
  if symbol = Transition.epsilon then "style=dotted]".toList
  else "label=\"".toList ++ labelled symbol ++ "\"]".toList

lemma stroke_append_inj {a b : UInt8} (h : stroke a ++ rest = stroke b ++ rest') :
    a = b ∧ rest = rest' := by
  unfold stroke at h
  by_cases ha : a = Transition.epsilon
  · by_cases hb : b = Transition.epsilon
    · rw [if_pos ha, if_pos hb] at h
      exact ⟨ha.trans hb.symm, List.append_cancel_left h⟩
    · rw [if_pos ha, if_neg hb] at h
      simp at h
  · by_cases hb : b = Transition.epsilon
    · rw [if_neg ha, if_pos hb] at h
      simp at h
    · rw [if_neg ha, if_neg hb] at h
      simp only [List.append_assoc, List.append_cancel_left_eq] at h
      obtain ⟨rfl, hrest⟩ := labelled_append_inj h
      exact ⟨rfl, List.append_cancel_left hrest⟩

lemma Line.chars_node (id : NodeId) (shape : Shape) (token : Option UInt32) :
    (Line.node id shape token).chars ++ rest = ' ' :: ' ' :: 'n' :: (decimal id.toNat ++
      '[' :: ("shape=".toList ++ (shape.name.toList ++ (caption id token ++ ']' :: rest)))) := by
  cases token with
  | none =>
    change "  ".toList ++ nodeName id ++ "[shape=".toList ++ shape.name.toList ++ [] ++
      "]".toList ++ rest = _
    simp [caption, nodeName]
  | some token =>
    change "  ".toList ++ nodeName id ++ "[shape=".toList ++ shape.name.toList ++
      (",label=\"".toList ++ nodeName id ++ "\\n".toList ++ decimal token.toNat ++ "\"".toList) ++
      "]".toList ++ rest = _
    simp [caption, nodeName]

lemma Line.chars_edge (source dest : NodeId) (symbol : UInt8) :
    (Line.edge source dest symbol).chars ++ rest = ' ' :: ' ' :: 'n' :: (decimal source.toNat ++
      '-' :: '>' :: 'n' :: (decimal dest.toNat ++ '[' :: (stroke symbol ++ rest))) := by
  change "  ".toList ++ nodeName source ++ "->".toList ++ nodeName dest ++
    (if symbol = Transition.epsilon then "[style=dotted]".toList
      else "[label=\"".toList ++ labelled symbol ++ "\"]".toList) ++ rest = _
  unfold stroke
  split <;> simp [nodeName]

lemma Line.chars_opening :
    Line.opening.chars ++ rest = 'd' :: ("igraph G \x7b".toList ++ rest) := rfl

lemma Line.chars_closing : Line.closing.chars ++ rest = '\x7d' :: rest := rfl

lemma Line.chars_node_inj {id id' : NodeId} {shape shape' : Shape} {token token' : Option UInt32}
    (h : (node id shape token).chars ++ '\n' :: rest = (node id' shape' token').chars ++ '\n' :: rest') :
    node id shape token = node id' shape' token' ∧ rest = rest' := by
  simp only [chars_node, List.cons.injEq, true_and] at h
  obtain ⟨hid, hshape⟩ := decimal_append_inj rfl rfl h
  obtain rfl : id = id' := congrArg NodeId.mk hid
  simp only [List.cons.injEq, true_and, List.append_cancel_left_eq] at hshape
  obtain ⟨rfl, hcaption⟩ := shapeName_append_inj hshape
  obtain ⟨rfl, hend⟩ := caption_append_inj hcaption
  exact ⟨rfl, (List.cons.inj hend).2⟩

lemma Line.chars_edge_inj {source source' dest dest' : NodeId} {symbol symbol' : UInt8}
    (h : (edge source dest symbol).chars ++ '\n' :: rest =
      (edge source' dest' symbol').chars ++ '\n' :: rest') :
    edge source dest symbol = edge source' dest' symbol' ∧ rest = rest' := by
  simp only [chars_edge, List.cons.injEq, true_and] at h
  obtain ⟨hsource, harrow⟩ := decimal_append_inj rfl rfl h
  obtain rfl : source = source' := congrArg NodeId.mk hsource
  simp only [List.cons.injEq, true_and] at harrow
  obtain ⟨hdest, hstroke⟩ := decimal_append_inj rfl rfl harrow
  obtain rfl : dest = dest' := congrArg NodeId.mk hdest
  obtain ⟨rfl, hend⟩ := stroke_append_inj (List.cons.inj hstroke).2
  exact ⟨rfl, (List.cons.inj hend).2⟩

/-- A node is named before a bracket, the source of an edge before an arrow. -/
lemma Line.chars_node_ne_edge {id source dest : NodeId} {shape : Shape} {token : Option UInt32}
    {symbol : UInt8} :
    (node id shape token).chars ++ '\n' :: rest ≠ (edge source dest symbol).chars ++ '\n' :: rest' := by
  intro h
  simp only [chars_node, chars_edge, List.cons.injEq, true_and] at h
  have hnext := (decimal_append_inj rfl rfl h).2
  simp at hnext

/-- No line begins another. -/
theorem Line.chars_append_inj {a b : Line}
    (h : a.chars ++ '\n' :: rest = b.chars ++ '\n' :: rest') : a = b ∧ rest = rest' := by
  cases a with
  | opening =>
    cases b with
    | opening => exact ⟨rfl, (List.cons.inj (List.append_cancel_left h)).2⟩
    | _ => simp [chars_opening, chars_node, chars_edge, chars_closing] at h
  | node id shape token =>
    cases b with
    | node id' shape' token' => exact chars_node_inj h
    | edge source dest symbol => exact absurd h chars_node_ne_edge
    | _ => simp [chars_opening, chars_node, chars_closing] at h
  | edge source dest symbol =>
    cases b with
    | node id shape token => exact absurd h.symm chars_node_ne_edge
    | edge source' dest' symbol' => exact chars_edge_inj h
    | _ => simp [chars_opening, chars_edge, chars_closing] at h
  | closing =>
    cases b with
    | closing => exact ⟨rfl, (List.cons.inj (List.append_cancel_left h)).2⟩
    | _ => simp [chars_opening, chars_node, chars_edge, chars_closing] at h

end Prefixes

/-! ## What the lines show -/

lemma chars_cons (line : Line) (lines : List Line) :
    chars (line :: lines) = line.chars ++ '\n' :: chars lines := by
  simp [chars]

/-- A text is the drawing of one list of lines only. -/
theorem chars_injective : Function.Injective chars := by
  intro lines
  induction lines with
  | nil =>
    intro lines' h
    cases lines' with
    | nil => rfl
    | cons line' lines' => simp [chars] at h
  | cons line lines ih =>
    intro lines' h
    cases lines' with
    | nil => simp [chars] at h
    | cons line' lines' =>
      rw [chars_cons, chars_cons] at h
      obtain ⟨rfl, hrest⟩ := Line.chars_append_inj h
      rw [ih hrest]

/-- The edges drawn before the next node, and what is drawn of the nodes from there on. -/
def gather : List Line → List (UInt8 × NodeId) × List Sketch
  | [] => ([], [])
  | .node _ shape token :: lines =>
    ([], ⟨shape = .rectangle, token, (gather lines).1⟩ :: (gather lines).2)
  | .edge _ dest symbol :: lines => ((symbol, dest) :: (gather lines).1, (gather lines).2)
  | .opening :: lines | .closing :: lines => gather lines

lemma rectangle_iff (state : State) : decide (Shape.ofState state = .rectangle) = state.isDead := by
  unfold Shape.ofState
  cases state.isDead <;> cases state.accepted <;> rfl

variable {automaton : Automaton}

lemma gather_edges (source : NodeId) {edges : List (Edge Transition)}
    (h : ∀ edge ∈ edges, labelOf automaton edge.dest = edge.dest) (lines : List Line) :
    gather (edges.map (fun edge => .edge source (labelOf automaton edge.dest) edge.data.symbol) ++
      lines) = (edges.map (fun edge => (edge.data.symbol, edge.dest)) ++ (gather lines).1,
        (gather lines).2) := by
  induction edges with
  | nil => rfl
  | cons edge edges ih =>
    rw [List.map_cons, List.cons_append, gather, ih fun other ho => h other (List.mem_cons_of_mem _ ho),
      h edge List.mem_cons_self]
    rfl

lemma gather_nodes {nodes : List (Node State Transition)}
    (h : ∀ node ∈ nodes, ∀ edge ∈ node.edges.toList, labelOf automaton edge.dest = edge.dest) :
    gather (nodes.flatMap (nodeLines automaton) ++ [.closing]) = ([], nodes.map Node.sketch) := by
  induction nodes with
  | nil => rfl
  | cons node nodes ih =>
    rw [List.flatMap_cons, List.append_assoc, nodeLines, List.cons_append, gather,
      gather_edges _ (h node List.mem_cons_self),
      ih fun other ho => h other (List.mem_cons_of_mem _ ho), List.append_nil, rectangle_iff]
    rfl

/-- A node that carries its handle is labelled with it. -/
lemma labelOf_eq (hd : automaton.picture.Dense) {id : NodeId} (hid : id.toNat < automaton.size) :
    labelOf automaton id = id := by
  obtain ⟨node, hnode⟩ := Automaton.exists_node hid
  have hlabel := hd.label_eq hid
  simp only [Automaton.picture, hnode, Option.elim_some] at hlabel
  unfold labelOf
  rw [show automaton.graph.nodes.get? id.toNat = some node from hnode]
  exact hlabel

/-- The lines of an automaton whose nodes carry their handles show its outline. -/
theorem gather_lines (ha : automaton.Settled) (hd : automaton.picture.Dense) :
    gather (lines automaton) = ([], automaton.outline) := by
  unfold lines
  rw [List.cons_append, gather]
  apply gather_nodes
  intro node hnode edge he
  obtain ⟨i, hi⟩ := List.mem_iff_getElem?.mp hnode
  have hn : automaton.node? ⟨i⟩ = some node := by
    rw [← hi, Buffer.toList, Array.getElem?_toList, Automaton.node?]
  rw [← Automaton.edgesOf_eq hn] at he
  exact labelOf_eq hd (ha.dest_lt he)

end Dot

namespace Workspace

variable {workspace other : Workspace}

/-- Workspaces that are drawn alike have the same nodes. -/
theorem Arises.outline_eq_of_text_eq (h : workspace.Arises) (h' : other.Arises)
    (heq : Dot.text workspace.automaton = Dot.text other.automaton) :
    workspace.automaton.outline = other.automaton.outline := by
  have hlines := Dot.chars_injective (String.ofList_injective heq)
  have hgather := congrArg Dot.gather hlines
  rw [Dot.gather_lines h.regular.settled h.regular.dense,
    Dot.gather_lines h'.regular.settled h'.regular.dense] at hgather
  exact congrArg Prod.snd hgather

/-- A workspace with edges that consume a quote, a backslash, a line end, a bracket and no ASCII. -/
def quoted : Except Fault Workspace := do
  let workspace ← create {}
  let (id, workspace) ← workspace.addNode
  workspace.addTransitions
    [(⟨0⟩, 34, id), (⟨0⟩, 92, ⟨0⟩), (id, 10, ⟨0⟩), (id, 93, id), (id, 200, id)]

/-- The same after a node that nothing leads to has been removed. -/
def trimmed : Except Fault Workspace := do
  let workspace ← create { compact := some true }
  let (_, workspace) ← workspace.addNode
  let (id, workspace) ← workspace.addNode
  let workspace ← workspace.addTransitions
    [(⟨0⟩, 34, id), (⟨0⟩, 92, ⟨0⟩), (id, 10, ⟨0⟩), (id, 93, id), (id, 200, id)]
  let (_, workspace) ← workspace.reduce
  return workspace

lemma arises_quoted (h : quoted = .ok workspace) : workspace.Arises := by
  unfold quoted at h
  obtain ⟨_, hcreate, h⟩ := exists_of_bind_eq_ok h
  obtain ⟨⟨_, _⟩, hnode, h⟩ := exists_of_bind_eq_ok h
  exact ((Arises.create hcreate).use (.addNode trivial hnode)).addTransitions h

lemma arises_trimmed (h : trimmed = .ok workspace) : workspace.Arises := by
  unfold trimmed at h
  obtain ⟨_, hcreate, h⟩ := exists_of_bind_eq_ok h
  obtain ⟨⟨_, _⟩, hfirst, h⟩ := exists_of_bind_eq_ok h
  obtain ⟨⟨_, _⟩, hsecond, h⟩ := exists_of_bind_eq_ok h
  obtain ⟨_, hlinks, h⟩ := exists_of_bind_eq_ok h
  obtain ⟨⟨_, _⟩, hreduce, h⟩ := exists_of_bind_eq_ok h
  cases h
  have hnodes := ((Arises.create hcreate).use (.addNode trivial hfirst)).use
    (.addNode trivial hsecond)
  exact (hnodes.addTransitions hlinks).use (.reduce trivial hreduce)

theorem Arises.outline_eq_of_text_eq_quoted : ∃ workspace other, quoted = .ok workspace ∧
    trimmed = .ok other ∧ workspace.Arises ∧ other.Arises ∧
    Dot.text workspace.automaton = Dot.text other.automaton ∧
    workspace.automaton.outline = other.automaton.outline := by
  have hsame : (quoted.toOption.any fun workspace => trimmed.toOption.any fun other =>
      decide (Dot.chars (Dot.lines workspace.automaton) =
        Dot.chars (Dot.lines other.automaton))) = true := by decide +kernel
  obtain ⟨workspace, hquoted, hsame⟩ := exists_of_any hsame
  obtain ⟨other, htrimmed, hsame⟩ := exists_of_any hsame
  have htext : Dot.text workspace.automaton = Dot.text other.automaton :=
    congrArg String.ofList (of_decide_eq_true hsame)
  have harises := arises_quoted hquoted
  have harises' := arises_trimmed htrimmed
  exact ⟨workspace, other, hquoted, htrimmed, harises, harises', htext,
    harises.outline_eq_of_text_eq harises' htext⟩

end Workspace

end PatternAutomata
