import PatternAutomata.Automaton

/-!
# Automata as DOT text

An automaton is drawn line by line: every node in table order, each followed by the edges that leave
it. Dead nodes are rectangles, accepting nodes double circles, other nodes circles; an accepting
node's label has its token on a second line. Edges that consume nothing are dotted. A byte is
written as the character with its number, except that a quote and a backslash get a backslash in
front.
-/

namespace PatternAutomata

namespace Dot

/-- How a node is drawn. -/
inductive Shape where
  | rectangle
  | doubleCircle
  | circle
deriving DecidableEq

/-- The shape of a node in a given state. -/
def Shape.ofState (state : State) : Shape :=
  if state.isDead then rectangle
  else if state.accepted.isSome then doubleCircle
  else circle

def Shape.name : Shape → String
  | rectangle => "rectangle"
  | doubleCircle => "doublecircle"
  | circle => "circle"

/-- A line of a drawing. -/
inductive Line where
  | opening
  /-- A node, with its token if it accepts. -/
  | node (id : NodeId) (shape : Shape) (token : Option UInt32)
  /-- An edge and the byte it consumes, or zero. -/
  | edge (source dest : NodeId) (symbol : UInt8)
  | closing
deriving DecidableEq

/-- The digits of a number. -/
def decimal (n : Nat) : List Char := Nat.toDigits 10 n

def nodeName (id : NodeId) : List Char := 'n' :: decimal id.toNat

/-- A byte inside a quoted label. -/
def labelled (symbol : UInt8) : List Char :=
  if symbol = 34 ∨ symbol = 92 then ['\\', Char.ofUInt8 symbol] else [Char.ofUInt8 symbol]

/-- The characters of a line, without its end. -/
def Line.chars : Line → List Char
  | opening => "digraph G \x7b".toList
  | node id shape token =>
    "  ".toList ++ nodeName id ++ "[shape=".toList ++ shape.name.toList ++
      (match token with
        | some token =>
          ",label=\"".toList ++ nodeName id ++ "\\n".toList ++ decimal token.toNat ++ "\"".toList
        | none => []) ++
      "]".toList
  | edge source dest symbol =>
    "  ".toList ++ nodeName source ++ "->".toList ++ nodeName dest ++
      (if symbol = Transition.epsilon then "[style=dotted]".toList
        else "[label=\"".toList ++ labelled symbol ++ "\"]".toList)
  | closing => "\x7d".toList

/-- The label of the node with a handle. -/
def labelOf (automaton : Automaton) (id : NodeId) : NodeId :=
  match automaton.graph.nodes.get? id.toNat with
  | some node => node.data.id
  | none => id

/-- The lines of a node and of the edges that leave it. -/
def nodeLines (automaton : Automaton) (node : Node State Transition) : List Line :=
  .node node.data.id (.ofState node.data) node.data.accepted ::
    node.edges.toList.map fun edge =>
      .edge node.data.id (labelOf automaton edge.dest) edge.data.symbol

/-- The lines of an automaton. -/
def lines (automaton : Automaton) : List Line :=
  .opening :: automaton.graph.nodes.toList.flatMap (nodeLines automaton) ++ [.closing]

/-- The text of some lines, each with its end. -/
def chars (lines : List Line) : List Char := lines.flatMap fun line => line.chars ++ ['\n']

/-- The DOT text of an automaton. -/
def text (automaton : Automaton) : String := String.ofList (chars (lines automaton))

/-- What has been written once the room for a text was used up. -/
structure Excerpt where
  complete : Bool
  bytes : List UInt8

/-- The characters that bytes of a text stand for. A character cut off in its middle is replaced by
the replacement character. -/
def Excerpt.text (excerpt : Excerpt) : String :=
  let bytes := excerpt.bytes
  let whole := (List.range (bytes.length + 1)).reverse.findSome? fun size =>
    (String.fromUTF8? (bytes.take size).toByteArray).map fun text => (size, text)
  match whole with
  | none => ""
  | some (size, text) => if size = bytes.length then text else text ++ "\uFFFD"

/-- Writes the DOT text of an automaton into room for `limit` bytes. -/
def excerpt (automaton : Automaton) (limit : Nat) : Excerpt :=
  let bytes := (text automaton).toUTF8.toList
  ⟨bytes.length ≤ limit, bytes.take limit⟩

end Dot

end PatternAutomata
