import PatternAutomata.PatternError
import PatternAutomata.Regex

/-!
# Reading regular expressions

A pattern is read by recursive descent. A repetition sign binds tightest, then juxtaposition, then
the bar; parentheses group; every other ASCII byte stands for itself. Juxtaposition and the bar
group to the left. After an operand, operators are taken in a loop as long as they bind tightly
enough; what stands right of an operator is read in the same way, with operators that bind tighter
still. A group is read like a pattern, one level deeper. A pattern that cannot be read is reported
at the first byte that shows it, together with the subexpressions that were complete by then.
-/

namespace PatternAutomata

namespace Regex

/-- What a byte means in a pattern. -/
inductive Lexeme where
  | opening
  | closing
  | repetition
  | bar
  /-- A byte that stands for itself. -/
  | plain (byte : UInt8)
  /-- A byte that no pattern may contain. -/
  | foreign
deriving DecidableEq

/-- The meaning of a byte. -/
def Lexeme.ofByte (byte : UInt8) : Lexeme :=
  if byte = '('.toUInt8 then opening
  else if byte = ')'.toUInt8 then closing
  else if byte = '*'.toUInt8 then repetition
  else if byte = '|'.toUInt8 then bar
  else if byte < 128 then plain byte
  else foreign

/-- How tightly the operator binds that a byte after an operand stands for. A byte that is not an
operator begins the next operand, which is juxtaposed. -/
def Lexeme.precedence : Lexeme → Nat
  | bar => 1
  | repetition => 3
  | _ => 2

/-- Why and where reading stopped. -/
structure Failure where
  defect : Defect
  /-- The index of the byte that shows it. -/
  index : Nat
  /-- The subexpressions that were complete, from left to right. -/
  pieces : List Regex

/-- A failure right of what had been read before. -/
def Failure.behind (failure : Failure) (before : List Regex) : Failure :=
  { failure with pieces := before ++ failure.pieces }

/-- What is read right of a subexpression that is complete. -/
def rightOf {α : Type} (left : Regex) : Except Failure α → Except Failure α :=
  Except.mapError fun failure => failure.behind [left]

/-- The beginning of a text of the given length that has been read, and the rest of it. -/
structure Progress (length : Nat) where
  regex : Regex
  /-- The index in the pattern of the first byte of the rest. -/
  index : Nat
  rest : List UInt8
  shorter : rest.length < length

mutual

/-- Reads a byte that stands for itself, or a group. `depth` groups are open, and `index` is the
position of the first byte. -/
def readOperand (limit depth : UInt32) (index : Nat) (text : List UInt8) :
    Except Failure (Progress text.length) :=
  match text with
  | [] => .error ⟨.expectedOperand, index, []⟩
  | byte :: rest =>
    match Lexeme.ofByte byte with
    | .bar | .repetition => .error ⟨.unexpectedOperator, index, []⟩
    | .closing => .error ⟨.unopenedGroup, index, []⟩
    | .opening =>
      if limit ≤ depth then .error ⟨.nestLimitExceeded limit, index, []⟩
      else
        match readJoined limit (depth + 1) 0 (index + 1) rest with
        | .error failure => .error failure
        | .ok ⟨inner, index, [], _⟩ => .error ⟨.unclosedGroup, index, [inner]⟩
        | .ok ⟨inner, index, byte :: after, shorter⟩ =>
          if Lexeme.ofByte byte = .closing then
            .ok ⟨inner, index + 1, after, Nat.lt_succ_of_lt (Nat.lt_of_succ_lt shorter)⟩
          else .error ⟨.unclosedGroup, index, [inner]⟩
    | .foreign => .error ⟨.nonAscii, index, []⟩
    | .plain byte => .ok ⟨literal byte, index + 1, rest, Nat.lt_succ_self _⟩
termination_by 3 * text.length

/-- Reads operands joined by operators that bind at least as tightly as `least`. -/
def readJoined (limit depth : UInt32) (least index : Nat) (text : List UInt8) :
    Except Failure (Progress text.length) := do
  let left ← readOperand limit depth index text
  readOperators limit depth least left
termination_by 3 * text.length + 1
decreasing_by
  · omega
  · have := left.shorter
    omega

/-- Goes on after an operand while operators follow that bind at least as tightly as `least`. -/
def readOperators (limit depth : UInt32) (least : Nat) {length : Nat} (left : Progress length) :
    Except Failure (Progress length) :=
  match left with
  | ⟨left, index, [], shorter⟩ => .ok ⟨left, index, [], shorter⟩
  | ⟨left, index, byte :: rest, shorter⟩ =>
    let lexeme := Lexeme.ofByte byte
    if lexeme = .closing ∨ lexeme.precedence < least then
      .ok ⟨left, index, byte :: rest, shorter⟩
    else
      match lexeme with
      | .repetition =>
        readOperators limit depth least ⟨star left, index + 1, rest, Nat.lt_of_succ_lt shorter⟩
      | .bar => do
        let right ← rightOf left (readJoined limit depth (lexeme.precedence + 1) (index + 1) rest)
        readOperators limit depth least ⟨alternate left right.regex, right.index, right.rest,
          Nat.lt_trans right.shorter (Nat.lt_of_succ_lt shorter)⟩
      | _ => do
        let right ←
          rightOf left (readJoined limit depth (lexeme.precedence + 1) index (byte :: rest))
        readOperators limit depth least ⟨concat left right.regex, right.index, right.rest,
          Nat.lt_trans right.shorter shorter⟩
termination_by 3 * left.rest.length + 2
decreasing_by
  · simp only [List.length_cons]
    omega
  · simp only [List.length_cons]
    omega
  · have := right.shorter
    simp only [List.length_cons]
    omega
  · simp only [List.length_cons]
    omega
  · have := right.shorter
    simp only [List.length_cons] at this ⊢
    omega

end

/-- Reads a pattern whose groups may nest `limit` deep. -/
def parse (limit : UInt32) (pattern : List UInt8) : Except Failure Regex :=
  match readJoined limit 0 0 0 pattern with
  | .error failure => .error failure
  | .ok ⟨regex, _, [], _⟩ => .ok regex
  -- nothing but a closing parenthesis ends the outermost loop early
  | .ok ⟨regex, index, _ :: _, _⟩ => .error ⟨.unopenedGroup, index, [regex]⟩

end Regex

end PatternAutomata
