import PatternAutomata.Automaton.Thompson
import PatternAutomata.Message
import PatternAutomata.Regex.Reader

/-!
# Adding patterns to an automaton

A pattern is compiled into a fragment whose exit accepts with the pattern's token. A pattern that is
rejected leaves behind the fragments of the subexpressions that were complete by then; nothing leads
to them and none of them accepts.
-/

namespace PatternAutomata

/-- What reading a pattern came to if it is rejected. -/
structure Rejection where
  error : PatternError
  /-- The subexpressions that were complete. -/
  pieces : List Regex
  /-- What is reported about it. -/
  notice : String

/-- Reads the pattern of a token. The token is looked at first, then zero bytes anywhere in the
pattern, then the pattern's form. -/
def readPattern (nestLimit token : UInt32) (pattern : String) : Except Rejection Regex :=
  let bytes := pattern.toUTF8.toList
  if token = State.noToken then
    .error ⟨.reservedToken token, [], s!"rejecting reserved accept token {token}"⟩
  else match bytes.findIdx? (fun byte => byte = 0) with
    | some index =>
      .error ⟨.malformed .nulByte index pattern, [], s!"rejecting pattern with NUL at {index}"⟩
    | none =>
      match Regex.parse nestLimit bytes with
      | .ok regex => .ok regex
      | .error failure =>
        let error := .malformed failure.defect failure.index pattern
        .error ⟨error, failure.pieces, error.message⟩

/-- How adding a pattern ended, and what is reported about it. -/
structure Compiled where
  /-- The entry of the pattern's fragment, or why the pattern was rejected. -/
  result : Except PatternError NodeId
  message : Message

namespace Automaton

/-- Adds the fragment of a pattern, which nothing leads to yet. -/
def addFragmentOf (nestLimit token : UInt32) (pattern : String) : Editing Compiled := do
  match readPattern nestLimit token pattern with
  | .error rejection =>
    assembleAll rejection.pieces
    return ⟨.error rejection.error, ⟨.debug, rejection.notice⟩⟩
  | .ok regex =>
    let fragment ← assemble regex
    modifyState fragment.exit fun state => { state with token }
    let size := (← get).graph.size
    let arena ← getThe Arena
    return ⟨.ok fragment.entry,
      ⟨.trace, s!"compiled pattern '{pattern}', graph now has {size} nodes, {arena.summary}"⟩⟩

/-- Adds the fragment of a pattern and an edge to it from the entry that consumes nothing. -/
def addPattern (nestLimit token : UInt32) (pattern : String) : Editing Compiled := do
  let compiled ← addFragmentOf nestLimit token pattern
  if let .ok fragment := compiled.result then
    addEpsilon (← get).entry fragment
  return compiled

end Automaton

end PatternAutomata
