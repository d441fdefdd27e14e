import PatternAutomata.Workspace

/-!
# Building automata from patterns

A builder compiles one or more patterns into one automaton and reduces it. It stops at the first
pattern that is rejected.
-/

namespace PatternAutomata

/-- Options under which automata are built. -/
structure Builder where
  config : Config := {}

/-- How building an automaton ended, and what was reported on the way. -/
structure Built where
  /-- The reduced automaton, or why a pattern was rejected. -/
  result : Except PatternError Workspace
  messages : List Message

namespace Builder

/-- Lays options over those of a builder. -/
def configure (builder : Builder) (config : Config) : Builder := ⟨builder.config.overlay config⟩

/-- Adds patterns with their tokens to an automaton and then reduces it. -/
def finish (workspace : Workspace) (messages : List Message) :
    List (UInt32 × String) → Except Fault Built
  | [] => do
    let (reports, workspace) ← workspace.reduce
    return ⟨.ok workspace, messages ++ reports⟩
  | (token, pattern) :: rest => do
    let (compiled, workspace) ← workspace.addPattern token pattern
    let messages := messages ++ [compiled.message]
    match compiled.result with
    | .ok _ => finish workspace messages rest
    | .error error => return ⟨.error error, messages⟩

/-- Compiles patterns with given tokens into one automaton. -/
def buildTokens (builder : Builder) (patterns : List (UInt32 × String)) : Except Fault Built := do
  finish (← Workspace.create builder.config) [] patterns

/-- The token of the pattern at a position: the position, or the reserved token if it is no word. -/
def tokenAt (position : Nat) : UInt32 :=
  if position < UInt32.size then position.toUInt32 else State.noToken

/-- Compiles patterns into one automaton. The first pattern has the token zero, and so on. -/
def buildMany (builder : Builder) (patterns : List String) : Except Fault Built :=
  builder.buildTokens (patterns.mapIdx fun position pattern => (tokenAt position, pattern))

/-- Compiles one pattern with a given token. -/
def build (builder : Builder) (token : UInt32) (pattern : String) : Except Fault Built :=
  builder.buildTokens [(token, pattern)]

end Builder

end PatternAutomata
