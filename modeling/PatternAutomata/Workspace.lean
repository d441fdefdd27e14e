import PatternAutomata.Automaton.Pattern
import PatternAutomata.Automaton.Reduction
import PatternAutomata.Config

/-!
# An automaton and the budget it is built from

A workspace holds an automaton, the arena that pays for it and the options chosen for both. Its
operations are those of the automaton; one that ends in a fault leaves no workspace behind.
-/

namespace PatternAutomata

/-- An automaton under construction, its arena and its options. -/
structure Workspace where
  /-- What pays for the automaton. -/
  arena : Arena
  automaton : Automaton
  config : Config

namespace Workspace

/-- Runs a computation on the automaton at the expense of the arena. -/
@[inline] def edit {α : Type} (workspace : Workspace) (editing : Editing α) :
    Except Fault (α × Workspace) := do
  let ⟨arena, automaton, config⟩ := workspace
  let ((value, automaton), arena) ← (editing.run automaton).run arena
  return (value, { arena, automaton, config })

/-- A workspace whose automaton has an entry node only. -/
def create (config : Config) : Except Fault Workspace := do
  let workspace : Workspace := ⟨{ capacity := config.chosenArenaCapacity }, {}, config⟩
  let ((), workspace) ← workspace.edit Automaton.start
  return workspace

def addNode (workspace : Workspace) : Except Fault (NodeId × Workspace) :=
  workspace.edit Automaton.addNode

def addTransition (workspace : Workspace) (source : NodeId) (symbol : UInt8) (dest : NodeId) :
    Except Fault Workspace := do
  let ((), workspace) ← workspace.edit (Automaton.addTransition source symbol dest)
  return workspace

/-- Adds the fragment of a pattern, which nothing leads to yet. -/
def addFragmentOf (workspace : Workspace) (token : UInt32) (pattern : String) :
    Except Fault (Compiled × Workspace) :=
  workspace.edit (Automaton.addFragmentOf workspace.config.chosenNestLimit token pattern)

/-- Adds the fragment of a pattern and an edge to it from the entry. -/
def addPattern (workspace : Workspace) (token : UInt32) (pattern : String) :
    Except Fault (Compiled × Workspace) :=
  workspace.edit (Automaton.addPattern workspace.config.chosenNestLimit token pattern)

/-- Removes every edge that consumes nothing, and the dead nodes if that option is chosen. -/
def reduce (workspace : Workspace) : Except Fault (List Message × Workspace) :=
  workspace.edit (Automaton.reduce workspace.config.chosenCompact)

end Workspace

end PatternAutomata
