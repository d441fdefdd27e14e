import PatternAutomata.Automaton
import PatternAutomata.Regex

/-!
# Automata from regular expressions

Thompson's construction: every expression becomes a fragment with one entry and one exit, and the
fragments of its parts are joined by edges that consume nothing. Nodes are added in the order in
which the expression's parts end, so a part's nodes come before those of the whole.
-/

namespace PatternAutomata

/-- The part of an automaton that stands for an expression. -/
structure Fragment where
  entry : NodeId
  exit : NodeId

namespace Automaton

/-- Adds an edge that consumes nothing. -/
def addEpsilon (source dest : NodeId) : Editing Unit := addTransition source Transition.epsilon dest

/-- Adds an entry and an exit. -/
def addFragment : Editing Fragment := do
  let entry ← addNode
  let exit ← addNode
  return { entry, exit }

/-- Adds the fragment of an expression. -/
def assemble : Regex → Editing Fragment
  | .literal byte => do
    let fragment ← addFragment
    addTransition fragment.entry byte fragment.exit
    return fragment
  | .concat first second => do
    let first ← assemble first
    let second ← assemble second
    addEpsilon first.exit second.entry
    return { entry := first.entry, exit := second.exit }
  | .alternate left right => do
    let left ← assemble left
    let right ← assemble right
    let fragment ← addFragment
    addEpsilon fragment.entry left.entry
    addEpsilon fragment.entry right.entry
    addEpsilon left.exit fragment.exit
    addEpsilon right.exit fragment.exit
    return fragment
  | .star inner => do
    let inner ← assemble inner
    let fragment ← addFragment
    addEpsilon inner.exit inner.entry
    addEpsilon fragment.entry fragment.exit
    addEpsilon fragment.entry inner.entry
    addEpsilon inner.exit fragment.exit
    return fragment

/-- Adds the fragments of several expressions that nothing joins. -/
def assembleAll : List Regex → Editing Unit
  | [] => return
  | regex :: rest => do
    let _ ← assemble regex
    assembleAll rest

end Automaton

end PatternAutomata
