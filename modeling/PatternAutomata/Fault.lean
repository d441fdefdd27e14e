import PatternAutomata.NodeId

/-!
# Faults

A fault ends the operation that meets it. Faults are not about the input's meaning: each says that
a limit fixed beforehand is too small, that a handle does not belong to the table it is used on, or
that the result of a calculation is not a word.
-/

namespace PatternAutomata

/-- Why an operation was abandoned. -/
inductive Fault where
  /-- A request does not fit what is left of an arena of the given capacity. -/
  | arenaExhausted (capacity : UInt64)
  | bufferTooLarge
  /-- A position exceeds the greatest handle. -/
  | handleTooLarge (attempted : Nat)
  /-- An edge was to lead to a node that is not there. -/
  | missingDestination (id : NodeId)
  /-- A position was used that is not there. -/
  | outOfBounds
  /-- A key found neither itself nor a free slot in a whole round through the table. -/
  | tableFull
  /-- A walk outlived the bound on its length. -/
  | endless
  /-- A walk was to begin while nodes were still marked by another. -/
  | marksLeft
  /-- A sum of words was too large for a word. -/
  | sumOverflow
  /-- A word was to be subtracted from a smaller one. -/
  | differenceOverflow
deriving DecidableEq

namespace Fault

def message : Fault → String
  | arenaExhausted capacity => s!"arena cannot exceed total of {capacity} bytes"
  | bufferTooLarge => "capacity overflow"
  | handleTooLarge attempted =>
    s!"failed to create NodeId from {attempted}, which exceeds {NodeId.greatest.describe}"
  | missingDestination id => s!"destination {id.describe} is not in the graph"
  | outOfBounds => "position out of bounds"
  | tableFull => "map is unexpectedly full"
  | endless => "a walk does not end"
  | marksLeft => "assertion failed: ctx.visited.is_empty()"
  | sumOverflow => "attempt to add with overflow"
  | differenceOverflow => "attempt to subtract with overflow"

end Fault

/-- The handle at a position, or the fault that says the position has none. -/
def NodeId.require (position : Nat) : Except Fault NodeId :=
  match NodeId.ofNat? position with
  | some id => .ok id
  | none => .error (.handleTooLarge position)

end PatternAutomata
