/-!
# Handles to the nodes of a digraph

A `NodeId` names a node by its position in the node table. Positions are bounded so that a handle
always fits a signed 32-bit word.
-/

namespace PatternAutomata

/-- A handle to a node: its position in the node table. -/
structure NodeId where
  toNat : Nat
deriving DecidableEq

namespace NodeId

/-- The largest handle, two less than the number of nonnegative 32-bit integers. -/
def greatest : NodeId := ⟨2147483646⟩

/-- How many nodes one table may hold. -/
def limit : Nat := greatest.toNat + 1

def zero : NodeId := ⟨0⟩

/-- The handle at a position, if the position is small enough to have one. -/
def ofNat? (position : Nat) : Option NodeId :=
  if position ≤ greatest.toNat then some ⟨position⟩ else none

/-- The handle made of the low 32 bits of a number, which may lie beyond the greatest one. -/
def truncate (n : Nat) : NodeId := ⟨n % 4294967296⟩

def compare (a b : NodeId) : Ordering := Ord.compare a.toNat b.toNat

instance : Ord NodeId := ⟨compare⟩

/-- The later of two handles. -/
def latest (a b : NodeId) : NodeId := if a.toNat ≤ b.toNat then b else a

def describe (id : NodeId) : String := s!"NodeId({id.toNat})"

end NodeId

end PatternAutomata
