import PatternAutomata.Digraph

/-!
# Depth-first post order

Every node once, each after all that its edges lead to, except where a cycle forbids it. Roots are
taken in table order and edges in the order in which they were added. The walk keeps its own stack
of nodes, each with the number of its edges already followed, and charges the arena for the stack,
for the set of nodes met and for the order it builds.
-/

namespace PatternAutomata

namespace Digraph

variable {σ τ : Type}

/-- How far a depth-first walk has come. -/
structure Walk where
  /-- Nodes left behind, in the order in which they were left. -/
  order : Buffer NodeId
  met : KeySet (@Fnv.ofKey NodeId _) := {}
  /-- Nodes entered and not yet left, each with the number of its edges already followed. -/
  stack : Buffer (NodeId × Nat) := {}

namespace Walk

/-- Meets a node, and enters it if it was not met before. -/
def enter : Walk → NodeId → Charged Walk
  | ⟨order, met, stack⟩, id => do
    let (known, met) ← met.insert id
    match known with
    | some _ => return ⟨order, met, stack⟩
    | none => return ⟨order, met, ← stack.push (id, 0)⟩

/-- Follows the next edge of the node entered last, or leaves it if no edge is left. -/
def advance (graph : Digraph σ τ) : Walk → NodeId → Nat → Charged Walk
  | ⟨order, met, stack⟩, id, followed => do
    match (← graph.node id).edges.get? followed with
    | some edge => enter ⟨order, met, stack.setBack (id, followed + 1)⟩ edge.dest
    | none => return ⟨← order.push id, met, stack.pop.2⟩

/-- Advances until every node entered has been left, for at most the given number of steps. -/
def run (graph : Digraph σ τ) : Nat → Walk → Charged Walk
  | 0, _ => throw .endless
  | steps + 1, walk =>
    match walk.stack.back? with
    | none => return walk
    | some (id, followed) => do run graph steps (← advance graph walk id followed)

end Walk

/-- More steps than a depth-first walk can take: one for each edge, one for each node. -/
def walkBound (graph : Digraph σ τ) : Nat := graph.edgeCount + graph.size + 1

/-- The nodes in depth-first post order. -/
def postOrder (graph : Digraph σ τ) : Charged (Buffer NodeId) := do
  let order ← (Buffer.empty : Buffer NodeId).reserve graph.size.toUInt64
  let bound := graph.walkBound
  let walk ← (List.range graph.size).foldlM
    (fun (walk : Walk) root => do Walk.run graph bound (← walk.enter ⟨root⟩)) { order }
  return walk.order

end Digraph

end PatternAutomata
