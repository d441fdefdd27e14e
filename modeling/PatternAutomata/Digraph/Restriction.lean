import PatternAutomata.Digraph

/-!
# Restricting a digraph to some of its nodes

The nodes that pass a test keep their order and are numbered anew without gaps. Edges to other nodes
are dropped; the remaining edges keep their order and lead where they led before.
-/

namespace PatternAutomata

variable {σ τ : Type}

/-- An edge with its destination looked up in a table of new handles, if it has one there. -/
def Edge.redirect (table : Buffer (Option NodeId)) (edge : Edge τ) :
    Except Fault (Option (Edge τ)) := do
  let handle ← table.fetch edge.dest.toNat
  return handle.map fun dest => { edge with dest }

/-- A node whose edges lead to new handles; edges without one are dropped. -/
def Node.redirect (table : Buffer (Option NodeId)) (node : Node σ τ) : Except Fault (Node σ τ) := do
  let edges ← node.edges.toList.filterMapM (Edge.redirect table)
  return { node with edges := { node.edges with data := edges.toArray } }

namespace Digraph

/-- New handles, counted up from a number, for those that are to be kept. -/
def renumber : Nat → List Bool → List (Option NodeId)
  | _, [] => []
  | next, true :: kept => some ⟨next⟩ :: renumber (next + 1) kept
  | next, false :: kept => none :: renumber next kept

/-- Whether each node passes a test, in table order. -/
def tested (graph : Digraph σ τ) (keep : NodeId → Node σ τ → Bool) : List Bool :=
  graph.nodes.toList.mapIdx fun index node => keep ⟨index⟩ node

/-- The nodes that have a new handle, in table order. -/
def survivors (graph : Digraph σ τ) (table : Array (Option NodeId)) : List (Node σ τ) :=
  (graph.nodes.toList.zip table.toList).filterMap fun (node, handle) => handle.map fun _ => node

/-- Moves nodes to a table of their own, with their edges led to new handles. Room for the nodes is
made before the first edge is looked at. -/
def rehouse [Footprint σ] (table : Buffer (Option NodeId)) (nodes : List (Node σ τ)) :
    Charged (Digraph σ τ) := do
  let room ← (Buffer.empty : Buffer (Node σ τ)).reserve nodes.length.toUInt64
  let redirected ← (nodes.mapM (Node.redirect table) : Except Fault (List (Node σ τ)))
  return { nodes := { room with data := redirected.toArray } }

/-- Keeps the nodes that pass a test, and gives each old node's new handle. -/
def restrict [Footprint σ] (graph : Digraph σ τ) (keep : NodeId → Node σ τ → Bool) :
    Charged (Buffer (Option NodeId) × Digraph σ τ) := do
  let table ← Buffer.ofList (renumber 0 (graph.tested keep))
  let after ← rehouse table (graph.survivors table.data)
  return (table, after)

end Digraph

end PatternAutomata
