import PatternAutomata.Table

/-!
# Digraphs in one node table

A digraph owns its nodes in one table, and every node owns the list of edges that leave it, in the
order in which they were added. Edges name their destinations by handle. Nodes and edges carry data.
-/

namespace PatternAutomata

/-- An edge, as its source lists it. -/
structure Edge (τ : Type) where
  dest : NodeId
  data : τ

/-- A node and the edges that leave it. -/
structure Node (σ τ : Type) where
  data : σ
  /-- The edges that leave the node, in the order in which they were added. -/
  edges : Buffer (Edge τ) := {}

/-- An edge is a handle and what it carries. -/
instance {τ : Type} [Footprint τ] : Footprint (Edge τ) := ⟨wholeWords (4 + Footprint.bytes τ)⟩

/-- A node is what it carries and four words that describe its edges. -/
instance {σ τ : Type} [Footprint σ] : Footprint (Node σ τ) := ⟨wholeWords (Footprint.bytes σ) + 32⟩

/-- Nodes that carry `σ`, joined by edges that carry `τ`. -/
structure Digraph (σ τ : Type) where
  nodes : Buffer (Node σ τ) := {}

namespace Digraph

variable {σ τ : Type}

def empty : Digraph σ τ := {}

def size (graph : Digraph σ τ) : Nat := graph.nodes.size

def edgeCount (graph : Digraph σ τ) : Nat :=
  graph.nodes.data.foldl (fun count node => count + node.edges.size) 0

/-- The node with a handle that should have one. -/
def node (graph : Digraph σ τ) (id : NodeId) : Except Fault (Node σ τ) := graph.nodes.fetch id.toNat

/-- Changes the node with a handle that should have one. -/
@[inline] def modify (graph : Digraph σ τ) (id : NodeId) (f : Node σ τ → Node σ τ) :
    Except Fault (Digraph σ τ) :=
  if id.toNat < graph.size then .ok { nodes := graph.nodes.modify id.toNat f }
  else .error .outOfBounds

/-- Changes what the node with a handle carries. -/
@[inline] def modifyData (graph : Digraph σ τ) (id : NodeId) (f : σ → σ) :
    Except Fault (Digraph σ τ) :=
  graph.modify id fun node => { node with data := f node.data }

/-- Changes what every node carries, given the node's handle. -/
@[inline] def mapData (graph : Digraph σ τ) (f : NodeId → σ → σ) : Digraph σ τ :=
  { nodes := { graph.nodes with
      data := graph.nodes.data.mapIdx fun index node => { node with data := f ⟨index⟩ node.data } } }

/-- Adds a node without edges and gives its handle, the number of nodes before it. -/
def addNode [Footprint σ] (graph : Digraph σ τ) (data : σ) : Charged (NodeId × Digraph σ τ) := do
  let id ← NodeId.require graph.size
  let nodes ← graph.nodes.push { data }
  return (id, { nodes })

/-- Adds an edge after the other edges of its source. -/
def link [Footprint τ] (graph : Digraph σ τ) (source dest : NodeId) (data : τ) :
    Charged (Digraph σ τ) := do
  if graph.size ≤ dest.toNat then throw (.missingDestination dest)
  let edges := (← graph.node source).edges
  let capacity ← edges.makeRoom edges.sizeAfterPush
  graph.modify source fun node => { node with edges := node.edges.append capacity ⟨dest, data⟩ }

/-- Changes what the edge added last to a node carries. -/
def relabelLast (graph : Digraph σ τ) (source : NodeId) (data : τ) : Except Fault (Digraph σ τ) :=
  graph.modify source fun node =>
    match node.edges.back? with
    | none => node
    | some edge => { node with edges := node.edges.setBack { edge with data } }

end Digraph

end PatternAutomata
