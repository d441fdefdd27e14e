import PatternAutomata.Automaton
import PatternAutomata.Message

/-!
# Reduction

Reduction removes every edge that consumes nothing and keeps what the automaton accepts. Each node
takes over the transitions and the least token of all nodes that it reaches without consuming a
byte, and then gives up its own edges that consume nothing. Afterwards the references are counted
anew: only edges that leave nodes reachable from the entry count, and the entry counts one more.
Nodes left without a reference are dead, and can be removed from the table.
-/

namespace PatternAutomata

namespace Automaton

/-- Marks a node as met by the walk under way. -/
def mark (id : NodeId) : Editing Unit := do
  modifyState id fun state => { state with visited := true }
  let automaton ← get
  let visited ← automaton.visited.push id
  set { automaton with visited }

/-- Marks the destinations of those edges that a test admits, unless they are marked. -/
def markDests (admits : Transition → Bool) : List (Edge Transition) → Editing Unit
  | [] => return
  | edge :: rest => do
    if admits edge.data then
      if !(← nodeAt edge.dest).data.visited then mark edge.dest
    markDests admits rest

/-- Follows the edges that a test admits from each marked node in turn, from the `next`-th on, until
every marked node has had its turn. -/
def spread (admits : Transition → Bool) : Nat → Nat → Editing Unit
  | 0, _ => throw .endless
  | steps + 1, next => do
    match (← get).visited.get? next with
    | none => return
    | some id =>
      markDests admits (← nodeAt id).edges.toList
      spread admits steps (next + 1)

/-- Marks a node and all that it reaches along edges that a test admits. -/
def markReachable (admits : Transition → Bool) (start : NodeId) : Editing Unit := do
  mark start
  spread admits ((← get).graph.size + 1) 0

/-- Marks a node and all that it reaches along edges that consume nothing. No other walk may be under
way. -/
def markClosure (start : NodeId) : Editing Unit := do
  if !(← get).visited.data.isEmpty then throw .marksLeft
  markReachable Transition.isEpsilon start

/-- Takes the marks off nodes. -/
def unmarkAll : List NodeId → Editing Unit
  | [] => return
  | id :: rest => do
    modifyState id fun state => { state with visited := false }
    unmarkAll rest

/-- Ends the walk under way: every marked node loses its mark. -/
def clearMarks : Editing Unit := do
  unmarkAll (← get).visited.toList
  modify fun automaton => { automaton with visited := automaton.visited.clear }

/-- Remembers a transition, and tells whether it is new. -/
def remember (edge : Edge Transition) : Editing Bool := do
  let automaton ← get
  let (known, seen) ← automaton.seen.insert (edge.data.symbol, edge.dest)
  set { automaton with seen }
  return known.isNone

/-- Remembers the transitions among some edges. -/
def rememberAll : List (Edge Transition) → Editing Unit
  | [] => return
  | edge :: rest => do
    if !edge.data.isEpsilon then
      let _ ← remember edge
    rememberAll rest

/-- Gives a node those transitions among some edges that it does not have yet. -/
def adopt (id : NodeId) : List (Edge Transition) → Editing Unit
  | [] => return
  | edge :: rest => do
    if !edge.data.isEpsilon then
      if ← remember edge then addTransition id edge.data.symbol edge.dest
    adopt id rest

/-- Gives a node the transitions of others, and gives back the least of their tokens and another. -/
def absorb (id : NodeId) : UInt32 → List NodeId → Editing UInt32
  | token, [] => return token
  | token, member :: rest => do
    let node ← nodeAt member
    adopt id node.edges.toList
    absorb id (if node.data.token < token then node.data.token else token) rest

/-- Takes the edges that consume nothing out of a list of edges, from a position on. The last edge
takes the place of one that is taken out, and is looked at next. The second list has the
destinations of the edges taken out. -/
def withoutEpsilons (edges : Array (Edge Transition)) (position : Nat) :
    Array (Edge Transition) × List NodeId :=
  if h : position < edges.size then
    if edges[position].data.isEpsilon then
      let (kept, dests) :=
        withoutEpsilons (edges.swap position (edges.size - 1)).pop position
      (kept, edges[position].dest :: dests)
    else withoutEpsilons edges (position + 1)
  else (edges, [])
termination_by edges.size - position
decreasing_by
  · simp only [Array.size_pop, Array.size_swap]
    omega
  · omega

/-- Counts one edge less at each of some nodes. -/
def release : List NodeId → Editing Unit
  | [] => return
  | id :: rest => do
    modifyState id State.dropReference
    release rest

/-- Removes a node's edges that consume nothing, and gives back their number. -/
def dropEpsilons (id : NodeId) : Editing Nat := do
  let (kept, dests) := withoutEpsilons (← nodeAt id).edges.data 0
  let automaton ← get
  let graph ← automaton.graph.modify id fun node =>
    { node with edges := { node.edges with data := kept } }
  set { automaton with graph }
  release dests
  return dests.length

/-- Replaces a node's edges that consume nothing by the transitions and the token that they give
access to. The number of edges removed is given back. -/
def collapse (id : NodeId) : Editing Nat := do
  markClosure id
  modify fun automaton => { automaton with seen := automaton.seen.clear }
  let node ← nodeAt id
  rememberAll node.edges.toList
  let token ← absorb id node.data.token (← get).visited.toList.tail
  modifyState id fun state => { state with token }
  clearMarks
  dropEpsilons id

/-- Collapses nodes in turn, and gives back how many edges were removed in all. -/
def collapseAll : List NodeId → Editing Nat
  | [] => return 0
  | id :: rest => do
    let removed ← collapse id
    return removed + (← collapseAll rest)

/-- Counts the edges that leave some nodes. -/
def countEdges : List NodeId → Editing Unit
  | [] => return
  | id :: rest => do
    (← nodeAt id).edges.toList.forM fun edge => modifyState edge.dest State.addReference
    countEdges rest

/-- Counts the references anew, and gives back the number of nodes reachable from the entry. -/
def sweep : Editing Nat := do
  modify fun automaton =>
    { automaton with graph := automaton.graph.mapData fun _ state => { state with references := 0 } }
  let entry := (← get).entry
  markReachable (fun _ => true) entry
  let live := (← get).visited.toList
  countEdges live
  modifyState entry State.addReference
  clearMarks
  return live.length

/-- Removes the dead nodes from the table. -/
def compact : Editing Unit := do
  let automaton ← get
  let (handles, graph) ← automaton.graph.restrict fun _ node => !node.data.isDead
  let handle ← handles.fetch automaton.entry.toNat
  set { automaton with graph, entry := handle.getD automaton.entry }

/-- Writes every node's position into its state. -/
def relabel : Editing Unit :=
  modify fun automaton =>
    { automaton with graph := automaton.graph.mapData fun id state => { state with id } }

/-- Removes every edge that consumes nothing, then the dead nodes if `compacting`. The messages
report what was removed. -/
def reduce (compacting : Bool) : Editing (List Message) := do
  let automaton ← get
  let order ← automaton.graph.postOrder
  let removed ← collapseAll order.toList
  let live ← sweep
  let reduced : Message := ⟨.trace,
    s!"reduced {order.size} nodes: removed {removed} epsilon edges, {live} nodes still live"⟩
  if compacting then
    compact
    let size := (← get).graph.size
    relabel
    return [reduced, ⟨.trace, s!"compacted node table to {size} nodes"⟩]
  else
    relabel
    return [reduced]

end Automaton

end PatternAutomata
