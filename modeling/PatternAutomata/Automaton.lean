import PatternAutomata.Digraph.PostOrder
import PatternAutomata.Digraph.Restriction

/-!
# Automata

An automaton is a digraph whose nodes may accept with a token and count the edges that lead to them,
and whose edges consume one byte or nothing. One node is the entry. The lists of marked nodes and of
known transitions are scratch that reduction uses; they stay with the automaton so that their room
is paid for once.
-/

namespace PatternAutomata

/-- The token that means that a node does not accept. -/
def State.noToken : UInt32 := 4294967295

/-- What a node of an automaton carries. -/
structure State where
  id : NodeId
  /-- The token of words that end here, or `noToken`. Lower tokens take precedence. -/
  token : UInt32 := State.noToken
  /-- Whether the walk under way has met the node; false between operations. -/
  visited : Bool := false
  /-- The number of edges counted as leading here. -/
  references : UInt32 := 0
deriving DecidableEq

namespace State

def accepted (state : State) : Option UInt32 :=
  if state.token = noToken then none else some state.token

def isDead (state : State) : Bool := state.references = 0

def addReference (state : State) : State := { state with references := state.references + 1 }

/-- Counts one edge less, unless none is counted. -/
def dropReference (state : State) : State :=
  { state with references := if state.references = 0 then 0 else state.references - 1 }

end State

/-- What an edge of an automaton carries: the byte it consumes, or zero if it consumes nothing. -/
structure Transition where
  symbol : UInt8
deriving DecidableEq

namespace Transition

/-- The symbol of an edge that consumes nothing. -/
def epsilon : UInt8 := 0

def isEpsilon (transition : Transition) : Bool := transition.symbol = epsilon

end Transition

instance : Footprint State := ⟨16⟩
instance : Footprint Transition := ⟨1⟩

/-- A nondeterministic automaton under construction, with the scratch of its reductions. -/
structure Automaton where
  graph : Digraph State Transition := {}
  /-- The node at which every word starts. -/
  entry : NodeId := NodeId.zero
  /-- The nodes that the walk under way has marked. -/
  visited : Buffer NodeId := {}
  /-- The transitions already known at the node being reduced. -/
  seen : KeySet (@Fnv.ofKey (UInt8 × NodeId) _) := {}

/-- A computation that works on an automaton and charges an arena for it. -/
abbrev Editing := StateT Automaton Charged

namespace Automaton

/-- The node with a handle that should have one. -/
def nodeAt (id : NodeId) : Editing (Node State Transition) := do (← get).graph.node id

/-- Changes the state of the node with a handle that should have one. -/
@[inline] def modifyState (id : NodeId) (f : State → State) : Editing Unit := do
  let automaton ← get
  let graph ← automaton.graph.modifyData id f
  set { automaton with graph }

def addNode : Editing NodeId := do
  let automaton ← get
  let id ← NodeId.require automaton.graph.size
  let (id, graph) ← automaton.graph.addNode { id }
  set { automaton with graph }
  return id

/-- Adds an edge and counts it at its destination. -/
def addTransition (source : NodeId) (symbol : UInt8) (dest : NodeId) : Editing Unit := do
  let automaton ← get
  let graph ← automaton.graph.link source dest ⟨symbol⟩
  let graph ← graph.modifyData dest State.addReference
  set { automaton with graph }

/-- Starts an automaton with its entry node, which counts one reference from outside. -/
def start : Editing Unit := do
  let entry ← addNode
  modify fun automaton => { automaton with entry }
  modifyState entry fun state => { state with references := 1 }

def states (automaton : Automaton) : List State := automaton.graph.nodes.toList.map Node.data

/-- The handles of the nodes that are not dead, in table order. -/
def liveNodes (automaton : Automaton) : List NodeId :=
  (automaton.states.zipIdx.filter fun (state, _) => !state.isDead).map fun (_, index) => ⟨index⟩

def epsilonCount (automaton : Automaton) : Nat :=
  automaton.graph.nodes.data.foldl
    (fun count node => count + node.edges.data.countP fun edge => edge.data.isEpsilon) 0

end Automaton

end PatternAutomata
