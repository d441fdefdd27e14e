import PatternAutomata.Proofs.Ring

/-!
# What an automaton shows

The picture of an automaton is all of it that its operations look at, as functions of the handles:
how many nodes there are, which edges leave each node, and what each node carries. Each basic edit
changes one or two of these and keeps the rest, which is said as one equation between pictures. An
automaton is well formed if every handle in it names one of its nodes and every buffer fits; the
basic edits keep this, and on a well-formed automaton they meet no fault but a limit.
-/

namespace PatternAutomata

/-- What an automaton shows, for every handle. Handles without a node have no edges, do not accept,
are not marked and are not counted. -/
@[ext] structure Picture where
  size : Nat
  entry : NodeId
  agenda : List NodeId
  edges : NodeId → List (Edge Transition)
  token : NodeId → UInt32
  marked : NodeId → Bool
  references : NodeId → UInt32
  label : NodeId → NodeId

namespace Automaton

variable {automaton : Automaton} {id : NodeId}

def size (automaton : Automaton) : Nat := automaton.graph.size

def node? (automaton : Automaton) (id : NodeId) : Option (Node State Transition) :=
  automaton.graph.nodes.data[id.toNat]?

def edgesOf (automaton : Automaton) (id : NodeId) : List (Edge Transition) :=
  (automaton.node? id).elim [] fun node => node.edges.toList

def tokenOf (automaton : Automaton) (id : NodeId) : UInt32 :=
  (automaton.node? id).elim State.noToken fun node => node.data.token

def picture (automaton : Automaton) : Picture where
  size := automaton.size
  entry := automaton.entry
  agenda := automaton.visited.toList
  edges := automaton.edgesOf
  token := automaton.tokenOf
  marked id := (automaton.node? id).elim false fun node => node.data.visited
  references id := (automaton.node? id).elim 0 fun node => node.data.references
  label id := (automaton.node? id).elim NodeId.zero fun node => node.data.id

/-- Every handle names a node of the automaton, and every buffer fits. -/
structure WellFormed (automaton : Automaton) : Prop where
  nodes_fit : automaton.graph.nodes.Fits
  edges_fit : ∀ {id node}, automaton.node? id = some node → node.edges.Fits
  visited_fit : automaton.visited.Fits
  dest_lt : ∀ {id edge}, edge ∈ automaton.edgesOf id → edge.dest.toNat < automaton.size
  entry_lt : automaton.entry.toNat < automaton.size
  size_le : automaton.size ≤ NodeId.limit

/-- Every handle names a node of the automaton, and every buffer fits, but the entry may be the first
handle beyond the table. -/
structure Settled (automaton : Automaton) : Prop where
  nodes_fit : automaton.graph.nodes.Fits
  edges_fit : ∀ {id node}, automaton.node? id = some node → node.edges.Fits
  visited_fit : automaton.visited.Fits
  dest_lt : ∀ {id edge}, edge ∈ automaton.edgesOf id → edge.dest.toNat < automaton.size
  entry_le : automaton.entry.toNat ≤ automaton.size
  size_le : automaton.size ≤ NodeId.limit

lemma WellFormed.settled (ha : automaton.WellFormed) : automaton.Settled :=
  ⟨ha.nodes_fit, ha.edges_fit, ha.visited_fit, ha.dest_lt, Nat.le_of_lt ha.entry_lt, ha.size_le⟩

lemma Settled.wellFormed (ha : automaton.Settled) (h : automaton.entry.toNat < automaton.size) :
    automaton.WellFormed :=
  ⟨ha.nodes_fit, ha.edges_fit, ha.visited_fit, ha.dest_lt, h, ha.size_le⟩

lemma exists_node (h : id.toNat < automaton.size) : ∃ node, automaton.node? id = some node :=
  ⟨_, Array.getElem?_eq_getElem h⟩

lemma lt_size_of_node {node : Node State Transition} (h : automaton.node? id = some node) :
    id.toNat < automaton.size :=
  (Array.getElem?_eq_some_iff.mp h).1

lemma node?_of_size_le (h : automaton.size ≤ id.toNat) : automaton.node? id = none :=
  Array.getElem?_eq_none h

lemma edgesOf_of_size_le (h : automaton.size ≤ id.toNat) : automaton.edgesOf id = [] := by
  simp [edgesOf, node?_of_size_le h]

lemma tokenOf_of_size_le (h : automaton.size ≤ id.toNat) :
    automaton.tokenOf id = State.noToken := by
  simp [tokenOf, node?_of_size_le h]

lemma references_of_size_le (h : automaton.size ≤ id.toNat) :
    automaton.picture.references id = 0 := by
  simp [picture, node?_of_size_le h]

lemma edgesOf_eq {node : Node State Transition} (h : automaton.node? id = some node) :
    automaton.edgesOf id = node.edges.toList := by
  simp [edgesOf, h]

lemma tokenOf_eq {node : Node State Transition} (h : automaton.node? id = some node) :
    automaton.tokenOf id = node.data.token := by
  simp [tokenOf, h]

lemma lt_size_of_edge {edge : Edge Transition} (h : edge ∈ automaton.edgesOf id) :
    id.toNat < automaton.size := by
  by_contra hc
  rw [edgesOf_of_size_le (Nat.not_lt.mp hc)] at h
  cases h

/-! ## Changing one node -/

def withNode (automaton : Automaton) (id : NodeId)
    (f : Node State Transition → Node State Transition) : Automaton :=
  { automaton with graph := { nodes := automaton.graph.nodes.modify id.toNat f } }

variable {f : Node State Transition → Node State Transition}

lemma node?_withNode (other : NodeId) : (automaton.withNode id f).node? other =
    if other = id then (automaton.node? id).map f else automaton.node? other := by
  have heq : id.toNat = other.toNat ↔ other = id := by
    cases id
    cases other
    simp [eq_comm]
  by_cases h : other = id
  · simp [withNode, node?, Buffer.modify, Array.getElem?_modify, h]
  · simp [withNode, node?, Buffer.modify, Array.getElem?_modify, h, heq]

@[simp] lemma size_withNode : (automaton.withNode id f).size = automaton.size := by
  simp [withNode, size, Digraph.size, Buffer.size, Buffer.modify]

lemma picture_withNode {node : Node State Transition} (h : automaton.node? id = some node) :
    (automaton.withNode id f).picture = { automaton.picture with
      edges := Function.update automaton.edgesOf id (f node).edges.toList
      token := Function.update automaton.tokenOf id (f node).data.token
      marked := Function.update automaton.picture.marked id (f node).data.visited
      references := Function.update automaton.picture.references id (f node).data.references
      label := Function.update automaton.picture.label id (f node).data.id } := by
  have hcase : ∀ {α : Type} (absent : α) (g : Node State Transition → α),
      (fun other => ((automaton.withNode id f).node? other).elim absent g) =
        Function.update (fun other => (automaton.node? other).elim absent g) id (g (f node)) := by
    intro α absent g
    funext other
    rw [node?_withNode, Function.update_apply]
    split <;> simp [h]
  ext1
  · exact size_withNode
  · rfl
  · rfl
  all_goals exact hcase _ _

lemma WellFormed.withNode (ha : automaton.WellFormed)
    (hfit : ∀ node, automaton.node? id = some node → (f node).edges.Fits)
    (hdest : ∀ node, automaton.node? id = some node →
      ∀ edge ∈ (f node).edges.toList, edge.dest.toNat < automaton.size) :
    (automaton.withNode id f).WellFormed where
  nodes_fit := ha.nodes_fit.of_size_le rfl (by simp [Automaton.withNode, Buffer.modify, Buffer.size])
  edges_fit := by
    intro other node hn
    rw [node?_withNode] at hn
    split at hn
    · obtain ⟨old, hold, rfl⟩ := Option.map_eq_some_iff.mp hn
      exact hfit old hold
    · exact ha.edges_fit hn
  visited_fit := ha.visited_fit
  dest_lt := by
    intro other edge he
    rw [size_withNode]
    rw [edgesOf, node?_withNode] at he
    split at he
    · cases hn : automaton.node? id with
      | none => simp [hn] at he
      | some node => exact hdest node hn edge (by simpa [hn] using he)
    · exact ha.dest_lt he
  entry_lt := by rw [size_withNode]; exact ha.entry_lt
  size_le := by rw [size_withNode]; exact ha.size_le

/-! ## The basic edits -/

lemma graph_node_eq {node : Node State Transition} (h : automaton.node? id = some node) :
    automaton.graph.node id = .ok node := by
  unfold node? at h
  simp [Digraph.node, Buffer.fetch, h]

lemma graph_modify_eq (h : id.toNat < automaton.size) :
    automaton.graph.modify id f = .ok (automaton.withNode id f).graph := by
  unfold size at h
  simp [Digraph.modify, h, withNode]

lemma run_nodeAt_bind {α : Type} {node : Node State Transition} (h : automaton.node? id = some node)
    (next : Node State Transition → Editing α) :
    (nodeAt id >>= next).run automaton = (next node).run automaton := by
  unfold nodeAt
  rw [bind_assoc, Editing.run_get_bind, Editing.run_ok_bind (graph_node_eq h)]

lemma ensures_nodeAt_bind {α : Type} {node : Node State Transition}
    {next : Node State Transition → Editing α} {post : α → Automaton → Prop}
    (h : automaton.node? id = some node) :
    Editing.Ensures (nodeAt id >>= next) automaton post ↔
      Editing.Ensures (next node) automaton post := by
  unfold Editing.Ensures
  rw [run_nodeAt_bind h]

lemma pays_nodeAt_bind {α : Type} {node : Node State Transition}
    {next : Node State Transition → Editing α} {post : α → Automaton → Prop}
    (h : automaton.node? id = some node) :
    Editing.Pays (nodeAt id >>= next) automaton post ↔ Editing.Pays (next node) automaton post := by
  unfold Editing.Pays
  rw [run_nodeAt_bind h]

/-- What a basic edit leaves: a well-formed automaton with a given picture and the old set of known
transitions. -/
structure Shows (automaton : Automaton) (picture : Picture) (after : Automaton) : Prop where
  wellFormed : after.WellFormed
  picture_eq : after.picture = picture
  seen_eq : after.seen = automaton.seen

/-- What a basic edit leaves of any automaton: a given picture and the old set of known transitions,
and a well-formed automaton if there was one before. -/
structure Redraws (automaton : Automaton) (picture : Picture) (after : Automaton) : Prop where
  picture_eq : after.picture = picture
  seen_eq : after.seen = automaton.seen
  wellFormed : automaton.WellFormed → after.WellFormed

lemma Redraws.shows {picture : Picture} {after : Automaton} (h : Redraws automaton picture after)
    (ha : automaton.WellFormed) : Shows automaton picture after :=
  ⟨h.wellFormed ha, h.picture_eq, h.seen_eq⟩

lemma Redraws.refl (automaton : Automaton) : Redraws automaton automaton.picture automaton :=
  ⟨rfl, rfl, fun ha => ha⟩

lemma Redraws.trans {after last : Automaton} {picture picture' : Picture}
    (h : Redraws automaton picture after) (h' : Redraws after picture' last) :
    Redraws automaton picture' last :=
  ⟨h'.picture_eq, h'.seen_eq.trans h.seen_eq, fun ha => h'.wellFormed (h.wellFormed ha)⟩

lemma redraws_withState {node : Node State Transition} (h : automaton.node? id = some node)
    (f : State → State) : Redraws automaton { automaton.picture with
      token := Function.update automaton.tokenOf id (f node.data).token
      marked := Function.update automaton.picture.marked id (f node.data).visited
      references := Function.update automaton.picture.references id (f node.data).references
      label := Function.update automaton.picture.label id (f node.data).id }
      (automaton.withNode id fun node => { node with data := f node.data }) where
  picture_eq := by
    have hedges : Function.update automaton.edgesOf id node.edges.toList = automaton.edgesOf := by
      rw [← edgesOf_eq h, Function.update_eq_self]
    apply (picture_withNode h).trans
    simp only [hedges]
    rfl
  seen_eq := rfl
  wellFormed ha := by
    refine ha.withNode (fun n hn => ?_) fun n hn edge he => ?_
    · have hfit : n.edges.Fits := ha.edges_fit hn
      exact hfit
    · exact ha.dest_lt (by rw [edgesOf_eq hn]; exact he)

lemma shows_withState (ha : automaton.WellFormed) {node : Node State Transition}
    (h : automaton.node? id = some node) (f : State → State) :
    Shows automaton { automaton.picture with
      token := Function.update automaton.tokenOf id (f node.data).token
      marked := Function.update automaton.picture.marked id (f node.data).visited
      references := Function.update automaton.picture.references id (f node.data).references
      label := Function.update automaton.picture.label id (f node.data).id }
      (automaton.withNode id fun node => { node with data := f node.data }) :=
  (redraws_withState h f).shows ha

lemma run_modifyState (h : id.toNat < automaton.size) (f : State → State) :
    (modifyState id f).run automaton =
      pure ((), automaton.withNode id fun node => { node with data := f node.data }) := by
  unfold modifyState Digraph.modifyData
  rw [Editing.run_get_bind, Editing.run_ok_bind (graph_modify_eq h)]
  rfl

lemma pays_modifyState_bind {α : Type} (h : id.toNat < automaton.size) {f : State → State}
    {next : Unit → Editing α} {post : α → Automaton → Prop} :
    Editing.Pays (modifyState id f >>= next) automaton post ↔ Editing.Pays (next ())
      (automaton.withNode id fun node => { node with data := f node.data }) post := by
  unfold Editing.Pays
  rw [StateT.run_bind, run_modifyState h, pure_bind]

lemma ensures_modifyState (h : id.toNat < automaton.size) (f : State → State)
    {post : Unit → Automaton → Prop} : Editing.Ensures (modifyState id f) automaton post ↔
      post () (automaton.withNode id fun node => { node with data := f node.data }) := by
  unfold Editing.Ensures
  rw [run_modifyState h, Charged.ensures_pure]

lemma shows_withReferences (ha : automaton.WellFormed) (h : id.toNat < automaton.size)
    (count : UInt32 → UInt32) :
    Shows automaton { automaton.picture with
      references := Function.update automaton.picture.references id
        (count (automaton.picture.references id)) }
      (automaton.withNode id fun node =>
        { node with data := { node.data with references := count node.data.references } }) := by
  obtain ⟨node, hn⟩ := exists_node h
  have hs := shows_withState ha hn fun state => { state with references := count state.references }
  refine ⟨hs.wellFormed, hs.picture_eq.trans ?_, hs.seen_eq⟩
  simp [picture, hn, tokenOf, Function.update_eq_self_iff]

lemma setReferences_ensures (ha : automaton.WellFormed) (h : id.toNat < automaton.size)
    (count : UInt32 → UInt32) :
    Editing.Ensures (modifyState id fun state => { state with references := count state.references })
      automaton fun _ => Shows automaton { automaton.picture with
        references := Function.update automaton.picture.references id
          (count (automaton.picture.references id)) } :=
  (ensures_modifyState h _).mpr (shows_withReferences ha h count)

lemma redraws_withVisited (h : id.toNat < automaton.size) (mark : Bool) :
    Redraws automaton
      { automaton.picture with marked := Function.update automaton.picture.marked id mark }
      (automaton.withNode id fun node =>
        { node with data := { node.data with visited := mark } }) := by
  obtain ⟨node, hn⟩ := exists_node h
  have hs := redraws_withState hn fun state => { state with visited := mark }
  refine ⟨hs.picture_eq.trans ?_, hs.seen_eq, hs.wellFormed⟩
  simp [picture, hn, tokenOf, Function.update_eq_self_iff]

lemma setToken_ensures (ha : automaton.WellFormed) (h : id.toNat < automaton.size) (token : UInt32) :
    Editing.Ensures (modifyState id fun state => { state with token }) automaton fun _ =>
      Shows automaton
        { automaton.picture with token := Function.update automaton.tokenOf id token } := by
  obtain ⟨node, hn⟩ := exists_node h
  have hs := shows_withState ha hn fun state => { state with token }
  refine (ensures_modifyState h _).mpr ⟨hs.wellFormed, hs.picture_eq.trans ?_, hs.seen_eq⟩
  simp [picture, hn, Function.update_eq_self_iff]

/-- An added edge is the last of its source and is counted at its destination. -/
lemma addTransition_ensures (ha : automaton.WellFormed) {source dest : NodeId}
    (hs : source.toNat < automaton.size) (hd : dest.toNat < automaton.size) (symbol : UInt8) :
    Editing.Ensures (addTransition source symbol dest) automaton fun _ =>
      Shows automaton { automaton.picture with
        edges := Function.update automaton.edgesOf source
          (automaton.edgesOf source ++ [⟨dest, ⟨symbol⟩⟩])
        references := Function.update automaton.picture.references dest
          (automaton.picture.references dest + 1) } := by
  obtain ⟨node, hn⟩ := exists_node hs
  have hfit := ha.edges_fit hn
  unfold addTransition
  rw [Editing.ensures_get_bind]
  refine Editing.Ensures.bind (p := fun graph after => after = automaton ∧
    ∃ capacity, (node.edges.append capacity ⟨dest, ⟨symbol⟩⟩).Fits ∧
      graph = (automaton.withNode source fun node =>
        { node with edges := node.edges.append capacity ⟨dest, ⟨symbol⟩⟩ }).graph) ?_ ?_
  · rw [Editing.ensures_charged]
    unfold Digraph.link
    simp only [show ¬ automaton.graph.size ≤ dest.toNat from Nat.not_le.mpr hd, if_false,
      graph_node_eq hn, Charged.ensures_lift_bind, withinLimits_ok]
    apply Charged.Ensures.bind (Buffer.makeRoom_append_ensures hfit ⟨dest, ⟨symbol⟩⟩)
    intro capacity hc
    rw [Charged.ensures_lift, graph_modify_eq hs, withinLimits_ok]
    exact ⟨trivial, capacity, hc, rfl⟩
  · rintro graph after ⟨rfl, capacity, hc, rfl⟩
    -- the edge is there, and is still to be counted
    let linked := after.withNode source fun node =>
      { node with edges := node.edges.append capacity ⟨dest, ⟨symbol⟩⟩ }
    have hpicture : linked.picture = { after.picture with
        edges := Function.update after.edgesOf source
          (after.edgesOf source ++ [⟨dest, ⟨symbol⟩⟩]) } := by
      apply (picture_withNode hn).trans
      simp [picture, hn, tokenOf, edgesOf, Buffer.append, Buffer.toList, Function.update_eq_self_iff]
    have hlinked : linked.WellFormed := by
      refine ha.withNode (fun n h => ?_) fun n h edge he => ?_
      · cases hn.symm.trans h
        exact hc
      · cases hn.symm.trans h
        simp only [Buffer.append, Buffer.toList, Array.toList_push, List.mem_append,
          List.mem_singleton] at he
        rcases he with he | rfl
        · exact ha.dest_lt (by rw [edgesOf_eq hn]; exact he)
        · exact hd
    have hshows := shows_withReferences hlinked (show dest.toNat < linked.size by simpa [linked] using hd)
      (· + 1)
    unfold Digraph.modifyData
    rw [Editing.ensures_except_bind, graph_modify_eq (by simpa using hd), withinLimits_ok,
      Editing.ensures_set]
    refine ⟨hshows.wellFormed, hshows.picture_eq.trans ?_, rfl⟩
    rw [hpicture]

/-! ## New nodes -/

def withNewNode (automaton : Automaton) (capacity : UInt64) : Automaton :=
  { automaton with
    graph := { nodes := automaton.graph.nodes.append capacity { data := { id := ⟨automaton.size⟩ } } } }

lemma addNode_ensures_withNewNode (hfit : automaton.graph.nodes.Fits) :
    Editing.Ensures addNode automaton fun id after => ∃ capacity,
      id = ⟨automaton.size⟩ ∧ automaton.size < NodeId.limit ∧
      (automaton.withNewNode capacity).graph.nodes.Fits ∧ after = automaton.withNewNode capacity := by
  unfold addNode
  rw [Editing.ensures_get_bind, Editing.ensures_except_bind]
  apply (require_withinLimits _).mono
  rintro id ⟨rfl, hlt⟩
  refine Editing.Ensures.bind (p := fun added after => after = automaton ∧ ∃ capacity,
    added.1 = ⟨automaton.size⟩ ∧ (automaton.withNewNode capacity).graph.nodes.Fits ∧
      added.2 = (automaton.withNewNode capacity).graph) ?_ ?_
  · rw [Editing.ensures_charged]
    unfold Digraph.addNode Buffer.push
    rw [Charged.ensures_lift_bind]
    apply (require_withinLimits _).mono
    rintro id ⟨rfl, -⟩
    rw [bind_assoc]
    refine Charged.Ensures.bind (Buffer.makeRoom_append_ensures hfit
      { data := { id := ⟨automaton.size⟩ } }) fun capacity hc => ?_
    rw [pure_bind, Charged.ensures_pure]
    exact ⟨rfl, capacity, rfl, hc, rfl⟩
  · rintro ⟨id, graph⟩ after ⟨rfl, capacity, rfl, hc, rfl⟩
    rw [Editing.ensures_set_bind, Editing.ensures_pure]
    exact ⟨capacity, rfl, hlt, hc, rfl⟩

@[simp] lemma size_withNewNode (capacity : UInt64) :
    (automaton.withNewNode capacity).size = automaton.size + 1 := by
  simp [withNewNode, size, Digraph.size, Buffer.size, Buffer.append]

lemma node?_withNewNode (capacity : UInt64) (other : NodeId) :
    (automaton.withNewNode capacity).node? other =
      if other = ⟨automaton.size⟩ then some { data := { id := ⟨automaton.size⟩ } }
      else automaton.node? other := by
  have heq : other.toNat = automaton.size ↔ other = ⟨automaton.size⟩ := by
    cases other
    simp
  simp only [withNewNode, node?, Buffer.append, Array.getElem?_push]
  change (if other.toNat = automaton.size then _ else _) = _
  simp only [heq]

lemma picture_withNewNode (capacity : UInt64) :
    (automaton.withNewNode capacity).picture = { automaton.picture with
      size := automaton.size + 1
      label := Function.update automaton.picture.label ⟨automaton.size⟩ ⟨automaton.size⟩ } := by
  have hnone : automaton.node? ⟨automaton.size⟩ = none := node?_of_size_le (Nat.le_refl _)
  have hcase : ∀ {α : Type} (absent : α) (g : Node State Transition → α),
      (fun other => ((automaton.withNewNode capacity).node? other).elim absent g) =
        Function.update (fun other => (automaton.node? other).elim absent g) ⟨automaton.size⟩
          (g { data := { id := ⟨automaton.size⟩ } }) := by
    intro α absent g
    funext other
    rw [node?_withNewNode, Function.update_apply]
    split <;> rfl
  ext1
  · exact size_withNewNode capacity
  · rfl
  · rfl
  case label => exact hcase _ _
  all_goals
    refine (hcase _ _).trans (Function.update_eq_self_iff.mpr ?_)
    simp [hnone, Buffer.toList]

lemma addNode_ensures (ha : automaton.Settled) :
    Editing.Ensures addNode automaton fun id after => id = ⟨automaton.size⟩ ∧
      Shows automaton { automaton.picture with
        size := automaton.size + 1
        label := Function.update automaton.picture.label ⟨automaton.size⟩ ⟨automaton.size⟩ } after := by
  apply (addNode_ensures_withNewNode ha.nodes_fit).mono
  rintro _ _ ⟨capacity, rfl, hlt, hfit, rfl⟩
  have hpicture : (automaton.withNewNode capacity).picture = _ := picture_withNewNode capacity
  have hedges : (automaton.withNewNode capacity).edgesOf = automaton.edgesOf :=
    congrArg Picture.edges hpicture
  refine ⟨rfl, ⟨hfit, ?_, ha.visited_fit, ?_, ?_, ?_⟩, hpicture, rfl⟩
  · intro other node hn
    rw [node?_withNewNode] at hn
    split at hn
    · cases hn
      exact Buffer.fits_empty
    · exact ha.edges_fit hn
  · intro other edge he
    rw [hedges] at he
    rw [size_withNewNode]
    exact Nat.lt_succ_of_lt (ha.dest_lt he)
  · rw [size_withNewNode]
    exact Nat.lt_succ_of_le ha.entry_le
  · rw [size_withNewNode]
    exact hlt

end Automaton

end PatternAutomata
