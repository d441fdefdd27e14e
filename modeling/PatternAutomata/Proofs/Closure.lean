import PatternAutomata.Proofs.Built
import PatternAutomata.Proofs.Usage

/-!
# Silent closures, and copying from them

A node is collapsed in two loops. The first walks along the edges that consume nothing and lists the
nodes it meets; the list is read while it grows. The second copies edges to the node the walk began
at, from the others on the list, edge by edge as their lists stand at the time; the node's own list
grows meanwhile. Since every node is on the list once, and the first is the one that grows, no list is
read while it grows: the second loop ends, and copies what was there before it began.
-/

namespace PatternAutomata

variable {α β : Type}

namespace Editing

/-- Whenever an edit of a given automaton ends in a value, value and automaton have a property. -/
def Yields (editing : Editing α) (automaton : Automaton) (p : α → Automaton → Prop) : Prop :=
  ∀ arena outcome, (editing.run automaton).run arena = .ok outcome → p outcome.1.1 outcome.1.2

variable {editing : Editing α} {automaton : Automaton} {p : α → Automaton → Prop}

lemma yields_pure {value : α} (h : p value automaton) : Yields (pure value) automaton p := by
  intro arena outcome heq
  cases heq
  exact h

lemma Yields.bind {next : α → Editing β} {q : β → Automaton → Prop} (h : Yields editing automaton p)
    (hn : ∀ value after, p value after → Yields (next value) after q) :
    Yields (editing >>= next) automaton q := by
  intro arena outcome heq
  rw [StateT.run_bind] at heq
  obtain ⟨middle, hfirst, hnext⟩ := Charged.exists_of_bind_eq_ok heq
  exact hn _ _ (h arena middle hfirst) _ _ hnext

lemma Pays.yields (h : Editing.Pays editing automaton p) : Yields editing automaton p := by
  intro arena outcome heq
  have hpaid := h arena
  rw [heq] at hpaid
  exact hpaid.2

/-- Two edits that begin alike and go on alike are alike. -/
lemma Yields.run_bind_congr {next next' : α → Editing β} (h : Yields editing automaton p)
    (hn : ∀ value after, p value after → (next value).run after = (next' value).run after) :
    (editing >>= next).run automaton = (editing >>= next').run automaton := by
  refine StateT.ext fun arena => ?_
  simp only [StateT.run_bind]
  cases hrun : (editing.run automaton).run arena with
  | error fault => rfl
  | ok outcome => exact congrArg (·.run outcome.2) (hn _ _ (h arena outcome hrun))

lemma run_bind_of_run_eq {editing' : Editing α}
    (h : editing.run automaton = editing'.run automaton) (next : α → Editing β) :
    (editing >>= next).run automaton = (editing' >>= next).run automaton := by
  rw [StateT.run_bind, StateT.run_bind, h]

end Editing

namespace Automaton

open Editing (Yields yields_pure)

variable {automaton : Automaton} {id member start : NodeId}

/-! ## What copying leaves alone -/

/-- Nothing has changed but the edges of one node, what is counted and what is known. -/
structure KeepsOthers (automaton : Automaton) (id : NodeId) (after : Automaton) : Prop where
  edgesOf_eq : ∀ other, other ≠ id → after.edgesOf other = automaton.edgesOf other
  tokenOf_eq : after.tokenOf = automaton.tokenOf
  size_eq : after.size = automaton.size
  visited_eq : after.visited = automaton.visited

lemma KeepsOthers.refl (automaton : Automaton) (id : NodeId) : KeepsOthers automaton id automaton :=
  ⟨fun _ _ => rfl, rfl, rfl, rfl⟩

lemma KeepsOthers.trans {after last : Automaton} (h : KeepsOthers automaton id after)
    (h' : KeepsOthers after id last) : KeepsOthers automaton id last where
  edgesOf_eq other hne := (h'.edgesOf_eq other hne).trans (h.edgesOf_eq other hne)
  tokenOf_eq := h'.tokenOf_eq.trans h.tokenOf_eq
  size_eq := h'.size_eq.trans h.size_eq
  visited_eq := h'.visited_eq.trans h.visited_eq

lemma keepsOthers_withNode {changed : NodeId} {f : Node State Transition → Node State Transition}
    (htoken : ∀ node, (f node).data.token = node.data.token)
    (hedges : changed = id ∨ ∀ node, (f node).edges = node.edges) :
    KeepsOthers automaton id (automaton.withNode changed f) where
  edgesOf_eq other hne := by
    simp only [edgesOf, node?_withNode]
    split
    next heq =>
      subst heq
      have hsame := hedges.resolve_left hne
      cases automaton.node? other <;> simp [hsame]
    next => rfl
  tokenOf_eq := by
    funext other
    simp only [tokenOf, node?_withNode]
    split
    next heq =>
      subst heq
      cases automaton.node? other <;> simp [htoken]
    next => rfl
  size_eq := size_withNode
  visited_eq := rfl

lemma withNode_of_modify {f : Node State Transition → Node State Transition}
    {graph : Digraph State Transition} (h : automaton.graph.modify id f = .ok graph) :
    { automaton with graph } = automaton.withNode id f := by
  unfold Digraph.modify at h
  split at h
  · cases h
    rfl
  · cases h

lemma remember_yields (edge : Edge Transition) :
    Yields (remember edge) automaton fun _ after => after.graph = automaton.graph ∧
      after.visited = automaton.visited := by
  intro arena outcome heq
  unfold remember at heq
  rw [Editing.run_get_bind, Editing.run_charged_bind] at heq
  obtain ⟨_, -, hset⟩ := Charged.exists_of_bind_eq_ok heq
  cases hset
  exact ⟨rfl, rfl⟩

lemma rememberAll_yields (edges : List (Edge Transition)) :
    Yields (rememberAll edges) automaton fun _ after => after.graph = automaton.graph ∧
      after.visited = automaton.visited := by
  induction edges generalizing automaton with
  | nil => exact yields_pure ⟨rfl, rfl⟩
  | cons edge rest ih =>
    unfold rememberAll
    split
    · refine (remember_yields edge).bind fun _ told ht => ?_
      intro arena outcome heq
      obtain ⟨hgraph, hvisited⟩ := ih arena outcome heq
      exact ⟨hgraph.trans ht.1, hvisited.trans ht.2⟩
    · exact ih

lemma addTransition_yields (symbol : UInt8) (dest : NodeId) :
    Yields (addTransition id symbol dest) automaton fun _ => KeepsOthers automaton id := by
  intro arena outcome heq
  unfold addTransition at heq
  rw [Editing.run_get_bind, Editing.run_charged_bind] at heq
  obtain ⟨⟨linked, _⟩, hlink, heq⟩ := Charged.exists_of_bind_eq_ok heq
  rw [Editing.run_except_bind] at heq
  obtain ⟨⟨graph, _⟩, hcount, hset⟩ := Charged.exists_of_bind_eq_ok heq
  obtain ⟨-, capacity, hmodify⟩ := Digraph.exists_of_link hlink
  have hlinked := withNode_of_modify hmodify
  have hmodify' : linked.modify dest (fun node => { node with data := node.data.addReference }) =
      .ok graph := Charged.eq_ok_of_liftM hcount
  have hcounted := @withNode_of_modify { automaton with graph := linked } dest _ graph hmodify'
  cases hset
  change KeepsOthers automaton id { automaton with graph }
  rw [show ({ automaton with graph } : Automaton) = _ from hcounted, hlinked]
  refine KeepsOthers.trans (keepsOthers_withNode ?_ (.inl rfl)) (keepsOthers_withNode ?_ (.inr ?_))
  all_goals exact fun _ => rfl

/-- Gives a node an edge, if it is a transition that is not known. -/
def adoptEdge (id : NodeId) (edge : Edge Transition) : Editing Unit := do
  if !edge.data.isEpsilon then
    if ← remember edge then addTransition id edge.data.symbol edge.dest

lemma adoptEdge_yields (edge : Edge Transition) :
    Yields (adoptEdge id edge) automaton fun _ => KeepsOthers automaton id := by
  unfold adoptEdge
  split
  · refine (remember_yields edge).bind fun isNew told ⟨hgraph, hvisited⟩ => ?_
    have hkeeps : KeepsOthers automaton id told := by
      obtain ⟨_, _, _, _⟩ := told
      dsimp only at hgraph hvisited
      subst hgraph hvisited
      exact ⟨fun _ _ => rfl, rfl, rfl, rfl⟩
    split
    · intro arena outcome heq
      exact hkeeps.trans (addTransition_yields _ _ arena outcome heq)
    · exact yields_pure hkeeps
  · exact yields_pure (KeepsOthers.refl automaton id)

lemma adopt_cons (edge : Edge Transition) (rest : List (Edge Transition)) :
    adopt id (edge :: rest) = adoptEdge id edge >>= fun _ => adopt id rest := by
  rw [adopt, adoptEdge]
  split
  · rw [bind_assoc]
    refine bind_congr fun isNew => ?_
    split
    · rfl
    · rw [pure_bind]
  · rw [pure_bind]

lemma adopt_append (edges edges' : List (Edge Transition)) :
    adopt id (edges ++ edges') = adopt id edges >>= fun _ => adopt id edges' := by
  induction edges with
  | nil => exact (pure_bind _ _).symm
  | cons edge rest ih => rw [List.cons_append, adopt_cons, adopt_cons, ih, bind_assoc]

lemma adopt_yields (edges : List (Edge Transition)) :
    Yields (adopt id edges) automaton fun _ => KeepsOthers automaton id := by
  induction edges generalizing automaton with
  | nil => exact yields_pure (KeepsOthers.refl automaton id)
  | cons edge rest ih =>
    rw [adopt_cons]
    refine (adoptEdge_yields edge).bind fun _ first hf => ?_
    intro arena outcome heq
    exact hf.trans (ih arena outcome heq)

/-! ## Copying as lists stand -/

/-- Copies the edges of another node to a node, from a position on, reading the other's list as it
stands. Whether its end was met within a number of turns is given back. -/
def copyEdges (id member : NodeId) : Nat → Nat → Editing Bool
  | 0, _ => return false
  | turns + 1, position => do
    match (← nodeAt member).edges.get? position with
    | none => return true
    | some edge =>
      adoptEdge id edge
      copyEdges id member turns (position + 1)

/-- Copies the edges of the nodes at some positions of the agenda to a node, within a number of turns
for each. The least of their tokens and another is given back, if the turns were enough. -/
def copyMembers (turns : Nat) (id : NodeId) : UInt32 → List Nat → Editing (Option UInt32)
  | token, [] => return some token
  | token, position :: rest => do
    let member ← (← get).visited.fetch position
    let node ← nodeAt member
    if ← copyEdges id member turns 0 then
      copyMembers turns id (if node.data.token < token then node.data.token else token) rest
    else return none

/-- Collapses a node, copying within a number of turns for each node that is copied from. The number
of edges removed is given back, if the turns were enough. -/
def collapseInTurns (turns : Nat) (id : NodeId) : Editing (Option Nat) := do
  markClosure id
  modify fun automaton => { automaton with seen := automaton.seen.clear }
  let node ← nodeAt id
  rememberAll node.edges.toList
  match ← copyMembers turns id node.data.token (List.range' 1 ((← get).visited.size - 1)) with
  | none => return none
  | some token =>
    modifyState id fun state => { state with token }
    clearMarks
    return some (← dropEpsilons id)

/-- The least of some nodes' tokens and another. -/
def leastToken (automaton : Automaton) (token : UInt32) (members : List NodeId) : UInt32 :=
  members.foldl (fun least member =>
    if automaton.tokenOf member < least then automaton.tokenOf member else least) token

/-- A list that does not grow is copied as it was before. -/
lemma run_copyEdges (hne : member ≠ id) (hlt : member.toNat < automaton.size) {turns position : Nat}
    (hposition : position ≤ (automaton.edgesOf member).length)
    (hturns : (automaton.edgesOf member).length < turns + position) :
    (copyEdges id member turns position).run automaton =
      (adopt id ((automaton.edgesOf member).drop position) >>= fun _ => pure true).run automaton := by
  induction turns generalizing automaton position with
  | zero => omega
  | succ turns ih =>
    obtain ⟨node, hn⟩ := exists_node hlt
    have hget : node.edges.get? position = (automaton.edgesOf member)[position]? := by
      rw [edgesOf_eq hn]
      exact Array.getElem?_toList.symm
    unfold copyEdges
    rw [run_nodeAt_bind hn, hget]
    cases hedge : (automaton.edgesOf member)[position]? with
    | none =>
      rw [List.drop_eq_nil_of_le (List.getElem?_eq_none_iff.mp hedge)]
      rfl
    | some edge =>
      obtain ⟨hshort, rfl⟩ := List.getElem?_eq_some_iff.mp hedge
      rw [List.drop_eq_getElem_cons hshort, adopt_cons, bind_assoc]
      refine (adoptEdge_yields _).run_bind_congr fun _ after hs => ?_
      have hsame := hs.edgesOf_eq member hne
      rw [← hsame] at hshort hturns ⊢
      exact ih (hs.size_eq ▸ hlt) hshort (by omega)

/-- Reading the agenda and the lists as they stand is reading each list at once. -/
lemma run_copyMembers {turns : Nat} {members : List NodeId} {position : Nat}
    (hagenda : automaton.visited.toList.drop position = members)
    (hmembers : ∀ member ∈ members, member ≠ id ∧ member.toNat < automaton.size ∧
      (automaton.edgesOf member).length < turns) (token : UInt32) :
    (copyMembers turns id token (List.range' position members.length)).run automaton =
      (absorb id token members >>= fun least => pure (some least)).run automaton := by
  induction members generalizing automaton position token with
  | nil => rfl
  | cons member rest ih =>
    obtain ⟨hne, hlt, hturns⟩ := hmembers member List.mem_cons_self
    obtain ⟨node, hn⟩ := exists_node hlt
    have hedges : node.edges.toList = automaton.edgesOf member := (edgesOf_eq hn).symm
    have hfetch : automaton.visited.fetch position = .ok member := by
      have hget : automaton.visited.data[position]? = some member := by
        have hfirst := congrArg (·[0]?) hagenda
        simpa [Buffer.toList] using hfirst
      rw [Buffer.fetch, hget]
    have hrest : automaton.visited.toList.drop (position + 1) = rest := by
      rw [← List.drop_drop, hagenda, List.drop_one, List.tail_cons]
    rw [List.length_cons, List.range'_succ]
    unfold copyMembers absorb
    rw [Editing.run_get_bind, Editing.run_ok_bind hfetch, bind_assoc, run_nodeAt_bind hn,
      run_nodeAt_bind hn, hedges,
      Editing.run_bind_of_run_eq (run_copyEdges hne hlt (Nat.zero_le _) (by omega)), bind_assoc,
      bind_assoc, List.drop_zero]
    refine (adopt_yields _).run_bind_congr fun _ after hs => ?_
    rw [pure_bind, if_pos rfl]
    refine ih (hs.visited_eq ▸ hrest) (fun other ho => ?_) _
    obtain ⟨hother, hothers⟩ := hmembers other (List.mem_cons_of_mem _ ho)
    rw [hs.edgesOf_eq other hother, hs.size_eq]
    exact ⟨hother, hothers⟩

/-- Reading each list at once is reading them all before any edge is copied. -/
lemma run_absorb {members : List NodeId}
    (hmembers : ∀ member ∈ members, member ≠ id ∧ member.toNat < automaton.size) (token : UInt32) :
    (absorb id token members).run automaton = (adopt id (members.flatMap automaton.edgesOf) >>=
      fun _ => pure (automaton.leastToken token members)).run automaton := by
  induction members generalizing automaton token with
  | nil => rfl
  | cons member rest ih =>
    obtain ⟨hne, hlt⟩ := hmembers member List.mem_cons_self
    obtain ⟨node, hn⟩ := exists_node hlt
    unfold absorb
    rw [run_nodeAt_bind hn, List.flatMap_cons, adopt_append, bind_assoc, edgesOf_eq hn]
    refine (adopt_yields _).run_bind_congr fun _ after hs => ?_
    have hlists : rest.flatMap automaton.edgesOf = rest.flatMap after.edgesOf :=
      List.flatMap_congr fun other ho =>
        (hs.edgesOf_eq other (hmembers other (List.mem_cons_of_mem _ ho)).1).symm
    have hleast : automaton.leastToken token (member :: rest) = after.leastToken
        (if node.data.token < token then node.data.token else token) rest := by
      unfold leastToken
      rw [List.foldl_cons, hs.tokenOf_eq, tokenOf_eq hn]
    rw [hlists, hleast]
    refine ih (fun other ho => ?_) _
    rw [hs.size_eq]
    exact hmembers other (List.mem_cons_of_mem _ ho)

/-- The copying loop of an agenda that begins with the node that is extended. -/
lemma run_copyMembers_tail {turns : Nat} {members : List NodeId}
    (hagenda : automaton.visited.toList = id :: members)
    (hmembers : ∀ member ∈ members, member ≠ id ∧ member.toNat < automaton.size ∧
      (automaton.edgesOf member).length < turns) (token : UInt32) :
    (copyMembers turns id token (List.range' 1 (automaton.visited.size - 1))).run automaton =
      (absorb id token members >>= fun least => pure (some least)).run automaton := by
  have hsize : automaton.visited.size - 1 = members.length := by
    rw [← Buffer.length_toList, hagenda, List.length_cons, Nat.add_sub_cancel]
  rw [hsize]
  exact run_copyMembers (by rw [hagenda, List.drop_one, List.tail_cons]) hmembers token

/-! ## The closure of a node -/

/-- A walk along the edges that consume nothing has ended: the agenda lists the nodes that the start
reaches along them, each once and the start first, these are marked, and all else is as before. The
marks can be taken off again. -/
structure SilentClosure (automaton : Automaton) (start : NodeId) (after : Automaton) : Prop where
  nodup : after.visited.toList.Nodup
  head : after.visited.toList.head? = some start
  mem_iff : ∀ id, id ∈ after.visited.toList ↔ Silent automaton.Leads start id
  marked_iff : ∀ id, after.picture.marked id = true ↔ Silent automaton.Leads start id
  length_le : after.visited.toList.length ≤ automaton.size
  picture_eq : after.picture = { automaton.picture with
    agenda := after.visited.toList
    marked := after.picture.marked }
  seen_eq : after.seen = automaton.seen
  cleared : ∃ cleared, clearMarks.run after = pure ((), cleared) ∧
    cleared.picture = automaton.picture ∧ cleared.seen = automaton.seen

/-- Copying from all nodes on an agenda but the first ends, within any number of turns that suffices
for the longest of their lists, and offers the first what these lists held in an automaton before. -/
def CopiesFrom (automaton : Automaton) (start : NodeId) (agenda : Buffer NodeId)
    (told : Automaton) : Prop :=
  start ∉ agenda.toList.tail ∧ ∀ (turns : Nat) (token : UInt32),
    (∀ member ∈ agenda.toList.tail, (automaton.edgesOf member).length < turns) →
    (copyMembers turns start token (List.range' 1 (agenda.size - 1))).run told =
      (adopt start (agenda.toList.tail.flatMap automaton.edgesOf) >>= fun _ =>
        pure (some (automaton.leastToken token agenda.toList.tail))).run told

lemma Redraws.silentClosure {after : Automaton} {ids : List NodeId}
    (hw : Redraws automaton (automaton.picture.mark ids) after) (hr : automaton.InRange)
    (hq : automaton.picture.Quiet) (hs : start.toNat < automaton.size) (hnodup : ids.Nodup)
    (hhead : ids.head? = some start)
    (hids : ∀ id, id ∈ ids ↔ automaton.Reaches Transition.isEpsilon start id) :
    SilentClosure automaton start after := by
  have hp := hw.picture_eq
  have hagenda : after.visited.toList = ids := by
    have hagenda : after.visited.toList = automaton.picture.agenda ++ ids := congrArg Picture.agenda hp
    rwa [hq.agenda_eq, List.nil_append] at hagenda
  have hmarked : ∀ id, after.picture.marked id = true ↔ id ∈ ids := by
    simp [hp, Picture.mark, hq.marked_eq]
  have hsize : after.size = automaton.size := congrArg Picture.size hp
  have hlt : ∀ id ∈ ids, id.toNat < automaton.size := fun id hid => ((hids id).mp hid).lt_size hr hs
  refine ⟨hagenda ▸ hnodup, hagenda ▸ hhead, fun id => ?_, fun id => ?_,
    hagenda ▸ length_le_size hnodup hlt, ?_, hw.seen_eq, ?_⟩
  · rw [hagenda, hids, reaches_isEpsilon_iff]
  · rw [hmarked, hids, reaches_isEpsilon_iff]
  · rw [hp, hagenda]
    simp [Picture.mark, hq.agenda_eq]
  · subst hagenda
    obtain ⟨cleared, hrun, hcleared⟩ := @exists_run_clearMarks after
      (fun id hid => hsize ▸ hlt id hid) fun id hid => (hmarked id).mp hid
    refine ⟨cleared, hrun, ?_, hcleared.seen_eq.trans hw.seen_eq⟩
    rw [hcleared.picture_eq, hp]
    ext1 <;> try rfl
    · exact hq.agenda_eq.symm
    · exact hq.marked_eq.symm

theorem markReachable_closes (hr : automaton.InRange) (hq : automaton.picture.Quiet)
    (hs : start.toNat < automaton.size) :
    Editing.Pays (markReachable Transition.isEpsilon start) automaton fun _ after =>
      SilentClosure automaton start after := by
  apply (markReachable_pays hr hq hs).mono
  rintro - after ⟨ids, hw, hnodup, hhead, hids⟩
  exact hw.silentClosure hr hq hs hnodup hhead hids

section Copying

variable {walked told : Automaton} (hw : SilentClosure automaton start walked)
include hw

/-- The start is on the agenda once, so the others on it are other nodes. -/
lemma SilentClosure.exists_members (hr : automaton.InRange) (hs : start.toNat < automaton.size) :
    ∃ members, walked.visited.toList = start :: members ∧
      ∀ member ∈ members, member ≠ start ∧ member.toNat < automaton.size := by
  have hhead := hw.head
  have hnodup := hw.nodup
  cases hagenda : walked.visited.toList with
  | nil =>
    rw [hagenda] at hhead
    cases hhead
  | cons first members =>
    rw [hagenda] at hhead hnodup
    obtain rfl : first = start := by simpa using hhead
    refine ⟨members, rfl, fun member hm => ⟨?_, ?_⟩⟩
    · rintro rfl
      exact (List.nodup_cons.mp hnodup).1 hm
    · have hsilent := (hw.mem_iff member).mp (hagenda ▸ List.mem_cons_of_mem _ hm)
      exact (reaches_isEpsilon_iff.mpr hsilent).lt_size hr hs

lemma SilentClosure.kept (hgraph : told.graph = walked.graph) : told.edgesOf = automaton.edgesOf ∧
    told.tokenOf = automaton.tokenOf ∧ told.size = automaton.size := by
  have hedges : walked.edgesOf = automaton.edgesOf := congrArg Picture.edges hw.picture_eq
  have htokens : walked.tokenOf = automaton.tokenOf := congrArg Picture.token hw.picture_eq
  have hsize : walked.size = automaton.size := congrArg Picture.size hw.picture_eq
  have hnode : told.node? = walked.node? := by
    funext id
    rw [node?, hgraph, ← node?]
  refine ⟨hedges ▸ ?_, htokens ▸ ?_, hsize ▸ ?_⟩
  · funext id
    rw [edgesOf, hnode, ← edgesOf]
  · funext id
    rw [tokenOf, hnode, ← tokenOf]
  · rw [size, hgraph, ← size]

lemma SilentClosure.copiesFrom (hr : automaton.InRange) (hs : start.toNat < automaton.size)
    (hgraph : told.graph = walked.graph) (hvisited : told.visited = walked.visited) :
    CopiesFrom automaton start walked.visited told := by
  obtain ⟨members, hagenda, hmembers⟩ := hw.exists_members hr hs
  obtain ⟨hedges, htokens, hsize⟩ := hw.kept hgraph
  unfold CopiesFrom leastToken
  rw [hagenda, List.tail_cons, ← hvisited, ← hedges, ← htokens]
  refine ⟨fun hm => (hmembers start hm).1 rfl, fun turns token hturns => ?_⟩
  have hothers : ∀ member ∈ members, member ≠ start ∧ member.toNat < told.size :=
    fun member hm => hsize ▸ hmembers member hm
  rw [run_copyMembers_tail (hvisited ▸ hagenda)
      fun member hm => ⟨(hothers member hm).1, (hothers member hm).2, hturns member hm⟩,
    Editing.run_bind_of_run_eq (run_absorb hothers token), bind_assoc]
  simp only [pure_bind]
  rfl

end Copying

/-- Copying edge by edge as the lists stand is how nodes are collapsed. -/
lemma run_collapseInTurns (hr : automaton.InRange) (hq : automaton.picture.Quiet)
    (hs : start.toNat < automaton.size) {turns : Nat}
    (hturns : ∀ id, id ≠ start → (automaton.edgesOf id).length < turns) :
    (collapseInTurns turns start).run automaton =
      (collapse start >>= fun removed => pure (some removed)).run automaton := by
  unfold collapseInTurns collapse
  rw [bind_assoc, Editing.run_bind_of_run_eq (run_markClosure hq start),
    Editing.run_bind_of_run_eq (run_markClosure hq start)]
  refine (markReachable_closes hr hq hs).yields.run_bind_congr fun _ walked hw => ?_
  obtain ⟨members, hagenda, hmembers⟩ := hw.exists_members hr hs
  simp only [bind_assoc, Editing.run_modify_bind]
  -- nothing is known yet, and all else is as the walk has left it
  generalize hc : ({ walked with seen := walked.seen.clear } : Automaton) = cleared
  have hgraph : cleared.graph = walked.graph := by rw [← hc]
  have hvisited : cleared.visited = walked.visited := by rw [← hc]
  obtain ⟨-, -, hsize⟩ := hw.kept hgraph
  obtain ⟨node, hn⟩ := exists_node (show start.toNat < cleared.size from hsize ▸ hs)
  rw [run_nodeAt_bind hn, run_nodeAt_bind hn]
  refine (rememberAll_yields _).run_bind_congr fun _ told ⟨hgraph', hvisited'⟩ => ?_
  obtain ⟨hedges, -, hsize⟩ := hw.kept (hgraph'.trans hgraph)
  have hlist : told.visited.toList = start :: members := (hvisited'.trans hvisited) ▸ hagenda
  rw [Editing.run_get_bind, Editing.run_get_bind, hlist, List.tail_cons,
    Editing.run_bind_of_run_eq (run_copyMembers_tail hlist (fun member hm =>
      ⟨(hmembers member hm).1, hsize ▸ (hmembers member hm).2,
        hedges ▸ hturns member (hmembers member hm).1⟩) node.data.token), bind_assoc]
  simp only [pure_bind]

/-- In an automaton without marks, whose edges all lead to nodes, the closure of every node is found,
whatever cycles the edges form, and no list is read while it grows when edges are copied from it. -/
theorem markReachable_isEpsilon_exact (hr : automaton.InRange) (hq : automaton.picture.Quiet)
    (hs : start.toNat < automaton.size) :
    (markClosure start).run automaton =
      (markReachable Transition.isEpsilon start).run automaton ∧
    (Editing.Pays (markReachable Transition.isEpsilon start) automaton fun _ walked =>
      SilentClosure automaton start walked ∧
        ∀ told : Automaton, told.graph = walked.graph → told.visited = walked.visited →
          CopiesFrom automaton start walked.visited told) ∧
    ∀ turns, (∀ id, id ≠ start → (automaton.edgesOf id).length < turns) →
      (collapseInTurns turns start).run automaton =
        (collapse start >>= fun removed => pure (some removed)).run automaton := by
  refine ⟨run_markClosure hq start, ?_, fun turns hturns => run_collapseInTurns hr hq hs hturns⟩
  apply (markReachable_closes hr hq hs).mono
  exact fun _ walked hw => ⟨hw, fun told hgraph hvisited => hw.copiesFrom hr hs hgraph hvisited⟩

theorem markReachable_isEpsilon_exact_looped : ∃ workspace walked left,
    Workspace.looped = .ok workspace ∧ workspace.automaton.InRange ∧
    workspace.automaton.picture.Quiet ∧ NodeId.zero.toNat < workspace.automaton.size ∧
    (markClosure NodeId.zero).run workspace.automaton =
      (markReachable Transition.isEpsilon NodeId.zero).run workspace.automaton ∧
    ((markReachable Transition.isEpsilon NodeId.zero).run workspace.automaton).run workspace.arena =
      .ok (((), walked), left) ∧
    walked.visited.toList.map NodeId.toNat = [0, 1, 8, 4, 6, 5, 2, 9] ∧
    SilentClosure workspace.automaton NodeId.zero walked ∧
    CopiesFrom workspace.automaton NodeId.zero walked.visited walked ∧
    (collapseInTurns 3 NodeId.zero).run workspace.automaton =
      (collapse NodeId.zero >>= fun removed => pure (some removed)).run workspace.automaton := by
  have hok : (Workspace.looped.toOption.any fun workspace =>
      (((markReachable Transition.isEpsilon NodeId.zero).run workspace.automaton).run
        workspace.arena).toOption.any fun outcome =>
          decide (outcome.1.2.visited.toList.map NodeId.toNat = [0, 1, 8, 4, 6, 5, 2, 9] ∧
            ∀ id ∈ workspace.automaton.handles, (workspace.automaton.edgesOf id).length < 3)) = true := by
    decide +kernel
  obtain ⟨workspace, hlooped, hok⟩ := exists_of_any hok
  obtain ⟨⟨⟨_, walked⟩, left⟩, hrun, hok⟩ := exists_of_any hok
  obtain ⟨hlist, hlengths⟩ := of_decide_eq_true hok
  have hregular := (Workspace.arises_looped hlooped).regular
  have hr := hregular.settled.inRange
  have hpos := lt_size_of_markReachable hrun
  have hturns : ∀ id, id ≠ NodeId.zero → (workspace.automaton.edgesOf id).length < 3 := by
    intro id _
    by_cases hlt : id.toNat < workspace.automaton.size
    · exact hlengths id (mem_handles.mpr hlt)
    · simp [edgesOf_of_size_le (Nat.not_lt.mp hlt)]
  obtain ⟨hbegins, hpays, hcollapse⟩ := markReachable_isEpsilon_exact hr hregular.quiet hpos
  have hclosed := hpays workspace.arena
  rw [hrun] at hclosed
  exact ⟨workspace, walked, left, hlooped, hr, hregular.quiet, hpos, hbegins, hrun, hlist,
    hclosed.2.1, hclosed.2.2 walked rfl rfl, hcollapse 3 hturns⟩

end Automaton

end PatternAutomata
