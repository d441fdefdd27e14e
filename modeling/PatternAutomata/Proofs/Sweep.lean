import PatternAutomata.Proofs.Collapse

/-!
# Counting references anew

After a sweep a node counts the edges that lead to it from nodes reached from the entry, and the
entry counts one more. Counts are 32-bit words. As long as they hold the number of edges, the nodes
that count something are exactly those reached from the entry.
-/

namespace PatternAutomata

namespace Automaton

variable {automaton : Automaton}

/-! ## All states changed -/

def withStates (automaton : Automaton) (f : NodeId → State → State) : Automaton :=
  { automaton with graph := automaton.graph.mapData f }

lemma node?_withStates (f : NodeId → State → State) (id : NodeId) :
    (automaton.withStates f).node? id =
      (automaton.node? id).map fun node => { node with data := f id node.data } := by
  simp only [withStates, node?, Digraph.mapData, Array.getElem?_mapIdx]

@[simp] lemma size_withStates (f : NodeId → State → State) :
    (automaton.withStates f).size = automaton.size := by
  simp [withStates, size, Digraph.size, Digraph.mapData, Buffer.size]

lemma edgesOf_withStates (f : NodeId → State → State) :
    (automaton.withStates f).edgesOf = automaton.edgesOf := by
  funext id
  unfold edgesOf
  rw [node?_withStates]
  cases automaton.node? id <;> rfl

lemma Settled.withStates (ha : automaton.Settled) (f : NodeId → State → State) :
    (automaton.withStates f).Settled where
  nodes_fit := ha.nodes_fit.of_size_le rfl (by
    simp [Automaton.withStates, Digraph.mapData, Buffer.size])
  edges_fit := by
    intro id node hn
    rw [node?_withStates] at hn
    obtain ⟨old, hold, rfl⟩ := Option.map_eq_some_iff.mp hn
    have hfit : old.edges.Fits := ha.edges_fit hold
    exact hfit
  visited_fit := ha.visited_fit
  dest_lt := by
    intro id edge he
    rw [edgesOf_withStates] at he
    rw [size_withStates]
    exact ha.dest_lt he
  entry_le := by rw [size_withStates]; exact ha.entry_le
  size_le := by rw [size_withStates]; exact ha.size_le

lemma WellFormed.withStates (ha : automaton.WellFormed) (f : NodeId → State → State) :
    (automaton.withStates f).WellFormed :=
  (ha.settled.withStates f).wellFormed (by rw [size_withStates]; exact ha.entry_lt)

/-! ## Counting -/

def handles (automaton : Automaton) : List NodeId := (List.range automaton.size).map NodeId.mk

@[simp] lemma mem_handles {id : NodeId} : id ∈ automaton.handles ↔ id.toNat < automaton.size :=
  Digraph.mem_handles

lemma nodup_handles : automaton.handles.Nodup := automaton.graph.nodup_handles

lemma pairwise_handles : automaton.handles.Pairwise fun a b => a.toNat < b.toNat := by
  unfold handles
  rw [List.pairwise_map]
  exact List.pairwise_lt_range

/-- Whether some path leads from the entry to a node. -/
def Reached (automaton : Automaton) (id : NodeId) : Prop :=
  automaton.Reaches (fun _ => true) automaton.entry id

lemma Reached.entry : automaton.Reached automaton.entry := Relation.ReflTransGen.refl

lemma Reached.edge {id : NodeId} (h : automaton.Reached id) {edge : Edge Transition}
    (he : edge ∈ automaton.edgesOf id) : automaton.Reached edge.dest :=
  Relation.ReflTransGen.tail h ⟨edge, he, rfl, rfl⟩

lemma Reached.lt_size (ha : automaton.WellFormed) {id : NodeId} (h : automaton.Reached id) :
    id.toNat < automaton.size :=
  Reaches.lt_size ha.inRange h ha.entry_lt

/-- How many of the edges that leave some nodes lead to a node. -/
def edgesInto (automaton : Automaton) (sources : List NodeId) (dest : NodeId) : Nat :=
  (sources.flatMap automaton.edgesOf).countP fun edge => edge.dest = dest

/-- How many edges lead to a node from nodes reached from the entry. -/
noncomputable def inflow (automaton : Automaton) (dest : NodeId) : Nat :=
  open Classical in
  automaton.edgesInto (automaton.handles.filter fun id => automaton.Reached id) dest

lemma inflow_eq (ha : automaton.WellFormed) {live : List NodeId} (hn : live.Nodup)
    (hl : ∀ id, id ∈ live ↔ automaton.Reached id) (dest : NodeId) :
    automaton.edgesInto live dest = automaton.inflow dest := by
  classical
  have hperm : live.Perm (automaton.handles.filter fun id => automaton.Reached id) := by
    apply (List.perm_ext_iff_of_nodup hn (nodup_handles.filter _)).mpr
    intro id
    rw [hl, List.mem_filter, mem_handles, decide_eq_true_iff]
    exact ⟨fun h => ⟨h.lt_size ha, h⟩, fun h => h.2⟩
  unfold inflow edgesInto
  exact (hperm.flatMap_right _).countP_eq _

lemma inflow_pos_of_edge {id : NodeId} (h : automaton.Reached id) {edge : Edge Transition}
    (he : edge ∈ automaton.edgesOf id) : 0 < automaton.inflow edge.dest := by
  classical
  unfold inflow edgesInto
  refine List.countP_pos_iff.mpr ⟨edge, List.mem_flatMap.mpr ⟨id, ?_, he⟩, by simp⟩
  rw [List.mem_filter, mem_handles, decide_eq_true_iff]
  exact ⟨lt_size_of_edge he, h⟩

lemma reached_of_inflow_pos {dest : NodeId} (h : 0 < automaton.inflow dest) :
    automaton.Reached dest := by
  classical
  unfold inflow edgesInto at h
  obtain ⟨edge, he, hd⟩ := List.countP_pos_iff.mp h
  obtain ⟨id, hid, he⟩ := List.mem_flatMap.mp he
  rw [List.mem_filter, decide_eq_true_iff] at hid
  exact of_decide_eq_true hd ▸ hid.2.edge he

/-- What a sweep makes a node count: the edges that lead to it from nodes reached from the entry, and
one more for the entry. -/
noncomputable def demand (automaton : Automaton) (id : NodeId) : Nat :=
  automaton.inflow id + if id = automaton.entry then 1 else 0

lemma demand_pos_iff {id : NodeId} : 0 < automaton.demand id ↔ automaton.Reached id := by
  unfold demand
  constructor
  · intro h
    by_cases he : id = automaton.entry
    · exact he ▸ Reached.entry
    · rw [if_neg he] at h
      exact reached_of_inflow_pos h
  · intro h
    rcases Relation.ReflTransGen.cases_tail h with heq | ⟨source, hs, edge, he, -, rfl⟩
    · rw [if_pos heq]
      omega
    · have := inflow_pos_of_edge hs he
      omega

lemma demand_congr {after : Automaton} (hsize : after.size = automaton.size)
    (hentry : after.entry = automaton.entry) (hedges : after.edgesOf = automaton.edgesOf) :
    after.demand = automaton.demand := by
  funext id
  unfold demand inflow edgesInto handles Reached Reaches
  rw [hsize, hentry, hedges]

/-- Whether the words that count references hold the numbers that a sweep counts. -/
def CountsFit (automaton : Automaton) : Prop := ∀ id, automaton.demand id < UInt32.size

/-- No node can be led to by more edges than there are. -/
lemma countsFit_of_edgeCount (h : automaton.graph.edgeCount + 1 < UInt32.size) :
    automaton.CountsFit := by
  classical
  have hlength : (automaton.handles.flatMap automaton.edgesOf).length = automaton.graph.edgeCount := by
    have hdegree : ∀ id, (automaton.edgesOf id).length = automaton.graph.degree id := by
      intro id
      unfold edgesOf node? Digraph.degree
      cases automaton.graph.nodes.data[id.toNat]? <;> simp [Buffer.toList, Buffer.size]
    rw [Digraph.edgeCount_eq, List.length_flatMap, handles, List.map_map]
    simp only [Function.comp_def, hdegree]
    exact (Multiset.sum_coe _).symm
  intro id
  have hle : automaton.inflow id ≤ automaton.graph.edgeCount := by
    rw [← hlength]
    refine List.countP_le_length.trans (List.Sublist.length_le ?_)
    exact List.filter_sublist.flatMap _
  unfold demand
  split <;> omega

lemma addReferences_ensures (ha : automaton.WellFormed) (edges : List (Edge Transition))
    (hd : ∀ edge ∈ edges, edge.dest.toNat < automaton.size) :
    Editing.Ensures (edges.forM fun edge => modifyState edge.dest State.addReference) automaton
      fun _ => Shows automaton { automaton.picture with
        references := fun id => automaton.picture.references id +
          (edges.countP fun edge => edge.dest = id).toUInt32 } := by
  induction edges generalizing automaton with
  | nil =>
    unfold List.forM
    rw [Editing.ensures_pure]
    simpa using Shows.refl ha
  | cons edge rest ih =>
    unfold List.forM
    apply (setReferences_ensures ha (hd edge (by simp)) (· + 1)).bind
    intro _ first hf
    have hsize : first.size = automaton.size := congrArg Picture.size hf.picture_eq
    refine (ih hf.wellFormed fun e he => hsize ▸ hd e (by simp [he])).mono fun _ after hr => ?_
    refine hf.trans ⟨hr.wellFormed, hr.picture_eq.trans ?_, hr.seen_eq⟩
    rw [hf.picture_eq]
    ext1 <;> try rfl
    funext id
    by_cases h : id = edge.dest
    · subst h
      simp only [Function.update_self, List.countP_cons_of_pos, decide_true, Nat.toUInt32_eq,
        UInt32.ofNat_add, UInt32.add_assoc]
      congr 1
      exact UInt32.add_comm _ _
    · simp [h, Ne.symm h]

lemma countEdges_ensures (ha : automaton.WellFormed) (live : List NodeId)
    (hl : ∀ id ∈ live, id.toNat < automaton.size) :
    Editing.Ensures (countEdges live) automaton fun _ => Shows automaton { automaton.picture with
      references := fun id => automaton.picture.references id +
        (automaton.edgesInto live id).toUInt32 } := by
  induction live generalizing automaton with
  | nil =>
    unfold countEdges
    rw [Editing.ensures_pure]
    simpa [edgesInto] using Shows.refl ha
  | cons id rest ih =>
    obtain ⟨node, hn⟩ := exists_node (hl id (by simp))
    have hedges : node.edges.toList = automaton.edgesOf id := (edgesOf_eq hn).symm
    unfold countEdges
    rw [ensures_nodeAt_bind hn, hedges]
    refine (addReferences_ensures ha _ fun edge he => ha.dest_lt he).bind fun _ first hf => ?_
    have hsize : first.size = automaton.size := congrArg Picture.size hf.picture_eq
    have hedges' : first.edgesOf = automaton.edgesOf := congrArg Picture.edges hf.picture_eq
    refine (ih hf.wellFormed fun other ho => hsize ▸ hl other (by simp [ho])).mono fun _ after hr => ?_
    refine hf.trans ⟨hr.wellFormed, hr.picture_eq.trans ?_, hr.seen_eq⟩
    rw [hf.picture_eq]
    ext1 <;> try rfl
    funext dest
    simp [edgesInto, hedges', UInt32.add_assoc]

lemma picture_reset :
    (automaton.withStates fun _ state => { state with references := 0 }).picture =
      { automaton.picture with references := fun _ => 0 } := by
  ext1
  · exact size_withStates _
  · rfl
  · rfl
  · exact edgesOf_withStates _
  all_goals
    funext id
    simp only [picture, tokenOf, node?_withStates]
    cases automaton.node? id <;> rfl

/-- What a sweep does once no references are counted. -/
def recount : Editing Nat := do
  let entry := (← get).entry
  markReachable (fun _ => true) entry
  let live := (← get).visited.toList
  countEdges live
  modifyState entry State.addReference
  clearMarks
  return live.length

lemma recount_ensures (ha : automaton.WellFormed) (hq : automaton.picture.Quiet)
    (hzero : automaton.picture.references = fun _ => 0) :
    Editing.Ensures recount automaton fun _ => Shows automaton
      { automaton.picture with references := fun id => (automaton.demand id).toUInt32 } := by
  unfold recount
  rw [Editing.ensures_get_bind]
  apply (markReachable_ensures ha hq ha.entry_lt).bind
  rintro - walked ⟨live, hw, hnodup, -, hlive⟩
  have hlt : ∀ id ∈ live, id.toNat < automaton.size := fun id h =>
    Reached.lt_size ha ((hlive id).mp h)
  have hsizew : walked.size = automaton.size := congrArg Picture.size hw.picture_eq
  have hedgesw : walked.edgesOf = automaton.edgesOf := congrArg Picture.edges hw.picture_eq
  have hagenda : walked.visited.toList = automaton.picture.agenda ++ live :=
    congrArg Picture.agenda hw.picture_eq
  rw [Editing.ensures_get_bind, hagenda, hq.agenda_eq, List.nil_append]
  apply (countEdges_ensures hw.wellFormed live fun id h => hsizew ▸ hlt id h).bind
  intro _ counted hc
  have hsizec : counted.size = automaton.size := (congrArg Picture.size hc.picture_eq).trans hsizew
  have hentry : automaton.entry.toNat < counted.size := hsizec ▸ ha.entry_lt
  apply (setReferences_ensures hc.wellFormed hentry (· + 1)).bind
  intro _ entered he
  have hpicture := he.picture_eq
  rw [hc.picture_eq, hw.picture_eq] at hpicture
  have hsizee : entered.size = automaton.size := congrArg Picture.size hpicture
  refine (clearMarks_ensures he.wellFormed ?_ ?_).bind fun _ after hcleared => ?_
  · rw [hpicture, hsizee]
    simpa [Picture.mark, hq.agenda_eq] using hlt
  · rw [hpicture]
    simp [Picture.mark, hq.agenda_eq, hq.marked_eq]
  rw [Editing.ensures_pure]
  refine ⟨hcleared.wellFormed, hcleared.picture_eq.trans ?_, ?_⟩
  · rw [hpicture]
    ext1 <;> try rfl
    · exact hq.agenda_eq.symm
    · exact hq.marked_eq.symm
    · funext id
      have hcount : walked.edgesInto live id = automaton.inflow id := by
        rw [← inflow_eq ha hnodup hlive]
        unfold edgesInto
        rw [hedgesw]
      by_cases h : id = automaton.entry
      · subst h
        simp [demand, hcount, Picture.mark, hzero]
      · simp [demand, hcount, Picture.mark, hzero, h]
  · rw [hcleared.seen_eq, he.seen_eq, hc.seen_eq, hw.seen_eq]

/-- A sweep changes nothing but the counts. -/
theorem sweep_ensures (ha : automaton.WellFormed) (hq : automaton.picture.Quiet) :
    Editing.Ensures sweep automaton fun _ after => after.WellFormed ∧ after.picture =
      { automaton.picture with references := fun id => (automaton.demand id).toUInt32 } := by
  unfold sweep
  rw [Editing.ensures_modify_bind]
  let reset := automaton.withStates fun _ state => { state with references := 0 }
  have hpicture : reset.picture = { automaton.picture with references := fun _ => 0 } :=
    picture_reset
  have hquiet : reset.picture.Quiet := by
    rw [hpicture]
    exact ⟨hq.agenda_eq, hq.marked_eq⟩
  have hdemand : reset.demand = automaton.demand := demand_congr (congrArg Picture.size hpicture)
    (congrArg Picture.entry hpicture) (congrArg Picture.edges hpicture)
  change Editing.Ensures recount reset _
  apply (recount_ensures (ha.withStates _) hquiet (congrArg Picture.references hpicture)).mono
  intro _ after h
  refine ⟨h.wellFormed, h.picture_eq.trans ?_⟩
  change { reset.picture with references := fun id => (reset.demand id).toUInt32 } = _
  rw [hdemand, hpicture]

end Automaton

end PatternAutomata
