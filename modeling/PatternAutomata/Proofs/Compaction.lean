import PatternAutomata.Proofs.Restriction
import PatternAutomata.Proofs.Sweep

/-!
# Compacting keeps what the live nodes are

Compacting removes the dead nodes from the table and numbers the others anew, in their order. Where
every edge from a live node leads to a live node, no edge of a live node is lost: each leads where it
led before. Then the live nodes have the runs that they had.
-/

namespace PatternAutomata

def Edge.move {τ : Type} (f : NodeId → NodeId) (edge : Edge τ) : Edge τ :=
  { edge with dest := f edge.dest }

namespace Automaton

variable {automaton : Automaton}

/-! ## Live nodes -/

lemma liveNodes_eq_passing : automaton.liveNodes =
    Digraph.passing (fun _ node => !node.data.isDead) automaton.graph.nodes.toList := by
  unfold liveNodes states Digraph.passing
  rw [List.zipIdx_map, List.filter_map, List.map_map]
  rfl

lemma mem_liveNodes {id : NodeId} : id ∈ automaton.liveNodes ↔
    id.toNat < automaton.size ∧ automaton.picture.references id ≠ 0 := by
  rw [liveNodes_eq_passing, Digraph.mem_passing]
  constructor
  · rintro ⟨node, hn, hk⟩
    have hnode : automaton.node? id = some node := by
      rw [← hn, Buffer.toList, Array.getElem?_toList, node?]
    refine ⟨lt_size_of_node hnode, ?_⟩
    simpa [picture, hnode, State.isDead] using hk
  · rintro ⟨hlt, hr⟩
    obtain ⟨node, hn⟩ := exists_node hlt
    refine ⟨node, ?_, ?_⟩
    · rw [← hn, Buffer.toList, Array.getElem?_toList, node?]
    · simpa [picture, hn, State.isDead] using hr

lemma pairwise_liveNodes : automaton.liveNodes.Pairwise fun a b => a.toNat < b.toNat :=
  liveNodes_eq_passing ▸ Digraph.pairwise_passing

lemma nodup_liveNodes : automaton.liveNodes.Nodup := liveNodes_eq_passing ▸ Digraph.nodup_passing

/-- Nodes are listed in order, so what is live says what the list is. -/
lemma liveNodes_eq_of_mem_iff {ids : List NodeId} (hsorted : ids.Pairwise fun a b => a.toNat < b.toNat)
    (hmem : ∀ id, id ∈ automaton.liveNodes ↔ id ∈ ids) : automaton.liveNodes = ids := by
  have hnodup := hsorted.imp (S := (· ≠ ·)) fun hlt heq => by
    rw [heq] at hlt
    exact Nat.lt_irrefl _ hlt
  have hperm : automaton.liveNodes.Perm ids :=
    (List.perm_ext_iff_of_nodup nodup_liveNodes hnodup).mpr hmem
  refine hperm.eq_of_pairwise (fun a b _ _ hab hba => ?_) pairwise_liveNodes hsorted
  omega

/-- The place of a live node among the live nodes. -/
def rank (automaton : Automaton) (id : NodeId) : NodeId := ⟨automaton.liveNodes.idxOf id⟩

lemma rank_lt {id : NodeId} (h : id ∈ automaton.liveNodes) :
    (automaton.rank id).toNat < automaton.liveNodes.length := List.idxOf_lt_length_of_mem h

lemma liveNodes_rank {id : NodeId} (h : id ∈ automaton.liveNodes) :
    automaton.liveNodes[(automaton.rank id).toNat]? = some id := by
  rw [List.getElem?_eq_getElem (rank_lt h)]
  exact congrArg some (List.getElem_idxOf _)

lemma exists_rank_eq {id : NodeId} (h : id.toNat < automaton.liveNodes.length) :
    ∃ old ∈ automaton.liveNodes, automaton.rank old = id :=
  ⟨automaton.liveNodes[id.toNat], List.getElem_mem h,
    congrArg NodeId.mk (nodup_liveNodes.idxOf_getElem id.toNat h)⟩

lemma rank_injOn {id other : NodeId} (h : id ∈ automaton.liveNodes)
    (heq : automaton.rank id = automaton.rank other) : id = other := by
  have := congrArg NodeId.toNat heq
  exact (List.idxOf_inj h).mp this

/-! ## Compacting -/

/-- The automaton with a table for its live nodes. An entry that is dead keeps its handle. -/
def withLive (automaton : Automaton) (graph : Digraph State Transition) : Automaton :=
  { automaton with graph, entry :=
    if automaton.entry ∈ automaton.liveNodes then automaton.rank automaton.entry
    else automaton.entry }

/-- The live nodes have become the whole table, and have kept all their edges. -/
structure Compacted (automaton after : Automaton) : Prop where
  wellFormed : after.WellFormed
  quiet : after.picture.Quiet
  size_eq : after.size = automaton.liveNodes.length
  entry_eq : after.entry = automaton.rank automaton.entry
  edgesOf_eq : ∀ id ∈ automaton.liveNodes, after.edgesOf (automaton.rank id) =
    (automaton.edgesOf id).map (Edge.move automaton.rank)
  tokenOf_eq : ∀ id ∈ automaton.liveNodes,
    after.tokenOf (automaton.rank id) = automaton.tokenOf id
  references_eq : ∀ id ∈ automaton.liveNodes,
    after.picture.references (automaton.rank id) = automaton.picture.references id

/-- The live nodes have become the whole table, and their edges to dead nodes are gone. -/
structure Thinned (automaton after : Automaton) : Prop where
  size_eq : after.size = automaton.liveNodes.length
  edgesOf_eq : ∀ id ∈ automaton.liveNodes, after.edgesOf (automaton.rank id) =
    ((automaton.edgesOf id).filter fun edge => edge.dest ∈ automaton.liveNodes).map
      (Edge.move automaton.rank)
  tokenOf_eq : ∀ id ∈ automaton.liveNodes,
    after.tokenOf (automaton.rank id) = automaton.tokenOf id
  references_eq : ∀ id ∈ automaton.liveNodes,
    after.picture.references (automaton.rank id) = automaton.picture.references id
  marked_eq : ∀ id ∈ automaton.liveNodes,
    after.picture.marked (automaton.rank id) = automaton.picture.marked id

/-- Where every edge of a live node leads to a live node, none is gone. -/
lemma Thinned.compacted {after : Automaton} (h : Thinned automaton after) (hw : after.WellFormed)
    (hq : after.picture.Quiet) (hentry : after.entry = automaton.rank automaton.entry)
    (hclosed : ∀ id ∈ automaton.liveNodes, ∀ edge ∈ automaton.edgesOf id,
      edge.dest ∈ automaton.liveNodes) : Compacted automaton after := by
  refine ⟨hw, hq, h.size_eq, hentry, ?_, h.tokenOf_eq, h.references_eq⟩
  intro id hid
  have hall := List.filter_eq_self.mpr fun edge he => decide_eq_true (hclosed id hid edge he)
  rw [h.edgesOf_eq id hid, hall]

/-- What restricting the table to the live nodes leaves: new handles, and the redirected nodes. -/
structure Restricted (automaton : Automaton) (handles : Array (Option NodeId))
    (graph : Digraph State Transition) : Prop where
  fits : graph.nodes.Fits
  handles_eq : handles = (Digraph.renumber 0 (automaton.graph.nodes.toList.map
    fun node => !node.data.isDead)).toArray
  nodes_eq : graph.nodes.data =
    ((automaton.graph.survivors handles).map (Node.redirected handles)).toArray

section Restricted

variable {handles : Array (Option NodeId)} {graph : Digraph State Transition}
  (h : automaton.Restricted handles graph)

include h

lemma Restricted.handles_eq_tested : handles = (Digraph.renumber 0
    (automaton.graph.tested fun _ node => !node.data.isDead)).toArray := by
  rw [Digraph.tested_const]
  exact h.handles_eq

/-- A live node is sent to its place among the live nodes, a dead one nowhere. -/
lemma Restricted.handles_getElem? (id : NodeId) : handles[id.toNat]?.getD none =
    if id ∈ automaton.liveNodes then some (automaton.rank id) else none := by
  rw [Digraph.getD_of_restricted h.handles_eq_tested, rank, liveNodes_eq_passing]
  simp only [Digraph.keeps_iff]

lemma Restricted.size_eq : graph.size = automaton.liveNodes.length := by
  rw [Digraph.size_of_restricted h.handles_eq_tested h.nodes_eq, liveNodes_eq_passing]

lemma Restricted.nodes_getElem? {id : NodeId} (hid : id ∈ automaton.liveNodes) :
    graph.nodes.data[(automaton.rank id).toNat]? =
      (automaton.node? id).map (Node.redirected handles) := by
  have hplace := liveNodes_rank hid
  rw [liveNodes_eq_passing] at hplace
  exact Digraph.node_of_restricted h.handles_eq_tested h.nodes_eq hplace

/-- A node loses the edges that lead to dead nodes. -/
lemma Restricted.edges_redirected {id : NodeId} {node : Node State Transition}
    (hn : automaton.node? id = some node) : (Node.redirected handles node).edges.toList =
      ((automaton.edgesOf id).filter fun edge => edge.dest ∈ automaton.liveNodes).map
        (Edge.move automaton.rank) := by
  have hedge : Edge.redirected? handles = fun edge : Edge Transition =>
      if edge.dest ∈ automaton.liveNodes then some (edge.move automaton.rank) else none := by
    funext edge
    rw [Edge.redirected?, h.handles_getElem?]
    split <;> rfl
  have hedges : automaton.edgesOf id = node.edges.data.toList := Automaton.edgesOf_eq hn
  unfold Node.redirected
  simp only [Buffer.toList, Array.toList_filterMap, ← hedges, hedge]
  rw [← List.filterMap_eq_map, List.filterMap_filter]
  simp

/-- Every node of the smaller table has been a live node. -/
lemma Restricted.exists_old {id : NodeId} {node : Node State Transition}
    (hn : graph.nodes.data[id.toNat]? = some node) : ∃ old ∈ automaton.liveNodes,
      ∃ oldNode, automaton.node? old = some oldNode ∧ automaton.rank old = id ∧
        node = Node.redirected handles oldNode := by
  have hlt : id.toNat < automaton.liveNodes.length :=
    h.size_eq ▸ (Array.getElem?_eq_some_iff.mp hn).1
  obtain ⟨old, hold, rfl⟩ := exists_rank_eq hlt
  obtain ⟨oldNode, hn'⟩ := exists_node (mem_liveNodes.mp hold).1
  rw [h.nodes_getElem? hold, hn'] at hn
  exact ⟨old, hold, oldNode, hn', rfl, (Option.some.inj hn).symm⟩

/-- Only what is still in the table is led to, whatever the counts say. -/
lemma Restricted.settled (ha : automaton.Settled) {entry : NodeId} (hentry : entry.toNat ≤ graph.size) :
    Settled { automaton with graph, entry } := by
  let after : Automaton := { automaton with graph, entry }
  have hsize : after.size = automaton.liveNodes.length := h.size_eq
  refine ⟨h.fits, ?_, ha.visited_fit, ?_, hentry, ?_⟩
  · intro id node hn
    obtain ⟨old, -, oldNode, hn', -, rfl⟩ := h.exists_old hn
    exact (ha.edges_fit hn').of_size_le rfl Array.size_filterMap_le
  · intro id edge he
    obtain ⟨node, hn⟩ := exists_node (show id.toNat < after.size from lt_size_of_edge he)
    rw [Automaton.edgesOf_eq hn] at he
    exact Digraph.dest_lt_of_restricted h.handles_eq_tested h.nodes_eq hn he
  · change after.size ≤ NodeId.limit
    rw [hsize]
    exact (length_le_size nodup_liveNodes fun id hid => (mem_liveNodes.mp hid).1).trans ha.size_le

lemma Restricted.quiet (hq : automaton.picture.Quiet) (entry : NodeId) :
    Picture.Quiet (picture { automaton with graph, entry }) := by
  let after : Automaton := { automaton with graph, entry }
  refine ⟨hq.agenda_eq, ?_⟩
  change after.picture.marked = _
  funext id
  cases hn : after.node? id with
  | none => simp [picture, hn]
  | some node =>
    obtain ⟨old, -, oldNode, hn', -, rfl⟩ := h.exists_old hn
    have hmarked := congrFun hq.marked_eq old
    simp only [picture, hn', Option.elim_some] at hmarked
    simp only [picture, hn, Option.elim_some]
    exact hmarked

/-- Each node of the smaller table is what a live node was, without the edges to dead nodes. -/
lemma Restricted.thinned : Thinned automaton (automaton.withLive graph) := by
  have hnode : ∀ id ∈ automaton.liveNodes, ∃ node, automaton.node? id = some node ∧
      (automaton.withLive graph).node? (automaton.rank id) = some (Node.redirected handles node) := by
    intro id hid
    obtain ⟨node, hn⟩ := exists_node (mem_liveNodes.mp hid).1
    exact ⟨node, hn, (h.nodes_getElem? hid).trans (by rw [hn]; rfl)⟩
  refine ⟨h.size_eq, ?_, ?_, ?_, ?_⟩
  all_goals
    intro id hid
    obtain ⟨node, hn, hafter⟩ := hnode id hid
  · rw [Automaton.edgesOf_eq hafter, h.edges_redirected hn]
  · rw [Automaton.tokenOf_eq hafter, Automaton.tokenOf_eq hn]
    rfl
  · simp only [picture, hafter, hn]
    rfl
  · simp only [picture, hafter, hn]
    rfl

theorem Restricted.compacted (ha : automaton.WellFormed) (hq : automaton.picture.Quiet)
    (hentry : automaton.entry ∈ automaton.liveNodes)
    (hclosed : ∀ id ∈ automaton.liveNodes, ∀ edge ∈ automaton.edgesOf id,
      edge.dest ∈ automaton.liveNodes) :
    Compacted automaton (automaton.withLive graph) := by
  have hsame : (automaton.withLive graph).entry = automaton.rank automaton.entry := if_pos hentry
  have hlt : (automaton.withLive graph).entry.toNat < graph.size := by
    rw [hsame, h.size_eq]
    exact rank_lt hentry
  exact h.thinned.compacted ((h.settled ha.settled (Nat.le_of_lt hlt)).wellFormed hlt) (h.quiet hq _)
    hsame hclosed

end Restricted

/-- The new handle of the entry is its place among the live nodes, if it is one of them. -/
lemma Restricted.fetch_entry {table : Buffer (Option NodeId)} {graph : Digraph State Transition}
    (h : automaton.Restricted table.data graph) (hentry : automaton.entry.toNat < automaton.size) :
    table.fetch automaton.entry.toNat = .ok (if automaton.entry ∈ automaton.liveNodes
      then some (automaton.rank automaton.entry) else none) := by
  have hsome := Digraph.getElem?_of_restricted h.handles_eq_tested hentry
  have hhandle := h.handles_getElem? automaton.entry
  unfold Buffer.fetch
  rw [hsome, Option.getD_some] at hhandle
  rw [hsome, ← hhandle]

lemma compact_restricts (ha : automaton.WellFormed) :
    Editing.Ensures compact automaton fun _ after => ∃ handles graph,
      automaton.Restricted handles graph ∧ after = automaton.withLive graph := by
  unfold compact
  rw [Editing.ensures_get_bind]
  refine Editing.Ensures.bind (p := fun restricted now => automaton = now ∧
    automaton.Restricted restricted.1.data restricted.2) ?_ ?_
  · rw [Editing.ensures_charged]
    apply (Digraph.restrict_ensures ha.closed _).mono
    rintro ⟨handles, graph⟩ ⟨hhandles, hfits, hnodes⟩
    rw [Digraph.tested_const] at hhandles
    exact ⟨rfl, hfits, hhandles, hnodes⟩
  rintro ⟨handles, graph⟩ _ ⟨rfl, h⟩
  rw [Editing.ensures_except_bind, h.fetch_entry ha.entry_lt, withinLimits_ok, Editing.ensures_set]
  refine ⟨handles.data, graph, h, ?_⟩
  unfold withLive
  split_ifs <;> rfl

/-- Where edges from live nodes lead to live nodes, compacting loses none of them. -/
theorem compact_ensures (ha : automaton.WellFormed) (hq : automaton.picture.Quiet) :
    Editing.Ensures compact automaton fun _ after => automaton.entry ∈ automaton.liveNodes →
      (∀ id ∈ automaton.liveNodes, ∀ edge ∈ automaton.edgesOf id,
        edge.dest ∈ automaton.liveNodes) → Compacted automaton after := by
  apply (compact_restricts ha).mono
  rintro - _ ⟨handles, graph, h, rfl⟩ hentry hclosed
  exact h.compacted ha hq hentry hclosed

/-- The first node stays the first if it is live. -/
lemma rank_zero (h : NodeId.zero ∈ automaton.liveNodes) : automaton.rank NodeId.zero = NodeId.zero := by
  have hsorted := automaton.pairwise_liveNodes
  unfold rank
  cases hl : automaton.liveNodes with
  | nil =>
    rw [hl] at h
    cases h
  | cons first rest =>
    rw [hl] at h hsorted
    rcases List.mem_cons.mp h with hfirst | hrest
    · rw [← hfirst, List.idxOf_cons_self]
      rfl
    · exact absurd ((List.pairwise_cons.mp hsorted).1 _ hrest) (Nat.not_lt_zero _)

/-- An entry at the front stays there, even if it is dead. -/
lemma compact_settled (ha : automaton.WellFormed) (hq : automaton.picture.Quiet)
    (hentry : automaton.entry = NodeId.zero) : Editing.Ensures compact automaton fun _ after =>
      after.Settled ∧ after.picture.Quiet ∧ after.entry = NodeId.zero := by
  apply (compact_restricts ha).mono
  rintro - _ ⟨handles, graph, h, rfl⟩
  have hzero : (automaton.withLive graph).entry = NodeId.zero := by
    unfold withLive
    rw [hentry]
    split_ifs with hlive
    · exact rank_zero hlive
    · rfl
  have hle : (automaton.withLive graph).entry.toNat ≤ graph.size := by
    rw [hzero]
    exact Nat.zero_le _
  exact ⟨h.settled ha.settled hle, h.quiet hq _, hzero⟩

/-! ## Runs of the live nodes -/

/-- One automaton does at some nodes what another does at their images. -/
structure Embeds (live : NodeId → Prop) (f : NodeId → NodeId) (automaton after : Automaton) :
    Prop where
  closed : ∀ {id}, live id → ∀ edge ∈ automaton.edgesOf id, live edge.dest
  edgesOf_eq : ∀ {id}, live id → after.edgesOf (f id) = (automaton.edgesOf id).map (Edge.move f)
  tokenOf_eq : ∀ {id}, live id → after.tokenOf (f id) = automaton.tokenOf id

namespace Embeds

variable {live : NodeId → Prop} {f : NodeId → NodeId} {after : Automaton}

lemma leads_iff (h : Embeds live f automaton after) {id : NodeId} (hl : live id) (symbol : UInt8)
    (next : NodeId) : after.Leads (f id) symbol next ↔
      ∃ dest, live dest ∧ f dest = next ∧ automaton.Leads id symbol dest := by
  unfold Leads
  rw [h.edgesOf_eq hl, List.mem_map]
  constructor
  · rintro ⟨⟨dest, data⟩, he, heq⟩
    cases heq
    exact ⟨dest, h.closed hl _ he, rfl, he⟩
  · rintro ⟨dest, -, rfl, he⟩
    exact ⟨_, he, rfl⟩

lemma reads_iff (h : Embeds live f automaton after) {id : NodeId} (hl : live id)
    {word : List UInt8} {last : NodeId} : Reads after.Leads (f id) word last ↔
      ∃ dest, live dest ∧ f dest = last ∧ Reads automaton.Leads id word dest := by
  constructor
  · intro hr
    generalize hs : f id = start at hr
    induction hr generalizing id with
    | here start => exact ⟨id, hl, hs, .here id⟩
    | silent hstep _ ih =>
      subst hs
      obtain ⟨next, hnext, rfl, hold⟩ := (h.leads_iff hl _ _).mp hstep
      obtain ⟨dest, hd, heq, hrest⟩ := ih hnext rfl
      exact ⟨dest, hd, heq, .silent hold hrest⟩
    | consume hne hstep _ ih =>
      subst hs
      obtain ⟨next, hnext, rfl, hold⟩ := (h.leads_iff hl _ _).mp hstep
      obtain ⟨dest, hd, heq, hrest⟩ := ih hnext rfl
      exact ⟨dest, hd, heq, .consume hne hold hrest⟩
  · rintro ⟨dest, -, rfl, hr⟩
    induction hr with
    | here => exact .here _
    | silent hstep _ ih =>
      have hnext := h.closed hl _ hstep
      exact .silent ((h.leads_iff hl _ _).mpr ⟨_, hnext, rfl, hstep⟩) (ih hnext)
    | consume hne hstep _ ih =>
      have hnext := h.closed hl _ hstep
      exact .consume hne ((h.leads_iff hl _ _).mpr ⟨_, hnext, rfl, hstep⟩) (ih hnext)

lemma live_of_reads (h : Embeds live f automaton after) {id dest : NodeId} (hl : live id)
    {word : List UInt8} (hr : Reads automaton.Leads id word dest) : live dest := by
  induction hr with
  | here => exact hl
  | silent hstep _ ih => exact ih (h.closed hl _ hstep)
  | consume _ hstep _ ih => exact ih (h.closed hl _ hstep)

/-- Embedded nodes have the runs of their images. -/
theorem runFrom_eq (h : Embeds live f automaton after) {id : NodeId} (hl : live id)
    (word : List UInt8) : after.runFrom (f id) word = automaton.runFrom id word := by
  apply runFrom_congr
  intro bound
  unfold Bounded
  constructor
  · intro hb dest hr
    have hd := h.live_of_reads hl hr
    rw [← h.tokenOf_eq hd]
    exact hb (f dest) ((h.reads_iff hl).mpr ⟨dest, hd, rfl, hr⟩)
  · intro hb last hr
    obtain ⟨dest, hd, rfl, hold⟩ := (h.reads_iff hl).mp hr
    rw [h.tokenOf_eq hd]
    exact hb dest hold

end Embeds

end Automaton

end PatternAutomata
