import PatternAutomata.Proofs.Compaction

/-!
# Reduction keeps every run

Reduction collapses every node, counts the references anew and may remove the dead nodes. What it
leaves of a node is what the node showed weakly, so no run changes: from no node if the table is kept,
and not from the entry if it is compacted, as long as the counts fit their words.
-/

namespace PatternAutomata

namespace Automaton

variable {automaton flat after : Automaton}

/-- Every node counts what a sweep makes it count; edges, tokens and handles are as they were. -/
structure Swept (flat after : Automaton) : Prop where
  wellFormed : after.WellFormed
  quiet : after.picture.Quiet
  size_eq : after.size = flat.size
  entry_eq : after.entry = flat.entry
  edgesOf_eq : after.edgesOf = flat.edgesOf
  tokenOf_eq : after.tokenOf = flat.tokenOf
  references_eq : ∀ id, after.picture.references id = (flat.demand id).toUInt32

/-! ## Writing positions into the states -/

lemma picture_relabeled : (automaton.withStates fun id state => { state with id }).picture =
    { automaton.picture with label := fun id => (automaton.node? id).elim NodeId.zero fun _ => id } := by
  have hnode : ∀ id, (automaton.withStates fun id state => { state with id }).node? id = _ :=
    node?_withStates _
  ext1
  · exact size_withStates _
  · rfl
  · rfl
  · exact edgesOf_withStates _
  all_goals
    funext id
    simp only [picture, tokenOf, hnode]
    cases automaton.node? id <;> rfl

/-! ## Up to the sweep -/

/-- What reduction does before it looks at whether to compact. -/
def flatten : Editing Message := do
  let order ← (← get).graph.postOrder
  let removed ← collapseAll order.toList
  let live ← sweep
  return ⟨.trace,
    s!"reduced {order.size} nodes: removed {removed} epsilon edges, {live} nodes still live"⟩

lemma reduce_eq (compacting : Bool) : reduce compacting = do
    let reduced ← flatten
    if compacting then
      compact
      let size := (← get).graph.size
      relabel
      return [reduced, ⟨.trace, s!"compacted node table to {size} nodes"⟩]
    else
      relabel
      return [reduced] := by
  simp only [reduce, flatten, bind_assoc, pure_bind]

/-- The nodes are collapsed in some order, then the references are counted. -/
lemma flatten_of_steps (ha : automaton.WellFormed) {p q : Automaton → Prop}
    (hcollapse : ∀ order : List NodeId, (∀ id, id ∈ order ↔ id.toNat < automaton.size) →
      Editing.Ensures (collapseAll order) automaton fun _ => p)
    (hsweep : ∀ collapsed, p collapsed → Editing.Ensures sweep collapsed fun _ => q) :
    Editing.Ensures flatten automaton fun _ => q := by
  unfold flatten
  rw [Editing.ensures_get_bind]
  refine Editing.Ensures.bind (p := fun order now => automaton = now ∧
    ∀ id, id ∈ order.toList ↔ id.toNat < automaton.size) ?_ ?_
  · rw [Editing.ensures_charged]
    exact (Digraph.postOrder_ensures ha.closed).mono fun order h => ⟨rfl, h.2⟩
  rintro order _ ⟨rfl, horder⟩
  apply (hcollapse order.toList horder).bind
  intro _ collapsed hcollapsed
  apply (hsweep collapsed hcollapsed).bind
  intro _ after hafter
  rw [Editing.ensures_pure]
  exact hafter

lemma flatten_ensures (ha : automaton.WellFormed) (hq : automaton.picture.Quiet) :
    Editing.Ensures flatten automaton fun _ after => ∃ flat, automaton.Flattened flat ∧
      (∀ id, flat.Flat id) ∧ Swept flat after := by
  apply flatten_of_steps ha fun order horder => collapsePostOrder_ensures ha hq horder
  rintro flat ⟨hflattened, hflat⟩
  apply (sweep_ensures hflattened.wellFormed hflattened.quiet).mono
  rintro _ after ⟨hw, hp⟩
  refine ⟨flat, hflattened, hflat, hw, ⟨?_, ?_⟩, congrArg Picture.size hp, congrArg Picture.entry hp,
    congrArg Picture.edges hp, congrArg Picture.token hp, congrFun (congrArg Picture.references hp)⟩
  · rw [hp]
    exact hflattened.quiet.agenda_eq
  · rw [hp]
    exact hflattened.quiet.marked_eq

lemma Swept.relabel {last : Automaton} (h : Swept flat after) (hw : last.WellFormed)
    (hp : last.picture = { after.picture with
      label := fun id => (after.node? id).elim NodeId.zero fun _ => id }) : Swept flat last where
  wellFormed := hw
  quiet := by
    rw [hp]
    exact ⟨h.quiet.agenda_eq, h.quiet.marked_eq⟩
  size_eq := (congrArg Picture.size hp).trans h.size_eq
  entry_eq := (congrArg Picture.entry hp).trans h.entry_eq
  edgesOf_eq := (congrArg Picture.edges hp).trans h.edgesOf_eq
  tokenOf_eq := (congrArg Picture.token hp).trans h.tokenOf_eq
  references_eq id := (congrFun (congrArg Picture.references hp) id).trans (h.references_eq id)

lemma Compacted.relabel {last : Automaton} (h : Compacted automaton after) (hw : last.WellFormed)
    (hp : last.picture = { after.picture with
      label := fun id => (after.node? id).elim NodeId.zero fun _ => id }) :
    Compacted automaton last where
  wellFormed := hw
  quiet := by
    rw [hp]
    exact ⟨h.quiet.agenda_eq, h.quiet.marked_eq⟩
  size_eq := (congrArg Picture.size hp).trans h.size_eq
  entry_eq := (congrArg Picture.entry hp).trans h.entry_eq
  edgesOf_eq id hid := (congrFun (congrArg Picture.edges hp) _).trans (h.edgesOf_eq id hid)
  tokenOf_eq id hid := (congrFun (congrArg Picture.token hp) _).trans (h.tokenOf_eq id hid)
  references_eq id hid :=
    (congrFun (congrArg Picture.references hp) _).trans (h.references_eq id hid)

lemma Swept.all_flat (h : Swept flat after) (hflat : ∀ id, flat.Flat id) (id : NodeId) :
    after.Flat id := by
  unfold Flat
  rw [h.edgesOf_eq]
  exact hflat id

lemma Compacted.all_flat (h : Compacted automaton after) (hflat : ∀ id, automaton.Flat id)
    (id : NodeId) : after.Flat id := by
  intro edge he
  have hlt := lt_size_of_edge he
  rw [h.size_eq] at hlt
  obtain ⟨old, hold, rfl⟩ := exists_rank_eq hlt
  rw [h.edgesOf_eq old hold] at he
  obtain ⟨oldEdge, ho, rfl⟩ := List.mem_map.mp he
  exact hflat old oldEdge ho

/-! ## Live nodes of a swept automaton -/

lemma Swept.reached_eq (h : Swept flat after) : after.Reached = flat.Reached := by
  funext id
  unfold Reached Reaches
  rw [h.edgesOf_eq, h.entry_eq]

lemma Swept.demand_eq (h : Swept flat after) : after.demand = flat.demand :=
  demand_congr h.size_eq h.entry_eq h.edgesOf_eq

lemma Swept.countsFit_iff (h : Swept flat after) : after.CountsFit ↔ flat.CountsFit := by
  unfold CountsFit
  rw [h.demand_eq]

/-- A word that holds what a sweep counts says it. -/
lemma Swept.toNat_references (h : Swept flat after) (hc : flat.CountsFit) (id : NodeId) :
    (after.picture.references id).toNat = flat.demand id := by
  rw [h.references_eq]
  exact Nat.mod_eq_of_lt (hc id)

lemma Swept.mem_liveNodes_iff (h : Swept flat after) (hf : flat.WellFormed) (hc : flat.CountsFit)
    {id : NodeId} : id ∈ after.liveNodes ↔ flat.Reached id := by
  have hcount : after.picture.references id ≠ 0 ↔ 0 < flat.demand id := by
    rw [← h.toNat_references hc, Nat.pos_iff_ne_zero, Ne, Ne, ← UInt32.toNat_inj]
    rfl
  rw [mem_liveNodes, hcount, demand_pos_iff, h.size_eq]
  exact ⟨fun hr => hr.2, fun hr => ⟨hr.lt_size hf, hr⟩⟩

lemma Swept.entry_mem_liveNodes (h : Swept flat after) (hf : flat.WellFormed)
    (hc : flat.CountsFit) : after.entry ∈ after.liveNodes := by
  rw [h.mem_liveNodes_iff hf hc, h.entry_eq]
  exact Reached.entry

lemma Swept.dest_mem_liveNodes (h : Swept flat after) (hf : flat.WellFormed)
    (hc : flat.CountsFit) : ∀ id ∈ after.liveNodes, ∀ edge ∈ after.edgesOf id,
      edge.dest ∈ after.liveNodes := by
  intro id hid edge he
  rw [h.mem_liveNodes_iff hf hc] at hid ⊢
  rw [h.edgesOf_eq] at he
  exact hid.edge he

/-- A reduction that stays within its limits sweeps, restricts the table to the live nodes if it
compacts, and writes every position into its state. Without compacting it stays within its limits as
well. -/
theorem reduce_restricts (ha : automaton.WellFormed) (hq : automaton.picture.Quiet)
    (compacting : Bool) (arena : Arena) :
    WithinLimits (((reduce compacting).run automaton).run arena) fun ((_, after), _) =>
      ∃ flat swept last : Automaton, automaton.Flattened flat ∧ (∀ id, flat.Flat id) ∧
        Swept flat swept ∧
        (∃ reports arena', ((reduce false).run automaton).run arena =
          .ok ((reports, swept.withStates fun id state => { state with id }), arena')) ∧
        after = (last.withStates fun id state => { state with id }) ∧
        (compacting = false → last = swept) ∧
        (compacting = true → ∃ handles graph, swept.Restricted handles graph ∧
          last = swept.withLive graph) := by
  have hflatten := flatten_ensures ha hq arena
  cases hrun : (flatten.run automaton).run arena with
  | error fault =>
    rw [hrun] at hflatten
    rw [reduce_eq, StateT.run_bind, StateT.run_bind, hrun]
    exact hflatten
  | ok outcome =>
    obtain ⟨⟨reduced, swept⟩, arena'⟩ := outcome
    rw [hrun] at hflatten
    obtain ⟨flat, hflattened, hflat, hswept⟩ := hflatten
    have hkept : ((reduce false).run automaton).run arena =
        .ok (([reduced], swept.withStates fun id state => { state with id }), arena') := by
      rw [reduce_eq, StateT.run_bind, StateT.run_bind, hrun]
      rfl
    cases compacting with
    | false =>
      rw [hkept, withinLimits_ok]
      exact ⟨flat, swept, swept, hflattened, hflat, hswept, ⟨_, _, rfl⟩, rfl, fun _ => rfl, nofun⟩
    | true =>
      have hcompact : Editing.Ensures (do
          compact
          let size := (← get).graph.size
          relabel
          return [reduced, ⟨.trace, s!"compacted node table to {size} nodes"⟩] : Editing (List Message))
          swept fun _ after => ∃ last : Automaton,
            after = (last.withStates fun id state => { state with id }) ∧
            ∃ handles graph, swept.Restricted handles graph ∧ last = swept.withLive graph := by
        apply (compact_restricts hswept.wellFormed).bind
        intro _ last hlast
        unfold relabel
        rw [Editing.ensures_get_bind, Editing.ensures_modify_bind, Editing.ensures_pure]
        exact ⟨last, rfl, hlast⟩
      have h := hcompact arena'
      rw [reduce_eq, StateT.run_bind, StateT.run_bind, hrun]
      apply WithinLimits.mono h
      rintro ⟨⟨reports, after⟩, arena''⟩ ⟨last, hafter, hlast⟩
      exact ⟨flat, swept, last, hflattened, hflat, hswept, ⟨_, _, hkept⟩, hafter, nofun,
        fun _ => hlast⟩

/-- A reduction that stays within its limits leaves the swept automaton, or compacts it. The
automaton swept is the one that reduction without compacting leaves. -/
theorem reduce_withinLimits (ha : automaton.WellFormed) (hq : automaton.picture.Quiet)
    (compacting : Bool) (arena : Arena) :
    WithinLimits (((reduce compacting).run automaton).run arena) fun ((_, after), _) =>
      ∃ flat, automaton.Flattened flat ∧ (∀ id, flat.Flat id) ∧
        (∃ reports plain arena', ((reduce false).run automaton).run arena =
          .ok ((reports, plain), arena') ∧ Swept flat plain) ∧
        (compacting = false → Swept flat after) ∧
        (compacting = true → flat.CountsFit → ∃ swept, Swept flat swept ∧ Compacted swept after) := by
  apply (reduce_restricts ha hq compacting arena).mono
  rintro ⟨⟨reports, _⟩, arena'⟩
    ⟨flat, swept, last, hflattened, hflat, hswept, ⟨_, _, hkept⟩, rfl, hplain, hcompact⟩
  have hrelabel : Swept flat (swept.withStates fun id state => { state with id }) :=
    hswept.relabel (hswept.wellFormed.withStates _) picture_relabeled
  refine ⟨flat, hflattened, hflat, ⟨_, _, _, hkept, hrelabel⟩, fun hc => ?_, fun hc hfit => ?_⟩
  · rw [hplain hc]
    exact hrelabel
  · obtain ⟨handles, graph, h, rfl⟩ := hcompact hc
    have hcompacted := h.compacted hswept.wellFormed hswept.quiet
      (hswept.entry_mem_liveNodes hflattened.wellFormed hfit)
      (hswept.dest_mem_liveNodes hflattened.wellFormed hfit)
    exact ⟨swept, hswept, hcompacted.relabel (hcompacted.wellFormed.withStates _) picture_relabeled⟩

/-! ## Runs of a reduced automaton -/

lemma Swept.runFrom_eq (h : Swept flat after) (start : NodeId) (word : List UInt8) :
    after.runFrom start word = flat.runFrom start word := by
  unfold runFrom tokensFrom Leads
  rw [h.edgesOf_eq, h.tokenOf_eq]

lemma Compacted.embeds {swept : Automaton} (h : Compacted swept after)
    (hclosed : ∀ id ∈ swept.liveNodes, ∀ edge ∈ swept.edgesOf id, edge.dest ∈ swept.liveNodes) :
    Embeds (· ∈ swept.liveNodes) swept.rank swept after where
  closed hid := hclosed _ hid
  edgesOf_eq hid := h.edgesOf_eq _ hid
  tokenOf_eq hid := h.tokenOf_eq _ hid

/-- Reduction keeps the run from every node if it keeps the table. -/
theorem Flattened.runFrom_swept (hf : automaton.Flattened flat) (hs : Swept flat after)
    (start : NodeId) (word : List UInt8) : after.runFrom start word = automaton.runFrom start word :=
  (hs.runFrom_eq start word).trans (hf.sameWeakly.runFrom_eq start word).symm

/-- Reduction keeps the run from the entry if it compacts the table. -/
theorem Flattened.run_compacted {swept : Automaton} (hf : automaton.Flattened flat)
    (hs : Swept flat swept) (hc : Compacted swept after) (hfit : flat.CountsFit)
    (word : List UInt8) : after.run word = automaton.run word := by
  have hentry := hs.entry_mem_liveNodes hf.wellFormed hfit
  have hembeds := hc.embeds (hs.dest_mem_liveNodes hf.wellFormed hfit)
  unfold run
  rw [hc.entry_eq, hembeds.runFrom_eq hentry, hf.runFrom_swept hs, hs.entry_eq, hf.entry_eq]

end Automaton

end PatternAutomata
