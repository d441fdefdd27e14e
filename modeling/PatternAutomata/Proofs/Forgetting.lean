import PatternAutomata.Proofs.Recount

/-!
# Compaction forgets the dead nodes only

A reduction that compacts leaves what a reduction that does not would have left, restricted to the
nodes that count something and numbered anew in their order. An edge is dropped only if it leads to a
dead node. As long as the counts fit their words, no edge of a live node does, since whatever a
reached node leads to is reached; so nothing of the live nodes is lost, and nothing else is left.
-/

namespace PatternAutomata

namespace Automaton

variable {automaton kept after flat : Automaton} {id other : NodeId}

/-! ## Live nodes and their new handles -/

/-- Live nodes keep their order. -/
lemma rank_lt_rank (hid : id ∈ automaton.liveNodes) (hother : other ∈ automaton.liveNodes)
    (hlt : id.toNat < other.toNat) : (automaton.rank id).toNat < (automaton.rank other).toNat := by
  by_contra hle
  have hne : (automaton.rank other).toNat ≠ (automaton.rank id).toNat := by
    intro heq
    have hsame := rank_injOn hother (congrArg NodeId.mk heq)
    rw [hsame] at hlt
    exact Nat.lt_irrefl _ hlt
  have hsorted := List.pairwise_iff_getElem.mp automaton.pairwise_liveNodes _ _ (rank_lt hother)
    (rank_lt hid) (by omega)
  obtain ⟨_, hgetother⟩ := List.getElem?_eq_some_iff.mp (liveNodes_rank hother)
  obtain ⟨_, hgetid⟩ := List.getElem?_eq_some_iff.mp (liveNodes_rank hid)
  rw [hgetother, hgetid] at hsorted
  omega

lemma liveNodes_relabeled :
    (automaton.withStates fun id state => { state with id }).liveNodes = automaton.liveNodes := by
  refine liveNodes_eq_of_mem_iff pairwise_liveNodes fun id => ?_
  rw [mem_liveNodes, mem_liveNodes, size_withStates, picture_relabeled]

lemma rank_relabeled :
    (automaton.withStates fun id state => { state with id }).rank = automaton.rank := by
  funext id
  rw [rank, rank, liveNodes_relabeled]

/-- Writing positions into the states changes neither what is live nor what it leads to. -/
lemma Thinned.relabel (h : Thinned automaton after) :
    Thinned (automaton.withStates fun id state => { state with id })
      (after.withStates fun id state => { state with id }) := by
  refine ⟨?_, ?_, ?_, ?_, ?_⟩
  · rw [size_withStates, liveNodes_relabeled]
    exact h.size_eq
  all_goals
    rw [liveNodes_relabeled, rank_relabeled]
    intro id hid
  · rw [edgesOf_withStates, edgesOf_withStates]
    exact h.edgesOf_eq id hid
  · have htoken : ∀ automaton : Automaton,
        (automaton.withStates fun id state => { state with id }).tokenOf = automaton.tokenOf :=
      fun _ => congrArg Picture.token picture_relabeled
    rw [htoken, htoken]
    exact h.tokenOf_eq id hid
  · rw [picture_relabeled, picture_relabeled]
    exact h.references_eq id hid
  · rw [picture_relabeled, picture_relabeled]
    exact h.marked_eq id hid

/-! ## What compaction forgets -/

/-- The nodes of one automaton are the live nodes of another, numbered anew without gaps and in their
order. They keep what they carry and their edges to live nodes, in order. -/
structure Forgets (kept after : Automaton) : Prop extends Thinned kept after where
  lt_size_iff : ∀ {id : NodeId}, id.toNat < after.size ↔ ∃ old ∈ kept.liveNodes, kept.rank old = id
  rank_lt_rank : ∀ {id other}, id ∈ kept.liveNodes → other ∈ kept.liveNodes →
    id.toNat < other.toNat → (kept.rank id).toNat < (kept.rank other).toNat
  label_eq : ∀ {id : NodeId}, id.toNat < after.size → after.picture.label id = id

/-- The live nodes have kept the entry among them and all their edges, and are exactly what can be
reached. Each counts the edges that lead to it, and the entry counts one more. -/
structure Spares (kept after : Automaton) : Prop where
  entry_live : kept.entry ∈ kept.liveNodes
  entry_eq : after.entry = kept.rank kept.entry
  dest_live : ∀ id ∈ kept.liveNodes, ∀ edge ∈ kept.edgesOf id, edge.dest ∈ kept.liveNodes
  edgesOf_eq : ∀ id ∈ kept.liveNodes,
    after.edgesOf (kept.rank id) = (kept.edgesOf id).map (Edge.move kept.rank)
  reached_iff : ∀ {id}, after.Reached id ↔ id.toNat < after.size
  toNat_references : ∀ {id}, id.toNat < after.size → (after.picture.references id).toNat =
    after.edgesInto after.handles id + if id = after.entry then 1 else 0

lemma Thinned.forgets (h : Thinned automaton after) :
    Forgets (automaton.withStates fun id state => { state with id })
      (after.withStates fun id state => { state with id }) where
  toThinned := h.relabel
  lt_size_iff {id} := by
    rw [h.relabel.size_eq]
    constructor
    · exact exists_rank_eq
    · rintro ⟨old, hold, rfl⟩
      exact rank_lt hold
  rank_lt_rank := rank_lt_rank
  label_eq := label_relabeled after

lemma Compacted.spares (h : Compacted kept after) (hkept : Swept flat kept)
    (hf : flat.WellFormed) (hfit : flat.CountsFit) : Spares kept after := by
  have hreached : ∀ {id}, after.Reached id ↔ id.toNat < after.size :=
    h.reached_iff (hkept.liveNodes_iff_reached hf hfit)
  refine ⟨hkept.entry_mem_liveNodes hf hfit, h.entry_eq, hkept.dest_mem_liveNodes hf hfit, h.edgesOf_eq,
    hreached, fun {id} hlt => ?_⟩
  have hmem : ∀ id, id ∈ after.handles ↔ after.Reached id := fun id => by rw [mem_handles, hreached]
  have hrecounted := hkept.recounted_compacted hf hfit h
  rw [hrecounted.toNat_references id (hreached.mpr hlt), inflow_eq h.wellFormed nodup_handles hmem]

/-- Whatever the counts, a reduction that compacts forgets dead nodes only. -/
theorem reduce_forgets (ha : automaton.WellFormed) (hq : automaton.picture.Quiet) (arena : Arena) :
    WithinLimits (((reduce true).run automaton).run arena) fun ((_, after), _) =>
      ∃ reports kept arena', ((reduce false).run automaton).run arena =
        .ok ((reports, kept), arena') ∧ Forgets kept after ∧
        (kept.CountsFit → Spares kept after) := by
  apply (reduce_restricts ha hq true arena).mono
  rintro ⟨⟨_, _⟩, _⟩
    ⟨flat, swept, last, hflattened, -, hswept, ⟨reports, arena', hkept⟩, rfl, -, hcompact⟩
  obtain ⟨handles, graph, h, rfl⟩ := hcompact rfl
  have hf := hflattened.wellFormed
  have hplain : Swept flat (swept.withStates fun id state => { state with id }) :=
    hswept.relabel (hswept.wellFormed.withStates _) picture_relabeled
  refine ⟨reports, _, arena', hkept, h.thinned.forgets, fun hfit => ?_⟩
  rw [hplain.countsFit_iff] at hfit
  have hcompacted := h.compacted hswept.wellFormed hswept.quiet (hswept.entry_mem_liveNodes hf hfit)
    (hswept.dest_mem_liveNodes hf hfit)
  have hrelabeled := hcompacted.relabel (hcompacted.wellFormed.withStates _) picture_relabeled
  have hentry : (swept.withLive graph).entry = _ := hcompacted.entry_eq
  refine (h.thinned.relabel.compacted hrelabeled.wellFormed hrelabeled.quiet ?_
    (hplain.dest_mem_liveNodes hf hfit)).spares hplain hf hfit
  rw [rank_relabeled]
  exact hentry

end Automaton

namespace Workspace

variable {workspace : Workspace}

def compacting (workspace : Workspace) : Workspace :=
  { workspace with config := { workspace.config with compact := some true } }

/-- Whatever a workspace was used for: a reduction that compacts leaves what a reduction that does not
would have left, restricted to the nodes that count something and numbered anew. As long as the counts
fit their words, this drops no edge of a live node, and only reached nodes are left. -/
theorem Arises.compacting_forgets (h : workspace.Arises) :
    (0 < workspace.automaton.size → ∀ fault, workspace.compacting.reduce = .error fault →
      fault.IsShortage) ∧
    ∀ reports compacted, workspace.compacting.reduce = .ok (reports, compacted) →
      ∃ reports' kept, workspace.keepingDead.reduce = .ok (reports', kept) ∧
        Automaton.Forgets kept.automaton compacted.automaton ∧
        (kept.automaton.CountsFit → Automaton.Spares kept.automaton compacted.automaton) := by
  constructor
  · intro hpos fault heq
    have hs := h.regular.sound hpos
    have hfunded : workspace.compacting.Funded := ⟨h.funded.automaton, h.funded.used_le⟩
    exact (hfunded.edit_error (Automaton.reduce_steady _).same
      (reduce_withinLimits ⟨hs.wellFormed, hs.quiet⟩) heq).isShortage
  · intro reports compacted heq
    obtain ⟨-, hrun⟩ := edit_eq_ok_iff.mp heq
    have hs := h.regular.sound (Automaton.size_pos_of_reduce hrun)
    obtain ⟨reports', kept, arena, hkept, hforgets⟩ :=
      (Automaton.reduce_forgets hs.wellFormed hs.quiet workspace.arena).of_eq_ok hrun
    exact ⟨reports', ⟨arena, kept, workspace.keepingDead.config⟩, edit_eq_ok_iff.mpr ⟨rfl, hkept⟩,
      hforgets⟩

/-- Of the fragment of a pattern only few nodes are live after a reduction. -/
theorem Arises.compacting_forgets_looped : ∃ workspace reports compacted reports' kept,
    looped = .ok workspace ∧ workspace.Arises ∧ 0 < workspace.automaton.size ∧
    workspace.compacting.reduce = .ok (reports, compacted) ∧
    workspace.keepingDead.reduce = .ok (reports', kept) ∧
    compacted.automaton.size < kept.automaton.size ∧ kept.automaton.CountsFit ∧
    Automaton.Forgets kept.automaton compacted.automaton ∧
    Automaton.Spares kept.automaton compacted.automaton := by
  have hok : (looped.toOption.any fun workspace =>
      (workspace.keepingDead.reduce.toOption.any fun outcome =>
        decide (outcome.2.automaton.graph.edgeCount + 1 < UInt32.size) &&
          decide (outcome.2.automaton.liveNodes.length < outcome.2.automaton.size)) &&
      workspace.compacting.reduce.toOption.any fun _ => true) = true := by decide +kernel
  obtain ⟨workspace, hlooped, hok⟩ := exists_of_any hok
  rw [Bool.and_eq_true] at hok
  obtain ⟨⟨_, kept⟩, hkeep, hfew⟩ := exists_of_any hok.1
  obtain ⟨⟨reports, compacted⟩, hcompact, -⟩ := exists_of_any hok.2
  simp only [Bool.and_eq_true, decide_eq_true_eq] at hfew
  have harises := arises_looped hlooped
  obtain ⟨reports', found, heq, hforgets, hspares⟩ :=
    harises.compacting_forgets.2 reports compacted hcompact
  obtain ⟨rfl, rfl⟩ : _ = reports' ∧ kept = found := by simpa [hkeep] using heq
  have hfit := Automaton.countsFit_of_edgeCount hfew.1
  exact ⟨workspace, reports, compacted, _, kept, hlooped, harises,
    Automaton.size_pos_of_reduce (edit_eq_ok_iff.mp hcompact).2, hcompact, hkeep,
    hforgets.size_eq ▸ hfew.2, hfit, hforgets, hspares hfit⟩

end Workspace

end PatternAutomata
