import PatternAutomata.Proofs.Usage

/-!
# Counts after a reduction

After a reduction every node counts the edges that lead to it from nodes reached from the entry, as
often as there are such edges, and the entry counts one more. Whatever was counted before, and whatever
dead nodes lead to, does not matter. So the live nodes are those reached from the entry, in the order
of the table.
-/

namespace PatternAutomata

namespace Automaton

variable {automaton flat swept after : Automaton} {id : NodeId}

/-- Every node counts the edges that lead to it from reached nodes, and the entry one more. -/
structure Recounted (automaton : Automaton) : Prop where
  counts_iff : ∀ id, 0 < automaton.picture.references id ↔ automaton.Reached id
  toNat_references : ∀ id, automaton.Reached id → (automaton.picture.references id).toNat =
    automaton.inflow id + if id = automaton.entry then 1 else 0
  references_eq_zero : ∀ id, ¬ automaton.Reached id → automaton.picture.references id = 0
  liveNodes_eq : automaton.liveNodes = open Classical in
    automaton.handles.filter fun id => automaton.Reached id

/-- It is enough that every node counts what a sweep makes it count. -/
lemma recounted_of_demand
    (h : ∀ id, (automaton.picture.references id).toNat = automaton.demand id) : automaton.Recounted := by
  have hpos : ∀ id, 0 < automaton.picture.references id ↔ automaton.Reached id := by
    intro id
    rw [← demand_pos_iff, ← h, UInt32.lt_iff_toNat_lt]
    rfl
  have hzero : ∀ id, ¬ automaton.Reached id → automaton.picture.references id = 0 := by
    intro id hr
    rw [← UInt32.toNat_inj, h]
    exact Nat.eq_zero_of_not_pos (mt demand_pos_iff.mp hr)
  refine ⟨hpos, fun id _ => h id, hzero, ?_⟩
  classical
  refine liveNodes_eq_of_mem_iff (pairwise_handles.filter _) fun id => ?_
  rw [mem_liveNodes, List.mem_filter, mem_handles, decide_eq_true_iff, ← hpos, UInt32.pos_iff_ne_zero]

/-- A node that is not reached is demanded by nothing. -/
lemma Recounted.references_eq (h : automaton.Recounted) (id : NodeId) :
    automaton.picture.references id = (automaton.demand id).toUInt32 := by
  by_cases hr : automaton.Reached id
  · rw [demand, ← h.toNat_references id hr, Nat.toUInt32_eq, UInt32.ofNat_toNat]
  · rw [h.references_eq_zero id hr, Nat.eq_zero_of_not_pos (mt demand_pos_iff.mp hr)]
    rfl

/-! ## With the dead nodes -/

lemma Swept.liveNodes_iff_reached (h : Swept flat after) (hf : flat.WellFormed)
    (hc : flat.CountsFit) (id : NodeId) : id ∈ after.liveNodes ↔ after.Reached id := by
  rw [h.mem_liveNodes_iff hf hc, h.reached_eq]

lemma Swept.recounted (h : Swept flat after) (hc : flat.CountsFit) : after.Recounted := by
  refine recounted_of_demand fun id => ?_
  rw [h.demand_eq, h.toNat_references hc]

/-! ## Without the dead nodes -/

section Compacted

variable (h : Compacted swept after) (ha : swept.WellFormed)
  (hlive : ∀ id, id ∈ swept.liveNodes ↔ swept.Reached id)
include h hlive

/-- What was reached is reached at its new place. -/
lemma Compacted.reached_rank (hr : swept.Reached id) : after.Reached (swept.rank id) := by
  induction hr with
  | refl =>
    rw [← h.entry_eq]
    exact Reached.entry
  | @tail source _ hr hstep ih =>
    obtain ⟨edge, he, -, rfl⟩ := hstep
    have hmoved : edge.move swept.rank ∈ after.edgesOf (swept.rank source) := by
      rw [h.edgesOf_eq source ((hlive source).mpr hr)]
      exact List.mem_map_of_mem he
    exact ih.edge hmoved

/-- Nothing but the reached nodes is left. -/
lemma Compacted.reached_iff : after.Reached id ↔ id.toNat < after.size := by
  constructor
  · exact fun hr => hr.lt_size h.wellFormed
  · intro hlt
    rw [h.size_eq] at hlt
    obtain ⟨old, hold, rfl⟩ := exists_rank_eq hlt
    exact h.reached_rank hlive ((hlive old).mp hold)

lemma Compacted.mem_map_rank : id ∈ swept.liveNodes.map swept.rank ↔ after.Reached id := by
  rw [List.mem_map, h.reached_iff hlive, h.size_eq]
  constructor
  · rintro ⟨old, hold, rfl⟩
    exact rank_lt hold
  · exact exists_rank_eq

lemma Compacted.edgesInto_rank (id : NodeId) :
    after.edgesInto (swept.liveNodes.map swept.rank) (swept.rank id) =
      swept.edgesInto swept.liveNodes id := by
  have hedges : (swept.liveNodes.map swept.rank).flatMap after.edgesOf =
      (swept.liveNodes.flatMap swept.edgesOf).map (Edge.move swept.rank) := by
    rw [List.flatMap_map, List.map_flatMap]
    exact List.flatMap_congr h.edgesOf_eq
  unfold edgesInto
  rw [hedges, List.countP_map]
  refine List.countP_congr fun edge he => ?_
  obtain ⟨source, hsource, he⟩ := List.mem_flatMap.mp he
  have hdest : edge.dest ∈ swept.liveNodes :=
    (hlive _).mpr (((hlive source).mp hsource).edge he)
  change decide (swept.rank edge.dest = swept.rank id) = true ↔ _
  rw [decide_eq_true_iff, decide_eq_true_iff]
  exact ⟨rank_injOn hdest, congrArg swept.rank⟩

include ha

lemma Compacted.demand_rank (hid : id ∈ swept.liveNodes) :
    after.demand (swept.rank id) = swept.demand id := by
  have hnodup : (swept.liveNodes.map swept.rank).Nodup :=
    nodup_liveNodes.map_on fun _ hold _ _ => rank_injOn hold
  have hinflow : after.inflow (swept.rank id) = swept.inflow id := by
    rw [← inflow_eq h.wellFormed hnodup fun _ => h.mem_map_rank hlive,
      ← inflow_eq ha nodup_liveNodes hlive, h.edgesInto_rank hlive]
  have hentry : swept.rank id = after.entry ↔ id = swept.entry := by
    rw [h.entry_eq]
    exact ⟨rank_injOn hid, congrArg swept.rank⟩
  unfold demand
  simp only [hinflow, hentry]

/-- What a live node counts is still right at its new place. -/
lemma Compacted.recounted (hcount : ∀ id, (swept.picture.references id).toNat = swept.demand id) :
    after.Recounted := by
  refine recounted_of_demand fun id => ?_
  by_cases hr : after.Reached id
  · obtain ⟨old, hold, rfl⟩ := List.mem_map.mp ((h.mem_map_rank hlive).mpr hr)
    rw [h.references_eq old hold, hcount, h.demand_rank ha hlive hold]
  · have hsize := Nat.not_lt.mp (mt (h.reached_iff hlive).mpr hr)
    rw [references_of_size_le hsize, Nat.eq_zero_of_not_pos (mt demand_pos_iff.mp hr)]
    rfl

end Compacted

lemma Swept.recounted_compacted (h : Swept flat swept) (hf : flat.WellFormed) (hc : flat.CountsFit)
    (hcompacted : Compacted swept after) : after.Recounted := by
  refine hcompacted.recounted h.wellFormed (h.liveNodes_iff_reached hf hc) fun id => ?_
  rw [h.toNat_references hc, h.demand_eq]

end Automaton

namespace Workspace

variable {workspace : Workspace}

/-- In any workspace, whatever it was used for and whatever its nodes count, reduction leaves every
node with the number of edges that lead to it from reached nodes, and the entry with one more. Only
these numbers have to fit their words. -/
theorem Arises.reduce_recounts (h : workspace.Arises) (hfit : workspace.CountsFit) :
    (0 < workspace.automaton.size → WithinLimits workspace.reduce fun _ => True) ∧
    ∀ reports after, workspace.reduce = .ok (reports, after) → after.automaton.Recounted := by
  constructor
  · intro hpos
    exact (reduce_withinLimits (h.regular.sound hpos)).mono fun _ _ => trivial
  · intro reports after heq
    obtain ⟨-, flat, hflattened, -, hcount, hkept, hcompacted⟩ :=
      (reduce_withinLimits (h.regular.sound_of_reduce heq)).of_eq_ok heq
    have hf := hflattened.wellFormed
    have hc := hcount hfit
    cases hcompact : workspace.config.chosenCompact with
    | false => exact (hkept hcompact).recounted hc
    | true =>
      obtain ⟨swept, hswept, h⟩ := hcompacted hcompact hc
      have hlive : ∀ id, id ∈ swept.liveNodes ↔ swept.Reached id := by
        intro id
        rw [hswept.mem_liveNodes_iff hf hc, hswept.reached_eq]
      refine h.recounted hswept.wellFormed hlive fun id => ?_
      rw [hswept.toNat_references hc, hswept.demand_eq]

/-- Counts are left from a reduction. Then a node that was cut off, and leads to itself and to nodes in
use, is led to by another. -/
def stale : Except Fault Workspace := do
  let workspace ← create {}
  let (first, workspace) ← workspace.addNode
  let (second, workspace) ← workspace.addNode
  let (third, workspace) ← workspace.addNode
  let workspace ← workspace.addTransitions
    [(⟨0⟩, 97, first), (⟨0⟩, 97, first), (first, 98, first), (second, 97, second),
      (second, 98, first), (⟨0⟩, Transition.epsilon, ⟨0⟩)]
  let (_, workspace) ← workspace.reduce
  workspace.addTransitions [(second, 99, third), (third, Transition.epsilon, second)]

theorem Arises.reduce_recounts_stale : ∃ workspace reports after, stale = .ok workspace ∧
    workspace.Arises ∧ workspace.CountsFit ∧ 0 < workspace.automaton.size ∧
    workspace.reduce = .ok (reports, after) ∧ after.automaton.Recounted := by
  have hok : (stale.toOption.any fun workspace => (workspace.keepingDead.reduce.toOption.all
      fun outcome => decide (outcome.2.automaton.graph.edgeCount + 1 < UInt32.size)) &&
      workspace.reduce.toOption.any fun _ => true) = true := by decide +kernel
  obtain ⟨workspace, hstale, hok⟩ := exists_of_any hok
  rw [Bool.and_eq_true] at hok
  obtain ⟨⟨reports, after⟩, hreduce, -⟩ := exists_of_any hok.2
  have harises : workspace.Arises := by
    have hw := hstale
    unfold stale at hw
    obtain ⟨_, hcreate, hw⟩ := exists_of_bind_eq_ok hw
    obtain ⟨⟨_, _⟩, hfirst, hw⟩ := exists_of_bind_eq_ok hw
    obtain ⟨⟨_, _⟩, hsecond, hw⟩ := exists_of_bind_eq_ok hw
    obtain ⟨⟨_, _⟩, hthird, hw⟩ := exists_of_bind_eq_ok hw
    obtain ⟨_, hlinks, hw⟩ := exists_of_bind_eq_ok hw
    obtain ⟨⟨_, _⟩, hbefore, hw⟩ := exists_of_bind_eq_ok hw
    have hpair := ((Arises.create hcreate).use (.addNode trivial hfirst)).use
      (.addNode trivial hsecond)
    have hnodes := hpair.use (.addNode trivial hthird)
    exact ((hnodes.addTransitions hlinks).use (.reduce trivial hbefore)).addTransitions hw
  have hfit := countsFit_of_all hok.1
  exact ⟨workspace, reports, after, hstale, harises, hfit,
    Automaton.size_pos_of_reduce (edit_eq_ok_iff.mp hreduce).2, hreduce,
    (harises.reduce_recounts hfit).2 reports after hreduce⟩

end Workspace

end PatternAutomata
