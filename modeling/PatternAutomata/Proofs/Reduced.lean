import PatternAutomata.Proofs.Embodiment

/-!
# Reduced automata of patterns

Reduction keeps what an automaton embodies. The nodes that are live afterwards are the entry and the
nodes of the positions, in this order, and what they showed weakly has become their edges and tokens.
An edge leads to the node of a position at most once from each node, so the words that count
references always hold the counts.
-/

namespace PatternAutomata

namespace Automaton

variable {automaton flat after : Automaton} {patterns : List (UInt32 × Regex)}
  {arrive : Nat → Edge Transition} {source dest id : NodeId} {i j : Nat}

lemma countP_le_one {α : Type} {members : List α} {p : α → Bool} (hn : members.Nodup)
    (h : ∀ a ∈ members, ∀ b ∈ members, p a = true → p b = true → a = b) :
    members.countP p ≤ 1 := by
  induction members with
  | nil => exact Nat.zero_le _
  | cons a rest ih =>
    obtain ⟨hnot, hn⟩ := List.nodup_cons.mp hn
    by_cases hp : p a = true
    · have hnone : rest.countP p = 0 := by
        rw [List.countP_eq_zero]
        intro b hb hpb
        have := h a List.mem_cons_self b (List.mem_cons_of_mem _ hb) hp hpb
        exact hnot (this ▸ hb)
      rw [List.countP_cons_of_pos hp, hnone]
    · rw [List.countP_cons_of_neg hp]
      exact ih hn fun b hb c hc => h b (List.mem_cons_of_mem _ hb) c (List.mem_cons_of_mem _ hc)

/-! ## Automata without silent edges -/

lemma offers_iff_of_flat (hflat : ∀ id, automaton.Flat id) {edge : Edge Transition} :
    Offers automaton.Leads source edge ↔ edge ∈ automaton.edgesOf source := by
  constructor
  · rintro ⟨-, member, hs, hl⟩
    rw [(silent_iff_of_flat hflat).mp hs]
    exact hl
  · exact fun he => ⟨Edge.consumes_iff.mp (hflat _ _ he), source, .refl, he⟩

lemma rests_iff_of_flat (hflat : ∀ id, automaton.Flat id) (bound : UInt32) :
    (∀ id, Silent automaton.Leads source id → bound ≤ automaton.tokenOf id) ↔
      bound ≤ automaton.tokenOf source := by
  simp only [silent_iff_of_flat hflat, forall_eq']

lemma filter_consumes_of_flat (hflat : ∀ id, automaton.Flat id) (id : NodeId) :
    (automaton.edgesOf id).filter Edge.consumes = automaton.edgesOf id :=
  List.filter_eq_self.mpr (hflat id)

lemma Embodies.flatten (h : automaton.Embodies patterns arrive) (hf : automaton.Flattened flat)
    (hflat : ∀ id, flat.Flat id) : flat.Embodies patterns arrive where
  arrive_zero := h.arrive_zero.trans hf.entry_eq.symm
  entry_eq := hf.entry_eq.trans h.entry_eq
  letters := h.letters
  increasing := h.increasing
  lt_size hi := by
    rw [hf.size_eq]
    exact h.lt_size hi
  not_to_entry source symbol hl := by
    obtain ⟨-, member, -, hl⟩ := (hf.leads_iff hflat _ _ _).mp hl
    rw [hf.entry_eq] at hl
    exact h.not_to_entry _ _ hl
  nodup := hf.nodup h.nodup
  offers hi edge := (hf.sameWeakly.weak _ _ _).symm.trans (h.offers hi edge)
  rests hi bound := (hf.sameWeakly.rest _ bound).symm.trans (h.rests hi bound)

lemma Embodies.sweep (h : flat.Embodies patterns arrive) (hs : Swept flat after) :
    after.Embodies patterns arrive := by
  have hleads : after.Leads = flat.Leads := by
    unfold Leads
    rw [hs.edgesOf_eq]
  refine ⟨?_, ?_, h.letters, h.increasing, ?_, ?_, ?_, ?_, ?_⟩
  · rw [hs.entry_eq]
    exact h.arrive_zero
  · rw [hs.entry_eq]
    exact h.entry_eq
  · rw [hs.size_eq]
    exact h.lt_size
  · rw [hleads, hs.entry_eq]
    exact h.not_to_entry
  · rw [hs.edgesOf_eq]
    exact h.nodup
  · rw [hleads]
    exact h.offers
  · rw [hleads, hs.tokenOf_eq]
    exact h.rests

section Flat

variable (h : flat.Embodies patterns arrive) (hflat : ∀ id, flat.Flat id)

include h hflat

lemma Embodies.mem_edgesOf_iff (hi : i ≤ (lettersOf patterns).length) {edge : Edge Transition} :
    edge ∈ flat.edgesOf (arrive i).dest ↔ ∃ j, Succeeds patterns i j ∧ arrive j = edge := by
  rw [← offers_iff_of_flat hflat]
  exact h.offers hi edge

/-- The nodes that are reached from the entry are those of the positions. -/
lemma Embodies.reached_iff :
    flat.Reached id ↔ ∃ i, i ≤ (lettersOf patterns).length ∧ (arrive i).dest = id := by
  constructor
  · intro hr
    unfold Reached Reaches at hr
    induction hr with
    | refl => exact ⟨0, Nat.zero_le _, h.arrive_zero⟩
    | tail _ hstep ih =>
      obtain ⟨i, hi, rfl⟩ := ih
      obtain ⟨edge, he, -, rfl⟩ := hstep
      obtain ⟨j, hs, rfl⟩ := (h.mem_edgesOf_iff hflat hi).mp he
      exact ⟨j, hs.le.2.2, rfl⟩
  · rintro ⟨i, hi, rfl⟩
    refine forall_positions (p := fun i => flat.Reached (arrive i).dest) ?_ (fun i j hs hr => ?_) hi
    · rw [h.arrive_zero]
      exact Reached.entry
    · exact hr.edge ((h.mem_edgesOf_iff hflat hs.le.1).mpr ⟨j, hs, rfl⟩)

lemma Embodies.arrive_injective {edge edge' : Edge Transition}
    (hi : i ≤ (lettersOf patterns).length) (he : edge ∈ flat.edgesOf (arrive i).dest)
    (he' : edge' ∈ flat.edgesOf (arrive i).dest) (heq : edge.dest = edge'.dest) : edge = edge' := by
  obtain ⟨j, hs, rfl⟩ := (h.mem_edgesOf_iff hflat hi).mp he
  obtain ⟨k, hs', rfl⟩ := (h.mem_edgesOf_iff hflat hi).mp he'
  have heq' := congrArg NodeId.toNat heq
  rcases Nat.lt_trichotomy j k with hlt | rfl | hlt
  · exact absurd heq' (Nat.ne_of_lt (h.increasing hlt hs'.le.2.2))
  · rfl
  · exact absurd heq' (Nat.ne_of_gt (h.increasing hlt hs.le.2.2))

/-- From each node that is reached at most one edge leads to any other. -/
lemma Embodies.edgesInto_le {sources : List NodeId} (hs : ∀ id ∈ sources, flat.Reached id)
    (dest : NodeId) : flat.edgesInto sources dest ≤ sources.length := by
  induction sources with
  | nil => exact Nat.le_refl _
  | cons id rest ih =>
    have hone : (flat.edgesOf id).countP (fun edge => edge.dest = dest) ≤ 1 := by
      obtain ⟨i, hi, rfl⟩ := (h.reached_iff hflat).mp (hs id List.mem_cons_self)
      refine countP_le_one ?_ fun edge he edge' he' hd hd' => ?_
      · rw [← filter_consumes_of_flat hflat]
        exact h.nodup _
      · exact h.arrive_injective hflat hi he he'
          ((of_decide_eq_true hd).trans (of_decide_eq_true hd').symm)
    have := ih fun other ho => hs other (List.mem_cons_of_mem _ ho)
    unfold edgesInto at this ⊢
    rw [List.flatMap_cons, List.countP_append, List.length_cons]
    omega

/-- The counts of references fit their words. -/
lemma Embodies.countsFit (hf : flat.WellFormed) : flat.CountsFit := by
  classical
  intro id
  have hle : flat.inflow id ≤ flat.size := by
    unfold inflow
    refine (h.edgesInto_le hflat (fun id hid => ?_) id).trans ?_
    · exact of_decide_eq_true (List.mem_filter.mp hid).2
    · apply (List.length_filter_le _ _).trans_eq
      rw [handles, List.length_map, List.length_range]
  have hlimit : flat.size ≤ 2147483647 := hf.size_le
  have hsize : UInt32.size = 4294967296 := rfl
  unfold demand
  rw [hsize]
  split <;> omega

end Flat

/-! ## What is live after a reduction -/

/-- The live nodes of an automaton without silent edges are the entry and the nodes of the positions
of the patterns that it embodies. -/
structure Distils (automaton : Automaton) (patterns : List (UInt32 × Regex))
    (arrive : Nat → Edge Transition) : Prop extends Embodies automaton patterns arrive where
  flat : ∀ id, automaton.Flat id
  mem_liveNodes : ∀ {id}, id ∈ automaton.liveNodes ↔
    ∃ i, i ≤ (lettersOf patterns).length ∧ (arrive i).dest = id

lemma Distils.liveNodes_eq (h : automaton.Distils patterns arrive) : automaton.liveNodes =
    (List.range ((lettersOf patterns).length + 1)).map fun i => (arrive i).dest := by
  have hsorted : ((List.range ((lettersOf patterns).length + 1)).map
      fun i => (arrive i).dest).Pairwise fun a b => a.toNat < b.toNat := by
    rw [List.pairwise_map]
    refine (List.pairwise_lt_range).imp_of_mem fun _ hj hlt => ?_
    exact h.increasing hlt (Nat.le_of_lt_succ (List.mem_range.mp hj))
  refine liveNodes_eq_of_mem_iff hsorted fun id => ?_
  rw [h.mem_liveNodes, List.mem_map]
  simp only [List.mem_range, Nat.lt_succ_iff]

lemma Embodies.distils (h : flat.Embodies patterns arrive) (hflat : ∀ id, flat.Flat id)
    (hf : flat.WellFormed) (hs : Swept flat after) : after.Distils patterns arrive where
  toEmbodies := h.sweep hs
  flat := hs.all_flat hflat
  mem_liveNodes := by
    intro id
    rw [hs.mem_liveNodes_iff hf (h.countsFit hflat hf)]
    exact h.reached_iff hflat

section Compact

variable {swept : Automaton}

lemma Distils.rank_eq (h : swept.Distils patterns arrive) (hi : i ≤ (lettersOf patterns).length) :
    swept.rank (arrive i).dest = ⟨i⟩ := by
  have hlt : i < swept.liveNodes.length := by
    rw [h.liveNodes_eq, List.length_map, List.length_range]
    omega
  have hget : swept.liveNodes[i] = (arrive i).dest := by
    simp only [h.liveNodes_eq, List.getElem_map, List.getElem_range]
  rw [rank, ← hget, nodup_liveNodes.idxOf_getElem]

lemma Distils.size_eq (h : swept.Distils patterns arrive) (hc : Compacted swept after) :
    after.size = (lettersOf patterns).length + 1 := by
  rw [hc.size_eq, h.liveNodes_eq, List.length_map, List.length_range]

lemma Distils.edgesOf_eq (h : swept.Distils patterns arrive) (hc : Compacted swept after)
    (hi : i ≤ (lettersOf patterns).length) : after.edgesOf ⟨i⟩ =
      (swept.edgesOf (arrive i).dest).map (Edge.move swept.rank) := by
  rw [← h.rank_eq hi]
  exact hc.edgesOf_eq _ (h.mem_liveNodes.mpr ⟨i, hi, rfl⟩)

lemma Distils.tokenOf_eq (h : swept.Distils patterns arrive) (hc : Compacted swept after)
    (hi : i ≤ (lettersOf patterns).length) : after.tokenOf ⟨i⟩ = swept.tokenOf (arrive i).dest := by
  rw [← h.rank_eq hi]
  exact hc.tokenOf_eq _ (h.mem_liveNodes.mpr ⟨i, hi, rfl⟩)

lemma Distils.exists_position (h : swept.Distils patterns arrive) (hc : Compacted swept after)
    {edge : Edge Transition} (he : edge ∈ after.edgesOf id) :
    ∃ i, i ≤ (lettersOf patterns).length ∧ id = ⟨i⟩ := by
  have := lt_size_of_edge he
  rw [h.size_eq hc] at this
  exact ⟨id.toNat, Nat.le_of_lt_succ this, rfl⟩

lemma Distils.mem_edgesOf_iff (h : swept.Distils patterns arrive) (hc : Compacted swept after)
    (hi : i ≤ (lettersOf patterns).length) {edge : Edge Transition} :
    edge ∈ after.edgesOf ⟨i⟩ ↔ ∃ j, Succeeds patterns i j ∧ ⟨⟨j⟩, (arrive j).data⟩ = edge := by
  rw [h.edgesOf_eq hc hi, List.mem_map]
  simp only [h.toEmbodies.mem_edgesOf_iff h.flat hi]
  constructor
  · rintro ⟨_, ⟨j, hs, rfl⟩, rfl⟩
    exact ⟨j, hs, by rw [Edge.move, h.rank_eq hs.le.2.2]⟩
  · rintro ⟨j, hs, rfl⟩
    exact ⟨_, ⟨j, hs, rfl⟩, by rw [Edge.move, h.rank_eq hs.le.2.2]⟩

lemma Distils.nodup_compacted (h : swept.Distils patterns arrive) (hc : Compacted swept after)
    (id : NodeId) : (after.edgesOf id).Nodup := by
  by_cases hlt : id.toNat < after.size
  · have hi : id.toNat ≤ (lettersOf patterns).length := by
      rw [h.size_eq hc] at hlt
      omega
    have hnodup := h.nodup (arrive id.toNat).dest
    rw [filter_consumes_of_flat h.flat] at hnodup
    rw [show after.edgesOf id = _ from h.edgesOf_eq hc hi]
    apply hnodup.map_on
    intro edge he edge' he' heq
    apply h.arrive_injective h.flat hi he he'
    obtain ⟨j, hs, rfl⟩ := (h.toEmbodies.mem_edgesOf_iff h.flat hi).mp he
    exact rank_injOn (h.mem_liveNodes.mpr ⟨j, hs.le.2.2, rfl⟩) (congrArg Edge.dest heq)
  · have hnone : after.edgesOf id = [] := by
      rw [List.eq_nil_iff_forall_not_mem]
      exact fun edge he => hlt (lt_size_of_edge he)
    rw [hnone]
    exact List.nodup_nil

/-- Compacting puts the node of each position at the number of the position. -/
theorem Distils.compact (h : swept.Distils patterns arrive) (hc : Compacted swept after) :
    after.Distils patterns fun i => ⟨⟨i⟩, (arrive i).data⟩ := by
  have hflat := hc.all_flat h.flat
  have hentry : after.entry = ⟨0⟩ := by
    rw [hc.entry_eq, ← h.arrive_zero]
    exact h.rank_eq (Nat.zero_le _)
  refine ⟨⟨hentry.symm, hentry, h.letters, fun hlt _ => hlt, ?_, ?_, ?_, ?_, ?_⟩, hflat, ?_⟩
  · intro i hi
    rw [h.size_eq hc]
    exact Nat.lt_succ_of_le hi
  · intro source symbol hl
    obtain ⟨i, hi, rfl⟩ := h.exists_position hc hl
    obtain ⟨j, hs, heq⟩ := (h.mem_edgesOf_iff hc hi).mp hl
    rw [hentry] at heq
    have := hs.le.2.1
    have : j = 0 := congrArg (fun edge => edge.dest.toNat) heq
    omega
  · intro id
    rw [filter_consumes_of_flat hflat]
    exact h.nodup_compacted hc id
  · intro i hi edge
    rw [offers_iff_of_flat hflat, h.mem_edgesOf_iff hc hi]
  · intro i hi bound
    rw [rests_iff_of_flat hflat, h.tokenOf_eq hc hi, ← rests_iff_of_flat h.flat]
    exact h.rests hi bound
  · intro id
    rw [Automaton.mem_liveNodes, h.size_eq hc]
    constructor
    · rintro ⟨hlt, -⟩
      exact ⟨id.toNat, Nat.le_of_lt_succ hlt, rfl⟩
    · rintro ⟨i, hi, rfl⟩
      have hlive := h.mem_liveNodes.mpr ⟨i, hi, rfl⟩
      refine ⟨Nat.lt_succ_of_le hi, ?_⟩
      dsimp only
      rw [← h.rank_eq hi, hc.references_eq _ hlive]
      exact (Automaton.mem_liveNodes.mp hlive).2

end Compact

end Automaton

end PatternAutomata
