import PatternAutomata.Proofs.Recount

/-!
# Reducing twice is reducing once

After a reduction no edge consumes nothing, every node counts what a sweep makes it count, and every
node carries its handle; after one that compacts no node is dead either. Where this holds, each step of
a reduction finds what it would leave: a node that reaches no other silently takes over nothing, no
edge is taken out, so all keep their order, and the counts come out as they were.
-/

namespace PatternAutomata

namespace Automaton

variable {automaton after flat swept : Automaton} {id : NodeId}

/-! ## Nothing is left to collapse -/

/-- A node that reaches no other silently takes over nothing. -/
lemma Gathered.of_flat {members : List NodeId} {new : List (Edge Transition)} {token : UInt32}
    (h : Gathered automaton id members new token after) (hflat : ∀ id, automaton.Flat id) :
    new = [] ∧ token = automaton.tokenOf id := by
  have hmembers : ∀ member ∈ members, member = id := by
    intro member hm
    have hs := (h.mem_members member).mp (List.mem_cons_of_mem _ hm)
    exact ((silent_iff_of_flat hflat).mp hs).symm
  constructor
  · rw [List.eq_nil_iff_forall_not_mem]
    intro edge he
    obtain ⟨⟨member, hm, hedge⟩, -, hnew⟩ := (h.mem_new edge).mp he
    exact hnew (hmembers member hm ▸ hedge)
  · apply UInt32.le_antisymm
    · exact ((h.le_token_iff token).mp (UInt32.le_refl _)).1
    · exact (h.le_token_iff _).mpr
        ⟨UInt32.le_refl _, fun member hm => by rw [hmembers member hm]; exact UInt32.le_refl _⟩

lemma collapse_flat (ha : automaton.WellFormed) (hq : automaton.picture.Quiet)
    (hflat : ∀ id, automaton.Flat id) (hid : id.toNat < automaton.size) :
    Editing.Ensures (collapse id) automaton fun _ after => after.WellFormed ∧
      ∃ references, after.picture = { automaton.picture with references } := by
  apply (collapse_gathers ha hq hid).mono
  rintro - after ⟨members, new, token, gathered, kept, references, hg, hw, -, hself, hp⟩
  obtain ⟨rfl, rfl⟩ := hg.of_flat hflat
  rw [List.append_nil] at hself
  refine ⟨hw, references, hp.trans ?_⟩
  rw [hself (hflat id), Function.update_eq_self, Function.update_eq_self]
  ext1 <;> try rfl
  · exact hq.agenda_eq.symm
  · exact hq.marked_eq.symm

lemma collapseAll_flat (ha : automaton.WellFormed) (hq : automaton.picture.Quiet)
    (hflat : ∀ id, automaton.Flat id) (ids : List NodeId)
    (hids : ∀ id ∈ ids, id.toNat < automaton.size) :
    Editing.Ensures (collapseAll ids) automaton fun _ after => after.WellFormed ∧
      ∃ references, after.picture = { automaton.picture with references } := by
  induction ids generalizing automaton with
  | nil =>
    unfold collapseAll
    rw [Editing.ensures_pure]
    exact ⟨ha, automaton.picture.references, rfl⟩
  | cons id rest ih =>
    unfold collapseAll
    apply (collapse_flat ha hq hflat (hids id (by simp))).bind
    rintro removed first ⟨hw, references, hp⟩
    have hsize : first.size = automaton.size := congrArg Picture.size hp
    have hedges : first.edgesOf = automaton.edgesOf := congrArg Picture.edges hp
    have hquiet : first.picture.Quiet := by
      rw [hp]
      exact ⟨hq.agenda_eq, hq.marked_eq⟩
    have hfirst : ∀ id, first.Flat id := by
      unfold Flat
      rw [hedges]
      exact hflat
    apply (ih hw hquiet hfirst fun other ho => hsize ▸ hids other (by simp [ho])).bind
    rintro more after ⟨hw', references', hp'⟩
    rw [Editing.ensures_pure]
    exact ⟨hw', references', by rw [hp', hp]⟩

/-- Where every edge consumes a byte, only the counts are renewed. -/
lemma flatten_flat (ha : automaton.WellFormed) (hq : automaton.picture.Quiet)
    (hflat : ∀ id, automaton.Flat id) :
    Editing.Ensures flatten automaton fun _ after => after.WellFormed ∧ after.picture =
      { automaton.picture with references := fun id => (automaton.demand id).toUInt32 } := by
  apply flatten_of_steps ha fun order horder =>
    collapseAll_flat ha hq hflat order fun id => (horder id).mp
  rintro collapsed ⟨hw, references, hp⟩
  have hquiet : collapsed.picture.Quiet := by
    rw [hp]
    exact ⟨hq.agenda_eq, hq.marked_eq⟩
  have hdemand : collapsed.demand = automaton.demand := demand_congr (congrArg Picture.size hp)
    (congrArg Picture.entry hp) (congrArg Picture.edges hp)
  apply (sweep_ensures hw hquiet).mono
  rintro _ after ⟨hw', hp'⟩
  exact ⟨hw', by rw [hp', hp, hdemand]⟩

/-! ## What a reduction leaves -/

/-- Every edge consumes a byte, every node counts what a sweep makes it count and carries its
handle, and nothing is left of any walk. -/
structure Reduced (automaton : Automaton) : Prop where
  wellFormed : automaton.WellFormed
  quiet : automaton.picture.Quiet
  flat : ∀ id, automaton.Flat id
  references_eq : ∀ id, automaton.picture.references id = (automaton.demand id).toUInt32
  label_eq : ∀ {id}, id.toNat < automaton.size → automaton.picture.label id = id

/-- Writing positions into the states restores the handles that the nodes carried. -/
lemma picture_restored {label : NodeId → NodeId}
    (hp : after.picture = { automaton.picture with label })
    (hlabel : ∀ {id}, id.toNat < automaton.size → automaton.picture.label id = id) :
    (after.withStates fun id state => { state with id }).picture = automaton.picture := by
  have hsize : after.size = automaton.size := congrArg Picture.size hp
  rw [picture_relabeled, hp]
  ext1 <;> try rfl
  funext id
  change (after.node? id).elim NodeId.zero (fun _ => id) = automaton.picture.label id
  by_cases hlt : id.toNat < automaton.size
  · obtain ⟨node, hn⟩ := exists_node (show id.toNat < after.size from hsize ▸ hlt)
    rw [hlabel hlt, hn]
    rfl
  · have hle := Nat.not_lt.mp hlt
    simp only [picture, node?_of_size_le hle, node?_of_size_le (hsize ▸ hle), Option.elim_none]

section AllLive

variable (hall : ∀ id, id.toNat < automaton.size → id ∈ automaton.liveNodes)
include hall

lemma liveNodes_eq_handles : automaton.liveNodes = automaton.handles := by
  refine liveNodes_eq_of_mem_iff pairwise_handles fun id => ?_
  rw [mem_handles]
  exact ⟨fun h => (mem_liveNodes.mp h).1, hall id⟩

/-- If every node is live, none gets a new handle. -/
lemma rank_eq_self (hlt : id.toNat < automaton.size) : automaton.rank id = id := by
  have hlength : id.toNat < automaton.handles.length := by simpa [handles] using hlt
  have hget : automaton.handles[id.toNat] = id := by simp [handles]
  have hidx := nodup_handles.idxOf_getElem id.toNat hlength
  rw [hget] at hidx
  rw [rank, liveNodes_eq_handles hall, hidx]

/-- If every node is live, compacting leaves in place what it leaves to each live node. -/
lemma eq_of_kept {α : Type} (view : Automaton → NodeId → α) {blank : α}
    (hblank : ∀ {automaton : Automaton} {id : NodeId}, automaton.size ≤ id.toNat →
      view automaton id = blank)
    (hsize : after.size = automaton.size)
    (hkept : ∀ id ∈ automaton.liveNodes, view after (automaton.rank id) = view automaton id) :
    view after = view automaton := by
  funext id
  by_cases hlt : id.toNat < automaton.size
  · have hsame := hkept id (hall id hlt)
    rwa [rank_eq_self hall hlt] at hsame
  · have hle := Nat.not_lt.mp hlt
    rw [hblank hle, hblank (hsize ▸ hle)]

/-- If every node is live, compacting changes at most what the nodes carry as their handles. -/
lemma Compacted.picture_eq (h : Compacted automaton after) (ha : automaton.WellFormed)
    (hq : automaton.picture.Quiet) :
    ∃ label, after.picture = { automaton.picture with label } := by
  have hsize : after.size = automaton.size := by
    rw [h.size_eq, liveNodes_eq_handles hall]
    simp [handles]
  have hedges : ∀ id ∈ automaton.liveNodes,
      after.edgesOf (automaton.rank id) = automaton.edgesOf id := by
    intro id hid
    have hmove : ∀ edge ∈ automaton.edgesOf id, edge.move automaton.rank = edge := by
      intro edge he
      rw [Edge.move, rank_eq_self hall (ha.dest_lt he)]
    rw [h.edgesOf_eq id hid, List.map_congr_left hmove, List.map_id']
  refine ⟨after.picture.label, ?_⟩
  ext1
  · exact hsize
  · exact h.entry_eq.trans (rank_eq_self hall ha.entry_lt)
  · exact h.quiet.agenda_eq.trans hq.agenda_eq.symm
  · exact eq_of_kept hall edgesOf edgesOf_of_size_le hsize hedges
  · exact eq_of_kept hall tokenOf tokenOf_of_size_le hsize h.tokenOf_eq
  · exact h.quiet.marked_eq.trans hq.marked_eq.symm
  · exact eq_of_kept hall (fun automaton => automaton.picture.references) references_of_size_le
      hsize h.references_eq
  · rfl

end AllLive

/-- A reduction changes nothing that a reduction has left, if it does not compact or no node is
dead. -/
theorem Reduced.reduce_ensures (h : automaton.Reduced) {compacting : Bool}
    (hall : compacting = true → ∀ id, id.toNat < automaton.size → id ∈ automaton.liveNodes) :
    Editing.Ensures (reduce compacting) automaton fun _ after =>
      after.picture = automaton.picture := by
  rw [reduce_eq]
  apply (flatten_flat h.wellFormed h.quiet h.flat).bind
  rintro reduced swept ⟨hw, hp⟩
  have hsame : swept.picture = automaton.picture := by
    rw [hp, ← funext h.references_eq]
  have hsize : swept.size = automaton.size := congrArg Picture.size hsame
  have hquiet : swept.picture.Quiet := hsame ▸ h.quiet
  have hlabel : ∀ {id}, id.toNat < swept.size → swept.picture.label id = id := by
    rw [hsame, hsize]
    exact h.label_eq
  cases compacting with
  | false =>
    change Editing.Ensures (do relabel; return [reduced]) swept _
    unfold relabel
    rw [Editing.ensures_modify_bind, Editing.ensures_pure]
    have hself : swept.picture = { swept.picture with label := swept.picture.label } := rfl
    exact (picture_restored hself hlabel).trans hsame
  | true =>
    have hlive : ∀ id, id.toNat < swept.size → id ∈ swept.liveNodes := by
      intro id hlt
      rw [mem_liveNodes, hsame]
      exact ⟨hlt, (mem_liveNodes.mp (hall rfl id (hsize ▸ hlt))).2⟩
    apply (compact_ensures hw hquiet).bind
    intro _ last hcompact
    unfold relabel
    rw [Editing.ensures_get_bind, Editing.ensures_modify_bind, Editing.ensures_pure]
    have hcompacted := hcompact (hlive _ hw.entry_lt) fun _ _ edge he => hlive _ (hw.dest_lt he)
    obtain ⟨label, hlast⟩ := hcompacted.picture_eq hlive hw hquiet
    exact (picture_restored hlast hlabel).trans hsame

end Automaton

namespace Workspace

variable {workspace once : Workspace} {reports : List Message}

lemma Arises.reduced (h : workspace.Arises)
    (hfit : workspace.config.chosenCompact = true → workspace.CountsFit)
    (heq : workspace.reduce = .ok (reports, once)) : once.automaton.Reduced ∧
      (workspace.config.chosenCompact = true →
        ∀ id, id.toNat < once.automaton.size → id ∈ once.automaton.liveNodes) := by
  obtain ⟨-, flat, hflattened, hflat, hcount, hkept, hcompacted⟩ :=
    (reduce_withinLimits (h.regular.sound_of_reduce heq)).of_eq_ok heq
  cases hc : workspace.config.chosenCompact with
  | false =>
    have hswept := hkept hc
    refine ⟨⟨hswept.wellFormed, hswept.quiet, hswept.all_flat hflat, fun id => ?_,
      label_of_reduce heq⟩, nofun⟩
    rw [hswept.references_eq, hswept.demand_eq]
  | true =>
    have hfits := hcount (hfit hc)
    obtain ⟨swept, hswept, hcomp⟩ := hcompacted hc hfits
    have hf := hflattened.wellFormed
    have hrecounted := hswept.recounted_compacted hf hfits hcomp
    refine ⟨⟨hcomp.wellFormed, hcomp.quiet, hcomp.all_flat (hswept.all_flat hflat),
      hrecounted.references_eq, label_of_reduce heq⟩, fun _ id hlt => ?_⟩
    have hreached := (hcomp.reached_iff (hswept.liveNodes_iff_reached hf hfits)).mpr hlt
    rw [Automaton.mem_liveNodes, ← UInt32.pos_iff_ne_zero, hrecounted.counts_iff]
    exact ⟨hlt, hreached⟩

/-- Whatever a workspace was used for: a reduction leaves a reduced automaton, and a second reduction
changes nothing of it, neither the nodes nor what they carry nor the edges nor their order. -/
theorem Arises.reduce_idempotent (h : workspace.Arises)
    (hfit : workspace.config.chosenCompact = true → workspace.CountsFit)
    (heq : workspace.reduce = .ok (reports, once)) :
    once.automaton.Reduced ∧ (∀ fault, once.reduce = .error fault → fault.IsShortage) ∧
    ∀ reports twice, once.reduce = .ok (reports, twice) →
      twice.automaton.picture = once.automaton.picture := by
  have hconfig : once.config = workspace.config := edit_config heq
  obtain ⟨hreduced, hall⟩ := h.reduced hfit heq
  refine ⟨hreduced, ?_, ?_⟩
  · intro fault hfault
    have honce : once.Arises := h.use (.reduce trivial heq)
    exact (honce.funded.edit_error (Automaton.reduce_steady _).same
      (reduce_withinLimits ⟨hreduced.wellFormed, hreduced.quiet⟩) hfault).isShortage
  · intro reports twice htwice
    rw [← hconfig] at hall
    exact ((edit_withinLimits (hreduced.reduce_ensures hall)).of_eq_ok htwice).2

theorem Arises.reduce_idempotent_looped : ∃ workspace reports once, looped = .ok workspace ∧
    workspace.Arises ∧ workspace.config.chosenCompact = true ∧ workspace.CountsFit ∧
    workspace.reduce = .ok (reports, once) ∧ once.automaton.Reduced ∧
    (∀ fault, once.reduce = .error fault → fault.IsShortage) ∧
    ∃ reports' twice, once.reduce = .ok (reports', twice) ∧
      twice.automaton.picture = once.automaton.picture := by
  have hok : (looped.toOption.any fun workspace => (workspace.config.chosenCompact &&
      workspace.keepingDead.reduce.toOption.all fun outcome =>
        decide (outcome.2.automaton.graph.edgeCount + 1 < UInt32.size)) &&
      workspace.reduce.toOption.any fun outcome =>
        outcome.2.reduce.toOption.any fun _ => true) = true := by decide +kernel
  obtain ⟨workspace, hlooped, hok⟩ := exists_of_any hok
  rw [Bool.and_eq_true, Bool.and_eq_true] at hok
  obtain ⟨⟨reports, once⟩, hreduce, hagain⟩ := exists_of_any hok.2
  obtain ⟨⟨reports', twice⟩, htwice, -⟩ := exists_of_any hagain
  have harises := arises_looped hlooped
  have hfit := countsFit_of_all hok.1.2
  obtain ⟨hreduced, hshortage, hsame⟩ := harises.reduce_idempotent (fun _ => hfit) hreduce
  exact ⟨workspace, reports, once, hlooped, harises, hok.1.1, hfit, hreduce, hreduced, hshortage,
    reports', twice, htwice, hsame reports' twice htwice⟩

end Workspace

end PatternAutomata
