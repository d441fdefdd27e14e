import PatternAutomata.Proofs.Usage

/-!
# What is left without silent edges

A reduction that keeps the dead nodes takes every silent edge away, at every node and in whatever
order the nodes are collapsed. What is left of a node is given by the nodes that it reached silently
before: it has the least of their tokens, its own consuming edges as often as it had them, and each
consuming edge that only others of them had once.
-/

namespace PatternAutomata

namespace Automaton

variable {automaton flat after : Automaton} {source dest : NodeId} {symbol : UInt8}

/-- The tokens of the nodes that a node silently reaches. -/
def silentTokens (automaton : Automaton) (id : NodeId) : Set UInt32 :=
  {token | ∃ member, Silent automaton.Leads id member ∧ automaton.tokenOf member = token}

lemma silentTokens_nonempty (automaton : Automaton) (id : NodeId) :
    (automaton.silentTokens id).Nonempty :=
  ⟨_, id, .refl, rfl⟩

/-- Whether some node that a node silently reaches has an edge with a given symbol to another. -/
def SilentlyHas (automaton : Automaton) (source : NodeId) (symbol : UInt8) (dest : NodeId) : Prop :=
  ∃ member, Silent automaton.Leads source member ∧ 0 < automaton.multiplicity member symbol dest

/-- One automaton is what is left of another without its silent edges. -/
structure Eliminates (automaton after : Automaton) : Prop where
  size_eq : after.size = automaton.size
  entry_eq : after.entry = automaton.entry
  not_silent : ∀ source dest, ¬ after.Leads source Transition.epsilon dest
  least_tokens_eq : ∀ id, least (automaton.silentTokens id) = some (after.tokenOf id)
  multiplicity_of_own : ∀ source symbol dest, symbol ≠ Transition.epsilon →
    0 < automaton.multiplicity source symbol dest →
    after.multiplicity source symbol dest = automaton.multiplicity source symbol dest
  multiplicity_of_taken : ∀ source symbol dest, symbol ≠ Transition.epsilon →
    automaton.multiplicity source symbol dest = 0 → automaton.SilentlyHas source symbol dest →
    after.multiplicity source symbol dest = 1
  multiplicity_of_none : ∀ source symbol dest, symbol ≠ Transition.epsilon →
    ¬ automaton.SilentlyHas source symbol dest → after.multiplicity source symbol dest = 0

lemma weak_iff (hs : symbol ≠ Transition.epsilon) :
    Weak automaton.Leads source symbol dest ↔ automaton.SilentlyHas source symbol dest := by
  unfold Weak SilentlyHas
  simp only [multiplicity_pos_iff]
  exact and_iff_right hs

/-- Once every node has been collapsed, an edge is there exactly if it was silently had. -/
lemma Flattened.multiplicity_pos_iff (h : automaton.Flattened flat) (hflat : ∀ id, flat.Flat id)
    (hs : symbol ≠ Transition.epsilon) :
    0 < flat.multiplicity source symbol dest ↔ automaton.SilentlyHas source symbol dest := by
  rw [Automaton.multiplicity_pos_iff, h.leads_iff hflat, weak_iff hs]

theorem Flattened.eliminates (h : automaton.Flattened flat) (hflat : ∀ id, flat.Flat id) :
    automaton.Eliminates flat where
  size_eq := h.size_eq
  entry_eq := h.entry_eq
  not_silent source dest hl := Edge.consumes_iff.mp (hflat source _ hl) rfl
  least_tokens_eq id := by
    refine least_eq_some_of_bounds (automaton.silentTokens_nonempty id) fun bound => ?_
    rw [h.le_tokenOf_iff hflat]
    constructor
    · rintro hb _ ⟨member, hm, rfl⟩
      exact hb member hm
    · exact fun hb member hm => hb _ ⟨member, hm, rfl⟩
  multiplicity_of_own source symbol dest hs hown := by
    have hkeeps := h.keeps source symbol dest hs
    omega
  multiplicity_of_taken source symbol dest hs hnone htaken := by
    have hkeeps := h.keeps source symbol dest hs
    have hpos := (h.multiplicity_pos_iff hflat hs).mpr htaken
    omega
  multiplicity_of_none source symbol dest hs hnone :=
    Nat.eq_zero_of_not_pos (mt (h.multiplicity_pos_iff hflat hs).mp hnone)

/-- Counting references anew changes neither edges nor tokens. -/
lemma Eliminates.swept (h : automaton.Eliminates flat) (hs : Swept flat after) :
    automaton.Eliminates after := by
  have hleads : after.Leads = flat.Leads := by
    unfold Leads
    rw [hs.edgesOf_eq]
  have hcount : after.multiplicity = flat.multiplicity := by
    funext source symbol dest
    unfold multiplicity
    rw [hs.edgesOf_eq]
  refine ⟨hs.size_eq.trans h.size_eq, hs.entry_eq.trans h.entry_eq, ?_, ?_, ?_, ?_, ?_⟩
  · rw [hleads]
    exact h.not_silent
  · rw [hs.tokenOf_eq]
    exact h.least_tokens_eq
  · rw [hcount]
    exact h.multiplicity_of_own
  · rw [hcount]
    exact h.multiplicity_of_taken
  · rw [hcount]
    exact h.multiplicity_of_none

/-- In whatever order all nodes are collapsed, some perhaps more than once, the same is left. -/
theorem collapseAll_eliminates (ha : automaton.WellFormed) (hq : automaton.picture.Quiet)
    {order : List NodeId} (horder : ∀ id, id ∈ order ↔ id.toNat < automaton.size) :
    Editing.Ensures (collapseAll order) automaton fun _ => automaton.Eliminates := by
  apply (collapsePostOrder_ensures ha hq horder).mono
  rintro _ after ⟨hflattened, hflat⟩
  exact hflattened.eliminates hflat

end Automaton

namespace Workspace

variable {workspace : Workspace}

/-- In any workspace that keeps its dead nodes, whatever it was used for, reduction leaves exactly
what there is without the silent edges, and so does collapsing all nodes in any other order. -/
theorem Arises.reduce_eliminates (h : workspace.Arises)
    (hkeep : workspace.config.chosenCompact = false) :
    (WithinLimits workspace.reduce fun (_, after) =>
      workspace.automaton.Eliminates after.automaton) ∧
    ∀ order : List NodeId, (∀ id, id ∈ order ↔ id.toNat < workspace.automaton.size) →
      Editing.Ensures (Automaton.collapseAll order) workspace.automaton fun _ =>
        workspace.automaton.Eliminates := by
  have hs := (h.reachable hkeep).sound
  constructor
  · apply (reduce_withinLimits hs).mono
    rintro ⟨_, after⟩ ⟨-, flat, hflattened, hflat, -, hswept, -⟩
    exact (hflattened.eliminates hflat).swept (hswept hkeep)
  · exact fun order horder => Automaton.collapseAll_eliminates hs.wellFormed hs.quiet horder

/-- Two nodes that silently lead to each other, with a doubled edge, and a node that silently leads to
itself, next to a pattern. -/
def tangled : Except Fault Workspace := do
  let workspace ← create {}
  let (first, workspace) ← workspace.addNode
  let (second, workspace) ← workspace.addNode
  let workspace ← workspace.addTransitions
    [(⟨0⟩, Transition.epsilon, first), (first, Transition.epsilon, ⟨0⟩), (⟨0⟩, 97, first),
      (⟨0⟩, 97, first), (first, 98, second), (second, Transition.epsilon, second)]
  let (_, workspace) ← workspace.addPattern 3 "a*|b"
  return workspace

theorem Arises.reduce_eliminates_tangled : ∃ workspace reports after, tangled = .ok workspace ∧
    workspace.Arises ∧ workspace.config.chosenCompact = false ∧
    workspace.reduce = .ok (reports, after) ∧
    workspace.automaton.Eliminates after.automaton := by
  have hok : (tangled.toOption.any fun workspace => !workspace.config.chosenCompact &&
      workspace.reduce.toOption.any fun _ => true) = true := by decide +kernel
  obtain ⟨workspace, htangled, hok⟩ := exists_of_any hok
  rw [Bool.and_eq_true, Bool.not_eq_true'] at hok
  obtain ⟨⟨reports, after⟩, hreduce, -⟩ := exists_of_any hok.2
  have harises : workspace.Arises := by
    have hw := htangled
    unfold tangled at hw
    obtain ⟨_, hcreate, hw⟩ := exists_of_bind_eq_ok hw
    obtain ⟨⟨_, _⟩, hfirst, hw⟩ := exists_of_bind_eq_ok hw
    obtain ⟨⟨_, _⟩, hsecond, hw⟩ := exists_of_bind_eq_ok hw
    obtain ⟨_, hlinks, hw⟩ := exists_of_bind_eq_ok hw
    obtain ⟨⟨_, _⟩, hpattern, hw⟩ := exists_of_bind_eq_ok hw
    cases hw
    have hnodes := ((Arises.create hcreate).use (.addNode trivial hfirst)).use
      (.addNode trivial hsecond)
    exact (hnodes.addTransitions hlinks).use (.addPattern trivial hpattern)
  exact ⟨workspace, reports, after, htangled, harises, hok.1, hreduce,
    (harises.reduce_eliminates hok.1).1.of_eq_ok hreduce⟩

end Workspace

end PatternAutomata
