import PatternAutomata.Automaton.Pattern
import PatternAutomata.Proofs.Reduction
import PatternAutomata.Proofs.Steady

/-!
# Ceilings do not steer

Every edit of an automaton is steady: no decision depends on how much of the arena is left, and no
buffer grows too large.
-/

namespace PatternAutomata

variable {α β : Type}

/-- Every buffer of the automaton is paid for. -/
structure Automaton.Funded (automaton : Automaton) (used : Nat) : Prop where
  graph : automaton.graph.Funded used
  visited : automaton.visited.Funded used

lemma Automaton.Funded.mono {automaton : Automaton} {used more : Nat} (h : automaton.Funded used)
    (hle : used ≤ more) : automaton.Funded more :=
  ⟨h.graph.mono hle, h.visited.mono hle⟩

/-- On any automaton whose buffers are paid for, the edit is steady, and afterwards all buffers are
paid for. -/
def Editing.Steady (editing : Editing α) : Prop := ∀ automaton : Automaton,
  Charged.Steady automaton.Funded (editing.run automaton) fun outcome => outcome.2.Funded

namespace Editing

namespace Steady

lemma pure (value : α) : Editing.Steady (pure value) :=
  fun _ => Charged.Steady.pure fun _ h => h

lemma get : Editing.Steady (get : Editing Automaton) :=
  fun _ => Charged.Steady.pure fun _ h => h

lemma throw {fault : Fault} (h : fault.IsPlain) :
    Editing.Steady (throw fault : Editing α) :=
  fun _ => Charged.Steady.throw fun _ _ => h

lemma modify {f : Automaton → Automaton}
    (h : ∀ automaton used, automaton.Funded used → (f automaton).Funded used) :
    Editing.Steady (modify f) :=
  fun automaton => Charged.Steady.pure fun used => h automaton used

lemma bind {editing : Editing α} {next : α → Editing β} (h : Editing.Steady editing)
    (hn : ∀ value, Editing.Steady (next value)) : Editing.Steady (editing >>= next) := by
  intro automaton
  rw [StateT.run_bind]
  exact (h automaton).bind fun outcome => hn outcome.1 outcome.2

lemma forM {step : α → Editing Unit} (h : ∀ input, Editing.Steady (step input)) (inputs : List α) :
    Editing.Steady (inputs.forM step) := by
  induction inputs with
  | nil => exact pure _
  | cons input rest ih => exact (h input).bind fun _ => ih

lemma charged {computation : Charged α}
    (h : ∀ automaton : Automaton, Charged.Steady automaton.Funded computation fun _ =>
      automaton.Funded) : Editing.Steady (liftM computation) := by
  intro automaton
  have hrun : (liftM computation : Editing α).run automaton =
      computation >>= fun value => Pure.pure (value, automaton) := by
    simp
  rw [hrun]
  exact (h automaton).bind fun _ => Charged.Steady.pure fun _ hf => hf

lemma except {result : Except Fault α}
    (h : ∀ fault, result = .error fault → fault.IsPlain) :
    Editing.Steady (liftM result) :=
  charged fun _ => (Charged.plain_lift h).keep fun _ _ hle hf => hf.mono hle

end Steady

end Editing

namespace Automaton

open Editing (Steady run_charged_bind run_except_bind run_get_bind)

variable {automaton : Automaton}

/-- A steady computation on the digraph leaves the other buffers paid for. -/
lemma steady_graph (automaton : Automaton) {computation : Charged α} {p : Nat → Prop}
    {q : α → Nat → Prop} (h : Charged.Steady p computation q) :
    Charged.Steady (fun used => p used ∧ automaton.visited.Funded used) computation
      fun value used => q value used ∧ automaton.visited.Funded used :=
  h.frame fun _ _ hle hf => hf.mono hle

lemma steady_graph_bind {R : UInt64 → β → β → Prop} {computation : Charged α}
    {q : α → Nat → Prop} {t : β → Nat → Prop} {next : α → Charged β}
    (h : Charged.Steady automaton.graph.Funded computation q)
    (hn : ∀ value, Charged.Nearly R (fun used => q value used ∧ automaton.visited.Funded used)
      (next value) t) : Charged.Nearly R automaton.Funded (computation >>= next) t :=
  ((steady_graph automaton h).mono (fun _ _ hf => ⟨hf.graph, hf.visited⟩) fun _ _ _ hf => hf).bind hn

/-! ## Basic edits -/

lemma nodeAt_steady (id : NodeId) : Steady (nodeAt id) :=
  Steady.get.bind fun _ => Steady.except fun _ => Digraph.isPlain_of_node

lemma modifyState_steady (id : NodeId) (f : State → State) : Steady (modifyState id f) := by
  intro automaton
  unfold modifyState
  rw [run_get_bind, run_except_bind]
  apply steady_graph_bind (Digraph.modifyData_steady automaton.graph id f)
  exact fun graph => Charged.Steady.pure fun _ hf => ⟨hf.1, hf.2⟩

lemma addNode_steady : Steady addNode := by
  intro automaton
  unfold addNode
  rw [run_get_bind, run_except_bind]
  apply steady_graph_bind (Digraph.require_steady automaton.graph)
  intro id
  rw [run_charged_bind]
  have hadd := steady_graph automaton (Digraph.addNode_steady automaton.graph { id })
  apply (hadd.mono (fun _ _ hf => ⟨hf.1.1, hf.2⟩) fun _ _ _ hf => hf).bind
  exact fun added => Charged.Steady.pure fun _ hf => ⟨hf.1, hf.2⟩

lemma addTransition_steady (source : NodeId) (symbol : UInt8) (dest : NodeId) :
    Steady (addTransition source symbol dest) := by
  intro automaton
  unfold addTransition
  rw [run_get_bind, run_charged_bind]
  apply steady_graph_bind (Digraph.link_steady automaton.graph source dest ⟨symbol⟩)
  intro linked
  rw [run_except_bind]
  apply (steady_graph automaton (Digraph.modifyData_steady linked dest State.addReference)).bind
  exact fun graph => Charged.Steady.pure fun _ hf => ⟨hf.1, hf.2⟩

lemma start_steady : Steady start := by
  unfold start
  apply addNode_steady.bind
  intro entry
  refine (Steady.modify ?_).bind fun _ => modifyState_steady entry _
  exact fun _ _ hf => ⟨hf.graph, hf.visited⟩

/-! ## Fragments -/

lemma addFragment_steady : Steady addFragment := by
  unfold addFragment
  exact addNode_steady.bind fun _ => addNode_steady.bind fun _ => Steady.pure _

lemma assemble_steady (regex : Regex) : Steady (assemble regex) := by
  induction regex with
  | literal byte =>
    apply addFragment_steady.bind
    intro fragment
    exact (addTransition_steady _ _ _).bind fun _ => Steady.pure _
  | concat first second hf hs =>
    apply hf.bind
    intro first
    apply hs.bind
    intro second
    exact (addTransition_steady _ _ _).bind fun _ => Steady.pure _
  | alternate left right hl hr =>
    apply hl.bind
    intro left
    apply hr.bind
    intro right
    apply addFragment_steady.bind
    intro fragment
    apply (addTransition_steady _ _ _).bind
    intro _
    apply (addTransition_steady _ _ _).bind
    intro _
    apply (addTransition_steady _ _ _).bind
    intro _
    exact (addTransition_steady _ _ _).bind fun _ => Steady.pure _
  | star inner hi =>
    apply hi.bind
    intro inner
    apply addFragment_steady.bind
    intro fragment
    apply (addTransition_steady _ _ _).bind
    intro _
    apply (addTransition_steady _ _ _).bind
    intro _
    apply (addTransition_steady _ _ _).bind
    intro _
    exact (addTransition_steady _ _ _).bind fun _ => Steady.pure _

lemma assembleAll_steady (regexes : List Regex) : Steady (assembleAll regexes) := by
  induction regexes with
  | nil => exact Steady.pure _
  | cons regex rest ih => exact (assemble_steady regex).bind fun _ => ih

/-! ## Reduction -/

lemma mark_steady (id : NodeId) : Steady (mark id) := by
  unfold mark
  apply (modifyState_steady id _).bind
  intro _ automaton
  rw [run_get_bind, run_charged_bind]
  have hpush := (Buffer.push_steady automaton.visited id).frame (m := automaton.graph.Funded)
    fun _ _ hle hf => hf.mono hle
  apply (hpush.mono (fun _ _ hf => ⟨hf.visited, hf.graph⟩) fun _ _ _ hf => hf).bind
  exact fun visited => Charged.Steady.pure fun _ hf => ⟨hf.2, hf.1.1⟩

lemma markDests_steady (admits : Transition → Bool) (edges : List (Edge Transition)) :
    Steady (markDests admits edges) := by
  induction edges with
  | nil => exact Steady.pure _
  | cons edge rest ih =>
    unfold markDests
    split
    · apply (nodeAt_steady edge.dest).bind
      intro node
      split
      · exact (mark_steady edge.dest).bind fun _ => ih
      · exact ih
    · exact ih

lemma spread_steady (admits : Transition → Bool) (steps next : Nat) :
    Steady (spread admits steps next) := by
  induction steps generalizing next with
  | zero => exact Steady.throw trivial
  | succ steps ih =>
    unfold spread
    apply Steady.get.bind
    intro automaton
    split
    · exact Steady.pure _
    · apply (nodeAt_steady _).bind
      intro node
      exact (markDests_steady admits _).bind fun _ => ih _

lemma markReachable_steady (admits : Transition → Bool) (start : NodeId) :
    Steady (markReachable admits start) :=
  (mark_steady start).bind fun _ => Steady.get.bind fun _ => spread_steady admits _ _

lemma markClosure_steady (start : NodeId) : Steady (markClosure start) := by
  unfold markClosure
  apply Steady.get.bind
  intro automaton
  split
  · have hplain : Fault.IsPlain .marksLeft := trivial
    exact (Steady.throw hplain).bind fun _ => markReachable_steady _ start
  · exact markReachable_steady _ start

lemma unmarkAll_steady (ids : List NodeId) : Steady (unmarkAll ids) := by
  induction ids with
  | nil => exact Steady.pure _
  | cons id rest ih => exact (modifyState_steady id _).bind fun _ => ih

lemma clearMarks_steady : Steady clearMarks := by
  unfold clearMarks
  apply Steady.get.bind
  intro automaton
  apply (unmarkAll_steady _).bind
  intro _
  exact Steady.modify fun _ _ hf => ⟨hf.graph, hf.visited.of_size_le rfl (Nat.zero_le _)⟩

lemma remember_steady (edge : Edge Transition) : Steady (remember edge) := by
  intro automaton
  unfold remember
  rw [run_get_bind, run_charged_bind]
  apply ((KeySet.insert_plain automaton.seen (edge.data.symbol, edge.dest)).keep
    fun _ _ hle hf => Funded.mono hf hle).bind
  exact fun inserted => Charged.Steady.pure fun _ hf => ⟨hf.graph, hf.visited⟩

lemma rememberAll_steady (edges : List (Edge Transition)) : Steady (rememberAll edges) := by
  induction edges with
  | nil => exact Steady.pure _
  | cons edge rest ih =>
    unfold rememberAll
    split
    · exact (remember_steady edge).bind fun _ => ih
    · exact ih

lemma adopt_steady (id : NodeId) (edges : List (Edge Transition)) : Steady (adopt id edges) := by
  induction edges with
  | nil => exact Steady.pure _
  | cons edge rest ih =>
    unfold adopt
    split
    · apply (remember_steady edge).bind
      intro new
      split
      · exact (addTransition_steady _ _ _).bind fun _ => ih
      · exact ih
    · exact ih

lemma absorb_steady (id : NodeId) (token : UInt32) (members : List NodeId) :
    Steady (absorb id token members) := by
  induction members generalizing token with
  | nil => exact Steady.pure _
  | cons member rest ih =>
    unfold absorb
    apply (nodeAt_steady member).bind
    intro node
    exact (adopt_steady id _).bind fun _ => ih _

lemma release_steady (ids : List NodeId) : Steady (release ids) := by
  induction ids with
  | nil => exact Steady.pure _
  | cons id rest ih => exact (modifyState_steady id _).bind fun _ => ih

lemma size_withoutEpsilons_le (edges : Array (Edge Transition)) (position : Nat) :
    (withoutEpsilons edges position).1.size ≤ edges.size := by
  induction edges, position using withoutEpsilons.induct with
  | case1 edges position h hepsilon kept dests hrest ih =>
    rw [withoutEpsilons, dif_pos h, if_pos hepsilon]
    have hswap : ((edges.swap position (edges.size - 1)).pop).size ≤ edges.size := by simp
    exact Nat.le_trans ih hswap
  | case2 edges position h hconsumes ih =>
    rw [withoutEpsilons, dif_pos h, if_neg hconsumes]
    exact ih
  | case3 edges position h =>
    rw [withoutEpsilons, dif_neg h]

lemma dropEpsilons_steady (id : NodeId) : Steady (dropEpsilons id) := by
  intro automaton
  unfold dropEpsilons nodeAt
  rw [bind_assoc, run_get_bind, run_except_bind]
  apply steady_graph_bind (Digraph.node_steady automaton.graph id)
  intro node
  have hle := size_withoutEpsilons_le node.edges.data 0
  cases hw : withoutEpsilons node.edges.data 0 with
  | mk kept dests =>
    rw [hw] at hle
    rw [run_get_bind, run_except_bind]
    have hmodify := steady_graph automaton (Digraph.modify_steady automaton.graph id
      fun node => { node with edges := { node.edges with data := kept } })
    refine (hmodify.mono ?_ fun _ _ _ hf => hf).bind fun graph => ?_
    · rintro used _ ⟨⟨hgraph, hfound⟩, hvisited⟩
      refine ⟨⟨hgraph, fun other ho => ?_⟩, hvisited⟩
      cases hfound.symm.trans ho
      exact Buffer.Funded.of_size_le (hgraph.edges hfound) rfl hle
    · have hrest := (release_steady dests).bind fun _ => Steady.pure dests.length
      exact (hrest { automaton with graph }).mono (fun _ _ hf => ⟨hf.1, hf.2⟩) fun _ _ _ hf => hf

lemma collapse_steady (id : NodeId) : Steady (collapse id) := by
  unfold collapse
  apply (markClosure_steady id).bind
  intro _
  refine (Steady.modify fun now used (hf : now.Funded used) => ?_).bind fun _ => ?_
  · exact ⟨hf.graph, hf.visited⟩
  apply (nodeAt_steady id).bind
  intro node
  apply (rememberAll_steady _).bind
  intro _
  apply Steady.get.bind
  intro automaton
  apply (absorb_steady id _ _).bind
  intro token
  apply (modifyState_steady id _).bind
  intro _
  exact clearMarks_steady.bind fun _ => dropEpsilons_steady id

lemma collapseAll_steady (ids : List NodeId) : Steady (collapseAll ids) := by
  induction ids with
  | nil => exact Steady.pure _
  | cons id rest ih => exact (collapse_steady id).bind fun _ => ih.bind fun _ => Steady.pure _

lemma countEdges_steady (ids : List NodeId) : Steady (countEdges ids) := by
  induction ids with
  | nil => exact Steady.pure _
  | cons id rest ih =>
    unfold countEdges
    apply (nodeAt_steady id).bind
    intro node
    refine Steady.bind (Steady.forM (fun edge => ?_) _) fun _ => ih
    exact modifyState_steady edge.dest State.addReference

lemma Funded.withStates {used : Nat} (h : automaton.Funded used) (f : NodeId → State → State) :
    (automaton.withStates f).Funded used where
  graph := by
    refine ⟨h.graph.nodes.of_size_le rfl ?_, ?_, ?_⟩
    · simp [Automaton.withStates, Digraph.mapData, Buffer.size]
    · intro index node hn
      simp only [Automaton.withStates, Digraph.mapData, Array.getElem?_mapIdx] at hn
      obtain ⟨old, hold, rfl⟩ := Option.map_eq_some_iff.mp hn
      have hedges : old.edges.Funded used := h.graph.edges hold
      exact hedges
    · simpa [Automaton.withStates, Digraph.mapData, Digraph.size, Buffer.size] using h.graph.size_le
  visited := h.visited

lemma sweep_steady : Steady sweep := by
  unfold sweep
  refine (Steady.modify fun _ _ hf => hf.withStates _).bind fun _ => ?_
  apply Steady.get.bind
  intro automaton
  apply (markReachable_steady _ _).bind
  intro _
  apply Steady.get.bind
  intro marked
  apply (countEdges_steady _).bind
  intro _
  apply (modifyState_steady _ _).bind
  intro _
  exact clearMarks_steady.bind fun _ => Steady.pure _

lemma compact_steady : Steady compact := by
  intro automaton
  unfold compact
  rw [run_get_bind, run_charged_bind]
  apply steady_graph_bind
    (Digraph.restrict_steady automaton.graph fun _ node => !node.data.isDead)
  intro restricted
  rw [run_except_bind]
  have hentry : Charged.Plain (liftM (restricted.1.fetch automaton.entry.toNat)) :=
    Charged.plain_lift fun _ => Digraph.isPlain_of_fetch
  have hkeep := hentry.keep (m := fun used => restricted.2.Funded used ∧ automaton.visited.Funded used)
    fun _ _ hle hf => ⟨hf.1.mono hle, hf.2.mono hle⟩
  exact hkeep.bind fun _ => Charged.Steady.pure fun _ hf => ⟨hf.1, hf.2⟩

lemma relabel_steady : Steady relabel :=
  Steady.modify fun _ _ hf => hf.withStates _

lemma flatten_steady : Steady flatten := by
  intro automaton
  unfold flatten
  rw [run_get_bind, run_charged_bind]
  apply steady_graph_bind (Digraph.postOrder_steady automaton.graph)
  intro order
  have hfunded : ∀ used, automaton.graph.Funded used ∧ automaton.visited.Funded used →
      automaton.Funded used := fun _ hf => ⟨hf.1, hf.2⟩
  refine Charged.Steady.mono ?_ (fun used _ => hfunded used) fun _ _ _ hf => hf
  exact Steady.bind (collapseAll_steady order.toList)
    (fun _ => Steady.bind sweep_steady fun _ => Steady.pure _) automaton

lemma reduce_steady (compacting : Bool) : Steady (reduce compacting) := by
  rw [reduce_eq]
  apply flatten_steady.bind
  intro reduced
  split
  · apply compact_steady.bind
    intro _
    apply Steady.get.bind
    intro automaton
    exact relabel_steady.bind fun _ => Steady.pure _
  · exact relabel_steady.bind fun _ => Steady.pure _

end Automaton

/-! ## Patterns -/

/-- The same message, but that it may tell the ceiling of the arena. -/
def Message.Alike (capacity : UInt64) (message other : Message) : Prop :=
  message = other ∨ ∃ (text : String) (arena : Arena),
    message = ⟨.trace, text ++ arena.summary⟩ ∧
      other = ⟨.trace, text ++ ({ arena with capacity } : Arena).summary⟩

/-- The same result, and a message alike. -/
structure Compiled.Alike (capacity : UInt64) (compiled other : Compiled) : Prop where
  result_eq : compiled.result = other.result
  message : compiled.message.Alike capacity other.message

/-- On any automaton whose buffers are paid for, the edit is steady up to a relation of the values,
and afterwards all buffers are paid for. -/
def Editing.Nearly (R : UInt64 → α → α → Prop) (editing : Editing α) : Prop :=
  ∀ automaton : Automaton, Charged.Nearly
    (fun capacity outcome other => R capacity outcome.1 other.1 ∧ outcome.2 = other.2)
    automaton.Funded (editing.run automaton) fun outcome => outcome.2.Funded

lemma Editing.Steady.nearly {R : UInt64 → α → α → Prop} {editing : Editing α}
    (h : Editing.Steady editing) (hR : ∀ capacity value, R capacity value value) :
    Editing.Nearly R editing := by
  intro automaton
  refine ⟨⟨(h automaton).thrifty, fun capacity => ?_⟩, (h automaton).affords⟩
  apply ((h automaton).lockstep capacity).mono
  rintro outcome _ rfl
  exact ⟨hR capacity outcome.1, rfl⟩

lemma Editing.Steady.same {editing : Editing α} (h : Editing.Steady editing) :
    Editing.Nearly (fun _ => Eq) editing := h.nearly fun _ _ => rfl

lemma Editing.Steady.bind_nearly {R : UInt64 → β → β → Prop} {editing : Editing α}
    {next : α → Editing β} (h : Editing.Steady editing)
    (hn : ∀ value, Editing.Nearly R (next value)) : Editing.Nearly R (editing >>= next) := by
  intro automaton
  rw [StateT.run_bind]
  exact (h automaton).bind fun outcome => hn outcome.1 outcome.2

namespace Automaton

open Editing (Steady)

lemma addFragmentOf_nearly (nestLimit token : UInt32) (pattern : String) :
    Editing.Nearly Compiled.Alike (addFragmentOf nestLimit token pattern) := by
  unfold addFragmentOf
  cases readPattern nestLimit token pattern with
  | error rejection =>
    apply ((assembleAll_steady _).bind fun _ => Steady.pure _).nearly
    exact fun _ _ => ⟨rfl, .inl rfl⟩
  | ok regex =>
    apply (assemble_steady regex).bind_nearly
    intro fragment
    apply (modifyState_steady _ _).bind_nearly
    intro _
    apply Steady.get.bind_nearly
    intro now automaton
    refine ⟨⟨?_, ?_⟩, fun _ _ hf => hf⟩
    · intro arena value after hs hrun
      cases hrun
      exact .refl hs
    · intro capacity arena value after hs hrun hle
      cases hrun
      refine ⟨fun _ => ⟨_, ?_, rfl⟩, fun hlt => absurd hle (UInt64.not_le.mpr hlt)⟩
      exact ⟨⟨rfl, .inr ⟨_, arena, rfl, rfl⟩⟩, rfl⟩

lemma addPattern_nearly (nestLimit token : UInt32) (pattern : String) :
    Editing.Nearly Compiled.Alike (addPattern nestLimit token pattern) := by
  intro automaton
  unfold addPattern
  rw [StateT.run_bind]
  have hlink : ∀ (compiled : Compiled) (fragment : NodeId), Steady (do
      addEpsilon (← get).entry fragment
      return compiled) := fun compiled fragment =>
    Steady.get.bind fun _ => (addTransition_steady _ _ _).bind fun _ => Steady.pure compiled
  apply (addFragmentOf_nearly nestLimit token pattern automaton).bind
  · rintro ⟨compiled, built⟩
    split
    · exact (hlink compiled _).nearly (fun _ _ => ⟨rfl, .inl rfl⟩) built
    · exact (Steady.pure compiled).nearly (fun _ _ => ⟨rfl, .inl rfl⟩) built
  · rintro capacity ⟨⟨result, message⟩, built⟩ ⟨⟨_, message'⟩, _⟩ ⟨⟨rfl, hmessage⟩, rfl⟩
    cases result with
    | error error => exact Lockstep.pure ⟨⟨rfl, hmessage⟩, rfl⟩
    | ok fragment =>
      have hedge := addTransition_steady built.entry Transition.epsilon fragment built
      have hlock : ∀ message message' : Message, message.Alike capacity message' → Lockstep capacity
          (fun outcome other => outcome.1.Alike capacity other.1 ∧ outcome.2 = other.2)
          ((addTransition built.entry Transition.epsilon fragment).run built >>= fun outcome =>
            pure ((⟨.ok fragment, message⟩ : Compiled), outcome.2) : Charged _)
          ((addTransition built.entry Transition.epsilon fragment).run built >>= fun outcome =>
            pure ((⟨.ok fragment, message'⟩ : Compiled), outcome.2)) := by
        intro message message' hmessage
        apply Lockstep.bind hedge.thrifty (fun _ => Thrifty.lift (.ok _)) (hedge.lockstep capacity)
        rintro ⟨_, after⟩ _ rfl
        exact Lockstep.pure ⟨⟨rfl, hmessage⟩, rfl⟩
      exact hlock message message' hmessage

end Automaton

end PatternAutomata
