import PatternAutomata.Proofs.Budget
import PatternAutomata.Proofs.Intact

/-!
# Workspaces used in any way

A workspace may be used in any way at all. Where so many edges lead to a node that the word that
counts them overflows, a reduction can remove a node in use, and the edges to it with it. Even then
every edge leads to a node, every node carries its handle, and no walk is under way. What may be lost
is the entry, and with it every other node; such a table can be added to, but not reduced.
-/

namespace PatternAutomata

namespace Automaton

open Editing (run_charged_bind run_except_bind run_get_bind)

variable {automaton : Automaton} {arena : Arena} {id : NodeId}

/-! ## Edits that end name nodes -/

lemma lt_size_of_modify {f : Node State Transition → Node State Transition}
    {graph : Digraph State Transition} (h : automaton.graph.modify id f = .ok graph) :
    id.toNat < automaton.size := by
  by_contra hc
  have hge : ¬ id.toNat < automaton.graph.size := hc
  unfold Digraph.modify at h
  rw [if_neg hge] at h
  cases h

lemma lt_size_of_modifyState {f : State → State} {outcome : (Unit × Automaton) × Arena}
    (h : ((modifyState id f).run automaton).run arena = .ok outcome) :
    id.toNat < automaton.size := by
  unfold modifyState at h
  rw [run_get_bind, run_except_bind, StateT.run_bind] at h
  obtain ⟨_, hmodify, -⟩ := exists_of_bind_eq_ok h
  exact lt_size_of_modify (Charged.eq_ok_of_liftM hmodify)

lemma lt_size_of_markReachable {admits : Transition → Bool} {outcome : (Unit × Automaton) × Arena}
    (h : ((markReachable admits id).run automaton).run arena = .ok outcome) :
    id.toNat < automaton.size := by
  unfold markReachable mark at h
  simp only [StateT.run_bind] at h
  obtain ⟨_, hmark, -⟩ := exists_of_bind_eq_ok h
  obtain ⟨_, hmodify, -⟩ := exists_of_bind_eq_ok hmark
  exact lt_size_of_modifyState hmodify

lemma lt_size_of_markClosure {outcome : (Unit × Automaton) × Arena}
    (h : ((markClosure id).run automaton).run arena = .ok outcome) : id.toNat < automaton.size := by
  unfold markClosure at h
  rw [run_get_bind] at h
  split at h
  · cases h
  · exact lt_size_of_markReachable h

lemma lt_size_of_collapse {outcome : (Nat × Automaton) × Arena}
    (h : ((collapse id).run automaton).run arena = .ok outcome) : id.toNat < automaton.size := by
  unfold collapse at h
  rw [StateT.run_bind, StateT.run_bind] at h
  obtain ⟨_, hmark, -⟩ := exists_of_bind_eq_ok h
  exact lt_size_of_markClosure hmark

lemma entry_lt_of_sweep {outcome : (Nat × Automaton) × Arena}
    (h : (sweep.run automaton).run arena = .ok outcome) :
    automaton.entry.toNat < automaton.size := by
  unfold sweep at h
  rw [StateT.run_bind, StateT.run_bind] at h
  obtain ⟨_, hreset, h⟩ := exists_of_bind_eq_ok h
  cases hreset
  rw [run_get_bind, StateT.run_bind, StateT.run_bind] at h
  obtain ⟨_, hmark, -⟩ := exists_of_bind_eq_ok h
  have hlt := lt_size_of_markReachable hmark
  rwa [← size_withStates fun _ state => { state with references := 0 }]

/-- What is reduced has a node. -/
lemma size_pos_of_reduce {compacting : Bool} {outcome : (List Message × Automaton) × Arena}
    (h : ((reduce compacting).run automaton).run arena = .ok outcome) : 0 < automaton.size := by
  rw [reduce_eq, StateT.run_bind, StateT.run_bind] at h
  obtain ⟨_, h, -⟩ := exists_of_bind_eq_ok h
  unfold flatten at h
  rw [run_get_bind, run_charged_bind, StateT.run_bind] at h
  obtain ⟨⟨order, _⟩, -, h⟩ := exists_of_bind_eq_ok h
  rw [StateT.run_bind, StateT.run_bind] at h
  obtain ⟨⟨⟨_, collapsed⟩, _⟩, hcollapse, h⟩ := exists_of_bind_eq_ok h
  dsimp only at hcollapse h
  cases horder : order.toList with
  | nil =>
    rw [horder] at hcollapse
    cases hcollapse
    rw [StateT.run_bind, StateT.run_bind] at h
    obtain ⟨_, hsweep, -⟩ := exists_of_bind_eq_ok h
    exact Nat.zero_lt_of_lt (entry_lt_of_sweep hsweep)
  | cons id rest =>
    rw [horder] at hcollapse
    unfold collapseAll at hcollapse
    rw [StateT.run_bind, StateT.run_bind] at hcollapse
    obtain ⟨_, hfirst, -⟩ := exists_of_bind_eq_ok hcollapse
    exact Nat.zero_lt_of_lt (lt_size_of_collapse hfirst)

/-- An edge that is added joins two nodes. -/
lemma lt_size_of_addTransition {source dest : NodeId} {symbol : UInt8}
    {outcome : (Unit × Automaton) × Arena}
    (h : ((addTransition source symbol dest).run automaton).run arena = .ok outcome) :
    source.toNat < automaton.size ∧ dest.toNat < automaton.size := by
  unfold addTransition at h
  rw [run_get_bind, run_charged_bind, StateT.run_bind] at h
  obtain ⟨_, hlink, -⟩ := exists_of_bind_eq_ok h
  unfold Digraph.link at hlink
  by_cases hdest : automaton.graph.size ≤ dest.toNat
  · rw [if_pos hdest] at hlink
    cases hlink
  rw [if_neg hdest] at hlink
  simp only [StateT.run_bind] at hlink
  obtain ⟨_, -, hlink⟩ := exists_of_bind_eq_ok hlink
  obtain ⟨_, -, hlink⟩ := exists_of_bind_eq_ok hlink
  exact ⟨lt_size_of_modify (Charged.eq_ok_of_liftM hlink), Nat.not_le.mp hdest⟩

/-! ## Reduction whatever the counts -/

lemma reduce_settled (ha : automaton.WellFormed) (hq : automaton.picture.Quiet)
    (hentry : automaton.entry = NodeId.zero) (compacting : Bool) :
    Editing.Ensures (reduce compacting) automaton fun _ after =>
      after.Settled ∧ after.picture.Quiet ∧ after.entry = NodeId.zero := by
  have hrelabel : ∀ {last : Automaton}, last.Settled → last.picture.Quiet →
      last.entry = NodeId.zero → ∀ reports : List Message,
      Editing.Ensures (do relabel; return reports) last fun _ after =>
        after.Settled ∧ after.picture.Quiet ∧ after.entry = NodeId.zero := by
    intro last hs hq he reports
    unfold relabel
    rw [Editing.ensures_modify_bind, Editing.ensures_pure]
    refine ⟨hs.withStates _, ?_, he⟩
    change (last.withStates fun id state => { state with id }).picture.Quiet
    rw [picture_relabeled]
    exact ⟨hq.agenda_eq, hq.marked_eq⟩
  rw [reduce_eq]
  apply (flatten_ensures ha hq).bind
  rintro reduced swept ⟨flat, hflattened, -, hswept⟩
  have hzero : swept.entry = NodeId.zero :=
    (hswept.entry_eq.trans hflattened.entry_eq).trans hentry
  cases compacting with
  | false => exact hrelabel hswept.wellFormed.settled hswept.quiet hzero _
  | true =>
    apply (compact_settled hswept.wellFormed hswept.quiet hzero).bind
    rintro _ after ⟨hs, hq, he⟩
    exact hrelabel hs hq he _

end Automaton

namespace Workspace

variable {workspace after : Workspace} {allowed : Workspace → Request → Prop}

/-- Every request is allowed. -/
def Anything (_ : Workspace) (_ : Request) : Prop := True

/-- What a workspace can become that was created under some options and used in any way. -/
abbrev Arises : Workspace → Prop := Used Anything

lemma Arises.create {config : Config} (h : Workspace.create config = .ok workspace) :
    workspace.Arises := Used.create h

lemma Arises.use (h : workspace.Arises) (huse : Use Anything workspace after) : after.Arises :=
  Used.use h huse

/-- No handle is loose but perhaps that of the entry, no walk is under way, and every node carries its
handle. -/
structure Regular (workspace : Workspace) : Prop where
  settled : workspace.automaton.Settled
  quiet : workspace.automaton.picture.Quiet
  dense : workspace.automaton.picture.Dense

/-- What is used in any way is sound as long as there is a node. -/
lemma Regular.sound (h : workspace.Regular) (hpos : 0 < workspace.automaton.size) :
    workspace.Sound := by
  refine ⟨h.settled.wellFormed ?_, h.quiet⟩
  rw [show workspace.automaton.entry = NodeId.zero from h.dense.entry_eq]
  exact hpos

lemma create_regular {config : Config} (h : create config = .ok workspace) : workspace.Regular := by
  obtain ⟨-, hs, hp⟩ := (create_withinLimits config).of_eq_ok h
  exact ⟨hs.wellFormed.settled, hs.quiet, hp ▸ Picture.Dense.initial⟩

lemma Regular.extend (h : workspace.Regular) (hs : after.automaton.Settled) {count : Nat}
    {wires : List Wire} (hp : after.automaton.picture = workspace.automaton.picture.extend count wires) :
    after.Regular :=
  ⟨hs, hp ▸ h.quiet.extend count wires, hp ▸ h.dense.extend count wires⟩

lemma Regular.gain (h : workspace.Regular) {regex : Regex} {token : UInt32} {more : List Wire}
    (hshows : Automaton.Shows workspace.automaton (workspace.automaton.picture.gain regex token more)
      after.automaton) : after.Regular :=
  ⟨hshows.wellFormed.settled, hshows.picture_eq ▸ h.quiet.gain regex token more,
    hshows.picture_eq ▸ h.dense.gain regex token more⟩

lemma Regular.addNode (h : workspace.Regular) {id : NodeId}
    (heq : workspace.addNode = .ok (id, after)) : after.Regular := by
  obtain ⟨-, -, hx⟩ := (edit_withinLimits (Automaton.addNode_extends h.settled)).of_eq_ok heq
  exact h.extend hx.wellFormed.settled hx.picture_eq

lemma lt_size_of_addTransition {source dest : NodeId} {symbol : UInt8}
    (heq : workspace.addTransition source symbol dest = .ok after) :
    source.toNat < workspace.automaton.size ∧ dest.toNat < workspace.automaton.size :=
  Automaton.lt_size_of_addTransition (edit_eq_ok_iff.mp (edit_of_addTransition heq)).2

lemma Regular.addTransition_extends (h : workspace.Regular) {source dest : NodeId} {symbol : UInt8}
    (heq : workspace.addTransition source symbol dest = .ok after) :
    workspace.automaton.Extends 0 [⟨source, ⟨dest, ⟨symbol⟩⟩⟩] after.automaton := by
  obtain ⟨hsource, hdest⟩ := lt_size_of_addTransition heq
  have hs := h.sound (Nat.zero_lt_of_lt hsource)
  exact ((addTransition_withinLimits hs hsource hdest symbol).of_eq_ok heq).2

lemma Regular.addTransition (h : workspace.Regular) {source dest : NodeId} {symbol : UInt8}
    (heq : workspace.addTransition source symbol dest = .ok after) : after.Regular := by
  have hx := h.addTransition_extends heq
  exact h.extend hx.wellFormed.settled hx.picture_eq

lemma Regular.addFragmentOf (h : workspace.Regular) {token : UInt32} {pattern : String}
    {compiled : Compiled} (heq : workspace.addFragmentOf token pattern = .ok (compiled, after)) :
    after.Regular := by
  cases hr : readPattern workspace.config.chosenNestLimit token pattern with
  | error rejection =>
    obtain ⟨-, -, hs, hp⟩ := (edit_withinLimits (Automaton.addFragmentOf_ensures_of_error hr
      (Automaton.assembleAll_settled h.settled _))).of_eq_ok heq
    exact h.extend hs hp
  | ok regex =>
    obtain ⟨-, -, hshows⟩ := (edit_withinLimits
      (Automaton.addFragmentOf_ensures_of_ok h.settled hr)).of_eq_ok heq
    exact h.gain hshows

lemma Regular.addPattern (h : workspace.Regular) {token : UInt32} {pattern : String}
    {compiled : Compiled} (heq : workspace.addPattern token pattern = .ok (compiled, after)) :
    after.Regular := by
  obtain ⟨built, hfragment, rfl | ⟨start, hlink⟩⟩ := exists_of_addPattern heq
  · exact h.addFragmentOf hfragment
  · exact (h.addFragmentOf hfragment).addTransition hlink

/-- What can be reduced has an entry. -/
lemma Regular.sound_of_reduce (h : workspace.Regular) {reports : List Message}
    (heq : workspace.reduce = .ok (reports, after)) : workspace.Sound :=
  h.sound (Automaton.size_pos_of_reduce (edit_eq_ok_iff.mp heq).2)

lemma Regular.reduce (h : workspace.Regular) {reports : List Message}
    (heq : workspace.reduce = .ok (reports, after)) : after.Regular := by
  have hs := h.sound_of_reduce heq
  obtain ⟨-, hsettled, hq, hentry⟩ := (edit_withinLimits
    (Automaton.reduce_settled hs.wellFormed hs.quiet h.dense.entry_eq _)).of_eq_ok heq
  exact ⟨hsettled, hq, hentry, label_of_reduce heq⟩

lemma Use.regular (h : Use allowed workspace after) (hr : workspace.Regular) : after.Regular := by
  cases h with
  | addNode _ heq => exact hr.addNode heq
  | addTransition _ heq => exact hr.addTransition heq
  | addFragmentOf _ heq => exact hr.addFragmentOf heq
  | addPattern _ heq => exact hr.addPattern heq
  | reduce _ heq => exact hr.reduce heq

/-- Whatever a workspace is used for, it stays regular. -/
theorem Arises.regular (h : Arises workspace) : workspace.Regular := by
  induction h with
  | create heq => exact create_regular heq
  | use _ huse ih => exact huse.regular ih

lemma Use.funded (h : Use allowed workspace after) (hf : workspace.Funded) : after.Funded := by
  cases h with
  | addNode _ heq => exact hf.edit Automaton.addNode_steady.same heq
  | addTransition _ heq =>
    exact hf.edit (Automaton.addTransition_steady _ _ _).same (edit_of_addTransition heq)
  | addFragmentOf _ heq => exact hf.edit (Automaton.addFragmentOf_nearly _ _ _) heq
  | addPattern _ heq => exact hf.edit (Automaton.addPattern_nearly _ _ _) heq
  | reduce _ heq => exact hf.edit (Automaton.reduce_steady _).same heq

/-- Whatever a workspace is used for, its buffers are paid for. -/
theorem Arises.funded (h : Arises workspace) : workspace.Funded := by
  induction h with
  | create heq => exact create_funded heq
  | use _ huse ih => exact huse.funded ih

/-! ## Exhausting the arena -/

/-- Whether a request comes to a charge that does not fit what is left of the arena. -/
def Denies (workspace : Workspace) : Request → Prop
  | .addNode => workspace.Refuses Automaton.addNode
  | .addTransition source symbol dest =>
    workspace.Refuses (Automaton.addTransition source symbol dest)
  | .addFragmentOf token pattern =>
    workspace.Refuses (Automaton.addFragmentOf workspace.config.chosenNestLimit token pattern)
  | .addPattern token pattern =>
    workspace.Refuses (Automaton.addPattern workspace.config.chosenNestLimit token pattern)
  | .reduce => workspace.Refuses (Automaton.reduce workspace.config.chosenCompact)

lemma Use.capacity_eq (h : Use allowed workspace after) (hf : workspace.Funded) :
    after.arena.capacity = workspace.arena.capacity := by
  cases h with
  | addNode _ heq => exact hf.edit_capacity Automaton.addNode_steady.same heq
  | addTransition _ heq =>
    exact hf.edit_capacity (Automaton.addTransition_steady _ _ _).same (edit_of_addTransition heq)
  | addFragmentOf _ heq => exact hf.edit_capacity (Automaton.addFragmentOf_nearly _ _ _) heq
  | addPattern _ heq => exact hf.edit_capacity (Automaton.addPattern_nearly _ _ _) heq
  | reduce _ heq => exact hf.edit_capacity (Automaton.reduce_steady _).same heq

lemma bind_pure_eq_error_iff {α β : Type} {result : Except Fault α} {f : α → β} {fault : Fault} :
    (result >>= fun value => pure (f value)) = .error fault ↔ result = .error fault := by
  cases result with
  | ok value => exact ⟨nofun, nofun⟩
  | error other => exact ⟨fun h => congrArg Except.error (Except.error.inj h),
      fun h => congrArg Except.error (Except.error.inj h)⟩

/-- A request exhausts the arena exactly if it comes to a charge that does not fit. -/
lemma Funded.serve_exhausts_iff (hf : workspace.Funded) {request : Request} {capacity : UInt64} :
    workspace.serve request = .error (.arenaExhausted capacity) ↔
      capacity = workspace.arena.capacity ∧ workspace.Denies request := by
  cases request with
  | addNode =>
    exact bind_pure_eq_error_iff.trans (hf.edit_exhausts_iff Automaton.addNode_steady.same)
  | addTransition source symbol dest =>
    exact (bind_pure_eq_error_iff.trans bind_pure_eq_error_iff).trans
      (hf.edit_exhausts_iff (Automaton.addTransition_steady _ _ _).same)
  | addFragmentOf token pattern =>
    exact bind_pure_eq_error_iff.trans (hf.edit_exhausts_iff (Automaton.addFragmentOf_nearly _ _ _))
  | addPattern token pattern =>
    exact bind_pure_eq_error_iff.trans (hf.edit_exhausts_iff (Automaton.addPattern_nearly _ _ _))
  | reduce =>
    exact bind_pure_eq_error_iff.trans (hf.edit_exhausts_iff (Automaton.reduce_steady _).same)

/-- One of the requests comes to a charge that does not fit what those before it have left. -/
def DeniesAmong (workspace : Workspace) (requests : List Request) : Prop :=
  ∃ before request later replies reached, requests = before ++ request :: later ∧
    workspace.serveAll before = .ok (replies, reached) ∧ reached.Denies request

lemma not_deniesAmong_nil : ¬ workspace.DeniesAmong [] := by
  rintro ⟨before, request, later, _, _, hsplit, -⟩
  cases before <;> cases hsplit

/-- The first request is denied, or it is served and one of the others is denied. -/
lemma deniesAmong_cons {request : Request} {rest : List Request} :
    workspace.DeniesAmong (request :: rest) ↔ workspace.Denies request ∨
      ∃ reply middle, workspace.serve request = .ok (reply, middle) ∧ middle.DeniesAmong rest := by
  constructor
  · rintro ⟨before, denied, later, replies, reached, hsplit, hbefore, hdenies⟩
    cases before with
    | nil =>
      cases hsplit
      cases hbefore
      exact .inl hdenies
    | cons first before =>
      cases hsplit
      obtain ⟨⟨reply, middle⟩, hserve, hbefore⟩ := exists_of_bind_eq_ok hbefore
      obtain ⟨⟨replies, _⟩, hbefore, h⟩ := exists_of_bind_eq_ok hbefore
      cases h
      exact .inr ⟨reply, middle, hserve, before, denied, later, replies, reached, rfl, hbefore,
        hdenies⟩
  · rintro (hdenies | ⟨reply, middle, hserve, before, denied, later, replies, reached, rfl,
      hbefore, hdenies⟩)
    · exact ⟨[], request, rest, [], workspace, rfl, rfl, hdenies⟩
    · refine ⟨request :: before, denied, later, reply :: replies, reached, rfl, ?_, hdenies⟩
      rw [serveAll, hserve]
      change middle.serveAll before >>= _ = _
      rw [hbefore]
      rfl

/-- A run of requests exhausts the arena exactly if one of them comes to a charge that does not fit what
those before it have left. -/
theorem Funded.serveAll_exhausts_iff (hf : workspace.Funded) {requests : List Request}
    {capacity : UInt64} : workspace.serveAll requests = .error (.arenaExhausted capacity) ↔
      capacity = workspace.arena.capacity ∧ workspace.DeniesAmong requests := by
  induction requests generalizing workspace with
  | nil => exact ⟨nofun, fun h => (not_deniesAmong_nil h.2).elim⟩
  | cons first rest ih =>
    have hfirst : workspace.serve first = .error (.arenaExhausted capacity) ↔ _ :=
      hf.serve_exhausts_iff
    rw [deniesAmong_cons]
    cases hserve : workspace.serve first with
    | error fault =>
      have hall : workspace.serveAll (first :: rest) = .error fault := by
        rw [serveAll, hserve]
        rfl
      rw [hserve, Except.error.injEq] at hfirst
      rw [hall, Except.error.injEq, hfirst]
      simp
    | ok outcome =>
      obtain ⟨reply, middle⟩ := outcome
      have hgranted : capacity = workspace.arena.capacity → ¬ workspace.Denies first := by
        intro hcapacity hdenies
        cases hserve.symm.trans (hfirst.mpr ⟨hcapacity, hdenies⟩)
      have huse : Use Anything workspace middle :=
        use_iff_serve.mpr ⟨first, reply, trivial, hserve⟩
      have hrest := ih (huse.funded hf)
      rw [huse.capacity_eq hf] at hrest
      rw [serveAll, hserve]
      refine (bind_pure_eq_error_iff.trans hrest).trans (and_congr_right fun hcapacity => ?_)
      constructor
      · exact fun hdenied => .inr ⟨reply, middle, rfl, hdenied⟩
      · rintro (hdenies | ⟨_, _, hsame, hdenied⟩)
        · exact (hgranted hcapacity hdenies).elim
        · cases hsame
          exact hdenied

/-- Adds edges, each given by its source, its byte and its destination. -/
def addTransitions (workspace : Workspace) (edges : List (NodeId × UInt8 × NodeId)) :
    Except Fault Workspace :=
  edges.foldlM (fun workspace (source, symbol, dest) => workspace.addTransition source symbol dest)
    workspace

lemma Arises.addTransitions (h : workspace.Arises) {edges : List (NodeId × UInt8 × NodeId)}
    (heq : workspace.addTransitions edges = .ok after) : after.Arises := by
  unfold Workspace.addTransitions at heq
  induction edges generalizing workspace with
  | nil =>
    cases heq
    exact h
  | cons edge edges ih =>
    obtain ⟨middle, hfirst, hrest⟩ := exists_of_bind_eq_ok heq
    exact ih (h.use (.addTransition trivial hfirst)) hrest

lemma arises_looped (h : looped = .ok workspace) : workspace.Arises :=
  (reachable_looped h).mono fun _ _ _ => trivial

/-! ## Without compacting -/

lemma Use.config_eq (h : Use allowed workspace after) : after.config = workspace.config := by
  cases h with
  | addNode _ heq => exact edit_config heq
  | addTransition _ heq => exact edit_config (edit_of_addTransition heq)
  | addFragmentOf _ heq => exact edit_config heq
  | addPattern _ heq => exact edit_config heq
  | reduce _ heq => exact edit_config heq

lemma Use.step (h : Use allowed workspace after) (hkeep : workspace.config.chosenCompact = false) :
    Step workspace after := by
  cases h with
  | addNode _ heq => exact .addNode trivial heq
  | addTransition _ heq => exact .addTransition (lt_size_of_addTransition heq) heq
  | addFragmentOf _ heq => exact .addFragmentOf trivial heq
  | addPattern _ heq => exact .addPattern trivial heq
  | reduce _ heq => exact .reduce (fun hc => absurd hc (by simp [hkeep])) heq

/-- As long as dead nodes are kept, counts that overflow do no harm. -/
theorem Arises.reachable (h : Arises workspace) (hkeep : workspace.config.chosenCompact = false) :
    workspace.Reachable := by
  induction h with
  | create heq => exact .create heq
  | use _ huse ih =>
    rw [huse.config_eq] at hkeep
    exact (ih hkeep).use (huse.step hkeep)

end Workspace

end PatternAutomata
