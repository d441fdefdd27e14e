import PatternAutomata.Proofs.Ceiling
import PatternAutomata.Proofs.Reachable
import PatternAutomata.Versions

/-!
# Workspaces stay intact

A workspace in use can be copied, and a copy can be taken back in its place. At every moment the
workspace in use and all its copies are intact: the first node is the entry, every edge leads to a
node, every node carries its handle, and nothing is left of the walks of a reduction. So patterns are
added and reductions made without a fault, unless the arena or the handles are used up.
-/

namespace PatternAutomata

/-- Whether a fault says that an arena or the handles are used up. -/
def Fault.IsShortage : Fault → Prop
  | .arenaExhausted _ | .handleTooLarge _ => True
  | .bufferTooLarge | .missingDestination _ | .outOfBounds | .tableFull | .endless | .marksLeft
  | .sumOverflow | .differenceOverflow => False

/-- Whether an edit of a workspace comes to a charge that does not fit what is left of the arena. -/
def Workspace.Refuses {α : Type} (workspace : Workspace) (editing : Editing α) : Prop :=
  Charged.Refused (editing.run workspace.automaton) workspace.arena

/-- Whether an edit of a workspace lacks what a fault says: bytes, if a charge is refused, or handles,
if a position is beyond the greatest. -/
def Workspace.Lacks {α : Type} (workspace : Workspace) (editing : Editing α) : Fault → Prop
  | .arenaExhausted capacity => capacity = workspace.arena.capacity ∧ workspace.Refuses editing
  | .handleTooLarge attempted => NodeId.greatest.toNat < attempted
  | _ => False

lemma Workspace.Lacks.isShortage {α : Type} {workspace : Workspace} {editing : Editing α}
    {fault : Fault} (h : workspace.Lacks editing fault) : fault.IsShortage := by
  cases fault with
  | arenaExhausted _ => trivial
  | handleTooLarge _ => trivial
  | _ => exact h

/-- Where a limit is too small and there is cause for the fault, something is lacking. -/
lemma Workspace.lacks_of_isLimit {α : Type} {workspace : Workspace} {editing : Editing α}
    {fault : Fault} (h : fault.IsLimit)
    (hcause : (editing.run workspace.automaton).HasCause workspace.arena fault) :
    workspace.Lacks editing fault := by
  cases fault with
  | arenaExhausted _ => exact hcause
  | handleTooLarge _ => exact hcause
  | bufferTooLarge => exact hcause
  | _ => exact h

/-! ## Handles -/

/-- The first node is the entry, and every node carries its handle. -/
structure Picture.Dense (picture : Picture) : Prop where
  entry_eq : picture.entry = NodeId.zero
  label_eq : ∀ {id : NodeId}, id.toNat < picture.size → picture.label id = id

namespace Picture.Dense

lemma initial : Picture.initial.Dense where
  entry_eq := rfl
  label_eq {id} h := by
    have hzero : id.toNat = 0 := Nat.lt_one_iff.mp h
    exact congrArg NodeId.mk hzero.symm

variable {picture : Picture} (h : picture.Dense)
include h

lemma extend (count : Nat) (wires : List Wire) : (picture.extend count wires).Dense where
  entry_eq := h.entry_eq
  label_eq {id} hid := by
    change (if picture.size ≤ id.toNat ∧ id.toNat < picture.size + count then id
      else picture.label id) = id
    by_cases hold : id.toNat < picture.size
    · rw [if_neg fun hn => Nat.not_le.mpr hold hn.1]
      exact h.label_eq hold
    · exact if_pos ⟨Nat.not_lt.mp hold, hid⟩

lemma gain (regex : Regex) (token : UInt32) (more : List Wire) :
    (picture.gain regex token more).Dense :=
  have hx := h.extend regex.nodeCount (regex.wiring picture.size ++ more)
  ⟨hx.entry_eq, hx.label_eq⟩

end Picture.Dense

namespace Automaton

variable {automaton after : Automaton} {arena arena' : Arena}

/-- Reduction ends with writing every position into its node. -/
lemma exists_relabeled {compacting : Bool} {reports : List Message}
    (h : ((reduce compacting).run automaton).run arena = .ok ((reports, after), arena')) :
    ∃ last : Automaton, after = last.withStates fun id state => { state with id } := by
  rw [reduce_eq, StateT.run_bind, StateT.run_bind] at h
  obtain ⟨⟨⟨reduced, swept⟩, middle⟩, -, h⟩ := exists_of_bind_eq_ok h
  cases compacting with
  | false =>
    cases h
    exact ⟨swept, rfl⟩
  | true =>
    obtain ⟨⟨⟨_, compacted⟩, later⟩, -, h⟩ := exists_of_bind_eq_ok h
    cases h
    exact ⟨compacted, rfl⟩

lemma label_relabeled {id : NodeId} (last : Automaton)
    (h : id.toNat < (last.withStates fun id state => { state with id }).size) :
    (last.withStates fun id state => { state with id }).picture.label id = id := by
  rw [picture_relabeled]
  obtain ⟨node, hn⟩ := exists_node (size_withStates _ ▸ h)
  simp [hn]

end Automaton

namespace Workspace

variable {α : Type} {workspace after : Workspace}

/-! ## Room -/

/-- Every buffer of the automaton is paid for, within the ceiling. -/
structure Funded (workspace : Workspace) : Prop where
  automaton : workspace.automaton.Funded workspace.arena.used.toNat
  used_le : workspace.arena.used ≤ workspace.arena.capacity

section Edit

variable {R : UInt64 → α → α → Prop} {editing : Editing α} (he : Editing.Nearly R editing)
  (hf : workspace.Funded)
include he hf

lemma Funded.edit {value : α} (h : workspace.edit editing = .ok (value, after)) : after.Funded := by
  obtain ⟨-, hrun⟩ := edit_eq_ok_iff.mp h
  have hafford := (he workspace.automaton).affords workspace.arena hf.used_le hf.automaton
  rw [hrun] at hafford
  have hspends := (he workspace.automaton).thrifty workspace.arena _ _ hf.used_le hrun
  exact ⟨hafford, hspends.le_capacity⟩

/-- Where the limits are the only faults, buffers do not reach theirs, and a fault says what is
lacking. -/
lemma Funded.edit_error {fault : Fault} {p : α × Workspace → Prop}
    (hw : WithinLimits (workspace.edit editing) p) (h : workspace.edit editing = .error fault) :
    workspace.Lacks editing fault := by
  have hafford := (he workspace.automaton).affords workspace.arena hf.used_le hf.automaton
  rw [edit_eq_error_iff.mp h] at hafford
  rw [h, withinLimits_error] at hw
  exact lacks_of_isLimit hw hafford

lemma Funded.edit_exhausts_iff {capacity : UInt64} :
    workspace.edit editing = .error (.arenaExhausted capacity) ↔
      capacity = workspace.arena.capacity ∧ workspace.Refuses editing := by
  rw [edit_eq_error_iff]
  exact (he workspace.automaton).exhausts_iff hf.used_le hf.automaton

lemma Funded.edit_capacity {value : α} (h : workspace.edit editing = .ok (value, after)) :
    after.arena.capacity = workspace.arena.capacity :=
  ((he workspace.automaton).thrifty workspace.arena _ _ hf.used_le (edit_eq_ok_iff.mp h).2).capacity_eq

end Edit

lemma funded_start (config : Config) :
    Funded ⟨{ capacity := config.chosenArenaCapacity }, {}, config⟩ := by
  refine ⟨⟨⟨Buffer.funded_empty, ?_, Nat.zero_le _⟩, Buffer.funded_empty⟩, UInt64.zero_le⟩
  intro index node hn
  cases hn

lemma create_funded {config : Config} (h : create config = .ok workspace) : workspace.Funded := by
  obtain ⟨⟨_, started⟩, hstart, h⟩ := exists_of_bind_eq_ok h
  cases h
  exact (funded_start config).edit Automaton.start_steady.same hstart

/-! ## Workspaces in use -/

/-- A workspace all of whose operations can be carried on. -/
structure Tidy (workspace : Workspace) : Prop where
  sound : workspace.Sound
  dense : workspace.automaton.picture.Dense
  funded : workspace.Funded

lemma create_tidy {config : Config} (h : create config = .ok workspace) : workspace.Tidy := by
  obtain ⟨-, hs, hp⟩ := (create_withinLimits config).of_eq_ok h
  exact ⟨hs, hp ▸ Picture.Dense.initial, create_funded h⟩

lemma Tidy.extend (h : workspace.Tidy) (hs : after.Sound) (hf : after.Funded) {count : Nat}
    {wires : List Wire} (hx : workspace.automaton.Extends count wires after.automaton) :
    after.Tidy := ⟨hs, hx.picture_eq ▸ h.dense.extend count wires, hf⟩

lemma Tidy.gain (h : workspace.Tidy) (hs : after.Sound) (hf : after.Funded) {regex : Regex}
    {token : UInt32} {more : List Wire} (hshows : Automaton.Shows workspace.automaton
      (workspace.automaton.picture.gain regex token more) after.automaton) : after.Tidy :=
  ⟨hs, hshows.picture_eq ▸ h.dense.gain regex token more, hf⟩

lemma Tidy.addNode (h : workspace.Tidy) {id : NodeId} (heq : workspace.addNode = .ok (id, after)) :
    after.Tidy := by
  obtain ⟨hs, -, hx⟩ := (addNode_withinLimits h.sound).of_eq_ok heq
  exact h.extend hs (h.funded.edit Automaton.addNode_steady.same heq) hx

lemma Tidy.addTransition (h : workspace.Tidy) {source dest : NodeId} {symbol : UInt8}
    (hsource : source.toNat < workspace.automaton.size)
    (hdest : dest.toNat < workspace.automaton.size)
    (heq : workspace.addTransition source symbol dest = .ok after) : after.Tidy := by
  obtain ⟨hs, hx⟩ := (addTransition_withinLimits h.sound hsource hdest symbol).of_eq_ok heq
  have hedit := edit_of_addTransition heq
  exact h.extend hs (h.funded.edit (Automaton.addTransition_steady source symbol dest).same hedit) hx

lemma Tidy.addFragmentOf (h : workspace.Tidy) {token : UInt32} {pattern : String}
    {compiled : Compiled} (heq : workspace.addFragmentOf token pattern = .ok (compiled, after)) :
    after.Tidy := by
  obtain ⟨-, hs, hread⟩ := (addFragmentOf_withinLimits h.sound token pattern).of_eq_ok heq
  have hf := h.funded.edit (Automaton.addFragmentOf_nearly _ token pattern) heq
  cases hr : readPattern workspace.config.chosenNestLimit token pattern with
  | error rejection =>
    rw [hr] at hread
    exact h.extend hs hf hread.2
  | ok regex =>
    rw [hr] at hread
    exact h.gain hs hf hread.2

lemma Tidy.addPattern (h : workspace.Tidy) {token : UInt32} {pattern : String}
    {compiled : Compiled} (heq : workspace.addPattern token pattern = .ok (compiled, after)) :
    after.Tidy := by
  obtain ⟨-, hs, hread⟩ := (addPattern_withinLimits h.sound token pattern).of_eq_ok heq
  have hf := h.funded.edit (Automaton.addPattern_nearly _ token pattern) heq
  cases hr : readPattern workspace.config.chosenNestLimit token pattern with
  | error rejection =>
    rw [hr] at hread
    exact h.extend hs hf hread.2
  | ok regex =>
    rw [hr] at hread
    exact h.gain hs hf hread.2

lemma label_of_reduce {reports : List Message} (h : workspace.reduce = .ok (reports, after))
    {id : NodeId} (hid : id.toNat < after.automaton.size) : after.automaton.picture.label id = id := by
  obtain ⟨last, hlast⟩ := Automaton.exists_relabeled (edit_eq_ok_iff.mp h).2
  rw [hlast] at hid ⊢
  exact last.label_relabeled hid

lemma Tidy.reduce (h : workspace.Tidy)
    (hfit : workspace.config.chosenCompact = true → workspace.CountsFit) {reports : List Message}
    (heq : workspace.reduce = .ok (reports, after)) : after.Tidy := by
  have hs := Step.sound (.reduce hfit heq) h.sound
  refine ⟨hs, ⟨?_, label_of_reduce heq⟩, h.funded.edit (Automaton.reduce_steady _).same heq⟩
  obtain ⟨-, flat, hflattened, -, hcount, hkept, hcompacted⟩ :=
    (reduce_withinLimits h.sound).of_eq_ok heq
  have hentry : flat.entry = NodeId.zero := hflattened.entry_eq.trans h.dense.entry_eq
  cases hc : workspace.config.chosenCompact with
  | false => exact (hkept hc).entry_eq.trans hentry
  | true =>
    have hfits := hcount (hfit hc)
    obtain ⟨swept, hswept, hcomp⟩ := hcompacted hc hfits
    have hlive := hswept.entry_mem_liveNodes hflattened.wellFormed hfits
    have hzero : swept.entry = NodeId.zero := hswept.entry_eq.trans hentry
    rw [hzero] at hlive
    change after.automaton.entry = NodeId.zero
    rw [hcomp.entry_eq, hzero, Automaton.rank_zero hlive]

lemma Step.tidy (h : Step workspace after) (ht : workspace.Tidy) : after.Tidy := by
  cases h with
  | addNode _ heq => exact ht.addNode heq
  | addTransition hids heq => exact ht.addTransition hids.1 hids.2 heq
  | addFragmentOf _ heq => exact ht.addFragmentOf heq
  | addPattern _ heq => exact ht.addPattern heq
  | reduce hfit heq => exact ht.reduce hfit heq

/-! ## At every moment -/

/-- What can be in use, and what can be kept of it. -/
inductive InUse : Versions Workspace → Prop
  | create {config : Config} {workspace : Workspace} :
      Workspace.create config = .ok workspace → InUse { current := workspace }
  | step {versions : Versions Workspace} {after : Workspace} :
      InUse versions → Step versions.current after → InUse { versions with current := after }
  | save {versions : Versions Workspace} : InUse versions → InUse versions.save
  | restore {versions : Versions Workspace} : InUse versions → InUse versions.restore

/-- The first node is the entry, every edge leads to a node, every node carries its handle, and nothing
is left of any walk. -/
structure Intact (workspace : Workspace) : Prop where
  nonempty : 0 < workspace.automaton.graph.size
  entry_eq : workspace.automaton.entry = NodeId.zero
  dest_lt : ∀ {id node}, workspace.automaton.node? id = some node → ∀ edge ∈ node.edges.toList,
    edge.dest.toNat < workspace.automaton.graph.size
  id_eq : ∀ {id node}, workspace.automaton.node? id = some node → node.data.id = id
  unvisited : ∀ {id node}, workspace.automaton.node? id = some node → node.data.visited = false
  scratch_eq : workspace.automaton.visited.toList = []

/-- Adding patterns and reducing fail only for want of bytes or handles. -/
structure Dependable (workspace : Workspace) : Prop where
  addFragmentOf : ∀ {token pattern fault}, workspace.addFragmentOf token pattern = .error fault →
    workspace.Lacks (Automaton.addFragmentOf workspace.config.chosenNestLimit token pattern) fault
  addPattern : ∀ {token pattern fault}, workspace.addPattern token pattern = .error fault →
    workspace.Lacks (Automaton.addPattern workspace.config.chosenNestLimit token pattern) fault
  reduce : ∀ {fault}, workspace.reduce = .error fault →
    workspace.Lacks (Automaton.reduce workspace.config.chosenCompact) fault

lemma Tidy.intact (h : workspace.Tidy) : workspace.Intact where
  nonempty := Nat.lt_of_le_of_lt (Nat.zero_le _) h.sound.wellFormed.entry_lt
  entry_eq := h.dense.entry_eq
  dest_lt {id node} hn edge he := by
    rw [← Automaton.edgesOf_eq hn] at he
    exact h.sound.wellFormed.dest_lt he
  id_eq {id node} hn := by
    have hlabel : workspace.automaton.picture.label id = id :=
      h.dense.label_eq (Automaton.lt_size_of_node hn)
    simpa [Automaton.picture, hn] using hlabel
  unvisited {id node} hn := by
    have hmarked := congrFun h.sound.quiet.marked_eq id
    simpa [Automaton.picture, hn] using hmarked
  scratch_eq := h.sound.quiet.agenda_eq

lemma Tidy.dependable (h : workspace.Tidy) : workspace.Dependable where
  addFragmentOf {token pattern _} heq := h.funded.edit_error
    (Automaton.addFragmentOf_nearly _ token pattern) (addFragmentOf_withinLimits h.sound _ _) heq
  addPattern {token pattern _} heq := h.funded.edit_error
    (Automaton.addPattern_nearly _ token pattern) (addPattern_withinLimits h.sound _ _) heq
  reduce heq :=
    h.funded.edit_error (Automaton.reduce_steady _).same (reduce_withinLimits h.sound) heq

lemma InUse.tidy {versions : Versions Workspace} (h : InUse versions) :
    ∀ workspace ∈ versions.current :: versions.saved, workspace.Tidy := by
  induction h with
  | create heq =>
    intro workspace hw
    rw [List.mem_singleton.mp hw]
    exact create_tidy heq
  | step _ hstep ih =>
    intro workspace hw
    rcases List.mem_cons.mp hw with rfl | hw
    · exact Step.tidy hstep (ih _ List.mem_cons_self)
    · exact ih workspace (List.mem_cons_of_mem _ hw)
  | @save versions _ ih =>
    intro workspace hw
    rcases List.mem_cons.mp hw with rfl | hw
    · exact ih _ List.mem_cons_self
    · exact ih workspace hw
  | @restore versions _ ih =>
    unfold Versions.restore
    cases hs : versions.saved with
    | nil =>
      rw [hs] at ih
      simpa [hs] using ih
    | cons kept saved =>
      intro workspace hw
      exact ih workspace (List.mem_cons_of_mem _ (hs ▸ hw))

/-- At every moment, the workspace in use and all its copies are intact, and patterns are added to
them and they are reduced without any fault but a shortage. -/
theorem InUse.stays_intact {versions : Versions Workspace} (h : InUse versions) :
    ∀ workspace ∈ versions.current :: versions.saved, workspace.Intact ∧ workspace.Dependable :=
  fun workspace hw => ⟨(h.tidy workspace hw).intact, (h.tidy workspace hw).dependable⟩

/-- A workspace whose automaton has a pattern. -/
def planted : Except Fault Workspace := do
  let workspace ← create { compact := some true }
  let (_, workspace) ← workspace.addPattern 3 "a*|b"
  return workspace

/-- A pattern that is rejected leaves some nodes behind. -/
def littered : Except Fault Workspace := do
  let workspace ← planted
  let (_, workspace) ← workspace.addPattern 4 "c(d"
  return workspace

theorem InUse.stays_intact_littered : ∃ kept before reports reduced, planted = .ok kept ∧
    littered = .ok before ∧ before.reduce = .ok (reports, reduced) ∧
    InUse { current := reduced, saved := [kept] } ∧
    (reduced.Intact ∧ reduced.Dependable) ∧ kept.Intact ∧ kept.Dependable := by
  have hfew : (littered.toOption.any fun workspace => (workspace.keepingDead.reduce.toOption.all
      fun outcome => decide (outcome.2.automaton.graph.edgeCount + 1 < UInt32.size)) &&
      workspace.reduce.toOption.any fun _ => true) = true := by decide +kernel
  obtain ⟨before, hlittered, hfew⟩ := exists_of_any hfew
  rw [Bool.and_eq_true] at hfew
  obtain ⟨⟨reports, reduced⟩, hreduce, -⟩ := exists_of_any hfew.2
  have hl := hlittered
  unfold littered at hl
  obtain ⟨kept, hplanted, hl⟩ := exists_of_bind_eq_ok hl
  obtain ⟨⟨compiled, _⟩, hadd, hl⟩ := exists_of_bind_eq_ok hl
  cases hl
  have hp := hplanted
  unfold planted at hp
  obtain ⟨start, hcreate, hp⟩ := exists_of_bind_eq_ok hp
  obtain ⟨⟨_, _⟩, hplant, hp⟩ := exists_of_bind_eq_ok hp
  cases hp
  have hkept := (InUse.create hcreate).step (.addPattern trivial hplant)
  have hlast := (hkept.save.step (.addPattern trivial hadd)).step
    (.reduce (fun _ => countsFit_of_all hfew.1) hreduce)
  have hintact := hlast.stays_intact
  exact ⟨kept, before, reports, reduced, hplanted, hlittered, hreduce, hlast,
    hintact reduced List.mem_cons_self, hintact kept (by simp [Versions.save])⟩

end Workspace

end PatternAutomata
