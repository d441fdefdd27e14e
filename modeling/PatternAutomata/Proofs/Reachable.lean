import PatternAutomata.Proofs.Gain
import PatternAutomata.Proofs.Reduction
import PatternAutomata.Workspace

/-!
# Reduction of any workspace in use

A workspace in use has been created and then given nodes, edges between its nodes, fragments and
patterns, and has been reduced, in any order. Its automaton is well formed and no walk is under way.
So reduction can only fail for want of room, and it keeps what the automaton says about every word.
-/

namespace PatternAutomata

/-- What an automaton shows that has its entry only. -/
def Picture.initial : Picture where
  size := 1
  entry := ⟨0⟩
  agenda := []
  edges _ := []
  token _ := State.noToken
  marked _ := false
  references := Function.update (fun _ => 0) ⟨0⟩ 1
  label _ := ⟨0⟩

lemma Picture.quiet_initial : Picture.initial.Quiet := ⟨rfl, rfl⟩

namespace Automaton

lemma start_ensures :
    Editing.Ensures start {} fun _ after => after.WellFormed ∧ after.picture = .initial := by
  unfold start
  apply (@addNode_ensures_withNewNode {} Buffer.fits_empty).bind
  rintro _ _ ⟨capacity, rfl, -, hfits, rfl⟩
  rw [Editing.ensures_modify_bind]
  let entered : Automaton := { withNewNode {} capacity with entry := ⟨size {}⟩ }
  have hpicture : entered.picture = { Picture.initial with references := fun _ => 0 } := by
    change { (withNewNode {} capacity).picture with entry := ⟨size {}⟩ } = _
    rw [picture_withNewNode]
    have hlabel : Function.update (picture {}).label ⟨size {}⟩ ⟨size {}⟩ = fun _ => ⟨0⟩ :=
      Function.update_eq_self_iff.mpr rfl
    rw [hlabel]
    rfl
  have hedges : entered.edgesOf = fun _ => [] := congrArg Picture.edges hpicture
  have hentered : entered.WellFormed := by
    refine ⟨hfits, ?_, Buffer.fits_empty, ?_, ?_, ?_⟩
    · intro id node hn
      change (withNewNode {} capacity).node? id = some node at hn
      rw [node?_withNewNode] at hn
      split at hn
      · cases hn
        exact Buffer.fits_empty
      · cases hn
    · intro id edge he
      rw [hedges] at he
      cases he
    · change 0 < (withNewNode {} capacity).size
      rw [size_withNewNode]
      exact Nat.succ_pos _
    · change (withNewNode {} capacity).size ≤ NodeId.limit
      rw [size_withNewNode]
      decide
  refine (setReferences_ensures hentered ?_ fun _ => 1).mono fun _ after h => ?_
  · exact hentered.entry_lt
  · refine ⟨h.wellFormed, h.picture_eq.trans ?_⟩
    rw [hpicture]
    rfl

end Automaton

namespace Workspace

/-- No handle is loose in the automaton, and no walk is under way. -/
structure Sound (workspace : Workspace) : Prop where
  wellFormed : workspace.automaton.WellFormed
  quiet : workspace.automaton.picture.Quiet

lemma edit_eq {α : Type} (workspace : Workspace) (editing : Editing α) :
    workspace.edit editing = ((editing.run workspace.automaton).run workspace.arena).map
      fun ((value, automaton), arena) => (value, { workspace with automaton, arena }) := by
  obtain ⟨arena, automaton, config⟩ := workspace
  unfold edit
  dsimp only
  cases (editing.run automaton).run arena <;> rfl

lemma edit_eq_ok_iff {α : Type} {workspace after : Workspace} {editing : Editing α} {value : α} :
    workspace.edit editing = .ok (value, after) ↔ after.config = workspace.config ∧
      (editing.run workspace.automaton).run workspace.arena =
        .ok ((value, after.automaton), after.arena) := by
  obtain ⟨arena, automaton, config⟩ := after
  rw [edit_eq]
  cases (editing.run workspace.automaton).run workspace.arena with
  | error fault => simp [Except.map]
  | ok outcome =>
    obtain ⟨⟨_, _⟩, _⟩ := outcome
    simp only [Except.map, Except.ok.injEq, Prod.mk.injEq, Workspace.mk.injEq]
    constructor
    · rintro ⟨rfl, rfl, rfl, rfl⟩
      exact ⟨rfl, ⟨rfl, rfl⟩, rfl⟩
    · rintro ⟨rfl, ⟨rfl, rfl⟩, rfl⟩
      exact ⟨rfl, rfl, rfl, rfl⟩

lemma edit_config {α : Type} {workspace after : Workspace} {editing : Editing α} {value : α}
    (h : workspace.edit editing = .ok (value, after)) : after.config = workspace.config :=
  (edit_eq_ok_iff.mp h).1

lemma edit_of_addTransition {workspace after : Workspace} {source dest : NodeId} {symbol : UInt8}
    (h : workspace.addTransition source symbol dest = .ok after) :
    workspace.edit (Automaton.addTransition source symbol dest) = .ok ((), after) := by
  obtain ⟨⟨_, _⟩, hedit, hsame⟩ := exists_of_bind_eq_ok h
  cases hsame
  exact hedit

lemma edit_eq_error_iff {α : Type} {workspace : Workspace} {editing : Editing α} {fault : Fault} :
    workspace.edit editing = .error fault ↔
      (editing.run workspace.automaton).run workspace.arena = .error fault := by
  rw [edit_eq]
  cases (editing.run workspace.automaton).run workspace.arena <;> simp [Except.map]

/-- To add a pattern is to add its fragment and, if it is read, an edge to the start of it. -/
lemma addPattern_eq (workspace : Workspace) (token : UInt32) (pattern : String) :
    workspace.addPattern token pattern = (do
      let (compiled, built) ← workspace.addFragmentOf token pattern
      match compiled.result with
      | .ok start =>
        let after ← built.addTransition built.automaton.entry Transition.epsilon start
        return (compiled, after)
      | .error _ => return (compiled, built)) := by
  unfold addPattern addFragmentOf addTransition Automaton.addPattern
  simp only [edit_eq]
  rw [StateT.run_bind, StateT.run_bind]
  cases hrun : ((Automaton.addFragmentOf workspace.config.chosenNestLimit token pattern).run
      workspace.automaton).run workspace.arena with
  | error fault => rfl
  | ok outcome =>
    obtain ⟨⟨compiled, built⟩, arena⟩ := outcome
    obtain ⟨result, message⟩ := compiled
    cases result with
    | error error => rfl
    | ok start =>
      change Except.map _ (((Automaton.addTransition built.entry Transition.epsilon start >>=
        fun _ => pure ⟨.ok start, message⟩ : Editing Compiled).run built).run arena) = _
      rw [StateT.run_bind, StateT.run_bind]
      change _ = Except.map _ (((Automaton.addTransition built.entry Transition.epsilon start).run
        built).run arena) >>= _ >>= _
      cases ((Automaton.addTransition built.entry Transition.epsilon start).run built).run arena <;> rfl

lemma exists_of_addPattern {workspace after : Workspace} {token : UInt32} {pattern : String}
    {compiled : Compiled} (h : workspace.addPattern token pattern = .ok (compiled, after)) :
    ∃ built, workspace.addFragmentOf token pattern = .ok (compiled, built) ∧
      (after = built ∨ ∃ start,
        built.addTransition built.automaton.entry Transition.epsilon start = .ok after) := by
  rw [addPattern_eq] at h
  obtain ⟨⟨⟨result, message⟩, built⟩, hfragment, h⟩ := exists_of_bind_eq_ok h
  cases result with
  | error error =>
    cases h
    exact ⟨_, hfragment, .inl rfl⟩
  | ok start =>
    obtain ⟨_, hlink, h⟩ := exists_of_bind_eq_ok h
    cases h
    exact ⟨built, hfragment, .inr ⟨start, hlink⟩⟩

lemma edit_withinLimits {α : Type} {workspace : Workspace} {editing : Editing α}
    {p : α → Automaton → Prop} (h : Editing.Ensures editing workspace.automaton p) :
    WithinLimits (workspace.edit editing) fun (value, after) =>
      after.config = workspace.config ∧ p value after.automaton := by
  have hrun := h workspace.arena
  rw [edit_eq]
  cases hr : (editing.run workspace.automaton).run workspace.arena with
  | error fault =>
    rw [hr] at hrun
    exact hrun
  | ok outcome =>
    rw [hr] at hrun
    exact ⟨rfl, hrun⟩

def keepingDead (workspace : Workspace) : Workspace :=
  { workspace with config := { workspace.config with compact := some false } }

/-- Whether reduction counts no more references at any node than a word holds, as it shows when the
dead nodes are kept. -/
def CountsFit (workspace : Workspace) : Prop :=
  ∀ reports after, workspace.keepingDead.reduce = .ok (reports, after) → after.automaton.CountsFit

/-- Counts fit if reduction leaves fewer edges than a word counts. -/
lemma countsFit_of_all {workspace : Workspace}
    (h : (workspace.keepingDead.reduce.toOption.all fun outcome =>
      decide (outcome.2.automaton.graph.edgeCount + 1 < UInt32.size)) = true) :
    workspace.CountsFit := by
  intro reports after heq
  simp only [heq, Except.toOption, Option.all_some, decide_eq_true_iff] at h
  exact Automaton.countsFit_of_edgeCount h

/-- What can be asked of a workspace. -/
inductive Request where
  | addNode
  | addTransition (source : NodeId) (symbol : UInt8) (dest : NodeId)
  | addFragmentOf (token : UInt32) (pattern : String)
  | addPattern (token : UInt32) (pattern : String)
  | reduce

/-- One use of a workspace, for a request that a condition allows. -/
inductive Use (allowed : Workspace → Request → Prop) : Workspace → Workspace → Prop
  | addNode {workspace after : Workspace} {id : NodeId} :
      allowed workspace .addNode → workspace.addNode = .ok (id, after) → Use allowed workspace after
  | addTransition {workspace after : Workspace} {source dest : NodeId} {symbol : UInt8} :
      allowed workspace (.addTransition source symbol dest) →
      workspace.addTransition source symbol dest = .ok after → Use allowed workspace after
  | addFragmentOf {workspace after : Workspace} {token : UInt32} {pattern : String}
      {compiled : Compiled} :
      allowed workspace (.addFragmentOf token pattern) →
      workspace.addFragmentOf token pattern = .ok (compiled, after) → Use allowed workspace after
  | addPattern {workspace after : Workspace} {token : UInt32} {pattern : String}
      {compiled : Compiled} :
      allowed workspace (.addPattern token pattern) →
      workspace.addPattern token pattern = .ok (compiled, after) → Use allowed workspace after
  | reduce {workspace after : Workspace} {reports : List Message} :
      allowed workspace .reduce → workspace.reduce = .ok (reports, after) →
      Use allowed workspace after

/-- What a workspace can become that was created under some options and then used for requests that a
condition allows. -/
inductive Used (allowed : Workspace → Request → Prop) : Workspace → Prop
  | create {config : Config} {workspace : Workspace} :
      Workspace.create config = .ok workspace → Used allowed workspace
  | use {workspace after : Workspace} :
      Used allowed workspace → Use allowed workspace after → Used allowed after

section Weaker

variable {workspace after : Workspace} {allowed allowed' : Workspace → Request → Prop}
  (hallow : ∀ workspace request, allowed workspace request → allowed' workspace request)
include hallow

lemma Use.mono (h : Use allowed workspace after) : Use allowed' workspace after := by
  cases h with
  | addNode ha heq => exact .addNode (hallow _ _ ha) heq
  | addTransition ha heq => exact .addTransition (hallow _ _ ha) heq
  | addFragmentOf ha heq => exact .addFragmentOf (hallow _ _ ha) heq
  | addPattern ha heq => exact .addPattern (hallow _ _ ha) heq
  | reduce ha heq => exact .reduce (hallow _ _ ha) heq

lemma Used.mono (h : Used allowed workspace) : Used allowed' workspace := by
  induction h with
  | create heq => exact .create heq
  | use _ huse ih => exact ih.use (huse.mono hallow)

end Weaker

/-- Requests that stay within the limits of a workspace: edges are added between its nodes, and where
the table is compacted, the counts fit. -/
def Moderate (workspace : Workspace) : Request → Prop
  | .addTransition source _ dest =>
    source.toNat < workspace.automaton.graph.size ∧ dest.toNat < workspace.automaton.graph.size
  | .reduce => workspace.config.chosenCompact = true → workspace.CountsFit
  | _ => True

/-- One use of a workspace that stays within its limits. -/
abbrev Step : Workspace → Workspace → Prop := Use Moderate

/-- What a workspace can become that was created under some options. -/
abbrev Reachable : Workspace → Prop := Used Moderate

variable {workspace after : Workspace}

lemma create_withinLimits (config : Config) : WithinLimits (create config) fun workspace =>
    workspace.config = config ∧ workspace.Sound ∧ workspace.automaton.picture = .initial := by
  unfold create
  rw [withinLimits_bind]
  apply (edit_withinLimits Automaton.start_ensures).mono
  rintro ⟨_, workspace⟩ ⟨hconfig, hw, hp⟩
  exact ⟨hconfig, ⟨hw, hp ▸ Picture.quiet_initial⟩, hp⟩

lemma addFragmentOf_withinLimits (hs : workspace.Sound) (token : UInt32) (pattern : String) :
    WithinLimits (workspace.addFragmentOf token pattern) fun (compiled, after) =>
      after.config = workspace.config ∧ after.Sound ∧
      match readPattern workspace.config.chosenNestLimit token pattern with
      | .error rejection => compiled.result = .error rejection.error ∧
          workspace.automaton.Extends (Regex.nodeCountAll rejection.pieces)
            (Regex.wiringAll workspace.automaton.size rejection.pieces) after.automaton
      | .ok regex => compiled.result = .ok (regex.entryAt workspace.automaton.size) ∧
          Automaton.Shows workspace.automaton
            (workspace.automaton.picture.gain regex token []) after.automaton := by
  unfold addFragmentOf
  apply (edit_withinLimits (Automaton.addFragmentOf_ensures hs.wellFormed _ token pattern)).mono
  rintro ⟨compiled, after⟩ ⟨hconfig, h⟩
  refine ⟨hconfig, ?_, h⟩
  cases hr : readPattern workspace.config.chosenNestLimit token pattern with
  | error rejection =>
    rw [hr] at h
    exact ⟨h.2.wellFormed, h.2.picture_eq ▸ hs.quiet.extend _ _⟩
  | ok regex =>
    rw [hr] at h
    exact ⟨h.2.wellFormed, h.2.picture_eq ▸ hs.quiet.gain _ _ _⟩

lemma addPattern_withinLimits (hs : workspace.Sound) (token : UInt32) (pattern : String) :
    WithinLimits (workspace.addPattern token pattern) fun (compiled, after) =>
      after.config = workspace.config ∧ after.Sound ∧
      match readPattern workspace.config.chosenNestLimit token pattern with
      | .error rejection => compiled.result = .error rejection.error ∧
          workspace.automaton.Extends (Regex.nodeCountAll rejection.pieces)
            (Regex.wiringAll workspace.automaton.size rejection.pieces) after.automaton
      | .ok regex => compiled.result = .ok (regex.entryAt workspace.automaton.size) ∧
          Automaton.Shows workspace.automaton (workspace.automaton.picture.gain regex token
            [.silent workspace.automaton.entry (regex.entryAt workspace.automaton.size)])
            after.automaton := by
  unfold addPattern
  apply (edit_withinLimits (Automaton.addPattern_ensures hs.wellFormed _ token pattern)).mono
  rintro ⟨compiled, after⟩ ⟨hconfig, h⟩
  refine ⟨hconfig, ?_, h⟩
  cases hr : readPattern workspace.config.chosenNestLimit token pattern with
  | error rejection =>
    rw [hr] at h
    exact ⟨h.2.wellFormed, h.2.picture_eq ▸ hs.quiet.extend _ _⟩
  | ok regex =>
    rw [hr] at h
    exact ⟨h.2.wellFormed, h.2.picture_eq ▸ hs.quiet.gain _ _ _⟩

lemma reduce_withinLimits (hs : workspace.Sound) :
    WithinLimits workspace.reduce fun (_, after) => after.config = workspace.config ∧
      ∃ flat : Automaton, workspace.automaton.Flattened flat ∧ (∀ id, flat.Flat id) ∧
        (workspace.CountsFit → flat.CountsFit) ∧
        (workspace.config.chosenCompact = false → Automaton.Swept flat after.automaton) ∧
        (workspace.config.chosenCompact = true → flat.CountsFit → ∃ swept,
          Automaton.Swept flat swept ∧ Automaton.Compacted swept after.automaton) := by
  have h := Automaton.reduce_withinLimits hs.wellFormed hs.quiet workspace.config.chosenCompact
    workspace.arena
  unfold reduce
  rw [edit_eq]
  cases hr : ((Automaton.reduce workspace.config.chosenCompact).run workspace.automaton).run
      workspace.arena with
  | error fault =>
    rw [hr] at h
    exact h
  | ok outcome =>
    rw [hr] at h
    obtain ⟨flat, hflattened, hflat, ⟨reports, plain, arena, hkept, hplain⟩, hrest⟩ := h
    refine ⟨rfl, flat, hflattened, hflat, fun hfit => ?_, hrest⟩
    apply hplain.countsFit_iff.mp
    apply hfit reports { workspace.keepingDead with automaton := plain, arena }
    change workspace.keepingDead.edit (Automaton.reduce false) = _
    rw [edit_eq]
    change (((Automaton.reduce false).run workspace.automaton).run workspace.arena).map _ = _
    rw [hkept]
    rfl

/-! ## Uses keep a workspace sound -/

lemma addNode_withinLimits (hs : workspace.Sound) :
    WithinLimits workspace.addNode fun (id, after) => after.Sound ∧
      id = ⟨workspace.automaton.size⟩ ∧ workspace.automaton.Extends 1 [] after.automaton := by
  apply (edit_withinLimits (Automaton.addNode_extends hs.wellFormed.settled)).mono
  rintro ⟨id, after⟩ ⟨-, hid, h⟩
  exact ⟨⟨h.wellFormed, h.picture_eq ▸ hs.quiet.extend _ _⟩, hid, h⟩

lemma addTransition_withinLimits (hs : workspace.Sound) {source dest : NodeId}
    (hsource : source.toNat < workspace.automaton.size)
    (hdest : dest.toNat < workspace.automaton.size) (symbol : UInt8) :
    WithinLimits (workspace.addTransition source symbol dest) fun after => after.Sound ∧
      workspace.automaton.Extends 0 [⟨source, ⟨dest, ⟨symbol⟩⟩⟩] after.automaton := by
  unfold addTransition
  rw [withinLimits_bind]
  refine (edit_withinLimits
    (Automaton.addTransition_extends hs.wellFormed hsource hdest symbol)).mono ?_
  rintro ⟨_, after⟩ ⟨-, -, h⟩
  exact ⟨⟨h.wellFormed, h.picture_eq ▸ hs.quiet.extend _ _⟩, h⟩

lemma Step.sound (h : Step workspace after) (hs : workspace.Sound) : after.Sound := by
  cases h with
  | addNode _ heq => exact ((addNode_withinLimits hs).of_eq_ok heq).1
  | addTransition hids heq =>
    exact ((addTransition_withinLimits hs hids.1 hids.2 _).of_eq_ok heq).1
  | addFragmentOf _ heq => exact ((addFragmentOf_withinLimits hs _ _).of_eq_ok heq).2.1
  | addPattern _ heq => exact ((addPattern_withinLimits hs _ _).of_eq_ok heq).2.1
  | reduce hfit heq =>
    obtain ⟨-, flat, -, -, hcount, hkept, hcompacted⟩ := (reduce_withinLimits hs).of_eq_ok heq
    cases hc : workspace.config.chosenCompact with
    | false => exact ⟨(hkept hc).wellFormed, (hkept hc).quiet⟩
    | true =>
      obtain ⟨swept, -, h⟩ := hcompacted hc (hcount (hfit hc))
      exact ⟨h.wellFormed, h.quiet⟩

lemma Reachable.sound (h : Reachable workspace) : workspace.Sound := by
  induction h with
  | create heq => exact ((create_withinLimits _).of_eq_ok heq).2.1
  | use _ hstep ih => exact Step.sound hstep ih

/-- Reduction of a workspace in use keeps what its automaton says about every word: from every node
if dead nodes are kept, and from the entry in any case. -/
theorem reduce_preserves_runs (h : Reachable workspace)
    (hfit : workspace.config.chosenCompact = true → workspace.CountsFit) :
    WithinLimits workspace.reduce fun (_, after) =>
      (∀ word, after.automaton.run word = workspace.automaton.run word) ∧
      (workspace.config.chosenCompact = false → after.automaton.size = workspace.automaton.size ∧
        ∀ start word, after.automaton.runFrom start word = workspace.automaton.runFrom start word) := by
  apply (reduce_withinLimits h.sound).mono
  rintro ⟨_, after⟩ ⟨-, flat, hflattened, -, hcount, hkept, hcompacted⟩
  cases hc : workspace.config.chosenCompact with
  | false =>
    have hswept := hkept hc
    have hrun := hflattened.runFrom_swept hswept
    refine ⟨fun word => ?_, fun _ => ⟨hswept.size_eq.trans hflattened.size_eq, hrun⟩⟩
    unfold Automaton.run
    rw [hswept.entry_eq, hflattened.entry_eq]
    exact hrun _ word
  | true =>
    have hfits := hcount (hfit hc)
    obtain ⟨swept, hswept, h⟩ := hcompacted hc hfits
    exact ⟨hflattened.run_compacted hswept h hfits, nofun⟩

/-- A compacting workspace whose entry silently reaches a node that leads back to it. -/
def looped : Except Fault Workspace := do
  let workspace ← create { compact := some true }
  let (id, workspace) ← workspace.addNode
  let workspace ← workspace.addTransition ⟨0⟩ Transition.epsilon id
  let workspace ← workspace.addTransition id Transition.epsilon ⟨0⟩
  let (_, workspace) ← workspace.addPattern 3 "a*|b"
  return workspace

lemma reachable_looped {workspace : Workspace} (h : looped = .ok workspace) :
    workspace.Reachable := by
  unfold looped at h
  obtain ⟨first, h0, h⟩ := exists_of_bind_eq_ok h
  obtain ⟨⟨id, second⟩, h1, h⟩ := exists_of_bind_eq_ok h
  obtain ⟨third, h2, h⟩ := exists_of_bind_eq_ok h
  obtain ⟨fourth, h3, h⟩ := exists_of_bind_eq_ok h
  obtain ⟨⟨compiled, last⟩, h4, h⟩ := exists_of_bind_eq_ok h
  cases h
  have hfirst : first.Reachable := .create h0
  have hsecond : second.Reachable := hfirst.use (.addNode trivial h1)
  obtain ⟨-, -, hinitial⟩ := (create_withinLimits _).of_eq_ok h0
  obtain ⟨-, rfl, hadded⟩ := (addNode_withinLimits hfirst.sound).of_eq_ok h1
  have hsize : first.automaton.size = 1 := congrArg Picture.size hinitial
  have hsize' : second.automaton.size = 2 := by rw [hadded.size_eq, hsize]
  have hzero : (⟨0⟩ : NodeId).toNat < second.automaton.size := by simp [hsize']
  have hone : (⟨first.automaton.size⟩ : NodeId).toNat < second.automaton.size := by
    simp [hsize, hsize']
  have hthird : third.Reachable := hsecond.use (.addTransition ⟨hzero, hone⟩ h2)
  obtain ⟨-, hjoined⟩ := (addTransition_withinLimits hsecond.sound hzero hone _).of_eq_ok h2
  have hsize'' : third.automaton.graph.size = second.automaton.size := hjoined.size_eq
  have hfourth : fourth.Reachable :=
    hthird.use (.addTransition ⟨hsize'' ▸ hone, hsize'' ▸ hzero⟩ h3)
  exact hfourth.use (.addPattern trivial h4)

theorem reduce_preserves_runs_looped : ∃ workspace reports after, looped = .ok workspace ∧
    workspace.Reachable ∧ workspace.config.chosenCompact = true ∧ workspace.CountsFit ∧
    workspace.reduce = .ok (reports, after) ∧
    (∀ word, after.automaton.run word = workspace.automaton.run word) ∧
    (workspace.config.chosenCompact = false → after.automaton.size = workspace.automaton.size ∧
      ∀ start word, after.automaton.runFrom start word = workspace.automaton.runFrom start word) := by
  have hok : (looped.toOption.any fun workspace => workspace.config.chosenCompact &&
      (workspace.keepingDead.reduce.toOption.all fun outcome =>
        decide (outcome.2.automaton.graph.edgeCount + 1 < UInt32.size)) &&
      workspace.reduce.toOption.any fun _ => true) = true := by decide +kernel
  obtain ⟨workspace, hlooped, hok⟩ := exists_of_any hok
  simp only [Bool.and_eq_true] at hok
  obtain ⟨⟨hcompact, hfew⟩, hok⟩ := hok
  obtain ⟨⟨reports, after⟩, hreduce, -⟩ := exists_of_any hok
  have hreachable := reachable_looped hlooped
  have hfit := countsFit_of_all hfew
  obtain ⟨hrun, hkept⟩ := (reduce_preserves_runs hreachable fun _ => hfit).of_eq_ok hreduce
  exact ⟨workspace, reports, after, hlooped, hreachable, hcompact, hfit, hreduce, hrun, hkept⟩

end Workspace

end PatternAutomata
