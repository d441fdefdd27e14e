import PatternAutomata.Builder
import PatternAutomata.Proofs.Ceiling
import PatternAutomata.Proofs.Reachable

/-!
# The budget of a run

Requests to a new workspace are served one after the other, and a builder adds its patterns and
reduces. If such a run succeeds, then the bytes that it has used in the end are the least capacity of
the arena under which it succeeds. Any larger capacity changes nothing but itself.
-/

namespace PatternAutomata

variable {α : Type}

namespace Config

def withCapacity (config : Config) (capacity : UInt64) : Config :=
  { config with arenaCapacity := some capacity }

end Config

namespace Workspace

def withCapacity (workspace : Workspace) (capacity : UInt64) : Workspace where
  arena := { workspace.arena with capacity }
  automaton := workspace.automaton
  config := workspace.config.withCapacity capacity

instance : Budgeted Workspace := ⟨Workspace.arena, withCapacity⟩

end Workspace

/-- The bytes used at the end of a run are the least capacity under which it succeeds. Under any such
capacity its value is related to what it was, and the workspace is the same but for the capacity. -/
def LeastCapacity (R : UInt64 → α → α → Prop) (run : Config → Except Fault (α × Workspace)) : Prop :=
  ∀ config value after, run config = .ok (value, after) → ∀ capacity,
    (after.arena.used ≤ capacity → ∃ value', R capacity value value' ∧
      run (config.withCapacity capacity) = .ok (value', after.withCapacity capacity)) ∧
    (capacity < after.arena.used →
      run (config.withCapacity capacity) = .error (.arenaExhausted capacity))

/-! ## Computations on a workspace -/

namespace Workspace

/-- Runs a computation that may depend on the options on the automaton of a workspace. -/
def perform (editing : Config → Editing α) : StateT Workspace (Except Fault) α :=
  fun workspace => workspace.edit (editing workspace.config)

/-- What a run makes of a workspace that has nothing yet. -/
def launch (computation : StateT Workspace (Except Fault) α) (config : Config) :
    Except Fault (α × Workspace) :=
  computation.run ⟨{ capacity := config.chosenArenaCapacity }, {}, config⟩

variable {R : UInt64 → α → α → Prop} {editing : Config → Editing α}

lemma paced_perform (h : ∀ config, Editing.Nearly R (editing config))
    (heq : ∀ (config : Config) (capacity : UInt64),
      editing (config.withCapacity capacity) = editing config) : Paced R (perform editing) where
  thrifty := by
    intro workspace value after hs hedit
    obtain ⟨-, hrun⟩ := edit_eq_ok_iff.mp hedit
    exact (h _ workspace.automaton).thrifty workspace.arena _ _ hs hrun
  lockstep := by
    intro capacity workspace value after hs hedit hle
    obtain ⟨hconfig, hrun⟩ := edit_eq_ok_iff.mp hedit
    obtain ⟨hfits, hover⟩ :=
      (h _ workspace.automaton).lockstep capacity workspace.arena _ _ hs hrun hle
    have hother : (perform editing).run (workspace.withCapacity capacity) =
        (workspace.withCapacity capacity).edit (editing workspace.config) :=
      congrArg _ (heq workspace.config capacity)
    refine ⟨fun hfit => ?_, fun hlt => ?_⟩
    · obtain ⟨⟨value', _⟩, ⟨hR, rfl⟩, hsecond⟩ := hfits hfit
      refine ⟨value', hR, hother.trans (edit_eq_ok_iff.mpr ⟨?_, hsecond⟩)⟩
      exact congrArg (Config.withCapacity · capacity) hconfig
    · exact hother.trans (edit_eq_error_iff.mpr (hover hlt))

/-- A computation that keeps in step with itself needs what it uses, and no more. -/
lemma leastCapacity_launch {computation : StateT Workspace (Except Fault) α}
    (h : Paced R computation) : LeastCapacity R (launch computation) :=
  fun _ value after hrun capacity =>
    h.lockstep capacity _ value after UInt64.zero_le hrun UInt64.zero_le

lemma paced_start : Paced (fun _ => Eq) (perform fun _ => Automaton.start) :=
  paced_perform (fun _ => Automaton.start_steady.same) fun _ _ => rfl

lemma paced_addNode : Paced (fun _ => Eq) (perform fun _ => Automaton.addNode) :=
  paced_perform (fun _ => Automaton.addNode_steady.same) fun _ _ => rfl

lemma paced_addTransition (source : NodeId) (symbol : UInt8) (dest : NodeId) :
    Paced (fun _ => Eq) (perform fun _ => Automaton.addTransition source symbol dest) :=
  paced_perform (fun _ => (Automaton.addTransition_steady _ _ _).same) fun _ _ => rfl

lemma paced_addFragmentOf (token : UInt32) (pattern : String) : Paced Compiled.Alike
    (perform fun config => Automaton.addFragmentOf config.chosenNestLimit token pattern) :=
  paced_perform (fun _ => Automaton.addFragmentOf_nearly _ token pattern) fun _ _ => rfl

lemma paced_addPattern (token : UInt32) (pattern : String) : Paced Compiled.Alike
    (perform fun config => Automaton.addPattern config.chosenNestLimit token pattern) :=
  paced_perform (fun _ => Automaton.addPattern_nearly _ token pattern) fun _ _ => rfl

lemma paced_reduce :
    Paced (fun _ => Eq) (perform fun config => Automaton.reduce config.chosenCompact) :=
  paced_perform (fun _ => (Automaton.reduce_steady _).same) fun _ _ => rfl

/-! ## Requests -/

/-- What a workspace replies. -/
inductive Reply where
  | node (id : NodeId)
  | linked
  | compiled (compiled : Compiled)
  | reduced (reports : List Message)

/-- The same reply, but that messages may tell the ceiling of the arena. -/
inductive Reply.Alike (capacity : UInt64) : Reply → Reply → Prop
  | node (id : NodeId) : Alike capacity (.node id) (.node id)
  | linked : Alike capacity .linked .linked
  | compiled {compiled other : Compiled} :
      compiled.Alike capacity other → Alike capacity (.compiled compiled) (.compiled other)
  | reduced (reports : List Message) : Alike capacity (.reduced reports) (.reduced reports)

def serve (workspace : Workspace) : Request → Except Fault (Reply × Workspace)
  | .addNode => do
    let (id, workspace) ← workspace.addNode
    return (.node id, workspace)
  | .addTransition source symbol dest => do
    let workspace ← workspace.addTransition source symbol dest
    return (.linked, workspace)
  | .addFragmentOf token pattern => do
    let (compiled, workspace) ← workspace.addFragmentOf token pattern
    return (.compiled compiled, workspace)
  | .addPattern token pattern => do
    let (compiled, workspace) ← workspace.addPattern token pattern
    return (.compiled compiled, workspace)
  | .reduce => do
    let (reports, workspace) ← workspace.reduce
    return (.reduced reports, workspace)

/-- To use a workspace is to have a request served that is allowed. -/
lemma use_iff_serve {allowed : Workspace → Request → Prop} {workspace after : Workspace} :
    Use allowed workspace after ↔ ∃ request reply, allowed workspace request ∧
      workspace.serve request = .ok (reply, after) := by
  constructor
  · rintro (⟨ha, heq⟩ | ⟨ha, heq⟩ | ⟨ha, heq⟩ | ⟨ha, heq⟩ | ⟨ha, heq⟩)
    all_goals exact ⟨_, _, ha, by rw [serve, heq]; rfl⟩
  · rintro ⟨request, reply, ha, hserve⟩
    cases request with
    | addTransition source symbol dest =>
      obtain ⟨_, heq, h⟩ := exists_of_bind_eq_ok hserve
      cases h
      exact .addTransition ha heq
    | addNode =>
      obtain ⟨⟨_, _⟩, heq, h⟩ := exists_of_bind_eq_ok hserve
      cases h
      exact .addNode ha heq
    | addFragmentOf token pattern =>
      obtain ⟨⟨_, _⟩, heq, h⟩ := exists_of_bind_eq_ok hserve
      cases h
      exact .addFragmentOf ha heq
    | addPattern token pattern =>
      obtain ⟨⟨_, _⟩, heq, h⟩ := exists_of_bind_eq_ok hserve
      cases h
      exact .addPattern ha heq
    | reduce =>
      obtain ⟨⟨_, _⟩, heq, h⟩ := exists_of_bind_eq_ok hserve
      cases h
      exact .reduce ha heq

/-- Serves requests one after the other. -/
def serveAll (workspace : Workspace) : List Request → Except Fault (List Reply × Workspace)
  | [] => return ([], workspace)
  | request :: rest => do
    let (reply, workspace) ← workspace.serve request
    let (replies, workspace) ← workspace.serveAll rest
    return (reply :: replies, workspace)

/-- Serves requests to a new workspace. -/
def trial (requests : List Request) (config : Config) : Except Fault (List Reply × Workspace) := do
  let workspace ← create config
  workspace.serveAll requests

/-- Serving as a computation on a workspace. -/
def serving (request : Request) : StateT Workspace (Except Fault) Reply :=
  fun workspace => workspace.serve request

def servingAll (requests : List Request) : StateT Workspace (Except Fault) (List Reply) :=
  fun workspace => workspace.serveAll requests

lemma paced_serving (request : Request) : Paced Reply.Alike (serving request) := by
  cases request with
  | addNode =>
    change Paced _ (Reply.node <$> perform fun _ => Automaton.addNode)
    apply paced_addNode.map
    rintro capacity id _ rfl
    exact .node id
  | addTransition source symbol dest =>
    have heq : serving (.addTransition source symbol dest) = (fun _ => Reply.linked) <$>
        perform fun _ => Automaton.addTransition source symbol dest := by
      funext workspace
      change workspace.serve (.addTransition source symbol dest) =
        workspace.edit (Automaton.addTransition source symbol dest) >>= fun outcome =>
          pure (Reply.linked, outcome.2)
      rw [serve, addTransition, bind_assoc]
      rfl
    rw [heq]
    apply (paced_addTransition source symbol dest).map
    exact fun _ _ _ _ => .linked
  | addFragmentOf token pattern =>
    change Paced _ (Reply.compiled <$> perform fun config =>
      Automaton.addFragmentOf config.chosenNestLimit token pattern)
    apply (paced_addFragmentOf token pattern).map
    exact fun _ _ _ => .compiled
  | addPattern token pattern =>
    change Paced _ (Reply.compiled <$> perform fun config =>
      Automaton.addPattern config.chosenNestLimit token pattern)
    apply (paced_addPattern token pattern).map
    exact fun _ _ _ => .compiled
  | reduce =>
    change Paced _ (Reply.reduced <$> perform fun config => Automaton.reduce config.chosenCompact)
    apply paced_reduce.map
    rintro capacity reports _ rfl
    exact .reduced reports

lemma paced_servingAll (requests : List Request) :
    Paced (fun capacity => List.Forall₂ (Reply.Alike capacity)) (servingAll requests) := by
  induction requests with
  | nil => exact Paced.pure fun _ => .nil
  | cons request rest ih =>
    change Paced _ (serving request >>= fun reply =>
      servingAll rest >>= fun replies => pure (reply :: replies))
    apply (paced_serving request).bind
    · exact fun reply => ih.thrifty.bind fun _ => Thrifty.lift (.ok _)
    · intro capacity reply reply' hreply
      apply Lockstep.bind ih.thrifty (fun _ => Thrifty.lift (.ok _)) (ih.lockstep capacity)
      exact fun replies replies' hreplies => Lockstep.pure (.cons hreply hreplies)

/-- Serving a new workspace as a computation on one that has nothing yet. -/
lemma trial_eq (requests : List Request) : trial requests =
    launch (perform (fun _ => Automaton.start) >>= fun _ => servingAll requests) := by
  funext config
  change create config >>= _ = Workspace.edit _ Automaton.start >>= _
  rw [create, bind_assoc]
  rfl

lemma leastCapacity_trial (requests : List Request) :
    LeastCapacity (fun capacity => List.Forall₂ (Reply.Alike capacity)) (trial requests) := by
  rw [trial_eq]
  apply leastCapacity_launch
  have hrest := paced_servingAll requests
  exact paced_start.bind (fun _ => hrest.thrifty) fun capacity _ _ _ => hrest.lockstep capacity

end Workspace

/-! ## Builders -/

/-- The same outcome but for the capacity of the arena, which messages may tell. -/
structure Built.Alike (capacity : UInt64) (built other : Built) : Prop where
  result_eq : other.result = built.result.map fun workspace => workspace.withCapacity capacity
  messages : List.Forall₂ (Message.Alike capacity) built.messages other.messages

namespace Builder

/-- As `finish`, but the workspace is kept even if a pattern is rejected. -/
def settle (workspace : Workspace) (messages : List Message) :
    List (UInt32 × String) → Except Fault (Built × Workspace)
  | [] => do
    let (reports, workspace) ← workspace.reduce
    return (⟨.ok workspace, messages ++ reports⟩, workspace)
  | (token, pattern) :: rest => do
    let (compiled, workspace) ← workspace.addPattern token pattern
    let messages := messages ++ [compiled.message]
    match compiled.result with
    | .ok _ => settle workspace messages rest
    | .error error => return (⟨.error error, messages⟩, workspace)

lemma finish_eq (workspace : Workspace) (messages : List Message)
    (patterns : List (UInt32 × String)) :
    finish workspace messages patterns = (settle workspace messages patterns).map Prod.fst := by
  induction patterns generalizing workspace messages with
  | nil =>
    unfold finish settle
    cases workspace.reduce <;> rfl
  | cons pattern rest ih =>
    unfold finish settle
    cases workspace.addPattern pattern.1 pattern.2 with
    | error fault => rfl
    | ok outcome =>
      obtain ⟨⟨result, message⟩, after⟩ := outcome
      cases result with
      | error error => rfl
      | ok fragment => exact ih after (messages ++ [message])

lemma settle_ok {workspace after : Workspace} {messages : List Message}
    {patterns : List (UInt32 × String)} {built : Built}
    (h : settle workspace messages patterns = .ok (built, after)) {final : Workspace}
    (hf : built.result = .ok final) : final = after := by
  induction patterns generalizing workspace messages with
  | nil =>
    obtain ⟨⟨reports, reduced⟩, -, h⟩ := exists_of_bind_eq_ok h
    cases h
    cases hf
    rfl
  | cons pattern rest ih =>
    obtain ⟨⟨⟨result, message⟩, added⟩, -, h⟩ := exists_of_bind_eq_ok h
    cases result with
    | error error =>
      cases h
      cases hf
    | ok fragment => exact ih h

/-- Settling as a computation on a workspace. -/
def settling (messages : List Message) (patterns : List (UInt32 × String)) :
    StateT Workspace (Except Fault) Built :=
  fun workspace => settle workspace messages patterns

lemma settling_nil (messages : List Message) : settling messages [] =
    (Workspace.perform fun config => Automaton.reduce config.chosenCompact) >>= fun reports =>
      (fun workspace => ⟨.ok workspace, messages ++ reports⟩) <$> get := rfl

lemma settling_cons (messages : List Message) (token : UInt32) (pattern : String)
    (rest : List (UInt32 × String)) : settling messages ((token, pattern) :: rest) =
      (Workspace.perform fun config => Automaton.addPattern config.chosenNestLimit token pattern) >>=
        fun compiled => match compiled.result with
          | .ok _ => settling (messages ++ [compiled.message]) rest
          | .error error => pure ⟨.error error, messages ++ [compiled.message]⟩ := by
  funext workspace
  change settle workspace messages ((token, pattern) :: rest) = workspace.addPattern token pattern >>= _
  unfold settle
  refine congrArg _ (funext fun outcome => ?_)
  obtain ⟨⟨result, message⟩, after⟩ := outcome
  cases result <;> rfl

lemma thrifty_settling (messages : List Message) (patterns : List (UInt32 × String)) :
    Thrifty (settling messages patterns) := by
  induction patterns generalizing messages with
  | nil =>
    rw [settling_nil]
    exact Workspace.paced_reduce.thrifty.bind fun _ => Paced.get.thrifty.map _
  | cons pattern rest ih =>
    rw [settling_cons]
    apply (Workspace.paced_addPattern pattern.1 pattern.2).thrifty.bind
    rintro ⟨result, message⟩
    cases result with
    | error error => exact Thrifty.lift (.ok _)
    | ok fragment => exact ih (messages ++ [message])

/-- The messages so far are only handed on. -/
lemma lockstep_settling {capacity : UInt64} (patterns : List (UInt32 × String))
    {messages messages' : List Message}
    (h : List.Forall₂ (Message.Alike capacity) messages messages') :
    Lockstep capacity (Built.Alike capacity) (settling messages patterns)
      (settling messages' patterns) := by
  induction patterns generalizing messages messages' with
  | nil =>
    rw [settling_nil, settling_nil]
    apply Lockstep.bind Workspace.paced_reduce.thrifty (fun _ => Paced.get.thrifty.map _)
      (Workspace.paced_reduce.lockstep capacity)
    rintro reports _ rfl
    apply (Paced.get.lockstep capacity).map Paced.get.thrifty
    rintro workspace _ rfl
    exact ⟨rfl, List.rel_append h (List.forall₂_same.mpr fun _ _ => .inl rfl)⟩
  | cons pattern rest ih =>
    have hadd := Workspace.paced_addPattern pattern.1 pattern.2
    have hrest : ∀ compiled : Compiled, Thrifty (match compiled.result with
        | .ok _ => settling (messages ++ [compiled.message]) rest
        | .error error => pure ⟨.error error, messages ++ [compiled.message]⟩) := by
      rintro ⟨error | fragment, message⟩
      · exact Thrifty.lift (.ok _)
      · exact thrifty_settling _ rest
    rw [settling_cons, settling_cons]
    apply Lockstep.bind hadd.thrifty hrest (hadd.lockstep capacity)
    rintro ⟨result, message⟩ ⟨_, message'⟩ ⟨rfl, hmessage⟩
    have hmessages := List.rel_append h (.cons hmessage .nil)
    cases result with
    | error error => exact Lockstep.pure ⟨rfl, hmessages⟩
    | ok fragment => exact ih hmessages

/-- Adds patterns to a new workspace and reduces it, and keeps it in any case. -/
def trial (patterns : List (UInt32 × String)) (config : Config) :
    Except Fault (Built × Workspace) := do
  settle (← Workspace.create config) [] patterns

lemma leastCapacity_trial (patterns : List (UInt32 × String)) :
    LeastCapacity Built.Alike (trial patterns) := by
  have heq : trial patterns = Workspace.launch
      (Workspace.perform (fun _ => Automaton.start) >>= fun _ => settling [] patterns) := by
    funext config
    change Workspace.create config >>= _ = Workspace.edit _ Automaton.start >>= _
    rw [Workspace.create, bind_assoc]
    rfl
  rw [heq]
  apply Workspace.leastCapacity_launch
  apply Workspace.paced_start.bind
  · exact fun _ => thrifty_settling [] patterns
  · exact fun capacity _ _ _ => lockstep_settling patterns .nil

lemma buildTokens_eq (builder : Builder) (patterns : List (UInt32 × String)) :
    builder.buildTokens patterns = (trial patterns builder.config).map Prod.fst := by
  unfold buildTokens trial
  cases Workspace.create builder.config with
  | error fault => rfl
  | ok workspace => exact finish_eq workspace [] patterns

/-- A call with some patterns needs what its workspace has used in the end, and no more. Under any
such capacity its outcome is the same but for the capacity. -/
def Sparing (patterns : List (UInt32 × String)) (call : Builder → Except Fault Built) : Prop :=
  ∀ (builder : Builder) (built : Built), call builder = .ok built → ∃ last : Workspace,
    trial patterns builder.config = .ok (built, last) ∧
    (∀ workspace, built.result = .ok workspace → workspace = last) ∧
    ∀ capacity,
      (last.arena.used ≤ capacity → ∃ built', built.Alike capacity built' ∧
        call ⟨builder.config.withCapacity capacity⟩ = .ok built') ∧
      (capacity < last.arena.used →
        call ⟨builder.config.withCapacity capacity⟩ = .error (.arenaExhausted capacity))

lemma sparing_buildTokens (patterns : List (UInt32 × String)) :
    Sparing patterns fun builder => builder.buildTokens patterns := by
  intro builder built hcall
  dsimp only at hcall ⊢
  rw [buildTokens_eq] at hcall
  cases hr : trial patterns builder.config with
  | error fault => simp [hr, Except.map] at hcall
  | ok outcome =>
    rw [hr] at hcall
    cases hcall
    refine ⟨outcome.2, rfl, fun workspace hw => ?_, fun capacity => ?_⟩
    · obtain ⟨start, -, hsettle⟩ := exists_of_bind_eq_ok hr
      exact settle_ok hsettle hw
    · obtain ⟨hfits, hover⟩ := leastCapacity_trial patterns _ _ _ hr capacity
      rw [buildTokens_eq]
      refine ⟨fun hle => ?_, fun hlt => ?_⟩
      · obtain ⟨built', halike, hother⟩ := hfits hle
        exact ⟨built', halike, congrArg _ hother⟩
      · exact congrArg _ (hover hlt)

end Builder

/-- The bytes that a run has used in the end are the least capacity under which it succeeds, and any
larger capacity changes nothing but itself: whatever is asked of a new workspace, and whatever a
builder is called with. -/
theorem used_is_least_capacity :
    (∀ requests, LeastCapacity (fun capacity => List.Forall₂ (Workspace.Reply.Alike capacity))
      (Workspace.trial requests)) ∧
    (∀ token pattern,
      Builder.Sparing [(token, pattern)] fun builder => builder.build token pattern) ∧
    (∀ texts : List String,
      Builder.Sparing (texts.mapIdx fun position text => (Builder.tokenAt position, text))
        fun builder => builder.buildMany texts) ∧
    ∀ patterns, Builder.Sparing patterns fun builder => builder.buildTokens patterns :=
  ⟨Workspace.leastCapacity_trial, fun token pattern => Builder.sparing_buildTokens [(token, pattern)],
    fun _ => Builder.sparing_buildTokens _, Builder.sparing_buildTokens⟩

/-- Requests one of which adds a pattern that is rejected. -/
def Workspace.script : List Workspace.Request :=
  [.addPattern 3 "a*|b", .addPattern 4 "(", .reduce]

theorem used_is_least_capacity_script : ∃ replies after,
    Workspace.trial Workspace.script {} = .ok (replies, after) ∧ after.arena.used = 2896 ∧
    (∃ replies', List.Forall₂ (Workspace.Reply.Alike 2896) replies replies' ∧
      Workspace.trial Workspace.script (Config.withCapacity {} 2896) =
        .ok (replies', after.withCapacity 2896)) ∧
    Workspace.trial Workspace.script (Config.withCapacity {} 2895) =
      .error (.arenaExhausted 2895) := by
  have hused : ((Workspace.trial Workspace.script {}).toOption.map fun (_, after) =>
      after.arena.used) = some 2896 := by decide +kernel
  cases hr : Workspace.trial Workspace.script {} with
  | error fault => simp [hr, Except.toOption] at hused
  | ok outcome =>
    obtain ⟨replies, after⟩ := outcome
    simp only [hr, Except.toOption, Option.map_some, Option.some.injEq] at hused
    have hleast := used_is_least_capacity.1 Workspace.script {} replies after hr
    exact ⟨replies, after, rfl, hused, (hleast 2896).1 (hused ▸ UInt64.le_refl _),
      (hleast 2895).2 (hused ▸ by decide)⟩

end PatternAutomata
