import PatternAutomata.Builder
import PatternAutomata.Proofs.Grammar
import PatternAutomata.Proofs.Reduced

/-!
# The words of a workspace

A session adds patterns to a workspace and reduces it, in any order. At every moment the automaton
gives a word the least token of the patterns accepted so far of which it is a word. A builder is a
session that adds its patterns one after the other and reduces at the end.
-/

namespace PatternAutomata

/-! ## Sessions -/

/-- What is done with a workspace in a session. -/
inductive Command where
  | addPattern (token : UInt32) (pattern : String)
  | reduce

/-- A workspace and the patterns that it has accepted, in order, each with its token. -/
structure Session where
  workspace : Workspace
  accepted : List (UInt32 × String)

namespace Session

/-- Carries out a command. A pattern is accepted if adding it succeeds. -/
def apply (session : Session) : Command → Except Fault Session
  | .addPattern token pattern => do
    let (compiled, workspace) ← session.workspace.addPattern token pattern
    match compiled.result with
    | .ok _ => return { workspace, accepted := session.accepted ++ [(token, pattern)] }
    | .error _ => return { session with workspace }
  | .reduce => do
    let (_, workspace) ← session.workspace.reduce
    return { session with workspace }

/-- Carries out commands on a new workspace. -/
def play (config : Config) (commands : List Command) : Except Fault Session := do
  let workspace ← Workspace.create config
  commands.foldlM apply { workspace, accepted := [] }

end Session

/-- The least token of the patterns of which a word is a word. -/
noncomputable def leastMatch (patterns : List (UInt32 × String)) (word : List UInt8) :
    Option UInt32 :=
  least {token | ∃ pattern, (token, pattern) ∈ patterns ∧ Matches pattern word}

/-- Whether an expression is that of a pattern's text, and the token the same. -/
def Expresses (nestLimit : UInt32) (pattern : UInt32 × String) (expressed : UInt32 × Regex) : Prop :=
  pattern.1 = expressed.1 ∧
    Regex.Phrase .whole nestLimit.toNat pattern.2.toUTF8.toList expressed.2

namespace Workspace

variable {workspace : Workspace} {accepted : List (UInt32 × String)}
  {patterns : List (UInt32 × Regex)} {arrive : Nat → Edge Transition}

/-- A workspace in a session: its automaton embodies the accepted patterns and speaks their words. -/
structure Compiles (workspace : Workspace) (accepted : List (UInt32 × String))
    (patterns : List (UInt32 × Regex)) (arrive : Nat → Edge Transition) : Prop where
  sound : workspace.Sound
  expresses : List.Forall₂ (Expresses workspace.config.chosenNestLimit) accepted patterns
  embodies : workspace.automaton.Embodies patterns arrive
  speaks : workspace.automaton.Speaks patterns

lemma create_compiles (config : Config) : WithinLimits (create config) fun workspace =>
    workspace.config = config ∧ ∃ arrive, workspace.Compiles [] [] arrive := by
  refine (create_withinLimits config).mono fun workspace ⟨hconfig, hs, hp⟩ => ?_
  exact ⟨hconfig, _, hs, .nil, Automaton.embodies_initial hp, Automaton.speaks_initial hp⟩

/-- A pattern that is read is compiled after the others; one that is not is left out. -/
lemma Compiles.addPattern (h : workspace.Compiles accepted patterns arrive) (token : UInt32)
    (pattern : String) : WithinLimits (workspace.addPattern token pattern) fun (compiled, after) =>
      after.config = workspace.config ∧
      match readPattern workspace.config.chosenNestLimit token pattern with
      | .error rejection => compiled.result = .error rejection.error ∧
          after.Compiles accepted patterns arrive
      | .ok regex => (∃ id, compiled.result = .ok id) ∧
          ∃ arrive, after.Compiles (accepted ++ [(token, pattern)]) (patterns ++ [(token, regex)])
            arrive := by
  apply (addPattern_withinLimits h.sound token pattern).mono
  rintro ⟨compiled, after⟩ ⟨hconfig, hsound, hread⟩
  refine ⟨hconfig, ?_⟩
  have hw := h.sound.wellFormed
  have hno := h.embodies.not_to_entry
  cases hr : readPattern workspace.config.chosenNestLimit token pattern with
  | error rejection =>
    simp only [hr] at hread ⊢
    obtain ⟨hresult, hx⟩ := hread
    have hneat := Automaton.neat_wiringAll workspace.automaton.size rejection.pieces
    exact ⟨hresult, hsound, hconfig ▸ h.expresses, h.embodies.extend hw hx hneat,
      h.speaks.extend hw hno hx hneat⟩
  | ok regex =>
    simp only [hr] at hread ⊢
    obtain ⟨hresult, hshows⟩ := hread
    obtain ⟨htoken, hphrase⟩ := readPattern_eq_ok_iff.mp hr
    have hgains : Automaton.Gains workspace.automaton regex token after.automaton := ⟨hw, hshows⟩
    refine ⟨⟨_, hresult⟩, _, hsound, ?_, h.embodies.gain hgains hphrase.proper,
      h.speaks.gain hno hgains hphrase.proper htoken⟩
    rw [hconfig]
    exact List.rel_append h.expresses (.cons ⟨rfl, hphrase⟩ .nil)

lemma Compiles.reduce (h : workspace.Compiles accepted patterns arrive) :
    WithinLimits workspace.reduce fun (_, after) => after.config = workspace.config ∧
      ∃ arrive, after.Compiles accepted patterns arrive ∧ after.automaton.Distils patterns arrive ∧
        (workspace.config.chosenCompact = true →
          after.automaton.size = (lettersOf patterns).length + 1) := by
  apply (reduce_withinLimits h.sound).mono
  rintro ⟨_, after⟩ ⟨hconfig, flat, hflattened, hflat, -, hkept, hcompacted⟩
  have hembodies := h.embodies.flatten hflattened hflat
  have hfit := hembodies.countsFit hflat hflattened.wellFormed
  refine ⟨hconfig, ?_⟩
  cases hc : workspace.config.chosenCompact with
  | false =>
    have hswept := hkept hc
    have hdistils := hembodies.distils hflat hflattened.wellFormed hswept
    refine ⟨_, ⟨⟨hswept.wellFormed, hswept.quiet⟩, hconfig ▸ h.expresses, hdistils.toEmbodies,
      h.speaks.token_ne, fun word => ?_⟩, hdistils, nofun⟩
    rw [← h.speaks.run_eq, Automaton.run, hswept.entry_eq, hflattened.entry_eq]
    exact hflattened.runFrom_swept hswept _ word
  | true =>
    obtain ⟨swept, hswept, h'⟩ := hcompacted hc hfit
    have hdistils := hembodies.distils hflat hflattened.wellFormed hswept
    refine ⟨_, ⟨⟨h'.wellFormed, h'.quiet⟩, hconfig ▸ h.expresses, (hdistils.compact h').toEmbodies,
      h.speaks.token_ne, fun word => ?_⟩, hdistils.compact h', fun _ => hdistils.size_eq h'⟩
    rw [← h.speaks.run_eq]
    exact hflattened.run_compacted hswept h' hfit word

end Workspace

lemma mem_tokensFor_iff {nestLimit : UInt32} {accepted : List (UInt32 × String)}
    {patterns : List (UInt32 × Regex)} (h : List.Forall₂ (Expresses nestLimit) accepted patterns)
    {word : List UInt8} {token : UInt32} : token ∈ Automaton.tokensFor patterns word ↔
      ∃ pattern, (token, pattern) ∈ accepted ∧ Matches pattern word := by
  simp only [Automaton.tokensFor, Set.mem_ofPred_eq]
  induction h with
  | nil => simp
  | @cons pattern expressed accepted patterns hhead _ ih =>
    obtain ⟨first, text⟩ := pattern
    obtain ⟨_, regex⟩ := expressed
    obtain ⟨rfl, hphrase⟩ := hhead
    simp only [List.mem_cons, Prod.mk.injEq, or_and_right, exists_or, ih, and_assoc,
      exists_and_left, exists_eq_left, matches_iff hphrase]

namespace Workspace

variable {workspace : Workspace} {accepted : List (UInt32 × String)}
  {patterns : List (UInt32 × Regex)} {arrive : Nat → Edge Transition}

lemma Compiles.read (h : workspace.Compiles accepted patterns arrive) :
    ∀ pattern ∈ accepted, ∃ regex,
      readPattern workspace.config.chosenNestLimit pattern.1 pattern.2 = .ok regex := by
  obtain ⟨-, hexpresses, -, hne, -⟩ := h
  induction hexpresses with
  | nil => nofun
  | @cons pattern expressed accepted patterns hhead _ ih =>
    intro other ho
    rcases List.mem_cons.mp ho with rfl | ho
    · refine ⟨expressed.2, readPattern_eq_ok_iff.mpr ⟨?_, hhead.2⟩⟩
      rw [hhead.1]
      exact hne expressed List.mem_cons_self
    · exact ih (fun expressed he => hne expressed (List.mem_cons_of_mem _ he)) other ho

lemma Compiles.run_eq (h : workspace.Compiles accepted patterns arrive) (word : List UInt8) :
    workspace.automaton.run word = leastMatch accepted word := by
  rw [h.speaks.run_eq]
  exact congrArg least (Set.ext fun token => mem_tokensFor_iff h.expresses)

end Workspace

/-! ## Every session -/

namespace Session

variable {session : Session}

/-- What a session is: some expressions are compiled for the patterns that it has accepted. -/
def Lawful (config : Config) (session : Session) : Prop :=
  session.workspace.config = config ∧
    ∃ patterns arrive, session.workspace.Compiles session.accepted patterns arrive

lemma apply_lawful {config : Config} (h : session.Lawful config) (command : Command) :
    WithinLimits (session.apply command) (Lawful config) := by
  obtain ⟨hconfig, patterns, arrive, hc⟩ := h
  cases command with
  | addPattern token pattern =>
    rw [apply, withinLimits_bind]
    apply (hc.addPattern token pattern).mono
    rintro ⟨compiled, after⟩ ⟨hsame, hread⟩
    dsimp only
    cases hr : readPattern session.workspace.config.chosenNestLimit token pattern with
    | error rejection =>
      simp only [hr] at hread
      rw [hread.1, withinLimits_pure]
      exact ⟨hsame.trans hconfig, patterns, arrive, hread.2⟩
    | ok regex =>
      simp only [hr] at hread
      obtain ⟨⟨id, hresult⟩, arrive', hafter⟩ := hread
      rw [hresult, withinLimits_pure]
      exact ⟨hsame.trans hconfig, _, arrive', hafter⟩
  | reduce =>
    rw [apply, withinLimits_bind]
    apply hc.reduce.mono
    rintro ⟨_, after⟩ ⟨hsame, arrive', hafter, -⟩
    exact ⟨hsame.trans hconfig, patterns, arrive', hafter⟩

lemma play_lawful (config : Config) (commands : List Command) :
    WithinLimits (play config commands) (Lawful config) := by
  rw [play, withinLimits_bind]
  refine (Workspace.create_compiles config).mono fun workspace ⟨hconfig, arrive, hc⟩ => ?_
  exact withinLimits_foldlM (fun session command h => apply_lawful h command) commands
    ⟨hconfig, [], arrive, hc⟩

end Session

/-! ## Builders -/

namespace Builder

/-- What a builder returns: an automaton that has accepted all patterns, or why one was rejected. -/
def Returns (builder : Builder) (patterns : List (UInt32 × String)) (built : Built) : Prop :=
  match built.result with
  | .ok workspace =>
    (∀ pattern ∈ patterns, ∃ regex,
      readPattern builder.config.chosenNestLimit pattern.1 pattern.2 = .ok regex) ∧
    ∀ word, workspace.automaton.run word = leastMatch patterns word
  | .error error => ∃ pattern ∈ patterns, ∃ rejection : Rejection, rejection.error = error ∧
      readPattern builder.config.chosenNestLimit pattern.1 pattern.2 = .error rejection

/-- A builder that has added some patterns adds the rest. -/
lemma finish_returns (builder : Builder) {workspace : Workspace}
    {accepted : List (UInt32 × String)} (hconfig : workspace.config = builder.config)
    {patterns : List (UInt32 × Regex)} {arrive : Nat → Edge Transition}
    (h : workspace.Compiles accepted patterns arrive) (rest : List (UInt32 × String))
    (messages : List Message) :
    WithinLimits (finish workspace messages rest) (builder.Returns (accepted ++ rest)) := by
  induction rest generalizing workspace accepted patterns arrive messages with
  | nil =>
    rw [finish, withinLimits_bind]
    apply h.reduce.mono
    rintro ⟨_, after⟩ ⟨hsame, arrive', hafter, -⟩
    rw [withinLimits_pure, List.append_nil]
    refine ⟨?_, hafter.run_eq⟩
    rw [← hconfig, ← hsame]
    exact hafter.read
  | cons pattern rest ih =>
    obtain ⟨token, text⟩ := pattern
    rw [finish, withinLimits_bind]
    apply (h.addPattern token text).mono
    rintro ⟨compiled, after⟩ ⟨hsame, hread⟩
    dsimp only
    cases hr : readPattern workspace.config.chosenNestLimit token text with
    | error rejection =>
      simp only [hr] at hread
      rw [hread.1, withinLimits_pure]
      exact ⟨(token, text), by simp, rejection, rfl, hconfig ▸ hr⟩
    | ok regex =>
      simp only [hr] at hread
      obtain ⟨⟨id, hresult⟩, arrive', hafter⟩ := hread
      rw [hresult]
      have hrest := ih (hsame.trans hconfig) hafter (messages ++ [compiled.message])
      rwa [List.append_assoc, List.singleton_append] at hrest

lemma buildTokens_returns (builder : Builder) (patterns : List (UInt32 × String)) :
    WithinLimits (builder.buildTokens patterns) (builder.Returns patterns) := by
  rw [buildTokens, withinLimits_bind]
  refine (Workspace.create_compiles builder.config).mono fun workspace ⟨hconfig, arrive, hc⟩ => ?_
  exact builder.finish_returns hconfig hc patterns []

lemma tokenAt_eq_iff {position : Nat} {token : UInt32} (h : tokenAt position ≠ State.noToken) :
    tokenAt position = token ↔ position = token.toNat := by
  unfold tokenAt at h ⊢
  by_cases hlt : position < UInt32.size
  · rw [if_pos hlt, ← UInt32.toNat_inj]
    have : position.toUInt32.toNat = position := Nat.mod_eq_of_lt hlt
    rw [this]
  · rw [if_neg hlt] at h
    exact absurd rfl h

/-- Of many texts, a word gets the position of the first that it matches. -/
lemma Returns.run_eq_position {builder : Builder} {texts : List String} {built : Built}
    (h : builder.Returns (texts.mapIdx fun position text => (tokenAt position, text)) built)
    {workspace : Workspace} (hok : built.result = .ok workspace) (word : List UInt8) :
    workspace.automaton.run word =
      least {token | ∃ text, texts[token.toNat]? = some text ∧ Matches text word} := by
  unfold Returns at h
  rw [hok] at h
  obtain ⟨hread, hrun⟩ := h
  rw [hrun]
  refine congrArg least (Set.ext fun token => exists_congr fun text => and_congr_left fun _ => ?_)
  rw [List.mem_mapIdx]
  constructor
  · rintro ⟨position, hlt, heq⟩
    obtain ⟨htoken, rfl⟩ := Prod.mk.inj heq
    obtain ⟨_, hr⟩ := hread _ (List.mem_mapIdx.mpr ⟨position, hlt, rfl⟩)
    rw [← (tokenAt_eq_iff (readPattern_eq_ok_iff.mp hr).1).mp htoken]
    exact List.getElem?_eq_getElem hlt
  · intro hget
    obtain ⟨hlt, rfl⟩ := List.getElem?_eq_some_iff.mp hget
    obtain ⟨_, hr⟩ := hread _ (List.mem_mapIdx.mpr ⟨token.toNat, hlt, rfl⟩)
    exact ⟨token.toNat, hlt, by
      rw [(tokenAt_eq_iff (readPattern_eq_ok_iff.mp hr).1).mpr rfl]⟩

end Builder

/-- At every moment of every session the automaton gives a word the least token of the patterns
accepted so far of which it is a word. What a builder returns gives it the least token of all its
patterns, and of many patterns without tokens the position of the first that it matches. -/
theorem run_eq_leastMatch :
    (∀ config commands, WithinLimits (Session.play config commands) fun session =>
      ∀ word, session.workspace.automaton.run word = leastMatch session.accepted word) ∧
    ∀ builder : Builder,
      (∀ patterns, WithinLimits (builder.buildTokens patterns) (builder.Returns patterns)) ∧
      (∀ texts, WithinLimits (builder.buildMany texts) fun built =>
        builder.Returns (texts.mapIdx fun position text => (Builder.tokenAt position, text)) built ∧
        ∀ workspace, built.result = .ok workspace → ∀ word, workspace.automaton.run word =
          least {token | ∃ text, texts[token.toNat]? = some text ∧ Matches text word}) ∧
      ∀ token text, WithinLimits (builder.build token text) (builder.Returns [(token, text)]) := by
  refine ⟨fun config commands => ?_, fun builder => ⟨builder.buildTokens_returns, fun texts => ?_,
    fun token text => builder.buildTokens_returns [(token, text)]⟩⟩
  · apply (Session.play_lawful config commands).mono
    intro session h
    obtain ⟨-, patterns, arrive, hc⟩ := h
    exact hc.run_eq
  · refine (builder.buildTokens_returns _).mono fun built h => ⟨h, fun workspace hok => ?_⟩
    exact h.run_eq_position hok

/-- A session that stays within its limits rejects a pattern, and adds one to a reduced automaton. -/
example : (Session.play { compact := some true } [.addPattern 3 "a*|b", .addPattern 1 "(", .reduce,
      .addPattern 0 "c"]).toOption.map (fun session => session.accepted) =
    some [(3, "a*|b"), (0, "c")] := by
  decide +kernel

end PatternAutomata
