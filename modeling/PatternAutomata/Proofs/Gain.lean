import PatternAutomata.Automaton.Pattern
import PatternAutomata.Proofs.Thompson

/-!
# What an automaton gains by a pattern

A pattern that is read adds the fragment of its expression, whose exit accepts with the pattern's
token, and perhaps an edge to it from the entry. A pattern that is rejected adds the fragments of the
subexpressions that were complete, and no token. Nothing that was there before changes.
-/

namespace PatternAutomata

namespace Regex

def nodeCountAll : List Regex → Nat
  | [] => 0
  | regex :: rest => regex.nodeCount + nodeCountAll rest

/-- The edges of the fragments of several expressions, one fragment after the other. -/
def wiringAll (base : Nat) : List Regex → List Wire
  | [] => []
  | regex :: rest => regex.wiring base ++ wiringAll (base + regex.nodeCount) rest

end Regex

/-- The picture once an expression has been added whose words have a token, and more edges. -/
def Picture.gain (picture : Picture) (regex : Regex) (token : UInt32) (more : List Wire) : Picture :=
  { picture.extend regex.nodeCount (regex.wiring picture.size ++ more) with
    token := Function.update picture.token (regex.exitAt picture.size) token }

lemma Picture.gain_extend (picture : Picture) (regex : Regex) (token : UInt32)
    (more more' : List Wire) : (picture.gain regex token more).extend 0 more' =
      picture.gain regex token (more ++ more') := by
  have h := picture.extend_extend regex.nodeCount 0 (regex.wiring picture.size ++ more) more'
  rw [Nat.add_zero, List.append_assoc] at h
  unfold gain
  rw [← h]
  rfl

lemma Picture.Quiet.extend {picture : Picture} (h : picture.Quiet) (count : Nat)
    (wires : List Wire) : (picture.extend count wires).Quiet := ⟨h.agenda_eq, h.marked_eq⟩

lemma Picture.Quiet.gain {picture : Picture} (h : picture.Quiet) (regex : Regex) (token : UInt32)
    (more : List Wire) : (picture.gain regex token more).Quiet := ⟨h.agenda_eq, h.marked_eq⟩

namespace Automaton

variable {automaton : Automaton}

lemma assembleAll_extends (ha : automaton.WellFormed) (regexes : List Regex) :
    Editing.Ensures (assembleAll regexes) automaton fun _ =>
      automaton.Extends (Regex.nodeCountAll regexes) (Regex.wiringAll automaton.size regexes) := by
  induction regexes generalizing automaton with
  | nil =>
    unfold assembleAll
    rw [Editing.ensures_pure]
    exact Extends.refl ha
  | cons regex rest ih =>
    unfold assembleAll
    refine (assemble_extends regex ha.settled).bind fun _ first ⟨_, hf⟩ => ?_
    apply (ih hf.wellFormed).mono
    intro _ after hr
    rw [hf.size_eq] at hr
    exact hf.trans hr

lemma ensures_getArena_bind {α : Type} {next : Arena → Editing α} {p : α → Automaton → Prop}
    (h : ∀ arena, Editing.Ensures (next arena) automaton p) :
    Editing.Ensures (getThe Arena >>= next) automaton p :=
  fun arena => h arena arena

/-- Without an entry in the table, the picture grows alike. -/
lemma assembleAll_settled (ha : automaton.Settled) (regexes : List Regex) :
    Editing.Ensures (assembleAll regexes) automaton fun _ after => after.Settled ∧
      after.picture = automaton.picture.extend (Regex.nodeCountAll regexes)
        (Regex.wiringAll automaton.size regexes) := by
  cases regexes with
  | nil =>
    unfold assembleAll
    rw [Editing.ensures_pure]
    exact ⟨ha, automaton.picture.extend_nil.symm⟩
  | cons regex rest =>
    unfold assembleAll
    refine (assemble_extends regex ha).bind fun _ first ⟨_, hf⟩ => ?_
    apply (assembleAll_extends hf.wellFormed rest).mono
    intro _ after hr
    rw [hf.size_eq] at hr
    exact ⟨hr.wellFormed.settled, (hf.trans hr).picture_eq⟩

section Patterns

variable {nestLimit token : UInt32} {pattern : String} {regex : Regex} {rejection : Rejection}

lemma addFragmentOf_ensures_of_error (hr : readPattern nestLimit token pattern = .error rejection)
    {p : Automaton → Prop}
    (h : Editing.Ensures (assembleAll rejection.pieces) automaton fun _ => p) :
    Editing.Ensures (addFragmentOf nestLimit token pattern) automaton fun compiled after =>
      compiled.result = .error rejection.error ∧ p after := by
  unfold addFragmentOf
  rw [hr]
  apply h.bind
  intro _ after ha
  rw [Editing.ensures_pure]
  exact ⟨rfl, ha⟩

lemma addPattern_ensures_of_error (hr : readPattern nestLimit token pattern = .error rejection)
    {p : Automaton → Prop}
    (h : Editing.Ensures (assembleAll rejection.pieces) automaton fun _ => p) :
    Editing.Ensures (addPattern nestLimit token pattern) automaton fun compiled after =>
      compiled.result = .error rejection.error ∧ p after := by
  unfold addPattern
  apply (addFragmentOf_ensures_of_error hr h).bind
  rintro compiled built ⟨hresult, hb⟩
  rw [hresult]
  dsimp only
  rw [Editing.ensures_pure]
  exact ⟨hresult, hb⟩

lemma addFragmentOf_ensures_of_ok (ha : automaton.Settled)
    (hr : readPattern nestLimit token pattern = .ok regex) :
    Editing.Ensures (addFragmentOf nestLimit token pattern) automaton fun compiled after =>
      compiled.result = .ok (regex.entryAt automaton.size) ∧
        Shows automaton (automaton.picture.gain regex token []) after := by
  unfold addFragmentOf
  rw [hr]
  apply (assemble_extends regex ha).bind
  rintro _ built ⟨rfl, hb⟩
  have hexit := (regex.covers_exitAt automaton.size).2
  rw [← hb.size_eq] at hexit
  apply (setToken_ensures hb.wellFormed hexit token).bind
  intro _ after hs
  rw [Editing.ensures_get_bind]
  apply ensures_getArena_bind
  intro arena
  rw [Editing.ensures_pure]
  refine ⟨rfl, hs.wellFormed, hs.picture_eq.trans ?_, hs.seen_eq.trans hb.seen_eq⟩
  have htokens : built.tokenOf = automaton.tokenOf := congrArg Picture.token hb.picture_eq
  rw [hb.picture_eq, htokens]
  simp only [Picture.gain, List.append_nil]
  rfl

lemma addPattern_ensures_of_ok (ha : automaton.Settled)
    (hr : readPattern nestLimit token pattern = .ok regex) :
    Editing.Ensures (addPattern nestLimit token pattern) automaton fun compiled after =>
      compiled.result = .ok (regex.entryAt automaton.size) ∧
        Shows automaton (automaton.picture.gain regex token
          [.silent automaton.entry (regex.entryAt automaton.size)]) after := by
  unfold addPattern
  apply (addFragmentOf_ensures_of_ok ha hr).bind
  rintro compiled built ⟨hresult, hb⟩
  rw [hresult]
  dsimp only
  have hsize : built.size = automaton.size + regex.nodeCount := congrArg Picture.size hb.picture_eq
  have hentry : built.entry = automaton.entry := congrArg Picture.entry hb.picture_eq
  obtain ⟨hin, hlt⟩ := regex.covers_entryAt automaton.size
  have hle := ha.entry_le
  rw [Editing.ensures_get_bind, hentry]
  refine (addEpsilon_extends hb.wellFormed (by omega) (by omega)).bind fun _ after ⟨_, hs⟩ => ?_
  rw [Editing.ensures_pure]
  refine ⟨hresult, hb.trans ⟨hs.wellFormed, hs.picture_eq.trans ?_, hs.seen_eq⟩⟩
  rw [hb.picture_eq]
  exact Picture.gain_extend _ _ _ _ _

end Patterns

theorem addFragmentOf_ensures (ha : automaton.WellFormed) (nestLimit token : UInt32)
    (pattern : String) :
    Editing.Ensures (addFragmentOf nestLimit token pattern) automaton fun compiled after =>
      match readPattern nestLimit token pattern with
      | .error rejection => compiled.result = .error rejection.error ∧
          automaton.Extends (Regex.nodeCountAll rejection.pieces)
            (Regex.wiringAll automaton.size rejection.pieces) after
      | .ok regex => compiled.result = .ok (regex.entryAt automaton.size) ∧
          Shows automaton (automaton.picture.gain regex token []) after := by
  cases hr : readPattern nestLimit token pattern with
  | error rejection => exact addFragmentOf_ensures_of_error hr (assembleAll_extends ha _)
  | ok regex => exact addFragmentOf_ensures_of_ok ha.settled hr

/-- Adding a pattern adds its fragment and, if it is read, an edge to it from the entry. -/
theorem addPattern_ensures (ha : automaton.WellFormed) (nestLimit token : UInt32)
    (pattern : String) :
    Editing.Ensures (addPattern nestLimit token pattern) automaton fun compiled after =>
      match readPattern nestLimit token pattern with
      | .error rejection => compiled.result = .error rejection.error ∧
          automaton.Extends (Regex.nodeCountAll rejection.pieces)
            (Regex.wiringAll automaton.size rejection.pieces) after
      | .ok regex => compiled.result = .ok (regex.entryAt automaton.size) ∧
          Shows automaton (automaton.picture.gain regex token
            [.silent automaton.entry (regex.entryAt automaton.size)]) after := by
  cases hr : readPattern nestLimit token pattern with
  | error rejection => exact addPattern_ensures_of_error hr (assembleAll_extends ha _)
  | ok regex => exact addPattern_ensures_of_ok ha.settled hr

end Automaton

end PatternAutomata
