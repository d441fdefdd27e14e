import PatternAutomata.Proofs.Grammar
import PatternAutomata.Proofs.Reachable

/-!
# Which patterns are rejected, and where

A scan of a pattern remembers two things only: how many groups are open, and whether a byte or a
group is needed next. It tells whether the pattern is rejected, and at which byte with which defect.
The recursive descent, which also builds an expression, rejects the same patterns at the same bytes.
The defect is at the first byte that shows it: what comes before it is the beginning of a pattern of
the grammar, and with it, it is not.
-/

namespace PatternAutomata

/-! ## Scanning -/

/-- What a scan remembers. -/
structure Scan where
  depth : Nat
  need : Bool

namespace Scan

/-- Goes on by a byte, or tells what is wrong with it. -/
def step (limit : UInt32) (scan : Scan) (byte : UInt8) : Except Defect Scan :=
  if byte = '('.toUInt8 then
    if limit.toNat ≤ scan.depth then .error (.nestLimitExceeded limit)
    else .ok ⟨scan.depth + 1, true⟩
  else if 128 ≤ byte then .error .nonAscii
  else if byte = '*'.toUInt8 then
    if scan.need then .error .unexpectedOperator else .ok scan
  else if byte = '|'.toUInt8 then
    if scan.need then .error .unexpectedOperator else .ok { scan with need := true }
  else if byte = ')'.toUInt8 then
    if scan.need || scan.depth = 0 then .error .unopenedGroup
    else .ok { scan with depth := scan.depth - 1 }
  else .ok { scan with need := false }

/-- What is wrong if the pattern ends. -/
def finish (scan : Scan) : Option Defect :=
  if scan.need then some .expectedOperand
  else if 0 < scan.depth then some .unclosedGroup
  else none

/-- The first defect of the rest of a pattern, and the position of the byte that shows it. -/
def defect? (limit : UInt32) (scan : Scan) (index : Nat) : List UInt8 → Option (Defect × Nat)
  | [] => scan.finish.map fun defect => (defect, index)
  | byte :: rest =>
    match scan.step limit byte with
    | .error defect => some (defect, index)
    | .ok next => next.defect? limit (index + 1) rest

def start : Scan := ⟨0, true⟩

end Scan

/-- Why a pattern is rejected, if it is. -/
def rejection? (limit token : UInt32) (pattern : String) : Option PatternError :=
  let bytes := pattern.toUTF8.toList
  if token = State.noToken then some (.reservedToken token)
  else match bytes.findIdx? fun byte => byte = 0 with
    | some index => some (.malformed .nulByte index pattern)
    | none => (Scan.start.defect? limit 0 bytes).map fun (defect, index) =>
        .malformed defect index pattern

/-! ## One byte -/

namespace Scan

variable {limit : UInt32} {scan : Scan} {byte : UInt8}

lemma step_opening : scan.step limit '('.toUInt8 =
    if limit.toNat ≤ scan.depth then .error (.nestLimitExceeded limit)
    else .ok ⟨scan.depth + 1, true⟩ := rfl

lemma step_repetition : scan.step limit '*'.toUInt8 =
    if scan.need then .error .unexpectedOperator else .ok scan := rfl

lemma step_bar : scan.step limit '|'.toUInt8 =
    if scan.need then .error .unexpectedOperator else .ok { scan with need := true } := rfl

lemma step_closing : scan.step limit ')'.toUInt8 =
    if scan.need || scan.depth = 0 then .error .unopenedGroup
    else .ok { scan with depth := scan.depth - 1 } := rfl

lemma step_foreign (h : ¬ byte < 128) : scan.step limit byte = .error .nonAscii := by
  have hne : byte ≠ '('.toUInt8 := by
    rintro rfl
    exact h (by decide)
  rw [step, if_neg hne, if_pos (UInt8.not_lt.mp h)]

lemma step_literal (h : Regex.IsLiteral byte) :
    scan.step limit byte = .ok { scan with need := false } := by
  obtain ⟨-, h1, h2, h3, h4, h5⟩ := h
  rw [step, if_neg h2, if_neg (UInt8.not_le.mpr h1), if_neg h4, if_neg h5, if_neg h3]

end Scan

/-! ## The descent scans -/

namespace Regex

/-- The defect that ended a reading and where it is, if there is one. -/
def defectOf : Except Failure Regex → Option (Defect × Nat)
  | .ok _ => none
  | .error failure => some (failure.defect, failure.index)

/-- Reading in one pass finds the defects that a scan finds. -/
theorem defectOf_read {limit : UInt32} {room : Nat} {outer : List Level}
    (hroom : room + outer.length = limit.toNat) (level : Level) (index : Nat) (text : List UInt8) :
    defectOf (read limit room outer level index text) =
      Scan.defect? limit ⟨outer.length, level.factor.isNone⟩ index text := by
  induction text generalizing room outer level index with
  | nil =>
    rw [read.eq_def, Scan.defect?]
    cases hf : level.factor <;> cases outer <;> simp [defectOf, Scan.finish]
  | cons byte rest ih =>
    have hfits := fits_ofByte byte
    rw [read.eq_def, Scan.defect?]
    cases hmeans : Lexeme.ofByte byte with
    | opening =>
      obtain rfl : byte = _ := hmeans ▸ hfits
      simp only [Scan.step_opening]
      cases room with
      | zero =>
        rw [if_pos (by omega)]
        rfl
      | succ room =>
        rw [if_neg (by omega)]
        exact ih (by rw [List.length_cons]; omega) {} (index + 1)
    | foreign =>
      rw [hmeans] at hfits
      rw [Scan.step_foreign hfits]
      simp only [hmeans]
      rfl
    | plain other =>
      rw [hmeans] at hfits
      obtain ⟨rfl, hliteral⟩ := hfits
      have hstep : Scan.step limit ⟨outer.length, level.factor.isNone⟩ other =
          .ok ⟨outer.length, false⟩ := by
        by_cases h0 : other = 0
        · rw [h0]
          rfl
        · exact Scan.step_literal (hliteral h0)
      rw [hstep]
      simp only [hmeans]
      exact ih hroom (level.follow (some (literal other))) (index + 1)
    | repetition =>
      obtain rfl : byte = _ := hmeans ▸ hfits
      simp only [Scan.step_repetition]
      cases hf : level.factor with
      | none => rfl
      | some factor => exact ih hroom { level with factor := some (star factor) } (index + 1)
    | bar =>
      obtain rfl : byte = _ := hmeans ▸ hfits
      simp only [Scan.step_bar]
      cases hf : level.factor with
      | none => rfl
      | some factor => exact ih hroom { alternatives := some (level.whole factor) } (index + 1)
    | closing =>
      obtain rfl : byte = _ := hmeans ▸ hfits
      simp only [Scan.step_closing]
      cases hf : level.factor with
      | none => rfl
      | some factor =>
        cases outer with
        | nil => rfl
        | cons around outer =>
          exact ih (by rw [List.length_cons] at hroom; omega)
            (around.follow (some (level.whole factor))) (index + 1)

end Regex

/-- Reading by descent finds the defect that a scan finds. -/
lemma Regex.defectOf_parse (limit : UInt32) (text : List UInt8) :
    defectOf (parse limit text) = Scan.start.defect? limit 0 text := by
  rw [parse_eq_read]
  exact defectOf_read (Nat.add_zero _) {} 0 text

theorem readPattern_rejection (limit token : UInt32) (pattern : String) :
    (match readPattern limit token pattern with
      | .ok _ => none
      | .error rejection => some rejection.error) = rejection? limit token pattern := by
  unfold readPattern rejection?
  dsimp only
  by_cases ht : token = State.noToken
  · rw [if_pos ht, if_pos ht]
  rw [if_neg ht, if_neg ht]
  cases pattern.toUTF8.toList.findIdx? fun byte => byte = 0 with
  | some index => rfl
  | none =>
    dsimp only
    rw [← Regex.defectOf_parse]
    cases Regex.parse limit pattern.toUTF8.toList <;> rfl

/-! ## The first defect -/

/-- The patterns of the grammar are those without a defect. -/
theorem exists_phrase_iff {limit : UInt32} {text : List UInt8} (h0 : 0 ∉ text) :
    (∃ regex, Regex.Phrase .whole limit.toNat text regex) ↔
      Scan.start.defect? limit 0 text = none := by
  simp only [← Regex.defectOf_parse, ← Regex.parse_eq_ok_iff h0]
  cases Regex.parse limit text <;> simp [Regex.defectOf]

namespace Scan

variable {limit : UInt32} {scan : Scan} {index : Nat}

/-- A scan that finds a defect has gone on up to it, and would have done so whatever came then. -/
lemma split_of_defect? {text : List UInt8} {defect : Defect} {position : Nat}
    (h : scan.defect? limit index text = some (defect, position)) : ∃ before rest reached,
      text = before ++ rest ∧ position = index + before.length ∧
      (∀ more, scan.defect? limit index (before ++ more) = defect? limit reached position more) ∧
      ((rest = [] ∧ reached.finish = some defect) ∨
        ∃ byte tail, rest = byte :: tail ∧ reached.step limit byte = .error defect) := by
  induction text generalizing scan index with
  | nil =>
    rw [defect?, Option.map_eq_some_iff] at h
    obtain ⟨_, hfinish, heq⟩ := h
    obtain ⟨rfl, rfl⟩ := Prod.mk.inj heq
    exact ⟨[], [], scan, rfl, rfl, fun _ => rfl, .inl ⟨rfl, hfinish⟩⟩
  | cons byte rest ih =>
    rw [defect?] at h
    cases hstep : scan.step limit byte with
    | error found =>
      rw [hstep] at h
      obtain ⟨rfl, rfl⟩ := Prod.mk.inj (Option.some.inj h)
      exact ⟨[], byte :: rest, scan, rfl, rfl, fun _ => rfl, .inr ⟨byte, rest, rfl, hstep⟩⟩
    | ok next =>
      rw [hstep] at h
      obtain ⟨before, after, reached, rfl, hposition, hmore, hend⟩ := ih h
      refine ⟨byte :: before, after, reached, rfl, ?_, fun more => ?_, hend⟩
      · rw [hposition, List.length_cons]
        omega
      · rw [List.cons_append, defect?, hstep]
        exact hmore more

lemma defect?_closing (depth : Nat) (index : Nat) :
    defect? limit ⟨depth, false⟩ index (List.replicate depth ')'.toUInt8) = none := by
  induction depth generalizing index with
  | zero => rfl
  | succ depth ih =>
    rw [List.replicate_succ, defect?, step_closing]
    exact ih (index + 1)

/-- Whatever has been read without a defect can be completed. -/
lemma exists_completion (limit : UInt32) (scan : Scan) (index : Nat) :
    ∃ more, 0 ∉ more ∧ scan.defect? limit index more = none := by
  obtain ⟨depth, need⟩ := scan
  have hclosing : 0 ∉ List.replicate depth ')'.toUInt8 := by
    rw [List.mem_replicate]
    exact fun h => absurd h.2 (by decide)
  cases need with
  | false => exact ⟨_, hclosing, defect?_closing depth index⟩
  | true =>
    refine ⟨'a'.toUInt8 :: List.replicate depth ')'.toUInt8, ?_, ?_⟩
    · rw [List.mem_cons, not_or]
      exact ⟨by decide, hclosing⟩
    · rw [defect?, step_literal (by unfold Regex.IsLiteral; decide)]
      exact defect?_closing depth (index + 1)

end Scan

/-- A text shows at a position, and not before, that it is no pattern of the grammar: what comes
before can be completed to one, and nothing that goes on with the byte there can, or the text ends
there too early. -/
def FirstWrong (limit : UInt32) (text : List UInt8) (position : Nat) : Prop :=
  position ≤ text.length ∧
    (∃ more regex, Regex.Phrase .whole limit.toNat (text.take position ++ more) regex) ∧
    ∀ more regex, (position = text.length → more = []) →
      ¬ Regex.Phrase .whole limit.toNat (text.take (position + 1) ++ more) regex

/-- A defect is at the first byte that shows it. -/
theorem defect?_leftmost {limit : UInt32} {text : List UInt8} (h0 : 0 ∉ text) {defect : Defect}
    {position : Nat} (h : Scan.start.defect? limit 0 text = some (defect, position)) :
    FirstWrong limit text position := by
  obtain ⟨before, rest, reached, rfl, hposition, hmore, hend⟩ := Scan.split_of_defect? h
  rw [Nat.zero_add] at hposition
  subst hposition
  have hnot : ∀ more, (Scan.defect? limit reached before.length more).isSome = true →
      ∀ regex, ¬ Regex.Phrase .whole limit.toNat (before ++ more) regex := by
    intro more hsome regex hphrase
    have hnone := (exists_phrase_iff hphrase.zero_notMem).mp ⟨regex, hphrase⟩
    rw [hmore, Option.eq_none_iff_forall_ne_some] at hnone
    obtain ⟨found, hfound⟩ := Option.isSome_iff_exists.mp hsome
    exact hnone found hfound
  have htake : (before ++ rest).take before.length = before := List.take_left' rfl
  refine ⟨by rw [List.length_append]; omega, ?_, fun more regex hshort => ?_⟩
  · obtain ⟨more, hmore0, hnone⟩ := Scan.exists_completion limit reached before.length
    rw [htake]
    refine ⟨more, (exists_phrase_iff fun hmem => ?_).mpr ((hmore more).trans hnone)⟩
    rcases List.mem_append.mp hmem with hmem | hmem
    · exact h0 (List.mem_append_left rest hmem)
    · exact hmore0 hmem
  · rcases hend with ⟨rfl, hfinish⟩ | ⟨byte, tail, rfl, hstep⟩
    · rw [hshort (by rw [List.append_nil]), List.append_nil, List.append_nil,
        List.take_of_length_le (Nat.le_succ _), ← List.append_nil before]
      refine hnot [] ?_ regex
      rw [Scan.defect?, hfinish]
      rfl
    · rw [List.take_length_add_append, List.append_assoc]
      refine hnot _ ?_ regex
      rw [List.take_succ_cons, List.take_zero, List.singleton_append, Scan.defect?, hstep]
      rfl

/-- Every rejected pattern is reported with its text, at its first zero byte or, if it has none, at
the first byte that shows its defect. -/
lemma rejection?_leftmost {limit token : UInt32} {pattern text : String} {defect : Defect}
    {position : Nat} (h : rejection? limit token pattern = some (.malformed defect position text)) :
    text = pattern ∧
      (defect = .nulByte ∧
          pattern.toUTF8.toList.findIdx? (fun byte => byte = 0) = some position ∨
        0 ∉ pattern.toUTF8.toList ∧ FirstWrong limit pattern.toUTF8.toList position) := by
  unfold rejection? at h
  dsimp only at h
  by_cases ht : token = State.noToken
  · rw [if_pos ht] at h
    cases h
  rw [if_neg ht] at h
  cases hfind : pattern.toUTF8.toList.findIdx? fun byte => byte = 0 with
  | some index =>
    rw [hfind] at h
    cases h
    exact ⟨rfl, .inl ⟨rfl, rfl⟩⟩
  | none =>
    have h0 : (0 : UInt8) ∉ pattern.toUTF8.toList := fun hmem =>
      absurd (List.findIdx?_eq_none_iff.mp hfind 0 hmem) (by decide)
    rw [hfind] at h
    obtain ⟨⟨found, index⟩, hfound, heq⟩ := Option.map_eq_some_iff.mp h
    cases heq
    exact ⟨rfl, .inr ⟨h0, defect?_leftmost h0 hfound⟩⟩

/-! ## Adding a fragment -/

/-- Why a pattern was rejected, if it was. -/
def Compiled.error? (compiled : Compiled) : Option PatternError :=
  match compiled.result with
  | .ok _ => none
  | .error error => some error

lemma exists_of_editing_bind_eq_ok {α β : Type} {editing : Editing α} {next : α → Editing β}
    {automaton : Automaton} {arena : Arena} {outcome : (β × Automaton) × Arena}
    (h : ((editing >>= next).run automaton).run arena = .ok outcome) :
    ∃ value automaton' arena', ((next value).run automaton').run arena' = .ok outcome := by
  rw [StateT.run_bind, StateT.run_bind] at h
  obtain ⟨⟨⟨value, automaton'⟩, arena'⟩, -, h⟩ := exists_of_bind_eq_ok h
  exact ⟨value, automaton', arena', h⟩

lemma Automaton.addFragmentOf_error? {limit token : UInt32} {pattern : String}
    {automaton after : Automaton} {arena arena' : Arena} {compiled : Compiled}
    (h : ((addFragmentOf limit token pattern).run automaton).run arena =
      .ok ((compiled, after), arena')) : compiled.error? = rejection? limit token pattern := by
  rw [← readPattern_rejection]
  unfold addFragmentOf at h
  cases hr : readPattern limit token pattern with
  | error rejection =>
    simp only [hr] at h
    obtain ⟨_, _, _, h⟩ := exists_of_editing_bind_eq_ok h
    cases h
    rfl
  | ok regex =>
    simp only [hr] at h
    obtain ⟨fragment, _, _, h⟩ := exists_of_editing_bind_eq_ok h
    obtain ⟨_, _, _, h⟩ := exists_of_editing_bind_eq_ok h
    obtain ⟨_, _, _, h⟩ := exists_of_editing_bind_eq_ok h
    obtain ⟨_, _, _, h⟩ := exists_of_editing_bind_eq_ok h
    cases h
    rfl

/-- Adding the fragment of a pattern to any workspace rejects the pattern exactly as its scan says,
whatever the workspace holds. The patterns that are not rejected are those of the grammar, with a
token that can be given out; the others are reported at the first byte that shows it. Where the
workspace is sound, as every workspace in use is, only a limit can keep it from answering. -/
theorem addFragmentOf_scans (workspace : Workspace) (token : UInt32) (pattern : String) :
    (∀ compiled after, workspace.addFragmentOf token pattern = .ok (compiled, after) →
      compiled.error? = rejection? workspace.config.chosenNestLimit token pattern) ∧
    (rejection? workspace.config.chosenNestLimit token pattern = none ↔ token ≠ State.noToken ∧
      ∃ regex, Regex.Phrase .whole workspace.config.chosenNestLimit.toNat pattern.toUTF8.toList
        regex) ∧
    (∀ defect position text, rejection? workspace.config.chosenNestLimit token pattern =
        some (.malformed defect position text) → text = pattern ∧
      (defect = .nulByte ∧
          pattern.toUTF8.toList.findIdx? (fun byte => byte = 0) = some position ∨
        0 ∉ pattern.toUTF8.toList ∧
          FirstWrong workspace.config.chosenNestLimit pattern.toUTF8.toList position)) ∧
    (workspace.Sound → WithinLimits (workspace.addFragmentOf token pattern) fun (compiled, _) =>
      compiled.error? = rejection? workspace.config.chosenNestLimit token pattern) := by
  have houtcome : ∀ compiled after,
      workspace.addFragmentOf token pattern = .ok (compiled, after) →
      compiled.error? = rejection? workspace.config.chosenNestLimit token pattern := by
    intro compiled after h
    unfold Workspace.addFragmentOf at h
    rw [Workspace.edit_eq] at h
    cases hrun : ((Automaton.addFragmentOf workspace.config.chosenNestLimit token pattern).run
        workspace.automaton).run workspace.arena with
    | error fault =>
      rw [hrun] at h
      cases h
    | ok outcome =>
      rw [hrun] at h
      cases h
      exact Automaton.addFragmentOf_error? hrun
  refine ⟨houtcome, ?_, fun _ _ _ => rejection?_leftmost, fun hs => ?_⟩
  · rw [← readPattern_rejection]
    constructor
    · intro h
      cases hr : readPattern workspace.config.chosenNestLimit token pattern with
      | error rejection =>
        rw [hr] at h
        cases h
      | ok regex =>
        obtain ⟨htoken, hphrase⟩ := readPattern_eq_ok_iff.mp hr
        exact ⟨htoken, regex, hphrase⟩
    · rintro ⟨htoken, regex, hphrase⟩
      rw [readPattern_eq_ok_iff.mpr ⟨htoken, hphrase⟩]
  · have hlimits := Workspace.addFragmentOf_withinLimits hs token pattern
    cases hadd : workspace.addFragmentOf token pattern with
    | error fault =>
      rw [hadd] at hlimits
      exact hlimits
    | ok outcome => exact houtcome _ _ hadd

/-- A pattern whose group closes too often, after a deeper one has been closed. -/
example : rejection? 2 7 "(a|(b*))*)c" = some (.malformed .unopenedGroup 9 "(a|(b*))*)c") := by
  decide +kernel

end PatternAutomata
