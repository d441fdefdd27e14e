import PatternAutomata.Automaton.Pattern
import PatternAutomata.Proofs.Descent
import PatternAutomata.Proofs.Language
import PatternAutomata.Proofs.Positions

/-!
# The grammar of patterns

A pattern consists of alternatives between bars, an alternative of factors, and a factor is an atom
with any number of repetition signs after it. An atom is a literal byte or a group, and groups nest
no deeper than there is room. Reading a pattern yields the expression that the grammar gives it, and
succeeds on every pattern of the grammar. So no pattern has two expressions, and the words of a
pattern are those of its expression.
-/

namespace PatternAutomata

namespace Regex

/-- How tightly the parts of a phrase hold together. -/
inductive Rank where
  | atom
  | factor
  | branch
  | whole

/-- A byte that stands for itself: any ASCII byte but zero, the parentheses and the operators. -/
def IsLiteral (byte : UInt8) : Prop :=
  byte ≠ 0 ∧ byte < 128 ∧ byte ≠ '('.toUInt8 ∧ byte ≠ ')'.toUInt8 ∧ byte ≠ '*'.toUInt8 ∧
    byte ≠ '|'.toUInt8

/-- A text is a phrase that stands for an expression, and its groups nest no deeper than there is
room. -/
inductive Phrase : Rank → Nat → List UInt8 → Regex → Prop
  | literal {room : Nat} {byte : UInt8} :
      IsLiteral byte → Phrase .atom room [byte] (.literal byte)
  | group {room : Nat} {text : List UInt8} {regex : Regex} :
      Phrase .whole room text regex →
        Phrase .atom (room + 1) ('('.toUInt8 :: (text ++ [')'.toUInt8])) regex
  | atom {room : Nat} {text : List UInt8} {regex : Regex} :
      Phrase .atom room text regex → Phrase .factor room text regex
  | star {room : Nat} {text : List UInt8} {regex : Regex} :
      Phrase .factor room text regex →
        Phrase .factor room (text ++ ['*'.toUInt8]) (.star regex)
  | factor {room : Nat} {text : List UInt8} {regex : Regex} :
      Phrase .factor room text regex → Phrase .branch room text regex
  | follow {room : Nat} {text text' : List UInt8} {regex regex' : Regex} :
      Phrase .branch room text regex → Phrase .factor room text' regex' →
        Phrase .branch room (text ++ text') (.concat regex regex')
  | branch {room : Nat} {text : List UInt8} {regex : Regex} :
      Phrase .branch room text regex → Phrase .whole room text regex
  | bar {room : Nat} {text text' : List UInt8} {regex regex' : Regex} :
      Phrase .whole room text regex → Phrase .branch room text' regex' →
        Phrase .whole room (text ++ '|'.toUInt8 :: text') (.alternate regex regex')

/-! ## Bytes -/

lemma ofByte_literal {byte : UInt8} (h : IsLiteral byte) : Lexeme.ofByte byte = .plain byte := by
  obtain ⟨-, h1, h2, h3, h4, h5⟩ := h
  simp only [Lexeme.ofByte, h1, h2, h3, h4, h5, if_true, if_false]

@[simp] lemma ofByte_opening : Lexeme.ofByte '('.toUInt8 = .opening := rfl

@[simp] lemma ofByte_closing : Lexeme.ofByte ')'.toUInt8 = .closing := rfl

@[simp] lemma ofByte_repetition : Lexeme.ofByte '*'.toUInt8 = .repetition := rfl

@[simp] lemma ofByte_bar : Lexeme.ofByte '|'.toUInt8 = .bar := rfl

def Lexeme.Fits : Lexeme → UInt8 → Prop
  | opening, byte => byte = '('.toUInt8
  | closing, byte => byte = ')'.toUInt8
  | repetition, byte => byte = '*'.toUInt8
  | bar, byte => byte = '|'.toUInt8
  | plain other, byte => other = byte ∧ (byte ≠ 0 → IsLiteral byte)
  | foreign, byte => ¬ byte < 128

lemma fits_ofByte (byte : UInt8) : (Lexeme.ofByte byte).Fits byte := by
  unfold Lexeme.ofByte
  by_cases h1 : byte = '('.toUInt8
  · rwa [if_pos h1]
  by_cases h2 : byte = ')'.toUInt8
  · rwa [if_neg h1, if_pos h2]
  by_cases h3 : byte = '*'.toUInt8
  · rwa [if_neg h1, if_neg h2, if_pos h3]
  by_cases h4 : byte = '|'.toUInt8
  · rwa [if_neg h1, if_neg h2, if_neg h3, if_pos h4]
  by_cases h5 : byte < 128
  · rw [if_neg h1, if_neg h2, if_neg h3, if_neg h4, if_pos h5]
    exact ⟨rfl, fun h0 => ⟨h0, h5, h1, h2, h3, h4⟩⟩
  · rwa [if_neg h1, if_neg h2, if_neg h3, if_neg h4, if_neg h5]

/-! ## Every phrase is read -/

namespace Level

/-- How a level goes on after a phrase has been read. -/
def After (rank : Rank) (regex : Regex) (before after : Level) : Prop :=
  match rank with
  | .atom | .factor => after = before.follow (some regex)
  | .branch => after.alternatives = before.alternatives ∧ after.joined = some regex ∧
      after.factor.isSome
  | .whole => ∃ factor, after.factor = some factor ∧ after.whole factor = regex

end Level

/-- Reading a phrase, whatever follows it, leads from one level to another. -/
theorem read_phrase {rank : Rank} {room : Nat} {text : List UInt8} {regex : Regex}
    (h : Phrase rank room text regex) (limit : UInt32) (outer : List Level) (level : Level)
    (hlevel : match rank with
      | .atom | .factor => True
      | .branch => level.joined = none
      | .whole => level = {}) (index : Nat) (rest : List UInt8) :
    ∃ after : Level, level.After rank regex after ∧ read limit room outer level index (text ++ rest) =
      read limit room outer after (index + text.length) rest := by
  induction h generalizing outer level index rest with
  | literal h => exact ⟨_, rfl, read_plain limit _ outer level index rest (ofByte_literal h)⟩
  | @group room text regex _ ih =>
    obtain ⟨after, ⟨factor, hf, hw⟩, hread⟩ :=
      ih (level.follow none :: outer) {} rfl (index + 1) (')'.toUInt8 :: rest)
    refine ⟨_, rfl, ?_⟩
    rw [List.cons_append, read_opening _ _ _ _ _ _ ofByte_opening, List.append_assoc,
      List.singleton_append, hread, read_closing _ _ _ _ _ _ ofByte_closing hf, hw,
      Level.follow_follow]
    congr 1
    simp
    omega
  | atom _ ih => exact ih outer level trivial index rest
  | @star room text regex _ ih =>
    obtain ⟨_, rfl, hread⟩ := ih outer level trivial index ('*'.toUInt8 :: rest)
    refine ⟨_, rfl, ?_⟩
    rw [List.append_assoc, List.singleton_append, hread, read_repetition _ _ _ _ _ _ ofByte_repetition rfl,
      List.length_append]
    rfl
  | factor _ ih =>
    obtain ⟨_, rfl, hread⟩ := ih outer level trivial index rest
    refine ⟨level.follow (some _), ⟨rfl, ?_, rfl⟩, hread⟩
    simp only [Level.follow, hlevel]
    rfl
  | @follow room text text' regex regex' _ _ ih ih' =>
    obtain ⟨middle, ⟨halt, hj, hs⟩, hread⟩ := ih outer level hlevel index (text' ++ rest)
    obtain ⟨_, rfl, hread'⟩ := ih' outer middle trivial (index + text.length) rest
    refine ⟨middle.follow (some regex'), ⟨halt, ?_, rfl⟩, ?_⟩
    · simp only [Level.follow, hj]
      rfl
    · rw [List.append_assoc, hread, hread', List.length_append, Nat.add_assoc]
  | branch _ ih =>
    subst hlevel
    obtain ⟨after, ⟨halt, hj, hs⟩, hread⟩ := ih outer {} rfl index rest
    obtain ⟨factor, hf⟩ := Option.isSome_iff_exists.mp hs
    refine ⟨after, ⟨factor, hf, ?_⟩, hread⟩
    rw [Level.whole_of_joined hf hj, halt]
    rfl
  | @bar room text text' regex regex' _ _ ih ih' =>
    subst hlevel
    obtain ⟨middle, ⟨factor, hf, hw⟩, hread⟩ :=
      ih outer {} rfl index ('|'.toUInt8 :: (text' ++ rest))
    obtain ⟨after, ⟨halt, hj, hs⟩, hread'⟩ :=
      ih' outer { alternatives := some regex } rfl (index + text.length + 1) rest
    obtain ⟨factor', hf'⟩ := Option.isSome_iff_exists.mp hs
    refine ⟨after, ⟨factor', hf', ?_⟩, ?_⟩
    · rw [Level.whole_of_joined hf' hj, halt]
      rfl
    · rw [List.append_assoc, List.cons_append, hread, read_bar _ _ _ _ _ _ ofByte_bar hf, hw, hread',
        List.length_append, List.length_cons]
      congr 1
      omega

/-- A pattern of the grammar is read as the expression that the grammar gives it. -/
theorem read_eq_ok {room : Nat} {text : List UInt8} {regex : Regex}
    (h : Phrase .whole room text regex) (limit : UInt32) :
    read limit room [] {} 0 text = .ok regex := by
  obtain ⟨after, ⟨factor, hf, hw⟩, hread⟩ := read_phrase h limit [] {} rfl 0 []
  rw [List.append_nil] at hread
  rw [hread, read.eq_def]
  simp only [hf, hw]

lemma Phrase.mono {rank : Rank} {room room' : Nat} {text : List UInt8} {regex : Regex}
    (h : Phrase rank room text regex) (hroom : room ≤ room') : Phrase rank room' text regex := by
  induction h generalizing room' with
  | literal h => exact .literal h
  | @group room text regex _ ih =>
    obtain ⟨more, rfl⟩ : ∃ more, room' = more + 1 := ⟨room' - 1, by omega⟩
    exact .group (ih (by omega))
  | atom _ ih => exact .atom (ih hroom)
  | star _ ih => exact .star (ih hroom)
  | factor _ ih => exact .factor (ih hroom)
  | follow _ _ ih ih' => exact .follow (ih hroom) (ih' hroom)
  | branch _ ih => exact .branch (ih hroom)
  | bar _ _ ih ih' => exact .bar (ih hroom) (ih' hroom)

/-- No text stands for two expressions. -/
theorem phrase_unique {room room' : Nat} {text : List UInt8} {regex regex' : Regex}
    (h : Phrase .whole room text regex) (h' : Phrase .whole room' text regex') : regex = regex' := by
  have hread := read_eq_ok (h.mono (Nat.le_max_left room room')) 0
  rw [read_eq_ok (h'.mono (Nat.le_max_right room room')) 0] at hread
  exact (Except.ok.inj hread).symm

/-! ## What is read is a phrase -/

namespace Level

/-- The text of the alternatives before the last bar. -/
def Before (room : Nat) : Option Regex → List UInt8 → Prop
  | none, text => text = []
  | some regex, text => ∃ front, Phrase .whole room front regex ∧ text = front ++ ['|'.toUInt8]

/-- The text of an expression that may be absent. -/
def Spelled (rank : Rank) (room : Nat) : Option Regex → List UInt8 → Prop
  | none, text => text = []
  | some regex, text => Phrase rank room text regex

/-- The text from which a level has been read. -/
def Spells (room : Nat) (level : Level) (text : List UInt8) : Prop :=
  ∃ front middle last, text = front ++ middle ++ last ∧ Before room level.alternatives front ∧
    Spelled .branch room level.branch middle ∧ Spelled .factor room level.factor last

lemma spells_empty (room : Nat) : Spells room {} [] := ⟨[], [], [], rfl, rfl, rfl, rfl⟩

variable {room : Nat} {level : Level} {text : List UInt8}

lemma Spells.joined (h : level.Spells room text) : ∃ front branch, text = front ++ branch ∧
    Before room level.alternatives front ∧ Spelled .branch room level.joined branch := by
  obtain ⟨front, middle, last, rfl, hfront, hmiddle, hlast⟩ := h
  refine ⟨front, middle ++ last, List.append_assoc _ _ _, hfront, ?_⟩
  unfold Level.joined
  cases hb : level.branch <;> cases hf : level.factor <;> rw [hb] at hmiddle <;> rw [hf] at hlast
  · rw [show middle = [] from hmiddle, show last = [] from hlast]
    rfl
  · rw [show middle = [] from hmiddle]
    exact .factor hlast
  · rw [show last = [] from hlast, List.append_nil]
    exact hmiddle
  · exact .follow hmiddle hlast

lemma Spells.follow (h : level.Spells room text) {factor : Option Regex} {last : List UInt8}
    (hlast : Spelled .factor room factor last) :
    (level.follow factor).Spells room (text ++ last) := by
  obtain ⟨front, branch, rfl, hfront, hbranch⟩ := h.joined
  exact ⟨front, branch, last, rfl, hfront, hbranch, hlast⟩

lemma Spells.repeated (h : level.Spells room text) {factor : Regex}
    (hf : level.factor = some factor) :
    Spells room { level with factor := some (star factor) } (text ++ ['*'.toUInt8]) := by
  obtain ⟨front, middle, last, rfl, hfront, hmiddle, hlast⟩ := h
  rw [hf] at hlast
  exact ⟨front, middle, last ++ ['*'.toUInt8], by simp, hfront, hmiddle, .star hlast⟩

lemma Spells.whole (h : level.Spells room text) {factor : Regex}
    (hf : level.factor = some factor) : Phrase .whole room text (level.whole factor) := by
  obtain ⟨front, branch, rfl, hfront, hbranch⟩ := h.joined
  have hsome : ∃ regex, level.joined = some regex := by
    unfold Level.joined
    rw [hf]
    cases level.branch <;> exact ⟨_, rfl⟩
  obtain ⟨regex, hj⟩ := hsome
  rw [whole_of_joined hf hj]
  rw [hj] at hbranch
  cases ha : level.alternatives with
  | none =>
    rw [ha] at hfront
    rw [show front = [] from hfront]
    exact .branch hbranch
  | some left =>
    rw [ha] at hfront
    obtain ⟨text, hleft, rfl⟩ := hfront
    rw [List.append_assoc, List.singleton_append]
    exact .bar hleft hbranch

lemma Spells.bar (h : level.Spells room text) {factor : Regex}
    (hf : level.factor = some factor) :
    Spells room { alternatives := some (level.whole factor) } (text ++ ['|'.toUInt8]) :=
  ⟨_, [], [], by simp, ⟨text, h.whole hf, rfl⟩, rfl, rfl⟩

end Level

/-- The text from which the levels around a group have been read, when `room` more groups may open
inside it. -/
inductive Stacked : Nat → List Level → List UInt8 → Prop
  | nil {room : Nat} : Stacked room [] []
  | cons {room : Nat} {level : Level} {outer : List Level} {before text : List UInt8} :
      level.Spells (room + 1) text → Stacked (room + 1) outer before →
        Stacked room (level :: outer) (before ++ text ++ ['('.toUInt8])

/-- What is read from a level onwards is a phrase together with what was read before. -/
theorem phrase_of_read {limit : UInt32} {regex : Regex} {rest : List UInt8} (hrest : 0 ∉ rest)
    {room : Nat} {outer : List Level} {level : Level} {index : Nat} {before text : List UInt8}
    (houter : Stacked room outer before) (hlevel : level.Spells room text)
    (hread : read limit room outer level index rest = .ok regex) :
    Phrase .whole (room + outer.length) (before ++ text ++ rest) regex := by
  induction rest generalizing room outer level index before text with
  | nil =>
    rw [read.eq_def] at hread
    cases hf : level.factor with
    | none => simp [hf] at hread
    | some factor =>
      cases outer with
      | cons around outer => simp [hf] at hread
      | nil =>
        cases houter
        obtain rfl : level.whole factor = regex := by simpa [hf] using hread
        simpa using hlevel.whole hf
  | cons byte rest ih =>
    obtain ⟨hbyte, htail⟩ : byte ≠ 0 ∧ 0 ∉ rest := by simpa [eq_comm] using hrest
    have hfits := fits_ofByte byte
    have happend : before ++ text ++ byte :: rest = before ++ (text ++ [byte]) ++ rest := by simp
    rw [read.eq_def] at hread
    cases hmeans : Lexeme.ofByte byte with
    | foreign => simp [hmeans] at hread
    | plain other =>
      rw [hmeans] at hfits
      obtain ⟨rfl, hliteral⟩ := hfits
      simp only [hmeans] at hread
      rw [happend]
      have hspelled : Level.Spelled .factor room (some (.literal other)) [other] :=
        .atom (.literal (hliteral hbyte))
      exact ih htail houter (hlevel.follow hspelled) hread
    | opening =>
      obtain rfl : byte = _ := hmeans ▸ hfits
      cases room with
      | zero => simp [hmeans] at hread
      | succ room =>
        simp only [hmeans] at hread
        have hlast : Level.Spelled .factor (room + 1) none [] := rfl
        have hstack : Stacked room (level.follow none :: outer) (before ++ text ++ _) :=
          .cons (List.append_nil text ▸ hlevel.follow hlast) houter
        have := ih htail hstack (Level.spells_empty room) hread
        rw [List.append_nil, List.append_assoc _ _ rest, List.length_cons] at this
        rwa [Nat.add_right_comm, Nat.add_assoc]
    | repetition =>
      obtain rfl : byte = _ := hmeans ▸ hfits
      cases hf : level.factor with
      | none => simp [hmeans, hf] at hread
      | some factor =>
        simp only [hmeans, hf] at hread
        rw [happend]
        exact ih htail houter (hlevel.repeated hf) hread
    | bar =>
      obtain rfl : byte = _ := hmeans ▸ hfits
      cases hf : level.factor with
      | none => simp [hmeans, hf] at hread
      | some factor =>
        simp only [hmeans, hf] at hread
        rw [happend]
        exact ih htail houter (hlevel.bar hf) hread
    | closing =>
      obtain rfl : byte = _ := hmeans ▸ hfits
      cases hf : level.factor with
      | none => simp [hmeans, hf] at hread
      | some factor =>
        cases outer with
        | nil => simp [hmeans, hf] at hread
        | cons around outer =>
          simp only [hmeans, hf] at hread
          cases houter with
          | @cons _ _ _ before spelled haround houter =>
            have hgroup : Level.Spelled .factor (room + 1) (some (level.whole factor)) _ :=
              .atom (.group (hlevel.whole hf))
            have := ih htail houter (haround.follow hgroup) hread
            rw [List.length_cons, ← Nat.add_assoc, Nat.add_right_comm]
            simpa using this

/-- Reading succeeds exactly on the patterns of the grammar, with the expression that the grammar
gives them. -/
theorem parse_eq_ok_iff {limit : UInt32} {text : List UInt8} (h0 : 0 ∉ text) {regex : Regex} :
    parse limit text = .ok regex ↔ Phrase .whole limit.toNat text regex := by
  constructor
  · intro h
    rw [parse_eq_read] at h
    exact phrase_of_read h0 .nil (Level.spells_empty _) h
  · intro h
    rw [parse_eq_read]
    exact read_eq_ok h limit

lemma Phrase.zero_notMem {rank : Rank} {room : Nat} {text : List UInt8} {regex : Regex}
    (h : Phrase rank room text regex) : 0 ∉ text := by
  induction h with
  | literal h => simpa using Ne.symm h.1
  | group _ ih => simpa using ⟨by decide, ih, by decide⟩
  | atom _ ih => exact ih
  | star _ ih => simpa using ⟨ih, by decide⟩
  | factor _ ih => exact ih
  | follow _ _ ih ih' => simpa using ⟨ih, ih'⟩
  | branch _ ih => exact ih
  | bar _ _ ih ih' => simpa using ⟨ih, by decide, ih'⟩

/-! ## What a pattern means -/

lemma Phrase.proper {rank : Rank} {room : Nat} {text : List UInt8} {regex : Regex}
    (h : Phrase rank room text regex) : regex.Proper := by
  induction h with
  | literal h => exact h.1
  | group _ ih => exact ih
  | atom _ ih => exact ih
  | star _ ih => exact ih
  | factor _ ih => exact ih
  | follow _ _ ih ih' => exact ⟨ih, ih'⟩
  | branch _ ih => exact ih
  | bar _ _ ih ih' => exact ⟨ih, ih'⟩

def isSign (byte : UInt8) : Bool :=
  byte = '('.toUInt8 || byte = ')'.toUInt8 || byte = '*'.toUInt8 || byte = '|'.toUInt8

/-- The literals of a phrase are its bytes without the parentheses and operators. -/
lemma Phrase.letters_eq {rank : Rank} {room : Nat} {text : List UInt8} {regex : Regex}
    (h : Phrase rank room text regex) : regex.letters = text.filter fun byte => !isSign byte := by
  have hsign : isSign '('.toUInt8 = true ∧ isSign ')'.toUInt8 = true ∧ isSign '*'.toUInt8 = true ∧
      isSign '|'.toUInt8 = true := by decide
  induction h with
  | @literal room byte h =>
    obtain ⟨-, -, h1, h2, h3, h4⟩ := h
    simp [letters, isSign, h1, h2, h3, h4]
  | group _ ih => simpa [hsign] using ih
  | atom _ ih => exact ih
  | star _ ih => simpa [hsign, letters] using ih
  | factor _ ih => exact ih
  | follow _ _ ih ih' => simp [letters, ih, ih']
  | branch _ ih => exact ih
  | bar _ _ ih ih' => simp [letters, ih, ih', hsign]

end Regex

/-- Whether a word is a word of a pattern. -/
def Matches (pattern : String) (word : List UInt8) : Prop :=
  ∃ room regex, Regex.Phrase .whole room pattern.toUTF8.toList regex ∧ word ∈ regex.language

lemma matches_iff {pattern : String} {word : List UInt8} {room : Nat} {regex : Regex}
    (h : Regex.Phrase .whole room pattern.toUTF8.toList regex) :
    Matches pattern word ↔ word ∈ regex.language := by
  constructor
  · rintro ⟨room', regex', h', hw⟩
    rwa [Regex.phrase_unique h h']
  · exact fun hw => ⟨room, regex, h, hw⟩

/-- The patterns that are read are those of the grammar, with a token that can be given out. -/
theorem readPattern_eq_ok_iff {nestLimit token : UInt32} {pattern : String} {regex : Regex} :
    readPattern nestLimit token pattern = .ok regex ↔ token ≠ State.noToken ∧
      Regex.Phrase .whole nestLimit.toNat pattern.toUTF8.toList regex := by
  unfold readPattern
  dsimp only
  by_cases ht : token = State.noToken
  · rw [if_pos ht]
    simp [ht]
  rw [if_neg ht]
  cases hfind : pattern.toUTF8.toList.findIdx? fun byte => byte = 0 with
  | some index =>
    constructor
    · nofun
    · rintro ⟨-, h⟩
      have hnone : pattern.toUTF8.toList.findIdx? (fun byte => byte = 0) = none := by
        rw [List.findIdx?_eq_none_iff]
        intro byte hmem
        rw [decide_eq_false_iff_not]
        rintro rfl
        exact h.zero_notMem hmem
      rw [hnone] at hfind
      cases hfind
  | none =>
    have h0 : (0 : UInt8) ∉ pattern.toUTF8.toList := by
      intro hmem
      have := List.findIdx?_eq_none_iff.mp hfind 0 hmem
      simp at this
    dsimp only
    rw [← Regex.parse_eq_ok_iff h0]
    cases Regex.parse nestLimit pattern.toUTF8.toList with
    | error failure => simp
    | ok found => simp [ht]

end PatternAutomata
