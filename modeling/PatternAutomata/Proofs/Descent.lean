import PatternAutomata.Regex.Reader
import Mathlib.Order.Nat

/-!
# Reading in one pass

What is read by recursive descent can be read in one pass over the bytes, without recursion. The
pass remembers, for every group that is open, the alternatives before the last bar, what stands
between the bar and the last factor, and the factor, which may still be missing. Where the descent goes on
after an operand with operators of a least precedence, the pass stands at a level of which operators
of that precedence have joined everything to one expression. Both end with the same expression, or
with the same defect at the same byte and the same complete subexpressions.
-/

namespace PatternAutomata

namespace Regex

/-- What has been read of one group, or of the whole pattern outside all groups. -/
structure Level where
  /-- The alternatives before the last bar. -/
  alternatives : Option Regex := none
  /-- What stands between the last bar and the last factor. -/
  branch : Option Regex := none
  /-- The last factor, absent where one is needed next. -/
  factor : Option Regex := none

namespace Level

/-- Everything after the last bar as one expression. -/
def joined (level : Level) : Option Regex :=
  match level.branch, level.factor with
  | some branch, some factor => some (concat branch factor)
  | some branch, none => some branch
  | none, factor => factor

/-- Makes a group the last factor, or leaves room for one. -/
def follow (level : Level) (factor : Option Regex) : Level :=
  { level with branch := level.joined, factor }

/-- The whole level as one expression, given its last factor. -/
def whole (level : Level) (factor : Regex) : Regex :=
  let branch := match level.branch with
    | some branch => concat branch factor
    | none => factor
  match level.alternatives with
  | some alternatives => alternate alternatives branch
  | none => branch

/-- The complete subexpressions of a level, from left to right. -/
def pieces (level : Level) : List Regex := level.alternatives.toList ++ level.joined.toList

/-- The complete subexpressions of nested levels, the innermost level given first. -/
def pending (levels : List Level) : List Regex := levels.reverse.flatMap pieces

end Level

/-- Reads the rest of a pattern. `room` more groups may open, `outer` are the levels around
`level`, the innermost first, and `index` is the position of the first byte of the rest. -/
def read (limit : UInt32) (room : Nat) (outer : List Level) (level : Level) (index : Nat) :
    List UInt8 → Except Failure Regex
  | [] =>
    match level.factor, outer with
    | none, _ => .error ⟨.expectedOperand, index, Level.pending (level :: outer)⟩
    | some factor, [] => .ok (level.whole factor)
    | some factor, _ :: _ =>
      .error ⟨.unclosedGroup, index, Level.pending outer ++ [level.whole factor]⟩
  | byte :: rest =>
    match Lexeme.ofByte byte, level.factor with
    | .opening, _ =>
      match room with
      | 0 => .error ⟨.nestLimitExceeded limit, index, Level.pending (level :: outer)⟩
      | room + 1 => read limit room (level.follow none :: outer) {} (index + 1) rest
    | .foreign, _ => .error ⟨.nonAscii, index, Level.pending (level :: outer)⟩
    | .plain byte, _ => read limit room outer (level.follow (some (literal byte))) (index + 1) rest
    | .repetition, some factor =>
      read limit room outer { level with factor := some (star factor) } (index + 1) rest
    | .bar, some factor =>
      read limit room outer { alternatives := some (level.whole factor) } (index + 1) rest
    | .closing, some factor =>
      match outer with
      | [] => .error ⟨.unopenedGroup, index, [level.whole factor]⟩
      | around :: outer =>
        read limit (room + 1) outer (around.follow (some (level.whole factor))) (index + 1) rest
    | .closing, none => .error ⟨.unopenedGroup, index, Level.pending (level :: outer)⟩
    | .repetition, none | .bar, none =>
      .error ⟨.unexpectedOperator, index, Level.pending (level :: outer)⟩

/-! ## Steps of the pass -/

namespace Level

lemma joined_follow (level : Level) : (level.follow none).joined = level.joined := by
  unfold follow joined
  split <;> simp_all

lemma follow_follow (level : Level) (factor : Option Regex) :
    (level.follow none).follow factor = level.follow factor := by
  change { level with branch := (level.follow none).joined, factor } = level.follow factor
  rw [joined_follow]
  rfl

lemma pieces_follow (level : Level) : (level.follow none).pieces = level.pieces := by
  rw [pieces, joined_follow]
  rfl

lemma pending_cons (level : Level) (outer : List Level) :
    pending (level :: outer) = pending outer ++ level.pieces := by
  simp [pending]

lemma whole_of_joined {level : Level} {factor regex : Regex} (hf : level.factor = some factor)
    (hj : level.joined = some regex) :
    level.whole factor = level.alternatives.elim regex fun left => alternate left regex := by
  unfold joined at hj
  unfold whole
  rw [hf] at hj
  cases hb : level.branch <;> cases ha : level.alternatives <;> simp_all

end Level

section Steps

variable (limit : UInt32) (room : Nat) (outer : List Level) (level : Level) (index : Nat)
  {byte : UInt8} (rest : List UInt8)

lemma read_plain {other : UInt8} (h : Lexeme.ofByte byte = .plain other) :
    read limit room outer level index (byte :: rest) =
      read limit room outer (level.follow (some (literal other))) (index + 1) rest := by
  rw [read.eq_def]
  simp only [h]

lemma read_opening (h : Lexeme.ofByte byte = .opening) :
    read limit (room + 1) outer level index (byte :: rest) =
      read limit room (level.follow none :: outer) {} (index + 1) rest := by
  rw [read.eq_def]
  simp only [h]

lemma read_repetition (h : Lexeme.ofByte byte = .repetition) {factor : Regex}
    (hf : level.factor = some factor) :
    read limit room outer level index (byte :: rest) =
      read limit room outer { level with factor := some (star factor) } (index + 1) rest := by
  rw [read.eq_def]
  simp only [h, hf]

lemma read_bar (h : Lexeme.ofByte byte = .bar) {factor : Regex} (hf : level.factor = some factor) :
    read limit room outer level index (byte :: rest) =
      read limit room outer { alternatives := some (level.whole factor) } (index + 1) rest := by
  rw [read.eq_def]
  simp only [h, hf]

lemma read_closing (h : Lexeme.ofByte byte = .closing) {factor : Regex}
    (hf : level.factor = some factor) (around : Level) :
    read limit room (around :: outer) level index (byte :: rest) =
      read limit (room + 1) outer (around.follow (some (level.whole factor))) (index + 1) rest := by
  rw [read.eq_def]
  simp only [h, hf]

/-- Where an operand begins, the operand before it has ended. -/
lemma read_follow (h : Lexeme.ofByte byte ≠ .closing) (hp : (Lexeme.ofByte byte).precedence = 2) :
    read limit room outer (level.follow none) index (byte :: rest) =
      read limit room outer level index (byte :: rest) := by
  rw [read.eq_def, read.eq_def limit room outer level]
  cases hmeans : Lexeme.ofByte byte with
  | opening => simp only [hmeans, Level.follow_follow, Level.pending_cons, Level.pieces_follow]
  | closing => exact absurd hmeans h
  | repetition => simp [hmeans, Lexeme.precedence] at hp
  | bar => simp [hmeans, Lexeme.precedence] at hp
  | plain => simp only [hmeans, Level.follow_follow]
  | foreign => simp only [hmeans, Level.pending_cons, Level.pieces_follow]

end Steps

/-! ## The descent follows the pass -/

/-- Nothing of a level binds as tightly as operators of a least precedence and has to be joined with
what comes next. -/
structure Level.Awaits (least : Nat) (level : Level) : Prop where
  factor : level.factor = none
  branch : least ≤ 2 → level.branch = none
  alternatives : least ≤ 1 → level.alternatives = none

/-- Operators of a least precedence have joined all that has been read since a level to one
expression. -/
structure Level.Gathers (least : Nat) (before level : Level) (regex : Regex) : Prop where
  complete : level.factor.isSome
  factor : 3 ≤ least → level.factor = some regex ∧ level.branch = before.branch
  alternatives : 2 ≤ least → level.alternatives = before.alternatives
  joined : least = 2 → level.joined = some regex
  whole : least ≤ 1 → ∀ factor, level.factor = some factor → level.whole factor = regex

/-- What a level holds binds no more loosely than the operator that a rest begins with, and so the
operator is about the whole of it. -/
def Level.Tight (least : Nat) (level : Level) : List UInt8 → Prop
  | [] => True
  | byte :: _ => Lexeme.ofByte byte ≠ .closing →
    (least ≤ 2 → 2 < (Lexeme.ofByte byte).precedence → level.branch = none) ∧
      (least ≤ 1 → 1 < (Lexeme.ofByte byte).precedence → level.alternatives = none)

/-- A rest begins with no operator of a least precedence. -/
def Stops (least : Nat) : List UInt8 → Prop
  | [] => True
  | byte :: _ => Lexeme.ofByte byte = .closing ∨ (Lexeme.ofByte byte).precedence < least

namespace Level

variable {least : Nat} {before level : Level} {regex : Regex}

lemma awaits_empty : Awaits least {} := ⟨rfl, fun _ => rfl, fun _ => rfl⟩

lemma tight_of_eq_none (hbranch : least ≤ 2 → level.branch = none)
    (halternatives : least ≤ 1 → level.alternatives = none) (rest : List UInt8) :
    level.Tight least rest := by
  cases rest with
  | nil => trivial
  | cons => exact fun _ => ⟨fun hleast _ => hbranch hleast, fun hleast _ => halternatives hleast⟩

/-- What has been read up to an operator that binds more loosely than another is tight enough for
the operator it ends at. -/
lemma tight_of_stops {precedence : Nat} (hprecedence : precedence ≤ 2) {rest : List UInt8}
    (hstops : Stops (precedence + 1) rest)
    (halternatives : least ≤ 1 → 1 < precedence → level.alternatives = none) :
    level.Tight least rest := by
  cases rest with
  | nil => trivial
  | cons =>
    intro hclosing
    have := hstops.resolve_left hclosing
    exact ⟨fun _ h => absurd h (by omega), fun hleast _ => halternatives hleast (by omega)⟩

lemma Awaits.follow (h : before.Awaits least) (regex : Regex) (rest : List UInt8) :
    Gathers least before (before.follow (some regex)) regex ∧
      (before.follow (some regex)).Tight least rest := by
  have hjoined : before.joined = before.branch := by
    unfold Level.joined
    cases hb : before.branch <;> simp [h.factor]
  have hbranch : (before.follow (some regex)).branch = before.branch := hjoined
  refine ⟨⟨rfl, fun _ => ⟨rfl, hbranch⟩, fun _ => rfl, fun hleast => ?_, fun hleast => ?_⟩, ?_⟩
  · unfold Level.joined
    rw [hbranch, h.branch hleast.le]
    rfl
  · rintro _ ⟨⟩
    unfold Level.whole
    rw [hbranch, h.branch (by omega)]
    simp only [Level.follow, h.alternatives hleast]
  · exact tight_of_eq_none (fun hleast => hbranch.trans (h.branch hleast)) h.alternatives rest

/-- What has been gathered is the last factor, if nothing stands before that. -/
lemma Gathers.factor_eq (h : Gathers least before level regex)
    (hbranch : least ≤ 2 → level.branch = none)
    (halternatives : least ≤ 1 → level.alternatives = none) : level.factor = some regex := by
  obtain ⟨factor, hfactor⟩ := Option.isSome_iff_exists.mp h.complete
  rcases Nat.lt_or_ge 2 least with h3 | h2
  · exact (h.factor h3).1
  · rcases Nat.lt_or_ge 1 least with h2' | h1
    · have := h.joined (by omega)
      unfold Level.joined at this
      simpa only [hbranch h2] using this
    · have := h.whole h1 factor hfactor
      unfold Level.whole at this
      simp only [hbranch h2, halternatives h1] at this
      rw [hfactor, this]

/-- What has been gathered is everything after the last bar, if there is no bar. -/
lemma Gathers.joined_eq (h : Gathers least before level regex) (hleast : least ≤ 2)
    (halternatives : least ≤ 1 → level.alternatives = none) : level.joined = some regex := by
  rcases Nat.lt_or_ge 1 least with h2 | h1
  · exact h.joined (by omega)
  · obtain ⟨factor, hfactor⟩ := Option.isSome_iff_exists.mp h.complete
    have := h.whole h1 factor hfactor
    unfold Level.whole at this
    unfold Level.joined
    rw [halternatives h1] at this
    rw [hfactor, ← this]
    cases level.branch <;> rfl

lemma Awaits.pieces_eq (h : before.Awaits least) (hleast : least ≤ 2) :
    before.pieces = before.alternatives.toList := by
  unfold Level.pieces Level.joined
  rw [h.factor, h.branch hleast]
  exact List.append_nil _

/-- What has been gathered is complete when the next operand begins. -/
lemma Gathers.pieces_eq (h : Gathers least before level regex) (hbefore : before.Awaits least)
    (hleast : least ≤ 2) (halternatives : least ≤ 1 → level.alternatives = none) :
    level.pieces = before.pieces ++ [regex] := by
  have hsame : level.alternatives = before.alternatives := by
    rcases Nat.lt_or_ge 1 least with h2 | h1
    · exact h.alternatives h2
    · rw [halternatives h1, hbefore.alternatives h1]
  rw [hbefore.pieces_eq hleast, Level.pieces, h.joined_eq hleast halternatives, hsame]
  rfl

lemma Gathers.star (h : Gathers least before level regex)
    (hbranch : least ≤ 2 → level.branch = none)
    (halternatives : least ≤ 1 → level.alternatives = none) :
    Gathers least before { level with factor := some regex.star } regex.star := by
  refine ⟨rfl, fun hleast => ⟨rfl, (h.factor hleast).2⟩, h.alternatives, fun hleast => ?_,
    fun hleast => ?_⟩
  · simp only [Level.joined, hbranch hleast.le]
  · rintro _ ⟨⟩
    simp only [Level.whole, hbranch (by omega), halternatives hleast]

/-- What stands right of an operand has been gathered by repetition signs alone. -/
lemma Gathers.concat (h : Gathers least before level regex) (hleast : least ≤ 2)
    (halternatives : least ≤ 1 → level.alternatives = none) {after : Level} {right : Regex}
    (hright : Gathers 3 (level.follow none) after right) :
    Gathers least before after (.concat regex right) := by
  obtain ⟨hfactor, hbranch⟩ := hright.factor le_rfl
  have halternatives' : after.alternatives = level.alternatives := hright.alternatives (by omega)
  have hjoined : after.joined = some (.concat regex right) := by
    unfold Level.joined
    rw [hfactor, hbranch, show (level.follow none).branch = some regex from
      h.joined_eq hleast halternatives]
  refine ⟨hright.complete, fun h3 => absurd h3 (by omega),
    fun h2 => halternatives'.trans (h.alternatives h2), fun _ => hjoined, fun h1 factor hf => ?_⟩
  rw [whole_of_joined hf hjoined, halternatives', halternatives h1]
  rfl

/-- What stands right of a bar has been gathered up to the next bar. -/
lemma Gathers.alternate (hleast : least ≤ 1) {after : Level} {left right : Regex}
    (hright : Gathers 2 { alternatives := some left } after right) :
    Gathers least before after (.alternate left right) := by
  refine ⟨hright.complete, fun h3 => absurd h3 (by omega), fun h2 => absurd h2 (by omega),
    fun h2 => absurd h2 (by omega), fun _ factor hf => ?_⟩
  rw [whole_of_joined hf (hright.joined rfl), hright.alternatives le_rfl]
  rfl

end Level

/-- Reading on after an operand, by descent and in one pass. -/
def Level.Meets (limit : UInt32) (least room : Nat) (outer : List Level) (before : Level)
    (pass : Except Failure Regex) {length : Nat} : Except Failure (Progress length) → Prop
  | .error failure => pass = .error (failure.behind (Level.pending (before :: outer)))
  | .ok ⟨regex, index, rest, _⟩ => Stops least rest ∧
    ∃ level, Level.Gathers least before level regex ∧ pass = read limit room outer level index rest

/-- Where the pass has gone along with what stands right of an operand, it goes along with both. -/
lemma Level.Meets.rightOf {limit : UInt32} {least least' room : Nat} {outer : List Level}
    {before between : Level} {pass : Except Failure Regex} {left : Regex} {length length' : Nat}
    {right : Except Failure (Progress length')}
    (hright : Meets limit least' room outer between pass right)
    (hpieces : between.pieces = before.pieces ++ [left])
    {next : Progress length' → Except Failure (Progress length)}
    (hnext : ∀ (after : Progress length') (level : Level), Stops least' after.rest →
      Gathers least' between level after.regex →
      Meets limit least room outer before (read limit room outer level after.index after.rest)
        (next after)) :
    Meets limit least room outer before pass (rightOf left right >>= next) := by
  cases right with
  | error failure =>
    change pass = _ at hright
    change pass = _
    rw [hright]
    simp only [Failure.behind, Level.pending_cons, hpieces, List.append_assoc]
  | ok after =>
    obtain ⟨hstops, level, hgathers, rfl⟩ := hright
    exact hnext after level hstops hgathers

lemma exists_room_of_lt {limit depth : UInt32} {room : Nat} (hroom : room + depth.toNat = limit.toNat)
    (h : ¬ limit ≤ depth) : ∃ less, room = less + 1 ∧ less + (depth + 1).toNat = limit.toNat := by
  rw [UInt32.le_iff_toNat_le] at h
  have hnext : (depth + 1).toNat = depth.toNat + 1 := by
    have := limit.toNat_lt
    rw [UInt32.toNat_add, UInt32.toNat_one]
    exact Nat.mod_eq_of_lt (by omega)
  exact ⟨room - 1, by omega, by omega⟩

-- The descent and the pass are compared along the descent, by induction on the text that is left.
mutual

theorem readOperand_meets {limit depth : UInt32} {room : Nat}
    (hroom : room + depth.toNat = limit.toNat) (outer : List Level) {before : Level}
    (hfactor : before.factor = none) (index : Nat) (text : List UInt8) :
    match readOperand limit depth index text with
    | .error failure => read limit room outer before index text =
        .error (failure.behind (Level.pending (before :: outer)))
    | .ok after => read limit room outer before index text =
        read limit room outer (before.follow (some after.regex)) after.index after.rest := by
  rw [readOperand.eq_def]
  cases text with
  | nil =>
    rw [read.eq_def]
    simp [hfactor, Failure.behind]
  | cons byte rest =>
    cases hmeans : Lexeme.ofByte byte with
    | bar | repetition | closing | foreign =>
      rw [read.eq_def]
      simp [hmeans, hfactor, Failure.behind]
    | plain other =>
      simp only [hmeans]
      exact read_plain _ _ _ _ _ _ hmeans
    | opening =>
      simp only [hmeans]
      by_cases hlimit : limit ≤ depth
      · obtain rfl : room = 0 := by
          have := UInt32.le_iff_toNat_le.mp hlimit
          omega
        rw [if_pos hlimit, read.eq_def]
        simp [hmeans, Failure.behind]
      · rw [if_neg hlimit]
        obtain ⟨room, rfl, hroom'⟩ := exists_room_of_lt hroom hlimit
        have hinner := readJoined_meets hroom' 0 (before.follow none :: outer) Level.awaits_empty
          (index + 1) rest
        rw [← read_opening _ _ _ _ _ _ hmeans] at hinner
        have hpending : Level.pending ({} :: before.follow none :: outer) =
            Level.pending (before :: outer) := by
          simp only [Level.pending_cons, Level.pieces_follow]
          exact List.append_nil _
        cases hread : readJoined limit (depth + 1) 0 (index + 1) rest with
        | error failure =>
          rw [hread] at hinner
          dsimp only
          rw [← hpending]
          exact hinner
        | ok inner =>
          rw [hread] at hinner
          obtain ⟨regex, index, after, shorter⟩ := inner
          obtain ⟨hstops, level, hgathers, hpass⟩ := hinner
          obtain ⟨factor, hfactor⟩ := Option.isSome_iff_exists.mp hgathers.complete
          have hwhole := hgathers.whole (Nat.zero_le 1) factor hfactor
          rw [hpass]
          cases after with
          | nil =>
            rw [read.eq_def]
            simp [hfactor, hwhole, Failure.behind, Level.pending_cons, Level.pieces_follow]
          | cons byte after =>
            have hclosing := hstops.resolve_right (Nat.not_lt_zero _)
            dsimp only
            rw [if_pos hclosing, read_closing _ _ _ _ _ _ hclosing hfactor, hwhole,
              Level.follow_follow]
termination_by 3 * text.length

theorem readJoined_meets {limit depth : UInt32} {room : Nat}
    (hroom : room + depth.toNat = limit.toNat) (least : Nat) (outer : List Level) {before : Level}
    (hbefore : before.Awaits least) (index : Nat) (text : List UInt8) :
    Level.Meets limit least room outer before (read limit room outer before index text)
      (readJoined limit depth least index text) := by
  rw [readJoined]
  have hoperand := readOperand_meets hroom outer hbefore.factor index text
  cases hread : readOperand limit depth index text with
  | error failure =>
    rw [hread] at hoperand
    exact hoperand
  | ok left =>
    rw [hread] at hoperand
    obtain ⟨hgathers, htight⟩ := hbefore.follow left.regex left.rest
    have := left.shorter
    dsimp only at hoperand
    rw [hoperand]
    exact readOperators_meets hroom least outer hbefore hgathers left.index htight left.shorter
termination_by 3 * text.length + 1

theorem readOperators_meets {limit depth : UInt32} {room : Nat}
    (hroom : room + depth.toNat = limit.toNat) (least : Nat) (outer : List Level) {before : Level}
    (hbefore : before.Awaits least) {left : Regex} {level : Level}
    (hlevel : Level.Gathers least before level left) (index : Nat) {rest : List UInt8}
    (htight : level.Tight least rest) {length : Nat} (shorter : rest.length < length) :
    Level.Meets limit least room outer before (read limit room outer level index rest)
      (readOperators limit depth least ⟨left, index, rest, shorter⟩) := by
  rw [readOperators.eq_def]
  cases rest with
  | nil => exact ⟨trivial, level, hlevel, rfl⟩
  | cons byte rest =>
    dsimp only
    by_cases hstops : Lexeme.ofByte byte = .closing ∨ (Lexeme.ofByte byte).precedence < least
    · rw [if_pos hstops]
      exact ⟨hstops, level, hlevel, rfl⟩
    rw [if_neg hstops]
    obtain ⟨hclosing, hleast⟩ := not_or.mp hstops
    rw [not_lt] at hleast
    obtain ⟨hbranch, halternatives⟩ := htight hclosing
    cases hmeans : Lexeme.ofByte byte with
    | closing => exact absurd hmeans hclosing
    | repetition =>
      rw [hmeans] at hbranch halternatives
      have hbranch' := fun h => hbranch h (by decide)
      have halternatives' := fun h => halternatives h (by decide)
      rw [read_repetition _ _ _ _ _ _ hmeans (hlevel.factor_eq hbranch' halternatives')]
      exact readOperators_meets hroom least outer hbefore (hlevel.star hbranch' halternatives')
        (index + 1) (Level.tight_of_eq_none hbranch' halternatives' rest) _
    | bar =>
      rw [hmeans] at hleast
      obtain ⟨factor, hfactor⟩ := Option.isSome_iff_exists.mp hlevel.complete
      rw [read_bar _ _ _ _ _ _ hmeans hfactor, hlevel.whole hleast factor hfactor]
      have hawaits : Level.Awaits 2 { alternatives := some left } :=
        ⟨rfl, fun _ => rfl, fun h => absurd h (by decide)⟩
      refine (readJoined_meets hroom 2 outer hawaits (index + 1) rest).rightOf ?_ ?_
      · rw [hbefore.pieces_eq (hleast.trans (by decide)), hbefore.alternatives hleast]
        rfl
      · intro after level' hstops' hgathers
        have hless : after.rest.length < (byte :: rest).length := Nat.lt_succ_of_lt after.shorter
        exact readOperators_meets hroom least outer hbefore
          (Level.Gathers.alternate hleast hgathers) after.index
          (Level.tight_of_stops (by decide) hstops' fun _ h => absurd h (by decide)) _
    | opening | plain | foreign =>
      -- a byte that begins an operand is juxtaposed with what has been gathered
      have htwo : (Lexeme.ofByte byte).precedence = 2 := by rw [hmeans]; rfl
      rw [htwo] at hleast
      replace halternatives := fun h => halternatives h (by omega)
      rw [← read_follow _ _ _ _ _ _ hclosing htwo]
      have hawaits : (level.follow none).Awaits 3 :=
        ⟨rfl, fun h => absurd h (by decide), fun h => absurd h (by decide)⟩
      refine (readJoined_meets hroom 3 outer hawaits index (byte :: rest)).rightOf ?_ ?_
      · rw [Level.pieces_follow, hlevel.pieces_eq hbefore hleast halternatives]
      · intro after level' hstops' hgathers
        have hless := after.shorter
        refine readOperators_meets hroom least outer hbefore
          (hlevel.concat hleast halternatives hgathers) after.index
          (Level.tight_of_stops le_rfl hstops' fun h _ => ?_) _
        exact (hgathers.alternatives (by decide)).trans (halternatives h)
termination_by 3 * rest.length + 2

end

/-- Reading a pattern by descent comes to the same as reading it in one pass. -/
theorem parse_eq_read (limit : UInt32) (pattern : List UInt8) :
    parse limit pattern = read limit limit.toNat [] {} 0 pattern := by
  have hroom : limit.toNat + (0 : UInt32).toNat = limit.toNat := Nat.add_zero _
  have hmeets := readJoined_meets hroom 0 [] Level.awaits_empty 0 pattern
  rw [parse]
  cases hread : readJoined limit 0 0 0 pattern with
  | error failure =>
    rw [hread] at hmeets
    exact hmeets.symm
  | ok whole =>
    obtain ⟨regex, index, rest, shorter⟩ := whole
    rw [hread] at hmeets
    obtain ⟨hstops, level, hgathers, hpass⟩ := hmeets
    obtain ⟨factor, hfactor⟩ := Option.isSome_iff_exists.mp hgathers.complete
    have hwhole := hgathers.whole (Nat.zero_le 1) factor hfactor
    rw [hpass, read.eq_def]
    cases rest with
    | nil => simp [hfactor, hwhole]
    | cons byte rest =>
      have hclosing : Lexeme.ofByte byte = .closing := hstops.resolve_right (Nat.not_lt_zero _)
      simp [hclosing, hfactor, hwhole]

end Regex

end PatternAutomata
