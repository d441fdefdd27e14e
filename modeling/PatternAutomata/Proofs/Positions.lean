import PatternAutomata.Regex
import Mathlib.Data.List.Basic
import Mathlib.Data.List.ProdSigma

/-!
# Positions of an expression

The literals of an expression are numbered from left to right, beginning with a given number. A word
of the expression is spelled by a sequence of positions: it starts with one of the first, ends with
one of the last, and each position is followed by one that may follow it. Every position can be met
on such a way.
-/

namespace PatternAutomata

namespace Regex

def letters : Regex → List UInt8
  | literal byte => [byte]
  | concat first second => first.letters ++ second.letters
  | alternate left right => left.letters ++ right.letters
  | star inner => inner.letters

def literalCount (regex : Regex) : Nat := regex.letters.length

/-- Whether the empty word is a word of an expression. -/
def nullable : Regex → Bool
  | literal _ => false
  | concat first second => first.nullable && second.nullable
  | alternate left right => left.nullable || right.nullable
  | star _ => true

/-- The positions with which a word can start. -/
def first (base : Nat) : Regex → List Nat
  | literal _ => [base]
  | concat left right =>
    left.first base ++ if left.nullable then right.first (base + left.literalCount) else []
  | alternate left right => left.first base ++ right.first (base + left.literalCount)
  | star inner => inner.first base

/-- The positions with which a word can end. -/
def last (base : Nat) : Regex → List Nat
  | literal _ => [base]
  | concat left right =>
    (if right.nullable then left.last base else []) ++ right.last (base + left.literalCount)
  | alternate left right => left.last base ++ right.last (base + left.literalCount)
  | star inner => inner.last base

/-- The pairs of positions of which the second can follow the first. -/
def follow (base : Nat) : Regex → List (Nat × Nat)
  | literal _ => []
  | concat left right =>
    let middle := base + left.literalCount
    left.follow base ++ right.follow middle ++ left.last base ×ˢ right.first middle
  | alternate left right => left.follow base ++ right.follow (base + left.literalCount)
  | star inner => inner.follow base ++ inner.last base ×ˢ inner.first base

/-- Whether a number is that of a position. -/
def Numbers (base : Nat) (regex : Regex) (position : Nat) : Prop :=
  base ≤ position ∧ position < base + regex.literalCount

variable {base i j : Nat} {left right inner : Regex}

/-! ## Positions of a compound -/

lemma numbers_concat : (concat left right).Numbers base i ↔
    left.Numbers base i ∨ right.Numbers (base + left.literalCount) i := by
  simp only [Numbers, literalCount, letters, List.length_append]
  omega

lemma numbers_alternate : (alternate left right).Numbers base i ↔
    left.Numbers base i ∨ right.Numbers (base + left.literalCount) i := numbers_concat

lemma Numbers.not_right (h : left.Numbers base i) :
    ¬ right.Numbers (base + left.literalCount) i := by
  unfold Numbers at *
  omega

lemma mem_first_concat : j ∈ (concat left right).first base ↔ j ∈ left.first base ∨
    (left.nullable = true ∧ j ∈ right.first (base + left.literalCount)) := by
  by_cases h : left.nullable = true <;> simp [first, h]

lemma mem_last_concat : i ∈ (concat left right).last base ↔
    (right.nullable = true ∧ i ∈ left.last base) ∨ i ∈ right.last (base + left.literalCount) := by
  by_cases h : right.nullable = true <;> simp [last, h]

lemma mem_follow_concat : (i, j) ∈ (concat left right).follow base ↔
    (i, j) ∈ left.follow base ∨ (i, j) ∈ right.follow (base + left.literalCount) ∨
      (i ∈ left.last base ∧ j ∈ right.first (base + left.literalCount)) := by
  simp only [follow, List.mem_append, List.mem_product, or_assoc]

lemma mem_first_alternate : j ∈ (alternate left right).first base ↔
    j ∈ left.first base ∨ j ∈ right.first (base + left.literalCount) := List.mem_append

lemma mem_last_alternate : i ∈ (alternate left right).last base ↔
    i ∈ left.last base ∨ i ∈ right.last (base + left.literalCount) := List.mem_append

lemma mem_follow_alternate : (i, j) ∈ (alternate left right).follow base ↔
    (i, j) ∈ left.follow base ∨ (i, j) ∈ right.follow (base + left.literalCount) := List.mem_append

lemma mem_follow_star : (i, j) ∈ (star inner).follow base ↔
    (i, j) ∈ inner.follow base ∨ (i ∈ inner.last base ∧ j ∈ inner.first base) := by
  simp only [follow, List.mem_append, List.mem_product]

/-! ## First, last and following positions are positions -/

lemma numbers_of_mem_first {regex : Regex} (h : j ∈ regex.first base) : regex.Numbers base j := by
  induction regex generalizing base with
  | literal byte =>
    rw [List.mem_singleton.mp h]
    exact ⟨Nat.le_refl _, Nat.lt_succ_self _⟩
  | concat left right hl hr =>
    rcases mem_first_concat.mp h with h | ⟨-, h⟩
    · exact numbers_concat.mpr (.inl (hl h))
    · exact numbers_concat.mpr (.inr (hr h))
  | alternate left right hl hr =>
    exact numbers_alternate.mpr ((mem_first_alternate.mp h).imp hl hr)
  | star inner hi => exact hi h

lemma numbers_of_mem_last {regex : Regex} (h : i ∈ regex.last base) : regex.Numbers base i := by
  induction regex generalizing base with
  | literal byte =>
    rw [List.mem_singleton.mp h]
    exact ⟨Nat.le_refl _, Nat.lt_succ_self _⟩
  | concat left right hl hr =>
    rcases mem_last_concat.mp h with ⟨-, h⟩ | h
    · exact numbers_concat.mpr (.inl (hl h))
    · exact numbers_concat.mpr (.inr (hr h))
  | alternate left right hl hr =>
    exact numbers_alternate.mpr ((mem_last_alternate.mp h).imp hl hr)
  | star inner hi => exact hi h

lemma numbers_of_mem_follow {regex : Regex} (h : (i, j) ∈ regex.follow base) :
    regex.Numbers base i ∧ regex.Numbers base j := by
  induction regex generalizing base with
  | literal byte => cases h
  | concat left right hl hr =>
    rw [numbers_concat, numbers_concat]
    rcases mem_follow_concat.mp h with h | h | ⟨hi, hj⟩
    · exact ⟨.inl (hl h).1, .inl (hl h).2⟩
    · exact ⟨.inr (hr h).1, .inr (hr h).2⟩
    · exact ⟨.inl (numbers_of_mem_last hi), .inr (numbers_of_mem_first hj)⟩
  | alternate left right hl hr =>
    rw [numbers_alternate, numbers_alternate]
    rcases mem_follow_alternate.mp h with h | h
    · exact ⟨.inl (hl h).1, .inl (hl h).2⟩
    · exact ⟨.inr (hr h).1, .inr (hr h).2⟩
  | star inner hi =>
    rcases mem_follow_star.mp h with h | ⟨hl, hf⟩
    · exact hi h
    · exact ⟨numbers_of_mem_last hl, numbers_of_mem_first hf⟩

/-! ## Every position is met -/

lemma exists_mem_last (base : Nat) (regex : Regex) : ∃ i, i ∈ regex.last base := by
  induction regex generalizing base with
  | literal byte => exact ⟨base, List.mem_singleton.mpr rfl⟩
  | concat left right _ hr =>
    obtain ⟨i, h⟩ := hr (base + left.literalCount)
    exact ⟨i, mem_last_concat.mpr (.inr h)⟩
  | alternate left right hl _ =>
    obtain ⟨i, h⟩ := hl base
    exact ⟨i, mem_last_alternate.mpr (.inl h)⟩
  | star inner hi => exact hi base

/-- What holds of the first positions and of all that follow holds of every position. -/
theorem forall_numbers {regex : Regex} {p : Nat → Prop} (hfirst : ∀ j ∈ regex.first base, p j)
    (hfollow : ∀ i j, (i, j) ∈ regex.follow base → p i → p j) (h : regex.Numbers base j) : p j := by
  induction regex generalizing base j with
  | literal byte =>
    refine hfirst j (List.mem_singleton.mpr ?_)
    simp only [Numbers, literalCount, letters, List.length_singleton] at h
    omega
  | concat left right hl hr =>
    have hleft : ∀ {j}, left.Numbers base j → p j := fun h =>
      hl (fun j hj => hfirst j (mem_first_concat.mpr (.inl hj)))
        (fun i j hij => hfollow i j (mem_follow_concat.mpr (.inl hij))) h
    rcases numbers_concat.mp h with h | h
    · exact hleft h
    · obtain ⟨i, hi⟩ := exists_mem_last base left
      refine hr (fun j hj => ?_)
        (fun i j hij => hfollow i j (mem_follow_concat.mpr (.inr (.inl hij)))) h
      exact hfollow i j (mem_follow_concat.mpr (.inr (.inr ⟨hi, hj⟩)))
        (hleft (numbers_of_mem_last hi))
  | alternate left right hl hr =>
    rcases numbers_alternate.mp h with h | h
    · exact hl (fun j hj => hfirst j (mem_first_alternate.mpr (.inl hj)))
        (fun i j hij => hfollow i j (mem_follow_alternate.mpr (.inl hij))) h
    · exact hr (fun j hj => hfirst j (mem_first_alternate.mpr (.inr hj)))
        (fun i j hij => hfollow i j (mem_follow_alternate.mpr (.inr hij))) h
  | star inner hi =>
    exact hi hfirst (fun i j hij => hfollow i j (mem_follow_star.mpr (.inl hij))) h

end Regex

/-! ## Positions of several patterns -/

/-- An expression with the token of its words and the number of its first position. -/
structure Placement where
  base : Nat
  token : UInt32
  regex : Regex

/-- The patterns one after the other, the first position of the first with a given number. -/
def placements (base : Nat) : List (UInt32 × Regex) → List Placement
  | [] => []
  | (token, regex) :: rest => ⟨base, token, regex⟩ :: placements (base + regex.literalCount) rest

def lettersOf (patterns : List (UInt32 × Regex)) : List UInt8 :=
  patterns.flatMap fun (_, regex) => regex.letters

/-- Whether one position can follow another. Zero stands for the place before every word. -/
def Succeeds (patterns : List (UInt32 × Regex)) (i j : Nat) : Prop :=
  ∃ placed ∈ placements 1 patterns,
    (i = 0 ∧ j ∈ placed.regex.first placed.base) ∨ (i, j) ∈ placed.regex.follow placed.base

/-- Whether a word with a token can end at a position, or before every position. -/
def Concludes (patterns : List (UInt32 × Regex)) (i : Nat) (token : UInt32) : Prop :=
  ∃ placed ∈ placements 1 patterns, placed.token = token ∧
    ((i = 0 ∧ placed.regex.nullable = true) ∨ i ∈ placed.regex.last placed.base)

instance (patterns : List (UInt32 × Regex)) (i j : Nat) : Decidable (Succeeds patterns i j) :=
  inferInstanceAs (Decidable (∃ placed ∈ placements 1 patterns, _))

instance (patterns : List (UInt32 × Regex)) (i : Nat) (token : UInt32) :
    Decidable (Concludes patterns i token) :=
  inferInstanceAs (Decidable (∃ placed ∈ placements 1 patterns, _))

section Several

variable {patterns : List (UInt32 × Regex)} {placed : Placement} {i j : Nat}

lemma placements_append (base : Nat) (patterns more : List (UInt32 × Regex)) :
    placements base (patterns ++ more) =
      placements base patterns ++ placements (base + (lettersOf patterns).length) more := by
  induction patterns generalizing base with
  | nil => simp [placements, lettersOf]
  | cons pattern rest ih =>
    obtain ⟨token, regex⟩ := pattern
    simp only [List.cons_append, placements, ih, lettersOf, List.flatMap_cons, List.length_append,
      Regex.literalCount, Nat.add_assoc]

lemma lettersOf_append (patterns more : List (UInt32 × Regex)) :
    lettersOf (patterns ++ more) = lettersOf patterns ++ lettersOf more := List.flatMap_append

lemma le_of_mem_placements {base : Nat} (h : placed ∈ placements base patterns) :
    base ≤ placed.base ∧
      placed.base + placed.regex.literalCount ≤ base + (lettersOf patterns).length := by
  induction patterns generalizing base with
  | nil => cases h
  | cons pattern rest ih =>
    obtain ⟨token, regex⟩ := pattern
    simp only [lettersOf, List.flatMap_cons, List.length_append]
    rcases List.mem_cons.mp h with rfl | h
    · exact ⟨Nat.le_refl _, by simp only [Regex.literalCount]; omega⟩
    · have := ih h
      simp only [lettersOf, Regex.literalCount] at this ⊢
      omega

lemma exists_mem_placements_iff {base : Nat} {token : UInt32} {regex : Regex} :
    (∃ number, ⟨number, token, regex⟩ ∈ placements base patterns) ↔ (token, regex) ∈ patterns := by
  induction patterns generalizing base with
  | nil => simp [placements]
  | cons pattern rest ih =>
    obtain ⟨token', regex'⟩ := pattern
    simp only [placements, List.mem_cons, Placement.mk.injEq, exists_or, ih, exists_and_right,
      exists_eq, true_and, Prod.mk.injEq]

lemma exists_placement {base : Nat} (h : base ≤ i) (h' : i < base + (lettersOf patterns).length) :
    ∃ placed ∈ placements base patterns, placed.regex.Numbers placed.base i := by
  induction patterns generalizing base with
  | nil =>
    simp only [lettersOf, List.flatMap_nil, List.length_nil] at h'
    omega
  | cons pattern rest ih =>
    obtain ⟨token, regex⟩ := pattern
    simp only [lettersOf, List.flatMap_cons, List.length_append] at h'
    by_cases hi : i < base + regex.literalCount
    · exact ⟨_, List.mem_cons_self, h, hi⟩
    · obtain ⟨placed, hp, hn⟩ := ih (Nat.not_lt.mp hi) (by
        simp only [Regex.literalCount, lettersOf] at *
        omega)
      exact ⟨placed, List.mem_cons_of_mem _ hp, hn⟩

lemma placement_unique {base : Nat} {placed' : Placement} (h : placed ∈ placements base patterns)
    (h' : placed' ∈ placements base patterns) (hn : placed.regex.Numbers placed.base i)
    (hn' : placed'.regex.Numbers placed'.base i) : placed = placed' := by
  induction patterns generalizing base with
  | nil => cases h
  | cons pattern rest ih =>
    obtain ⟨token, regex⟩ := pattern
    have hdisjoint : ∀ {other : Placement}, other ∈ placements (base + regex.literalCount) rest →
        other.regex.Numbers other.base i → ¬ regex.Numbers base i := by
      intro other ho hi hc
      have := (le_of_mem_placements ho).1
      unfold Regex.Numbers at *
      omega
    rcases List.mem_cons.mp h with rfl | h <;> rcases List.mem_cons.mp h' with rfl | h'
    · rfl
    · exact absurd hn (hdisjoint h' hn')
    · exact absurd hn' (hdisjoint h hn)
    · exact ih h h'

lemma Succeeds.le (h : Succeeds patterns i j) :
    i ≤ (lettersOf patterns).length ∧ 1 ≤ j ∧ j ≤ (lettersOf patterns).length := by
  obtain ⟨placed, hp, ⟨rfl, hj⟩ | hij⟩ := h
  · have := le_of_mem_placements hp
    have := Regex.numbers_of_mem_first hj
    unfold Regex.Numbers at this
    omega
  · have := le_of_mem_placements hp
    have := Regex.numbers_of_mem_follow hij
    unfold Regex.Numbers at this
    omega

lemma Concludes.le {token : UInt32} (h : Concludes patterns i token) :
    i ≤ (lettersOf patterns).length := by
  obtain ⟨placed, hp, -, ⟨rfl, -⟩ | hi⟩ := h
  · exact Nat.zero_le _
  · have := le_of_mem_placements hp
    have := Regex.numbers_of_mem_last hi
    unfold Regex.Numbers at this
    omega

lemma mem_placements_concat {token : UInt32} {regex : Regex} :
    placed ∈ placements 1 (patterns ++ [(token, regex)]) ↔ placed ∈ placements 1 patterns ∨
      placed = ⟨1 + (lettersOf patterns).length, token, regex⟩ := by
  rw [placements_append, List.mem_append]
  exact or_congr_right List.mem_singleton

lemma succeeds_concat {token : UInt32} {regex : Regex} :
    Succeeds (patterns ++ [(token, regex)]) i j ↔ Succeeds patterns i j ∨
      (i = 0 ∧ j ∈ regex.first (1 + (lettersOf patterns).length)) ∨
      (i, j) ∈ regex.follow (1 + (lettersOf patterns).length) := by
  simp only [Succeeds, mem_placements_concat, or_and_right, exists_or, exists_eq_left]

lemma concludes_concat {token other : UInt32} {regex : Regex} :
    Concludes (patterns ++ [(token, regex)]) i other ↔ Concludes patterns i other ∨
      (token = other ∧ ((i = 0 ∧ regex.nullable = true) ∨
        i ∈ regex.last (1 + (lettersOf patterns).length))) := by
  simp only [Concludes, mem_placements_concat, or_and_right, exists_or, exists_eq_left]

lemma lettersOf_concat {token : UInt32} {regex : Regex} :
    lettersOf (patterns ++ [(token, regex)]) = lettersOf patterns ++ regex.letters := by
  rw [lettersOf_append]
  exact congrArg _ (List.append_nil _)

/-- What holds before every word and goes over from each position to those that can follow holds of
every position. -/
lemma forall_positions {p : Nat → Prop} (hzero : p 0)
    (hstep : ∀ i j, Succeeds patterns i j → p i → p j) (h : i ≤ (lettersOf patterns).length) :
    p i := by
  by_cases hi : i = 0
  · exact hi ▸ hzero
  obtain ⟨placed, hp, hn⟩ : ∃ placed ∈ placements 1 patterns, placed.regex.Numbers placed.base i :=
    exists_placement (by omega) (by omega)
  exact Regex.forall_numbers (fun j hj => hstep 0 j ⟨placed, hp, .inl ⟨rfl, hj⟩⟩ hzero)
    (fun i j hij => hstep i j ⟨placed, hp, .inr hij⟩) hn

end Several

end PatternAutomata
