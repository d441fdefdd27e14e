import PatternAutomata.Proofs.Run
import PatternAutomata.Proofs.Thompson
import Mathlib.Computability.Language

/-!
# The language of a fragment

The words spelled by the paths of a fragment from its entry to its exit are those of the expression.
A path leaves the fragment of a subexpression only by its exit, and then along an edge that consumes
nothing. So a path through the whole splits into paths through the parts, and the word with it.
-/

namespace PatternAutomata

open Computability

/-! ## Paths through a region -/

section Regions

variable {inner outer : NodeId → UInt8 → NodeId → Prop} {inside : NodeId → Prop} {exit : NodeId}
  {next : NodeId → Prop}

/-- The edges from within a region are its own, except that its exit may lead on silently. -/
def Leaves (inner outer : NodeId → UInt8 → NodeId → Prop) (inside : NodeId → Prop) (exit : NodeId)
    (next : NodeId → Prop) : Prop :=
  ∀ source symbol dest, inside source → outer source symbol dest →
    (inner source symbol dest ∧ inside dest) ∨
      (source = exit ∧ symbol = Transition.epsilon ∧ next dest)

/-- A path from within a region stays in it or leaves it by its exit. -/
lemma Reads.leave (hl : Leaves inner outer inside exit next) {source last : NodeId}
    {word : List UInt8} (hs : inside source) (h : Reads outer source word last) :
    (inside last ∧ Reads inner source word last) ∨
      ∃ before after dest, word = before ++ after ∧ Reads inner source before exit ∧ next dest ∧
        Reads outer dest after last := by
  induction h with
  | here id => exact .inl ⟨hs, .here id⟩
  | @silent id middle last word hstep hrest ih =>
    rcases hl _ _ _ hs hstep with ⟨hin, hm⟩ | ⟨rfl, -, hn⟩
    · rcases ih hm with ⟨hlast, hr⟩ | ⟨before, after, dest, rfl, hr, hd⟩
      · exact .inl ⟨hlast, .silent hin hr⟩
      · exact .inr ⟨before, after, dest, rfl, .silent hin hr, hd⟩
    · exact .inr ⟨[], word, middle, rfl, .here _, hn, hrest⟩
  | @consume id middle last symbol word hne hstep hrest ih =>
    rcases hl _ _ _ hs hstep with ⟨hin, hm⟩ | ⟨-, heq, -⟩
    · rcases ih hm with ⟨hlast, hr⟩ | ⟨before, after, dest, rfl, hr, hd⟩
      · exact .inl ⟨hlast, .consume hne hin hr⟩
      · exact .inr ⟨symbol :: before, after, dest, rfl, .consume hne hin hr, hd⟩
    · exact absurd heq hne

def through (leads : NodeId → UInt8 → NodeId → Prop) (source dest : NodeId) : Language UInt8 :=
  {word | Reads leads source word dest}

lemma append_mem_kstar {language : Language UInt8} {word rest : List UInt8} (hw : word ∈ language)
    (hr : rest ∈ language∗) : word ++ rest ∈ language∗ := by
  rw [← Language.one_add_self_mul_kstar_eq_kstar, Language.mem_add]
  exact .inr (Language.append_mem_mul hw hr)

/-- A path within a region whose exit leads back to its entry goes through it some number of times
in between. -/
lemma Reads.loop {entry : NodeId} {out : NodeId → Prop}
    (hl : Leaves inner outer inside exit fun dest => dest = entry ∨ out dest) (he : inside entry)
    (hout : ∀ dest, out dest → ∀ symbol after, ¬ outer dest symbol after) {source last : NodeId}
    {word : List UInt8} (hs : inside source) (h : Reads outer source word last) :
    (inside last ∧ Reads inner source word last) ∨
      ∃ before rounds, rounds ∈ (through inner entry exit)∗ ∧ Reads inner source before exit ∧
        ((out last ∧ word = before ++ rounds) ∨
          ∃ after, inside last ∧ word = before ++ (rounds ++ after) ∧ Reads inner entry after last) := by
  induction h with
  | here id => exact .inl ⟨hs, .here id⟩
  | @silent id middle last word hstep hrest ih =>
    rcases hl _ _ _ hs hstep with ⟨hin, hm⟩ | ⟨rfl, -, rfl | hn⟩
    · rcases ih hm with ⟨hlast, hr⟩ | ⟨before, rounds, hrounds, hr, hend⟩
      · exact .inl ⟨hlast, .silent hin hr⟩
      · exact .inr ⟨before, rounds, hrounds, .silent hin hr, hend⟩
    · rcases ih he with ⟨hlast, hr⟩ | ⟨before, rounds, hrounds, hr, hend⟩
      · exact .inr ⟨[], [], Language.nil_mem_kstar _, .here _, .inr ⟨word, hlast, rfl, hr⟩⟩
      · refine .inr ⟨[], before ++ rounds, append_mem_kstar hr hrounds, .here _, ?_⟩
        rcases hend with ⟨hlast, rfl⟩ | ⟨after, hlast, rfl, hafter⟩
        · exact .inl ⟨hlast, rfl⟩
        · exact .inr ⟨after, hlast, (List.append_assoc _ _ _).symm, hafter⟩
    · cases hrest with
      | here => exact .inr ⟨[], [], Language.nil_mem_kstar _, .here _, .inl ⟨hn, rfl⟩⟩
      | silent hstep' _ => exact absurd hstep' (hout _ hn _ _)
      | consume _ hstep' _ => exact absurd hstep' (hout _ hn _ _)
  | @consume id middle last symbol word hne hstep hrest ih =>
    rcases hl _ _ _ hs hstep with ⟨hin, hm⟩ | ⟨-, heq, -⟩
    · rcases ih hm with ⟨hlast, hr⟩ | ⟨before, rounds, hrounds, hr, hend⟩
      · exact .inl ⟨hlast, .consume hne hin hr⟩
      · refine .inr ⟨symbol :: before, rounds, hrounds, .consume hne hin hr, ?_⟩
        rcases hend with ⟨hlast, rfl⟩ | ⟨after, hlast, rfl, hafter⟩
        · exact .inl ⟨hlast, rfl⟩
        · exact .inr ⟨after, hlast, rfl, hafter⟩
    · exact absurd heq hne

end Regions

/-! ## Wires -/

/-- Whether one of some wires leads from a node to another with a given symbol. -/
def Wired (wires : List Wire) (source : NodeId) (symbol : UInt8) (dest : NodeId) : Prop :=
  (⟨source, ⟨dest, ⟨symbol⟩⟩⟩ : Wire) ∈ wires

namespace Regex

variable {base : Nat} {source dest : NodeId} {symbol byte : UInt8} {first second inner : Regex}

lemma wired_literal : Wired ((literal byte).wiring base) source symbol dest ↔
    source = ⟨base⟩ ∧ symbol = byte ∧ dest = ⟨base + 1⟩ := by
  simp only [Wired, wiring, Wire.reading, List.mem_singleton, Wire.mk.injEq, Edge.mk.injEq,
    Transition.mk.injEq]
  tauto

lemma wired_concat : Wired ((concat first second).wiring base) source symbol dest ↔
    Wired (first.wiring base) source symbol dest ∨
      Wired (second.wiring (base + first.nodeCount)) source symbol dest ∨
      (source = first.exitAt base ∧ symbol = Transition.epsilon ∧
        dest = second.entryAt (base + first.nodeCount)) := by
  simp only [Wired, wiring, Wire.silent, List.mem_append, List.mem_singleton, Wire.mk.injEq,
    Edge.mk.injEq, Transition.mk.injEq]
  tauto

lemma wired_alternate : Wired ((alternate first second).wiring base) source symbol dest ↔
    Wired (first.wiring base) source symbol dest ∨
      Wired (second.wiring (base + first.nodeCount)) source symbol dest ∨
      (symbol = Transition.epsilon ∧
        ((source = (alternate first second).entryAt base ∧
            (dest = first.entryAt base ∨ dest = second.entryAt (base + first.nodeCount))) ∨
          ((source = first.exitAt base ∨ source = second.exitAt (base + first.nodeCount)) ∧
            dest = (alternate first second).exitAt base))) := by
  simp only [Wired, wiring, Wire.silent, List.mem_append, List.mem_cons, List.not_mem_nil,
    or_false, Wire.mk.injEq, Edge.mk.injEq, Transition.mk.injEq, entryAt, exitAt]
  tauto

lemma wired_star : Wired ((star inner).wiring base) source symbol dest ↔
    Wired (inner.wiring base) source symbol dest ∨
      (symbol = Transition.epsilon ∧
        (source = inner.exitAt base ∨ source = (star inner).entryAt base) ∧
        (dest = inner.entryAt base ∨ dest = (star inner).exitAt base)) := by
  simp only [Wired, wiring, Wire.silent, List.mem_append, List.mem_cons, List.not_mem_nil,
    or_false, Wire.mk.injEq, Edge.mk.injEq, Transition.mk.injEq, entryAt, exitAt]
  tauto

/-- The wires of a fragment join its own nodes, none of them leads to its entry and none leaves its
exit. -/
structure Isolated (base : Nat) (regex : Regex) : Prop where
  covers : ∀ {source symbol dest}, Wired (regex.wiring base) source symbol dest →
    regex.Covers base source ∧ regex.Covers base dest
  not_to_entry : ∀ {source symbol}, ¬ Wired (regex.wiring base) source symbol (regex.entryAt base)
  not_from_exit : ∀ {symbol dest}, ¬ Wired (regex.wiring base) (regex.exitAt base) symbol dest

lemma Covers.not_second {id : NodeId} (h : first.Covers base id) :
    ¬ second.Covers (base + first.nodeCount) id :=
  fun h' => absurd h.2 (Nat.not_lt.mpr h'.1)

lemma Covers.concat_first {id : NodeId} (h : first.Covers base id) :
    (concat first second).Covers base id :=
  ⟨h.1, by have := h.2; simp only [nodeCount]; omega⟩

lemma Covers.concat_second {id : NodeId} (h : second.Covers (base + first.nodeCount) id) :
    (concat first second).Covers base id :=
  ⟨by have := h.1; omega, by have := h.2; simp only [nodeCount]; omega⟩

lemma Covers.alternate_first {id : NodeId} (h : first.Covers base id) :
    (alternate first second).Covers base id ∧ id ≠ (alternate first second).entryAt base ∧
      id ≠ (alternate first second).exitAt base := by
  have h' := h.2
  refine ⟨⟨h.1, by simp only [nodeCount]; omega⟩, ?_, ?_⟩
  · rintro rfl
    simp only [entryAt] at h'
    omega
  · rintro rfl
    simp only [exitAt] at h'
    omega

lemma Covers.alternate_second {id : NodeId} (h : second.Covers (base + first.nodeCount) id) :
    (alternate first second).Covers base id ∧ id ≠ (alternate first second).entryAt base ∧
      id ≠ (alternate first second).exitAt base := by
  obtain ⟨h, h'⟩ := h
  refine ⟨⟨by omega, by simp only [nodeCount]; omega⟩, ?_, ?_⟩
  · rintro rfl
    simp only [entryAt] at h'
    omega
  · rintro rfl
    simp only [exitAt] at h'
    omega

lemma Covers.star_inner {id : NodeId} (h : inner.Covers base id) :
    (star inner).Covers base id ∧ id ≠ (star inner).entryAt base ∧
      id ≠ (star inner).exitAt base := by
  have h' := h.2
  refine ⟨⟨h.1, by simp only [nodeCount]; omega⟩, ?_, ?_⟩
  · rintro rfl
    simp only [entryAt] at h'
    omega
  · rintro rfl
    simp only [exitAt] at h'
    omega

lemma entryAt_ne_exitAt (base : Nat) (regex : Regex) : regex.entryAt base ≠ regex.exitAt base := by
  cases regex with
  | literal byte => simp [entryAt, exitAt]
  | concat first second =>
    intro h
    exact (first.covers_entryAt base).not_second (h ▸ second.covers_exitAt _)
  | alternate first second => simp [entryAt, exitAt]
  | star inner => simp [entryAt, exitAt]

theorem isolated (base : Nat) (regex : Regex) : regex.Isolated base := by
  induction regex generalizing base with
  | literal byte =>
    refine ⟨fun h => ?_, fun h => ?_, fun h => ?_⟩
    · obtain ⟨rfl, -, rfl⟩ := wired_literal.mp h
      simp [Covers, nodeCount]
    · simpa [entryAt] using (wired_literal.mp h).2.2
    · simpa [exitAt] using (wired_literal.mp h).1
  | concat first second hf hs =>
    have hentry := first.covers_entryAt base
    have hexit := second.covers_exitAt (base + first.nodeCount)
    refine ⟨fun h => ?_, fun h => ?_, fun h => ?_⟩
    · rcases wired_concat.mp h with h | h | ⟨rfl, -, rfl⟩
      · exact ⟨((hf base).covers h).1.concat_first, ((hf base).covers h).2.concat_first⟩
      · exact ⟨((hs _).covers h).1.concat_second, ((hs _).covers h).2.concat_second⟩
      · exact ⟨(first.covers_exitAt base).concat_first, (second.covers_entryAt _).concat_second⟩
    · rcases wired_concat.mp h with h | h | ⟨-, -, heq⟩
      · exact (hf base).not_to_entry h
      · exact hentry.not_second ((hs _).covers h).2
      · exact hentry.not_second (heq ▸ second.covers_entryAt _)
    · rcases wired_concat.mp h with h | h | ⟨heq, -, -⟩
      · exact ((hf base).covers h).1.not_second hexit
      · exact (hs _).not_from_exit h
      · exact (heq ▸ first.covers_exitAt base : first.Covers base _).not_second hexit
  | alternate first second hf hs =>
    have hentry := (alternate first second).covers_entryAt base
    have hexit := (alternate first second).covers_exitAt base
    refine ⟨fun h => ?_, fun h => ?_, fun h => ?_⟩
    · rcases wired_alternate.mp h with h | h | ⟨-, ⟨rfl, rfl | rfl⟩ | ⟨rfl | rfl, rfl⟩⟩
      · exact ⟨((hf base).covers h).1.alternate_first.1, ((hf base).covers h).2.alternate_first.1⟩
      · exact ⟨((hs _).covers h).1.alternate_second.1, ((hs _).covers h).2.alternate_second.1⟩
      · exact ⟨hentry, (first.covers_entryAt base).alternate_first.1⟩
      · exact ⟨hentry, (second.covers_entryAt _).alternate_second.1⟩
      · exact ⟨(first.covers_exitAt base).alternate_first.1, hexit⟩
      · exact ⟨(second.covers_exitAt _).alternate_second.1, hexit⟩
    · rcases wired_alternate.mp h with h | h | ⟨-, ⟨-, heq | heq⟩ | ⟨-, heq⟩⟩
      · exact ((hf base).covers h).2.alternate_first.2.1 rfl
      · exact ((hs _).covers h).2.alternate_second.2.1 rfl
      · exact (first.covers_entryAt base).alternate_first.2.1 heq.symm
      · exact (second.covers_entryAt _).alternate_second.2.1 heq.symm
      · exact entryAt_ne_exitAt base _ heq
    · rcases wired_alternate.mp h with h | h | ⟨-, ⟨heq, -⟩ | ⟨heq | heq, -⟩⟩
      · exact ((hf base).covers h).1.alternate_first.2.2 rfl
      · exact ((hs _).covers h).1.alternate_second.2.2 rfl
      · exact entryAt_ne_exitAt base _ heq.symm
      · exact (first.covers_exitAt base).alternate_first.2.2 heq.symm
      · exact (second.covers_exitAt _).alternate_second.2.2 heq.symm
  | star inner hi =>
    have hentry := (star inner).covers_entryAt base
    have hexit := (star inner).covers_exitAt base
    have hentry' := (inner.covers_entryAt base).star_inner
    have hexit' := (inner.covers_exitAt base).star_inner
    refine ⟨fun h => ?_, fun h => ?_, fun h => ?_⟩
    · rcases wired_star.mp h with h | ⟨-, hsource, hdest⟩
      · exact ⟨((hi base).covers h).1.star_inner.1, ((hi base).covers h).2.star_inner.1⟩
      · constructor
        · rcases hsource with rfl | rfl
          · exact hexit'.1
          · exact hentry
        · rcases hdest with rfl | rfl
          · exact hentry'.1
          · exact hexit
    · rcases wired_star.mp h with h | ⟨-, -, heq | heq⟩
      · exact ((hi base).covers h).2.star_inner.2.1 rfl
      · exact hentry'.2.1 heq.symm
      · exact entryAt_ne_exitAt base _ heq
    · rcases wired_star.mp h with h | ⟨-, heq | heq, -⟩
      · exact ((hi base).covers h).1.star_inner.2.2 rfl
      · exact hexit'.2.2 heq.symm
      · exact entryAt_ne_exitAt base _ heq.symm

/-! ## Edges between a fragment and its parts -/

lemma wired_concat_join {id : NodeId} (h : id = second.entryAt (base + first.nodeCount)) :
    Wired ((concat first second).wiring base) (first.exitAt base) Transition.epsilon id :=
  wired_concat.mpr (.inr (.inr ⟨rfl, rfl, h⟩))

lemma wired_alternate_entry : Wired ((alternate first second).wiring base)
    ((alternate first second).entryAt base) symbol dest ↔ symbol = Transition.epsilon ∧
      (dest = first.entryAt base ∨ dest = second.entryAt (base + first.nodeCount)) := by
  constructor
  · intro h
    rcases wired_alternate.mp h with h | h | ⟨hs, ⟨-, hd⟩ | ⟨heq | heq, -⟩⟩
    · exact absurd rfl ((isolated base first).covers h).1.alternate_first.2.1
    · exact absurd rfl ((isolated _ second).covers h).1.alternate_second.2.1
    · exact ⟨hs, hd⟩
    · exact absurd heq.symm (first.covers_exitAt base).alternate_first.2.1
    · exact absurd heq.symm (second.covers_exitAt _).alternate_second.2.1
  · rintro ⟨rfl, hd⟩
    exact wired_alternate.mpr (.inr (.inr ⟨rfl, .inl ⟨rfl, hd⟩⟩))

lemma wired_alternate_exit (h : source = first.exitAt base ∨
    source = second.exitAt (base + first.nodeCount)) {id : NodeId}
    (hid : id = (alternate first second).exitAt base) :
    Wired ((alternate first second).wiring base) source Transition.epsilon id :=
  wired_alternate.mpr (.inr (.inr ⟨rfl, .inr ⟨h, hid⟩⟩))

lemma wired_star_entry : Wired ((star inner).wiring base) ((star inner).entryAt base) symbol dest ↔
    symbol = Transition.epsilon ∧
      (dest = inner.entryAt base ∨ dest = (star inner).exitAt base) := by
  constructor
  · intro h
    rcases wired_star.mp h with h | ⟨hs, -, hd⟩
    · exact absurd rfl ((isolated base inner).covers h).1.star_inner.2.1
    · exact ⟨hs, hd⟩
  · rintro ⟨rfl, hd⟩
    exact wired_star.mpr (.inr ⟨rfl, .inr rfl, hd⟩)

lemma wired_star_exit {id : NodeId}
    (hid : id = inner.entryAt base ∨ id = (star inner).exitAt base) :
    Wired ((star inner).wiring base) (inner.exitAt base) Transition.epsilon id :=
  wired_star.mpr (.inr ⟨rfl, .inl rfl, hid⟩)

/-! ## Leaving the fragment of a subexpression -/

lemma leaves_concat_first : Leaves (Wired (first.wiring base))
    (Wired ((concat first second).wiring base)) (first.Covers base) (first.exitAt base)
    (· = second.entryAt (base + first.nodeCount)) := by
  intro source symbol dest hin h
  rcases wired_concat.mp h with h | h | h
  · exact .inl ⟨h, ((isolated base first).covers h).2⟩
  · exact absurd ((isolated _ second).covers h).1 hin.not_second
  · exact .inr h

lemma leaves_concat_second : Leaves (Wired (second.wiring (base + first.nodeCount)))
    (Wired ((concat first second).wiring base)) (second.Covers (base + first.nodeCount))
    (second.exitAt (base + first.nodeCount)) fun _ => False := by
  intro source symbol dest hin h
  rcases wired_concat.mp h with h | h | ⟨rfl, -, -⟩
  · exact absurd hin ((isolated base first).covers h).1.not_second
  · exact .inl ⟨h, ((isolated _ second).covers h).2⟩
  · exact absurd hin (first.covers_exitAt base).not_second

lemma leaves_alternate_first : Leaves (Wired (first.wiring base))
    (Wired ((alternate first second).wiring base)) (first.Covers base) (first.exitAt base)
    (· = (alternate first second).exitAt base) := by
  intro source symbol dest hin h
  rcases wired_alternate.mp h with h | h | ⟨hs, ⟨rfl, -⟩ | ⟨rfl | rfl, hd⟩⟩
  · exact .inl ⟨h, ((isolated base first).covers h).2⟩
  · exact absurd ((isolated _ second).covers h).1 hin.not_second
  · exact absurd rfl hin.alternate_first.2.1
  · exact .inr ⟨rfl, hs, hd⟩
  · exact absurd (second.covers_exitAt _) hin.not_second

lemma leaves_alternate_second : Leaves (Wired (second.wiring (base + first.nodeCount)))
    (Wired ((alternate first second).wiring base)) (second.Covers (base + first.nodeCount))
    (second.exitAt (base + first.nodeCount)) (· = (alternate first second).exitAt base) := by
  intro source symbol dest hin h
  rcases wired_alternate.mp h with h | h | ⟨hs, ⟨rfl, -⟩ | ⟨rfl | rfl, hd⟩⟩
  · exact absurd hin ((isolated base first).covers h).1.not_second
  · exact .inl ⟨h, ((isolated _ second).covers h).2⟩
  · exact absurd rfl hin.alternate_second.2.1
  · exact absurd hin (first.covers_exitAt base).not_second
  · exact .inr ⟨rfl, hs, hd⟩

lemma leaves_star : Leaves (Wired (inner.wiring base)) (Wired ((star inner).wiring base))
    (inner.Covers base) (inner.exitAt base)
    fun dest => dest = inner.entryAt base ∨ dest = (star inner).exitAt base := by
  intro source symbol dest hin h
  rcases wired_star.mp h with h | ⟨hs, rfl | rfl, hd⟩
  · exact .inl ⟨h, ((isolated base inner).covers h).2⟩
  · exact .inr ⟨rfl, hs, hd⟩
  · exact absurd rfl hin.star_inner.2.1

lemma reads_exitAt {regex : Regex} {word : List UInt8} {last : NodeId}
    (h : Reads (Wired (regex.wiring base)) (regex.exitAt base) word last) :
    word = [] ∧ last = regex.exitAt base := by
  cases h with
  | here => exact ⟨rfl, rfl⟩
  | silent hstep _ => exact absurd hstep (isolated base regex).not_from_exit
  | consume _ hstep _ => exact absurd hstep (isolated base regex).not_from_exit

/-! ## Words -/

/-- The words of an expression. -/
def language : Regex → Language UInt8
  | literal byte => {[byte]}
  | concat first second => first.language * second.language
  | alternate left right => left.language + right.language
  | star inner => inner.language∗

/-- Whether every literal of an expression consumes its byte. -/
def Proper : Regex → Prop
  | literal byte => byte ≠ Transition.epsilon
  | concat first second => first.Proper ∧ second.Proper
  | alternate left right => left.Proper ∧ right.Proper
  | star inner => inner.Proper

/-- The words that lead from the entry of a fragment to its exit. -/
def passage (base : Nat) (regex : Regex) : Language UInt8 :=
  through (Wired (regex.wiring base)) (regex.entryAt base) (regex.exitAt base)

lemma passage_literal (h : byte ≠ Transition.epsilon) :
    (literal byte).passage base = {[byte]} := by
  ext word
  constructor
  · intro hr
    cases hr with
    | silent hstep _ => exact absurd (wired_literal.mp hstep).2.1.symm h
    | consume _ hstep hrest =>
      obtain ⟨-, rfl, rfl⟩ := wired_literal.mp hstep
      have hend := @reads_exitAt base (literal _) _ _ hrest
      rw [hend.1]
      rfl
  · rintro rfl
    exact .consume h (wired_literal.mpr ⟨rfl, rfl, rfl⟩) (.here _)

lemma passage_concat : (concat first second).passage base =
    first.passage base * second.passage (base + first.nodeCount) := by
  ext word
  rw [Language.mem_mul]
  constructor
  · intro hr
    rcases Reads.leave leaves_concat_first (first.covers_entryAt base) hr with
      ⟨hin, -⟩ | ⟨before, after, _, rfl, hbefore, rfl, hafter⟩
    · exact absurd (second.covers_exitAt _) hin.not_second
    · rcases Reads.leave leaves_concat_second (second.covers_entryAt _) hafter with
        ⟨-, hrest⟩ | ⟨_, _, _, _, _, hfalse, _⟩
      · exact ⟨before, hbefore, after, hrest, rfl⟩
      · exact hfalse.elim
  · rintro ⟨before, hbefore, after, hafter, rfl⟩
    apply (Reads.mono (fun _ _ _ h => wired_concat.mpr (.inl h)) hbefore).append
    apply Reads.silent (wired_concat_join rfl)
    exact Reads.mono (fun _ _ _ h => wired_concat.mpr (.inr (.inl h))) hafter

lemma passage_alternate : (alternate first second).passage base =
    first.passage base + second.passage (base + first.nodeCount) := by
  have hend : ∀ {after : List UInt8}, Reads (Wired ((alternate first second).wiring base))
      ((alternate first second).exitAt base) after ((alternate first second).exitAt base) →
      after = [] := fun h => (reads_exitAt h).1
  ext word
  rw [Language.mem_add]
  constructor
  · intro hr
    -- the first edge chooses the alternative
    rcases hr.head with ⟨-, heq⟩ | ⟨_, hstep, hrest⟩ | ⟨_, _, _, -, hne, hstep, -⟩
    · exact absurd heq.symm (entryAt_ne_exitAt base _)
    · rcases (wired_alternate_entry.mp hstep).2 with rfl | rfl
      · rcases Reads.leave leaves_alternate_first (first.covers_entryAt base) hrest with
          ⟨hin, -⟩ | ⟨before, after, _, rfl, hbefore, rfl, hafter⟩
        · exact absurd rfl hin.alternate_first.2.2
        · rw [hend hafter, List.append_nil]
          exact .inl hbefore
      · rcases Reads.leave leaves_alternate_second (second.covers_entryAt _) hrest with
          ⟨hin, -⟩ | ⟨before, after, _, rfl, hbefore, rfl, hafter⟩
        · exact absurd rfl hin.alternate_second.2.2
        · rw [hend hafter, List.append_nil]
          exact .inr hbefore
    · exact absurd (wired_alternate_entry.mp hstep).1 hne
  · rintro (h | h)
    · refine .silent (wired_alternate_entry.mpr ⟨rfl, .inl rfl⟩) ?_
      rw [← List.append_nil word]
      exact (Reads.mono (fun _ _ _ h => wired_alternate.mpr (.inl h)) h).append
        (.silent (wired_alternate_exit (.inl rfl) rfl) (.here _))
    · refine .silent (wired_alternate_entry.mpr ⟨rfl, .inr rfl⟩) ?_
      rw [← List.append_nil word]
      exact (Reads.mono (fun _ _ _ h => wired_alternate.mpr (.inr (.inl h))) h).append
        (.silent (wired_alternate_exit (.inr rfl) rfl) (.here _))

lemma not_wired_from_star_exit {symbol : UInt8} {dest : NodeId} :
    ¬ Wired ((star inner).wiring base) ((star inner).exitAt base) symbol dest :=
  (isolated base (star inner)).not_from_exit

lemma passage_star : (star inner).passage base = (inner.passage base)∗ := by
  ext word
  constructor
  · intro hr
    rcases hr.head with ⟨-, heq⟩ | ⟨_, hstep, hrest⟩ | ⟨_, _, _, -, hne, hstep, -⟩
    · exact absurd heq.symm (entryAt_ne_exitAt base _)
    · rcases (wired_star_entry.mp hstep).2 with rfl | rfl
      · rcases Reads.loop leaves_star (inner.covers_entryAt base)
            (fun dest hd symbol after => hd ▸ not_wired_from_star_exit)
            (inner.covers_entryAt base) hrest with
          ⟨hin, -⟩ | ⟨before, rounds, hrounds, hbefore, ⟨-, rfl⟩ | ⟨_, hin, -⟩⟩
        · exact absurd rfl hin.star_inner.2.2
        · exact append_mem_kstar hbefore hrounds
        · exact absurd rfl hin.star_inner.2.2
      · rw [(reads_exitAt hrest).1]
        exact Language.nil_mem_kstar _
    · exact absurd (wired_star_entry.mp hstep).1 hne
  · intro h
    obtain ⟨rounds, rfl, hrounds⟩ := Language.mem_kstar.mp h
    cases rounds with
    | nil => exact .silent (wired_star_entry.mpr ⟨rfl, .inr rfl⟩) (.here _)
    | cons round rounds =>
      -- from the exit of the inner fragment, the rounds that are left lead to the end
      have hleft : ∀ rounds : List (List UInt8), (∀ round ∈ rounds, round ∈ inner.passage base) →
          Reads (Wired ((star inner).wiring base)) (inner.exitAt base) rounds.flatten
            ((star inner).exitAt base) := by
        intro rounds hr
        induction rounds with
        | nil => exact .silent (wired_star_exit (.inr rfl)) (.here _)
        | cons round rounds ih =>
          refine .silent (wired_star_exit (.inl rfl)) ?_
          exact (Reads.mono (fun _ _ _ h => wired_star.mpr (.inl h)) (hr round (by simp))).append
            (ih fun other ho => hr other (by simp [ho]))
      refine .silent (wired_star_entry.mpr ⟨rfl, .inl rfl⟩) ?_
      exact (Reads.mono (fun _ _ _ h => wired_star.mpr (.inl h)) (hrounds round (by simp))).append
        (hleft rounds fun other ho => hrounds other (by simp [ho]))

/-- A fragment spells the words of its expression. -/
theorem passage_eq_language (base : Nat) {regex : Regex} (h : regex.Proper) :
    regex.passage base = regex.language := by
  induction regex generalizing base with
  | literal byte => exact passage_literal h
  | concat first second hf hs => rw [passage_concat, hf _ h.1, hs _ h.2, language]
  | alternate first second hf hs => rw [passage_alternate, hf _ h.1, hs _ h.2, language]
  | star inner hi => rw [passage_star, hi _ h, language]

end Regex

end PatternAutomata
