import PatternAutomata.Proofs.Language
import PatternAutomata.Proofs.Positions

/-!
# Positions of a fragment

In the fragment of an expression each position has a node: the one to which the edge of its literal
leads. Seen weakly, the entry leads to the nodes of the first positions, the node of a position to
those of the positions that can follow it, and the nodes from which the exit is reached silently are
those of the last positions.
-/

namespace PatternAutomata

/-! ## What is shown weakly across regions -/

section Regions

variable {inner outer : NodeId → UInt8 → NodeId → Prop} {inside : NodeId → Prop} {exit : NodeId}
  {next : NodeId → Prop} {source dest : NodeId} {symbol : UInt8}

lemma Silent.mono (hsub : ∀ id symbol next, inner id symbol next → outer id symbol next)
    (h : Silent inner source dest) : Silent outer source dest :=
  Relation.ReflTransGen.mono (fun id next => hsub id _ next) _ _ h

lemma Weak.mono (hsub : ∀ id symbol next, inner id symbol next → outer id symbol next)
    (h : Weak inner source symbol dest) : Weak outer source symbol dest := by
  obtain ⟨hne, id, hs, hl⟩ := h
  exact ⟨hne, id, hs.mono hsub, hsub _ _ _ hl⟩

lemma Silent.weak {id : NodeId} (h : Silent outer source id) (hw : Weak outer id symbol dest) :
    Weak outer source symbol dest := by
  obtain ⟨hne, member, hs, hl⟩ := hw
  exact ⟨hne, member, h.trans hs, hl⟩

lemma Leaves.reads_iff (hl : Leaves inner outer inside exit next)
    (hsub : ∀ id symbol next, inner id symbol next → outer id symbol next)
    (hnext : ∀ dest, next dest → outer exit Transition.epsilon dest) (hs : inside source)
    {word : List UInt8} : Reads outer source word dest ↔
      (inside dest ∧ Reads inner source word dest) ∨ ∃ before after id, word = before ++ after ∧
        Reads inner source before exit ∧ next id ∧ Reads outer id after dest := by
  constructor
  · exact Reads.leave hl hs
  · rintro (⟨-, h⟩ | ⟨before, after, id, rfl, h, hn, h'⟩)
    · exact h.mono hsub
    · exact (Reads.mono hsub h).append (.silent (hnext id hn) h')

lemma Leaves.silent_iff (hl : Leaves inner outer inside exit next)
    (hsub : ∀ id symbol next, inner id symbol next → outer id symbol next)
    (hnext : ∀ dest, next dest → outer exit Transition.epsilon dest) (hs : inside source) :
    Silent outer source dest ↔ (inside dest ∧ Silent inner source dest) ∨
      (Silent inner source exit ∧ ∃ id, next id ∧ Silent outer id dest) := by
  simp only [← reads_nil_iff]
  rw [hl.reads_iff hsub hnext hs]
  refine or_congr_right ⟨?_, ?_⟩
  · rintro ⟨before, after, id, hw, hbefore, hn, hafter⟩
    obtain ⟨rfl, rfl⟩ := List.append_eq_nil_iff.mp hw.symm
    exact ⟨hbefore, id, hn, hafter⟩
  · rintro ⟨hbefore, id, hn, hafter⟩
    exact ⟨[], [], id, rfl, hbefore, hn, hafter⟩

/-- Within a region a node shows weakly what it shows there, and what is shown beyond the exit if it
reaches that silently. -/
lemma Leaves.weak_iff (hl : Leaves inner outer inside exit next)
    (hsub : ∀ id symbol next, inner id symbol next → outer id symbol next)
    (hnext : ∀ dest, next dest → outer exit Transition.epsilon dest) (hs : inside source) :
    Weak outer source symbol dest ↔ Weak inner source symbol dest ∨
      (Silent inner source exit ∧ ∃ id, next id ∧ Weak outer id symbol dest) := by
  constructor
  · rintro ⟨hne, id, hsilent, hstep⟩
    rcases (hl.silent_iff hsub hnext hs).mp hsilent with ⟨hid, h⟩ | ⟨h, other, hn, h'⟩
    · rcases hl _ _ _ hid hstep with ⟨hin, -⟩ | ⟨-, heq, -⟩
      · exact .inl ⟨hne, id, h, hin⟩
      · exact absurd heq hne
    · exact .inr ⟨h, other, hn, hne, id, h', hstep⟩
  · rintro (h | ⟨h, id, hn, hw⟩)
    · exact h.mono hsub
    · exact (h.mono hsub).weak (Silent.weak (.single (hnext id hn)) hw)

lemma silent_iff_of_leads (h : ∀ symbol dest, outer source symbol dest ↔
      symbol = Transition.epsilon ∧ next dest) :
    Silent outer source dest ↔ source = dest ∨ ∃ id, next id ∧ Silent outer id dest := by
  constructor
  · intro hs
    rcases Relation.ReflTransGen.cases_head hs with heq | ⟨id, hstep, hrest⟩
    · exact .inl heq
    · exact .inr ⟨id, ((h _ _).mp hstep).2, hrest⟩
  · rintro (rfl | ⟨id, hn, hs⟩)
    · exact .refl
    · exact .head ((h _ _).mpr ⟨rfl, hn⟩) hs

lemma weak_iff_of_leads (h : ∀ symbol dest, outer source symbol dest ↔
      symbol = Transition.epsilon ∧ next dest) :
    Weak outer source symbol dest ↔ ∃ id, next id ∧ Weak outer id symbol dest := by
  constructor
  · rintro ⟨hne, id, hs, hl⟩
    rcases (silent_iff_of_leads h).mp hs with rfl | ⟨other, hn, hrest⟩
    · exact absurd ((h _ _).mp hl).1 hne
    · exact ⟨other, hn, hne, id, hrest, hl⟩
  · rintro ⟨id, hn, hw⟩
    exact Silent.weak (.single ((h _ _).mpr ⟨rfl, hn⟩)) hw

/-! ### A region that is repeated -/

variable {entry : NodeId} {out : NodeId → Prop}

lemma Leaves.loop_silent_iff
    (hl : Leaves inner outer inside exit fun dest => dest = entry ∨ out dest)
    (hsub : ∀ id symbol next, inner id symbol next → outer id symbol next)
    (hnext : ∀ dest, dest = entry ∨ out dest → outer exit Transition.epsilon dest)
    (hout : ∀ dest, out dest → ∀ symbol after, ¬ outer dest symbol after) (he : inside entry)
    (hs : inside source) : Silent outer source dest ↔ (inside dest ∧ Silent inner source dest) ∨
      (Silent inner source exit ∧ (out dest ∨ (inside dest ∧ Silent inner entry dest))) := by
  simp only [← reads_nil_iff]
  constructor
  · intro h
    rcases h.loop hl he hout hs with h | ⟨before, rounds, -, hbefore, ⟨hd, hw⟩ | ⟨after, hd, hw, h⟩⟩
    · exact .inl h
    · obtain ⟨rfl, rfl⟩ := List.append_eq_nil_iff.mp hw.symm
      exact .inr ⟨hbefore, .inl hd⟩
    · obtain ⟨rfl, hrest⟩ := List.append_eq_nil_iff.mp hw.symm
      obtain ⟨rfl, rfl⟩ := List.append_eq_nil_iff.mp hrest
      exact .inr ⟨hbefore, .inr ⟨hd, h⟩⟩
  · rintro (⟨-, h⟩ | ⟨h, hd | ⟨-, h'⟩⟩)
    · exact h.mono hsub
    · exact (Reads.mono hsub h).append (.silent (hnext dest (.inr hd)) (.here dest))
    · exact (Reads.mono hsub h).append (.silent (hnext entry (.inl rfl)) (Reads.mono hsub h'))

lemma Leaves.loop_weak_iff
    (hl : Leaves inner outer inside exit fun dest => dest = entry ∨ out dest)
    (hsub : ∀ id symbol next, inner id symbol next → outer id symbol next)
    (hnext : ∀ dest, dest = entry ∨ out dest → outer exit Transition.epsilon dest)
    (hout : ∀ dest, out dest → ∀ symbol after, ¬ outer dest symbol after) (he : inside entry)
    (hs : inside source) : Weak outer source symbol dest ↔ Weak inner source symbol dest ∨
      (Silent inner source exit ∧ Weak inner entry symbol dest) := by
  constructor
  · rintro ⟨hne, id, hsilent, hstep⟩
    have hinner : inside id → inner id symbol dest := by
      intro hid
      rcases hl _ _ _ hid hstep with ⟨hin, -⟩ | ⟨-, heq, -⟩
      · exact hin
      · exact absurd heq hne
    rcases (hl.loop_silent_iff hsub hnext hout he hs).mp hsilent with ⟨hid, h⟩ | ⟨h, hd | ⟨hid, h'⟩⟩
    · exact .inl ⟨hne, id, h, hinner hid⟩
    · exact absurd hstep (hout id hd _ _)
    · exact .inr ⟨h, hne, id, h', hinner hid⟩
  · rintro (h | ⟨h, hw⟩)
    · exact h.mono hsub
    · exact (h.mono hsub).weak (Silent.weak (.single (hnext entry (.inl rfl))) (hw.mono hsub))

end Regions

/-! ## Nodes of positions -/

/-- Whether a function gives the members of a list at the numbers from a given one on. -/
def Spread {α : Type} (base : Nat) (members : List α) (f : Nat → α) : Prop :=
  ∀ k (h : k < members.length), f (base + k) = members[k]

lemma spread_append {α : Type} {base : Nat} {members more : List α} {f : Nat → α} :
    Spread base (members ++ more) f ↔
      Spread base members f ∧ Spread (base + members.length) more f := by
  constructor
  · intro h
    constructor
    · intro k hk
      rw [h k (by rw [List.length_append]; omega), List.getElem_append_left hk]
    · intro k hk
      have := h (members.length + k) (by rw [List.length_append]; omega)
      rw [List.getElem_append_right (by omega)] at this
      simpa [Nat.add_assoc] using this
  · rintro ⟨h, h'⟩ k hk
    by_cases hlt : k < members.length
    · rw [List.getElem_append_left hlt, h k hlt]
    · rw [List.getElem_append_right (by omega)]
      have := h' (k - members.length) (by rw [List.length_append] at hk; omega)
      rw [← this]
      congr 1
      omega

namespace Regex

/-- The edges of a fragment that consume a byte, in the order of the literals, if the fragment's first
node has a given position. -/
def arrivals (base : Nat) : Regex → List (Edge Transition)
  | literal byte => [⟨⟨base + 1⟩, ⟨byte⟩⟩]
  | concat left right => left.arrivals base ++ right.arrivals (base + left.nodeCount)
  | alternate left right => left.arrivals base ++ right.arrivals (base + left.nodeCount)
  | star inner => inner.arrivals base

lemma map_symbol_arrivals (base : Nat) (regex : Regex) :
    (regex.arrivals base).map (fun edge => edge.data.symbol) = regex.letters := by
  induction regex generalizing base with
  | literal byte => rfl
  | concat left right hl hr => simp only [arrivals, letters, List.map_append, hl, hr]
  | alternate left right hl hr => simp only [arrivals, letters, List.map_append, hl, hr]
  | star inner hi => exact hi base

lemma length_arrivals (base : Nat) (regex : Regex) :
    (regex.arrivals base).length = regex.literalCount := by
  rw [literalCount, ← map_symbol_arrivals base, List.length_map]

lemma arrivals_spec (base : Nat) (regex : Regex) :
    (∀ edge ∈ regex.arrivals base, regex.Covers base edge.dest) ∧
      (regex.arrivals base).Pairwise fun edge edge' => edge.dest.toNat < edge'.dest.toNat := by
  have happend : ∀ {left right : Regex} {base : Nat},
      (∀ edge ∈ left.arrivals base, left.Covers base edge.dest) →
      (left.arrivals base).Pairwise (fun edge edge' => edge.dest.toNat < edge'.dest.toNat) →
      (∀ edge ∈ right.arrivals (base + left.nodeCount),
        right.Covers (base + left.nodeCount) edge.dest) →
      (right.arrivals (base + left.nodeCount)).Pairwise
        (fun edge edge' => edge.dest.toNat < edge'.dest.toNat) →
      (∀ edge ∈ left.arrivals base ++ right.arrivals (base + left.nodeCount),
        base ≤ edge.dest.toNat ∧
          edge.dest.toNat < base + left.nodeCount + right.nodeCount) ∧
      (left.arrivals base ++ right.arrivals (base + left.nodeCount)).Pairwise
        fun edge edge' => edge.dest.toNat < edge'.dest.toNat := by
    intro left right base hl hlp hr hrp
    refine ⟨fun edge he => ?_, List.pairwise_append.mpr ⟨hlp, hrp, fun edge he edge' he' => ?_⟩⟩
    · rcases List.mem_append.mp he with he | he
      · have := hl edge he
        unfold Covers at this
        omega
      · have := hr edge he
        unfold Covers at this
        omega
    · exact Nat.lt_of_lt_of_le (hl edge he).2 (hr edge' he').1
  induction regex generalizing base with
  | literal byte => simp [arrivals, Covers, nodeCount]
  | concat left right hl hr =>
    obtain ⟨h, hp⟩ := happend (hl base).1 (hl base).2 (hr _).1 (hr _).2
    exact ⟨fun edge he => ⟨(h edge he).1, by simpa [nodeCount, Nat.add_assoc] using (h edge he).2⟩, hp⟩
  | alternate left right hl hr =>
    obtain ⟨h, hp⟩ := happend (hl base).1 (hl base).2 (hr _).1 (hr _).2
    refine ⟨fun edge he => ⟨(h edge he).1, ?_⟩, hp⟩
    have := (h edge he).2
    simp only [nodeCount]
    omega
  | star inner hi =>
    refine ⟨fun edge he => ⟨((hi base).1 edge he).1, ?_⟩, (hi base).2⟩
    have := ((hi base).1 edge he).2
    simp only [nodeCount]
    omega

lemma covers_arrive {base number i : Nat} {regex : Regex} {arrive : Nat → Edge Transition}
    (h : Spread number (regex.arrivals base) arrive) (hi : regex.Numbers number i) :
    regex.Covers base (arrive i).dest := by
  obtain ⟨k, rfl⟩ := Nat.exists_eq_add_of_le hi.1
  have hk : k < (regex.arrivals base).length := by
    rw [length_arrivals]
    have := hi.2
    omega
  rw [h k hk]
  exact (arrivals_spec base regex).1 _ (List.getElem_mem hk)

end Regex

/-! ## Ways through a fragment -/

/-- Whether a node shows an edge weakly. -/
def Offers (leads : NodeId → UInt8 → NodeId → Prop) (source : NodeId) (edge : Edge Transition) :
    Prop :=
  Weak leads source edge.data.symbol edge.dest

/-- The ways from an entry to an exit go through the positions of an expression. -/
structure Traverses (leads : NodeId → UInt8 → NodeId → Prop) (entry exit : NodeId) (regex : Regex)
    (number : Nat) (arrive : Nat → Edge Transition) : Prop where
  pass : Silent leads entry exit ↔ regex.nullable = true
  start : ∀ edge, Offers leads entry edge ↔ ∃ j ∈ regex.first number, arrive j = edge
  stop : ∀ i, regex.Numbers number i →
    (Silent leads (arrive i).dest exit ↔ i ∈ regex.last number)
  step : ∀ i, regex.Numbers number i → ∀ edge,
    (Offers leads (arrive i).dest edge ↔ ∃ j, (i, j) ∈ regex.follow number ∧ arrive j = edge)

namespace Regex

variable {base number : Nat} {left right inner : Regex} {source dest : NodeId} {symbol byte : UInt8}
  {arrive : Nat → Edge Transition}

lemma weak_exitAt {regex : Regex} :
    ¬ Weak (Wired (regex.wiring base)) (regex.exitAt base) symbol dest := by
  rintro ⟨-, id, hs, hl⟩
  rw [(reads_exitAt (reads_nil_iff.mpr hs)).2] at hl
  exact (isolated base regex).not_from_exit hl

lemma traverses_literal (h : byte ≠ Transition.epsilon)
    (hs : Spread number ((literal byte).arrivals base) arrive) :
    Traverses (Wired ((literal byte).wiring base)) ((literal byte).entryAt base)
      ((literal byte).exitAt base) (literal byte) number arrive := by
  have harrive : arrive number = ⟨⟨base + 1⟩, ⟨byte⟩⟩ := hs 0 Nat.one_pos
  have hnumber : ∀ {i}, (literal byte).Numbers number i → i = number := by
    rintro i ⟨h, h'⟩
    simp only [literalCount, letters, List.length_singleton] at h'
    omega
  have hsilent : ∀ {id}, Silent (Wired ((literal byte).wiring base)) ⟨base⟩ id →
      (⟨base⟩ : NodeId) = id := by
    intro id hs
    rcases Relation.ReflTransGen.cases_head hs with heq | ⟨_, hstep, -⟩
    · exact heq
    · exact absurd (wired_literal.mp hstep).2.1.symm h
  refine ⟨⟨fun hs => absurd (hsilent hs) (entryAt_ne_exitAt base (literal byte)), fun h => ?_⟩,
    fun edge => ⟨?_, ?_⟩, fun i hi => ?_, fun i hi edge => ⟨fun hw => ?_, ?_⟩⟩
  · cases h
  · rintro ⟨-, id, hs, hl⟩
    rw [← hsilent hs] at hl
    obtain ⟨-, hsymbol, hdest⟩ := wired_literal.mp hl
    refine ⟨number, List.mem_singleton.mpr rfl, harrive.trans ?_⟩
    rw [← hsymbol, ← hdest]
  · rintro ⟨j, hj, rfl⟩
    rw [List.mem_singleton.mp hj, harrive]
    exact ⟨h, _, .refl, wired_literal.mpr ⟨rfl, rfl, rfl⟩⟩
  · rw [hnumber hi, harrive]
    exact ⟨fun _ => List.mem_singleton.mpr rfl, fun _ => .refl⟩
  · rw [hnumber hi, harrive] at hw
    have hnot : ¬ Weak (Wired ((literal byte).wiring base)) ((literal byte).exitAt base)
      edge.data.symbol edge.dest := weak_exitAt
    exact absurd hw hnot
  · rintro ⟨j, hij, -⟩
    cases hij

section Concat

lemma silent_concat_right (hs : right.Covers (base + left.nodeCount) source) :
    Silent (Wired ((concat left right).wiring base)) source ((concat left right).exitAt base) ↔
      Silent (Wired (right.wiring (base + left.nodeCount))) source
        (right.exitAt (base + left.nodeCount)) := by
  have hexit := right.covers_exitAt (base + left.nodeCount)
  rw [leaves_concat_second.silent_iff (fun _ _ _ h => wired_concat.mpr (.inr (.inl h))) nofun hs]
  constructor
  · rintro (⟨-, h⟩ | ⟨-, _, h, -⟩)
    · exact h
    · exact h.elim
  · exact fun h => .inl ⟨hexit, h⟩

lemma weak_concat_right (hs : right.Covers (base + left.nodeCount) source) :
    Weak (Wired ((concat left right).wiring base)) source symbol dest ↔
      Weak (Wired (right.wiring (base + left.nodeCount))) source symbol dest := by
  rw [leaves_concat_second.weak_iff (fun _ _ _ h => wired_concat.mpr (.inr (.inl h))) nofun hs]
  constructor
  · rintro (h | ⟨-, _, h, -⟩)
    · exact h
    · exact h.elim
  · exact .inl

lemma silent_concat_left (hs : left.Covers base source) :
    Silent (Wired ((concat left right).wiring base)) source ((concat left right).exitAt base) ↔
      Silent (Wired (left.wiring base)) source (left.exitAt base) ∧
        Silent (Wired (right.wiring (base + left.nodeCount)))
          (right.entryAt (base + left.nodeCount)) (right.exitAt (base + left.nodeCount)) := by
  have hexit := right.covers_exitAt (base + left.nodeCount)
  rw [leaves_concat_first.silent_iff (fun _ _ _ h => wired_concat.mpr (.inl h))
    (fun _ => wired_concat_join) hs]
  constructor
  · rintro (⟨hin, -⟩ | ⟨h, _, rfl, h'⟩)
    · exact absurd hexit hin.not_second
    · exact ⟨h, (silent_concat_right (right.covers_entryAt _)).mp h'⟩
  · rintro ⟨h, h'⟩
    exact .inr ⟨h, _, rfl, (silent_concat_right (right.covers_entryAt _)).mpr h'⟩

lemma weak_concat_left (hs : left.Covers base source) :
    Weak (Wired ((concat left right).wiring base)) source symbol dest ↔
      Weak (Wired (left.wiring base)) source symbol dest ∨
        (Silent (Wired (left.wiring base)) source (left.exitAt base) ∧
          Weak (Wired (right.wiring (base + left.nodeCount)))
            (right.entryAt (base + left.nodeCount)) symbol dest) := by
  rw [leaves_concat_first.weak_iff (fun _ _ _ h => wired_concat.mpr (.inl h))
    (fun _ => wired_concat_join) hs]
  simp only [exists_eq_left, weak_concat_right (right.covers_entryAt _)]

lemma traverses_concat
    (hs : Spread number ((concat left right).arrivals base) arrive)
    (hl : Traverses (Wired (left.wiring base)) (left.entryAt base) (left.exitAt base) left number arrive)
    (hr : Traverses (Wired (right.wiring (base + left.nodeCount)))
      (right.entryAt (base + left.nodeCount)) (right.exitAt (base + left.nodeCount)) right
      (number + left.literalCount) arrive) :
    Traverses (Wired ((concat left right).wiring base)) ((concat left right).entryAt base)
      ((concat left right).exitAt base) (concat left right) number arrive := by
  have hspread := spread_append.mp hs
  rw [length_arrivals] at hspread
  refine ⟨?_, fun edge => ?_, fun i hi => ?_, fun i hi edge => ?_⟩
  · rw [show (concat left right).entryAt base = left.entryAt base from rfl,
      silent_concat_left (left.covers_entryAt base), hl.pass, hr.pass, nullable, Bool.and_eq_true]
  · rw [Offers, show (concat left right).entryAt base = left.entryAt base from rfl,
      weak_concat_left (left.covers_entryAt base), ← Offers, ← Offers, hl.start, hl.pass, hr.start]
    simp only [mem_first_concat, or_and_right, exists_or, and_assoc, exists_and_left]
  · rcases numbers_concat.mp hi with hi | hi
    · rw [silent_concat_left (covers_arrive hspread.1 hi), hl.stop i hi, hr.pass, mem_last_concat]
      exact ⟨fun h => .inl h.symm,
        fun h => (h.resolve_right fun h => hi.not_right (numbers_of_mem_last h)).symm⟩
    · rw [silent_concat_right (covers_arrive hspread.2 hi), hr.stop i hi, mem_last_concat]
      exact ⟨.inr, fun h => h.resolve_left fun h => (numbers_of_mem_last h.2).not_right hi⟩
  · rcases numbers_concat.mp hi with hi | hi
    · rw [Offers, weak_concat_left (covers_arrive hspread.1 hi), ← Offers, ← Offers, hl.step i hi,
        hl.stop i hi, hr.start]
      have hnot : ∀ j, (i, j) ∉ right.follow (number + left.literalCount) :=
        fun j h => hi.not_right (numbers_of_mem_follow h).1
      simp only [mem_follow_concat, hnot, false_or, or_and_right, exists_or, and_assoc,
        exists_and_left]
    · rw [Offers, weak_concat_right (covers_arrive hspread.2 hi), ← Offers, hr.step i hi]
      have hnot : ∀ j, (i, j) ∉ left.follow number :=
        fun j h => (numbers_of_mem_follow h).1.not_right hi
      have hnot' : i ∉ left.last number := fun h => (numbers_of_mem_last h).not_right hi
      simp only [mem_follow_concat, hnot, hnot', false_or, false_and, or_false]

end Concat

section Alternate

lemma silent_exitAt {regex : Regex} :
    Silent (Wired (regex.wiring base)) (regex.exitAt base) (regex.exitAt base) := .refl

lemma silent_alternate_left (hs : left.Covers base source) :
    Silent (Wired ((alternate left right).wiring base)) source ((alternate left right).exitAt base) ↔
      Silent (Wired (left.wiring base)) source (left.exitAt base) := by
  rw [leaves_alternate_first.silent_iff (fun _ _ _ h => wired_alternate.mpr (.inl h))
    (fun _ => wired_alternate_exit (.inl rfl)) hs]
  constructor
  · rintro (⟨hin, -⟩ | ⟨h, -⟩)
    · exact absurd rfl hin.alternate_first.2.2
    · exact h
  · exact fun h => .inr ⟨h, _, rfl, silent_exitAt⟩

lemma silent_alternate_right (hs : right.Covers (base + left.nodeCount) source) :
    Silent (Wired ((alternate left right).wiring base)) source ((alternate left right).exitAt base) ↔
      Silent (Wired (right.wiring (base + left.nodeCount))) source
        (right.exitAt (base + left.nodeCount)) := by
  rw [leaves_alternate_second.silent_iff (fun _ _ _ h => wired_alternate.mpr (.inr (.inl h)))
    (fun _ => wired_alternate_exit (.inr rfl)) hs]
  constructor
  · rintro (⟨hin, -⟩ | ⟨h, -⟩)
    · exact absurd rfl hin.alternate_second.2.2
    · exact h
  · exact fun h => .inr ⟨h, _, rfl, silent_exitAt⟩

lemma weak_alternate_left (hs : left.Covers base source) :
    Weak (Wired ((alternate left right).wiring base)) source symbol dest ↔
      Weak (Wired (left.wiring base)) source symbol dest := by
  rw [leaves_alternate_first.weak_iff (fun _ _ _ h => wired_alternate.mpr (.inl h))
    (fun _ => wired_alternate_exit (.inl rfl)) hs]
  simp only [exists_eq_left, weak_exitAt, and_false, or_false]

lemma weak_alternate_right (hs : right.Covers (base + left.nodeCount) source) :
    Weak (Wired ((alternate left right).wiring base)) source symbol dest ↔
      Weak (Wired (right.wiring (base + left.nodeCount))) source symbol dest := by
  rw [leaves_alternate_second.weak_iff (fun _ _ _ h => wired_alternate.mpr (.inr (.inl h)))
    (fun _ => wired_alternate_exit (.inr rfl)) hs]
  simp only [exists_eq_left, weak_exitAt, and_false, or_false]

lemma traverses_alternate
    (hs : Spread number ((alternate left right).arrivals base) arrive)
    (hl : Traverses (Wired (left.wiring base)) (left.entryAt base) (left.exitAt base) left number arrive)
    (hr : Traverses (Wired (right.wiring (base + left.nodeCount)))
      (right.entryAt (base + left.nodeCount)) (right.exitAt (base + left.nodeCount)) right
      (number + left.literalCount) arrive) :
    Traverses (Wired ((alternate left right).wiring base)) ((alternate left right).entryAt base)
      ((alternate left right).exitAt base) (alternate left right) number arrive := by
  have hspread := spread_append.mp hs
  rw [length_arrivals] at hspread
  refine ⟨?_, fun edge => ?_, fun i hi => ?_, fun i hi edge => ?_⟩
  · rw [silent_iff_of_leads fun _ _ => wired_alternate_entry]
    simp only [entryAt_ne_exitAt, false_or, or_and_right, exists_or, exists_eq_left]
    rw [silent_alternate_left (left.covers_entryAt base),
      silent_alternate_right (right.covers_entryAt _), hl.pass, hr.pass, nullable, Bool.or_eq_true]
  · rw [Offers, weak_iff_of_leads fun _ _ => wired_alternate_entry]
    simp only [or_and_right, exists_or, exists_eq_left]
    rw [weak_alternate_left (left.covers_entryAt base),
      weak_alternate_right (right.covers_entryAt _), ← Offers, ← Offers, hl.start, hr.start]
    simp only [mem_first_alternate, or_and_right, exists_or]
  · rcases numbers_alternate.mp hi with hi | hi
    · rw [silent_alternate_left (covers_arrive hspread.1 hi), hl.stop i hi, mem_last_alternate]
      exact ⟨.inl, fun h => h.resolve_right fun h => hi.not_right (numbers_of_mem_last h)⟩
    · rw [silent_alternate_right (covers_arrive hspread.2 hi), hr.stop i hi, mem_last_alternate]
      exact ⟨.inr, fun h => h.resolve_left fun h => (numbers_of_mem_last h).not_right hi⟩
  · rcases numbers_alternate.mp hi with hi | hi
    · rw [Offers, weak_alternate_left (covers_arrive hspread.1 hi), ← Offers, hl.step i hi]
      have hnot : ∀ j, (i, j) ∉ right.follow (number + left.literalCount) :=
        fun j h => hi.not_right (numbers_of_mem_follow h).1
      simp only [mem_follow_alternate, hnot, or_false]
    · rw [Offers, weak_alternate_right (covers_arrive hspread.2 hi), ← Offers, hr.step i hi]
      have hnot : ∀ j, (i, j) ∉ left.follow number :=
        fun j h => (numbers_of_mem_follow h).1.not_right hi
      simp only [mem_follow_alternate, hnot, false_or]

end Alternate

section Star

lemma silent_star_inner (hs : inner.Covers base source) :
    Silent (Wired ((star inner).wiring base)) source ((star inner).exitAt base) ↔
      Silent (Wired (inner.wiring base)) source (inner.exitAt base) := by
  rw [leaves_star.loop_silent_iff (fun _ _ _ h => wired_star.mpr (.inl h))
    (fun _ => wired_star_exit) (fun _ hd _ _ => hd ▸ not_wired_from_star_exit)
    (inner.covers_entryAt base) hs]
  constructor
  · rintro (⟨hin, -⟩ | ⟨h, -⟩)
    · exact absurd rfl hin.star_inner.2.2
    · exact h
  · exact fun h => .inr ⟨h, .inl rfl⟩

lemma weak_star_inner (hs : inner.Covers base source) :
    Weak (Wired ((star inner).wiring base)) source symbol dest ↔
      Weak (Wired (inner.wiring base)) source symbol dest ∨
        (Silent (Wired (inner.wiring base)) source (inner.exitAt base) ∧
          Weak (Wired (inner.wiring base)) (inner.entryAt base) symbol dest) :=
  leaves_star.loop_weak_iff (fun _ _ _ h => wired_star.mpr (.inl h)) (fun _ => wired_star_exit)
    (fun _ hd _ _ => hd ▸ not_wired_from_star_exit) (inner.covers_entryAt base) hs

lemma traverses_star (hs : Spread number ((star inner).arrivals base) arrive)
    (hi : Traverses (Wired (inner.wiring base)) (inner.entryAt base) (inner.exitAt base) inner number
      arrive) :
    Traverses (Wired ((star inner).wiring base)) ((star inner).entryAt base)
      ((star inner).exitAt base) (star inner) number arrive := by
  have hcovers : ∀ {i}, inner.Numbers number i → inner.Covers base (arrive i).dest :=
    fun hn => covers_arrive hs hn
  refine ⟨⟨fun _ => rfl, fun _ => ?_⟩, fun edge => ?_, fun i hn => ?_, fun i hn edge => ?_⟩
  · exact .single (wired_star_entry.mpr ⟨rfl, .inr rfl⟩)
  · rw [Offers, weak_iff_of_leads fun _ _ => wired_star_entry]
    simp only [or_and_right, exists_or, exists_eq_left, weak_exitAt, or_false]
    rw [weak_star_inner (inner.covers_entryAt base), ← Offers, hi.start]
    exact ⟨fun h => h.elim id And.right, .inl⟩
  · rw [silent_star_inner (hcovers hn), hi.stop i hn]
    rfl
  · rw [Offers, weak_star_inner (hcovers hn), ← Offers, ← Offers, hi.step i hn,
      hi.stop i hn, hi.start]
    simp only [mem_follow_star, or_and_right, exists_or, and_assoc, exists_and_left]

end Star

/-- The ways through the fragment of an expression go through its positions. -/
theorem traverses (base number : Nat) {regex : Regex} (h : regex.Proper)
    {arrive : Nat → Edge Transition} (hs : Spread number (regex.arrivals base) arrive) :
    Traverses (Wired (regex.wiring base)) (regex.entryAt base) (regex.exitAt base) regex number
      arrive := by
  induction regex generalizing base number with
  | literal byte => exact traverses_literal h hs
  | concat left right hl hr =>
    have hspread := spread_append.mp hs
    rw [length_arrivals] at hspread
    exact traverses_concat hs (hl base number h.1 hspread.1) (hr _ _ h.2 hspread.2)
  | alternate left right hl hr =>
    have hspread := spread_append.mp hs
    rw [length_arrivals] at hspread
    exact traverses_alternate hs (hl base number h.1 hspread.1) (hr _ _ h.2 hspread.2)
  | star inner hi => exact traverses_star hs (hi base number h hs)

end Regex

end PatternAutomata
