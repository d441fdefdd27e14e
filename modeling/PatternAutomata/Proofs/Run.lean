import PatternAutomata.Proofs.Picture
import Mathlib.Data.Set.Basic
import Mathlib.Order.WellFounded

/-!
# Running an automaton on a word

A path from one node to another spells the bytes of its consuming edges. The run of an automaton on
a word is the least token of the nodes to which a path from its entry spells the word. What a node
can do next is what it shows weakly: the consuming edges and the tokens of all nodes that it reaches
without consuming a byte. Two automata whose nodes show the same weakly have the same runs from
every node.
-/

namespace PatternAutomata

/-! ## Paths -/

section Paths

variable (leads : NodeId → UInt8 → NodeId → Prop)

/-- Whether one node reaches another along edges that consume nothing. -/
def Silent (source dest : NodeId) : Prop :=
  Relation.ReflTransGen (fun id next => leads id Transition.epsilon next) source dest

/-- Whether a node, perhaps after edges that consume nothing, has an edge that consumes a byte. -/
def Weak (source : NodeId) (symbol : UInt8) (dest : NodeId) : Prop :=
  symbol ≠ Transition.epsilon ∧ ∃ id, Silent leads source id ∧ leads id symbol dest

/-- Whether some path from one node to another spells a word. -/
inductive Reads : NodeId → List UInt8 → NodeId → Prop
  | here (id : NodeId) : Reads id [] id
  | silent {id next last : NodeId} {word : List UInt8} :
      leads id Transition.epsilon next → Reads next word last → Reads id word last
  | consume {id next last : NodeId} {symbol : UInt8} {word : List UInt8} :
      symbol ≠ Transition.epsilon → leads id symbol next → Reads next word last →
        Reads id (symbol :: word) last

variable {leads} {source dest last : NodeId} {word rest : List UInt8}

lemma Silent.reads (h : Silent leads source dest) (hr : Reads leads dest word last) :
    Reads leads source word last := by
  induction h using Relation.ReflTransGen.head_induction_on with
  | refl => exact hr
  | head hstep _ ih => exact .silent hstep ih

lemma reads_nil_iff : Reads leads source [] last ↔ Silent leads source last := by
  constructor
  · intro h
    generalize hw : ([] : List UInt8) = word at h
    induction h with
    | here id => exact .refl
    | silent hstep _ ih => exact .head hstep (ih hw)
    | consume => cases hw
  · exact fun h => h.reads (.here last)

lemma reads_cons_iff {symbol : UInt8} : Reads leads source (symbol :: word) last ↔
    ∃ dest, Weak leads source symbol dest ∧ Reads leads dest word last := by
  constructor
  · intro h
    generalize hw : symbol :: word = spelled at h
    induction h with
    | here id => cases hw
    | silent hstep _ ih =>
      obtain ⟨dest, ⟨hne, id, hs, hl⟩, hr⟩ := ih hw
      exact ⟨dest, ⟨hne, id, .head hstep hs, hl⟩, hr⟩
    | consume hne hl hr =>
      cases hw
      exact ⟨_, ⟨hne, _, .refl, hl⟩, hr⟩
  · rintro ⟨dest, ⟨hne, id, hs, hl⟩, hr⟩
    exact hs.reads (.consume hne hl hr)

lemma Reads.append (h : Reads leads source word dest) (hr : Reads leads dest rest last) :
    Reads leads source (word ++ rest) last := by
  induction h with
  | here id => exact hr
  | silent hstep _ ih => exact .silent hstep (ih hr)
  | consume hne hl _ ih => exact .consume hne hl (ih hr)

lemma Reads.head (h : Reads leads source word last) : (word = [] ∧ last = source) ∨
    (∃ next, leads source Transition.epsilon next ∧ Reads leads next word last) ∨
    ∃ symbol next rest, word = symbol :: rest ∧ symbol ≠ Transition.epsilon ∧
      leads source symbol next ∧ Reads leads next rest last := by
  cases h with
  | here => exact .inl ⟨rfl, rfl⟩
  | silent hstep hrest => exact .inr (.inl ⟨_, hstep, hrest⟩)
  | consume hne hstep hrest => exact .inr (.inr ⟨_, _, _, rfl, hne, hstep, hrest⟩)

lemma Reads.mono {leads' : NodeId → UInt8 → NodeId → Prop}
    (hl : ∀ id symbol next, leads id symbol next → leads' id symbol next)
    (h : Reads leads source word last) : Reads leads' source word last := by
  induction h with
  | here id => exact .here id
  | silent hstep _ ih => exact .silent (hl _ _ _ hstep) ih
  | consume hne hstep _ ih => exact .consume hne (hl _ _ _ hstep) ih

end Paths

/-! ## Least tokens -/

/-- The least of some tokens, if there are any. -/
noncomputable def least (tokens : Set UInt32) : Option UInt32 :=
  open Classical in
  if h : tokens.Nonempty then some ((measure UInt32.toNat).wf.min tokens h) else none

lemma least_eq_some_iff {tokens : Set UInt32} {token : UInt32} :
    least tokens = some token ↔ token ∈ tokens ∧ ∀ other ∈ tokens, token ≤ other := by
  unfold least
  by_cases h : tokens.Nonempty
  · have hmem := (measure UInt32.toNat).wf.min_mem tokens h
    have hmin : ∀ other ∈ tokens, (measure UInt32.toNat).wf.min tokens h ≤ other := by
      intro other ho
      exact Nat.le_of_not_lt ((measure UInt32.toNat).wf.not_lt_min tokens ho)
    rw [dif_pos h, Option.some.injEq]
    constructor
    · rintro rfl
      exact ⟨hmem, hmin⟩
    · rintro ⟨ht, hle⟩
      exact UInt32.le_antisymm (hmin token ht) (hle _ hmem)
  · rw [dif_neg h]
    constructor
    · intro hc
      cases hc
    · rintro ⟨ht, -⟩
      exact absurd ⟨token, ht⟩ h

lemma least_eq_none_iff {tokens : Set UInt32} : least tokens = none ↔ tokens = ∅ := by
  unfold least
  by_cases h : tokens.Nonempty
  · rw [dif_pos h]
    simp only [reduceCtorEq, false_iff]
    exact h.ne_empty
  · rw [dif_neg h]
    simp only [true_iff]
    exact Set.not_nonempty_iff_eq_empty.mp h

lemma le_noToken (token : UInt32) : token ≤ State.noToken := by
  have := token.toNat_lt
  rw [UInt32.le_iff_toNat_le]
  simp [State.noToken]
  omega

lemma least_congr {tokens tokens' : Set UInt32} (h : State.noToken ∉ tokens)
    (h' : State.noToken ∉ tokens')
    (hb : ∀ bound, (∀ token ∈ tokens, bound ≤ token) ↔ ∀ token ∈ tokens', bound ≤ token) :
    least tokens = least tokens' := by
  have hempty : ∀ {s s' : Set UInt32}, State.noToken ∉ s' →
      (∀ bound, (∀ token ∈ s, bound ≤ token) → ∀ token ∈ s', bound ≤ token) → s = ∅ → s' = ∅ := by
    intro s s' hs' hle hs
    rw [Set.eq_empty_iff_forall_notMem]
    intro token ht
    have hge := hle State.noToken (by simp [hs]) token ht
    exact hs' (UInt32.le_antisymm (le_noToken token) hge ▸ ht)
  cases hl : least tokens with
  | none =>
    rw [least_eq_none_iff] at hl
    exact (least_eq_none_iff.mpr (hempty h' (fun bound => (hb bound).mp) hl)).symm
  | some token =>
    cases hl' : least tokens' with
    | none =>
      rw [least_eq_none_iff] at hl'
      have hnil := least_eq_none_iff.mpr (hempty h (fun bound => (hb bound).mpr) hl')
      rw [hl] at hnil
      cases hnil
    | some token' =>
      obtain ⟨ht, hle⟩ := least_eq_some_iff.mp hl
      obtain ⟨ht', hle'⟩ := least_eq_some_iff.mp hl'
      rw [UInt32.le_antisymm ((hb token).mp hle token' ht') ((hb token').mpr hle' token ht)]

/-- The greatest lower bound of some tokens is the least of them, if there are any. -/
lemma least_eq_of_bounds {tokens : Set UInt32} {found : UInt32} (hn : State.noToken ∉ tokens)
    (h : ∀ bound, bound ≤ found ↔ ∀ token ∈ tokens, bound ≤ token) :
    least tokens = if found = State.noToken then none else some found := by
  have hle := (h found).mp (UInt32.le_refl found)
  cases hl : least tokens with
  | none =>
    rw [least_eq_none_iff] at hl
    have hge := (h State.noToken).mpr (by simp [hl])
    rw [if_pos (UInt32.le_antisymm (le_noToken found) hge)]
  | some token =>
    obtain ⟨ht, hmin⟩ := least_eq_some_iff.mp hl
    obtain rfl := UInt32.le_antisymm (hle token ht) ((h token).mpr hmin)
    have hne : found ≠ State.noToken := by
      rintro rfl
      exact hn ht
    rw [if_neg hne]

lemma least_eq_some_of_bounds {tokens : Set UInt32} {found : UInt32} (hn : tokens.Nonempty)
    (h : ∀ bound, bound ≤ found ↔ ∀ token ∈ tokens, bound ≤ token) : least tokens = some found := by
  have hle := (h found).mp (UInt32.le_refl found)
  cases hl : least tokens with
  | none => exact absurd (least_eq_none_iff.mp hl) hn.ne_empty
  | some token =>
    obtain ⟨ht, hmin⟩ := least_eq_some_iff.mp hl
    rw [UInt32.le_antisymm (hle token ht) ((h token).mpr hmin)]

lemma bounds_congr {tokens tokens' : Set UInt32} (h : least tokens = least tokens')
    (bound : UInt32) : (∀ token ∈ tokens, bound ≤ token) ↔ ∀ token ∈ tokens', bound ≤ token := by
  have hle : ∀ {tokens : Set UInt32} {token : UInt32}, least tokens = some token →
      ((∀ other ∈ tokens, bound ≤ other) ↔ bound ≤ token) := by
    intro tokens token hl
    obtain ⟨ht, hmin⟩ := least_eq_some_iff.mp hl
    exact ⟨fun hb => hb token ht, fun hb other ho => UInt32.le_trans hb (hmin other ho)⟩
  cases hl : least tokens with
  | none => rw [least_eq_none_iff.mp hl, least_eq_none_iff.mp (h.symm.trans hl)]
  | some token => rw [hle hl, hle (h.symm.trans hl)]

/-! ## Runs of automata -/

namespace Automaton

/-- Whether a node has an edge to another with a given symbol. -/
def Leads (automaton : Automaton) (source : NodeId) (symbol : UInt8) (dest : NodeId) : Prop :=
  (⟨dest, ⟨symbol⟩⟩ : Edge Transition) ∈ automaton.edgesOf source

/-- The tokens of the accepting nodes to which some path from a node spells a word. -/
def tokensFrom (automaton : Automaton) (start : NodeId) (word : List UInt8) : Set UInt32 :=
  {token | token ≠ State.noToken ∧
    ∃ id, Reads automaton.Leads start word id ∧ automaton.tokenOf id = token}

/-- The least token of the accepting nodes to which some path from a node spells a word. -/
noncomputable def runFrom (automaton : Automaton) (start : NodeId) (word : List UInt8) :
    Option UInt32 :=
  least (automaton.tokensFrom start word)

/-- The token that an automaton gives a word: the least of the accepting nodes to which some path
from the entry spells the word. -/
noncomputable def run (automaton : Automaton) (word : List UInt8) : Option UInt32 :=
  automaton.runFrom automaton.entry word

/-- No path from a node that spells a word ends with a token below a bound. -/
def Bounded (automaton : Automaton) (start : NodeId) (word : List UInt8) (bound : UInt32) : Prop :=
  ∀ id, Reads automaton.Leads start word id → bound ≤ automaton.tokenOf id

variable {automaton after : Automaton}

lemma bounded_iff {start : NodeId} {word : List UInt8} {bound : UInt32} :
    automaton.Bounded start word bound ↔
      ∀ token ∈ automaton.tokensFrom start word, bound ≤ token := by
  constructor
  · rintro h _ ⟨-, id, hr, rfl⟩
    exact h id hr
  · intro h id hr
    by_cases hn : automaton.tokenOf id = State.noToken
    · exact hn ▸ le_noToken bound
    · exact h _ ⟨hn, id, hr, rfl⟩

lemma noToken_notMem_tokensFrom (start : NodeId) (word : List UInt8) :
    State.noToken ∉ automaton.tokensFrom start word :=
  fun h => h.1 rfl

lemma runFrom_congr {start start' : NodeId} {word : List UInt8}
    (h : ∀ bound, automaton.Bounded start word bound ↔ after.Bounded start' word bound) :
    automaton.runFrom start word = after.runFrom start' word := by
  apply least_congr (noToken_notMem_tokensFrom _ _) (noToken_notMem_tokensFrom _ _)
  intro bound
  rw [← bounded_iff, ← bounded_iff, h bound]

/-- Every node shows weakly in one automaton what it shows weakly in another. -/
structure SameWeakly (automaton after : Automaton) : Prop where
  weak : ∀ source symbol dest,
    Weak automaton.Leads source symbol dest ↔ Weak after.Leads source symbol dest
  rest : ∀ source bound, (∀ id, Silent automaton.Leads source id → bound ≤ automaton.tokenOf id) ↔
    ∀ id, Silent after.Leads source id → bound ≤ after.tokenOf id

lemma SameWeakly.refl (automaton : Automaton) : automaton.SameWeakly automaton :=
  ⟨fun _ _ _ => Iff.rfl, fun _ _ => Iff.rfl⟩

lemma SameWeakly.trans {last : Automaton} (h : automaton.SameWeakly after)
    (h' : after.SameWeakly last) : automaton.SameWeakly last :=
  ⟨fun source symbol dest => (h.weak source symbol dest).trans (h'.weak source symbol dest),
    fun source bound => (h.rest source bound).trans (h'.rest source bound)⟩

lemma SameWeakly.bounded_iff (h : automaton.SameWeakly after) (word : List UInt8) (start : NodeId)
    (bound : UInt32) : automaton.Bounded start word bound ↔ after.Bounded start word bound := by
  induction word generalizing start with
  | nil =>
    simp only [Bounded, reads_nil_iff]
    exact h.rest start bound
  | cons symbol word ih =>
    have hsplit : ∀ automaton : Automaton, automaton.Bounded start (symbol :: word) bound ↔
        ∀ dest, Weak automaton.Leads start symbol dest → automaton.Bounded dest word bound := by
      intro automaton
      simp only [Bounded, reads_cons_iff]
      constructor
      · exact fun hb dest hw id hr => hb id ⟨dest, hw, hr⟩
      · rintro hb id ⟨dest, hw, hr⟩
        exact hb dest hw id hr
    rw [hsplit, hsplit]
    exact forall_congr' fun dest => imp_congr (h.weak start symbol dest) (ih dest)

/-- What the nodes show weakly determines all runs. -/
theorem SameWeakly.runFrom_eq (h : automaton.SameWeakly after) (start : NodeId)
    (word : List UInt8) : automaton.runFrom start word = after.runFrom start word :=
  runFrom_congr (h.bounded_iff word start)

end Automaton

end PatternAutomata
