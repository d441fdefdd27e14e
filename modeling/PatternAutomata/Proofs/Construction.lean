import PatternAutomata.Proofs.PositionAutomaton
import PatternAutomata.Proofs.Usage

/-!
# What is built for a pattern

The nodes that a pattern adds are a fragment of their own: no edge joins them to the nodes that there
were, none leads to the first of the fragment and none leaves the last. The words spelled by the paths
from the first to the last are the words of the pattern, every node lies on such a path, and only the
last accepts. Each literal, bar and repetition sign of the pattern adds two nodes.
-/

namespace PatternAutomata

/-! ## Nodes between two others -/

section Paths

variable {leads leads' : NodeId → UInt8 → NodeId → Prop} {first last source dest id : NodeId}
  {word : List UInt8}

/-- Whether a node lies on some path from one node to another. -/
def Between (leads : NodeId → UInt8 → NodeId → Prop) (first last id : NodeId) : Prop :=
  (∃ word, Reads leads first word id) ∧ ∃ word, Reads leads id word last

lemma Reads.between_first (h : Reads leads first word last) : Between leads first last first :=
  ⟨⟨[], .here first⟩, word, h⟩

lemma Reads.between_last (h : Reads leads first word last) : Between leads first last last :=
  ⟨⟨word, h⟩, [], .here last⟩

lemma Between.mono (hl : ∀ id symbol next, leads id symbol next → leads' id symbol next)
    (h : Between leads first last id) : Between leads' first last id := by
  obtain ⟨⟨before, hbefore⟩, after, hafter⟩ := h
  exact ⟨⟨before, hbefore.mono hl⟩, after, hafter.mono hl⟩

lemma Between.widen (h : Between leads first last id) (hs : ∃ word, Reads leads source word first)
    (hd : ∃ word, Reads leads last word dest) : Between leads source dest id := by
  obtain ⟨⟨before, hbefore⟩, after, hafter⟩ := h
  obtain ⟨front, hfront⟩ := hs
  obtain ⟨back, hback⟩ := hd
  exact ⟨⟨front ++ before, hfront.append hbefore⟩, after ++ back, hafter.append hback⟩

end Paths

namespace Regex

variable {base : Nat} {id : NodeId} {first second inner : Regex} {byte : UInt8}

lemma covers_literal (h : (literal byte).Covers base id) :
    id = (literal byte).entryAt base ∨ id = (literal byte).exitAt base := by
  obtain ⟨position⟩ := id
  simp only [Covers, nodeCount, entryAt, exitAt, NodeId.mk.injEq] at h ⊢
  omega

lemma covers_concat (h : (concat first second).Covers base id) :
    first.Covers base id ∨ second.Covers (base + first.nodeCount) id := by
  simp only [Covers, nodeCount] at h ⊢
  omega

lemma covers_alternate (h : (alternate first second).Covers base id) :
    first.Covers base id ∨ second.Covers (base + first.nodeCount) id ∨
      id = (alternate first second).entryAt base ∨ id = (alternate first second).exitAt base := by
  obtain ⟨position⟩ := id
  simp only [Covers, nodeCount, entryAt, exitAt, NodeId.mk.injEq] at h ⊢
  omega

lemma covers_star (h : (star inner).Covers base id) : inner.Covers base id ∨
    id = (star inner).entryAt base ∨ id = (star inner).exitAt base := by
  obtain ⟨position⟩ := id
  simp only [Covers, nodeCount, entryAt, exitAt, NodeId.mk.injEq] at h ⊢
  omega

/-- Every node of a fragment lies on a path from its entry to its exit. -/
theorem between_ends {regex : Regex} (hp : regex.Proper) (h : regex.Covers base id) :
    Between (Wired (regex.wiring base)) (regex.entryAt base) (regex.exitAt base) id := by
  induction regex generalizing base id with
  | literal byte =>
    have hpath : Reads (Wired ((literal byte).wiring base)) ((literal byte).entryAt base) [byte]
        ((literal byte).exitAt base) :=
      .consume hp (wired_literal.mpr ⟨rfl, rfl, rfl⟩) (.here _)
    rcases covers_literal h with rfl | rfl
    · exact hpath.between_first
    · exact hpath.between_last
  | concat first second hf hs =>
    have hmono : ∀ id symbol next, Wired (first.wiring base) id symbol next →
        Wired ((concat first second).wiring base) id symbol next :=
      fun _ _ _ h => wired_concat.mpr (.inl h)
    have hmono' : ∀ id symbol next, Wired (second.wiring (base + first.nodeCount)) id symbol next →
        Wired ((concat first second).wiring base) id symbol next :=
      fun _ _ _ h => wired_concat.mpr (.inr (.inl h))
    have hjoin := @wired_concat_join base first second _ rfl
    rcases covers_concat h with h | h
    · obtain ⟨word, hrest⟩ := ((hs hp.2 (covers_entryAt _ second)).mono hmono').2
      exact ((hf hp.1 h).mono hmono).widen ⟨[], .here _⟩ ⟨word, .silent hjoin hrest⟩
    · obtain ⟨word, hrest⟩ := ((hf hp.1 (covers_exitAt _ first)).mono hmono).1
      exact ((hs hp.2 h).mono hmono').widen
        ⟨word ++ [], hrest.append (.silent hjoin (.here _))⟩ ⟨[], .here _⟩
  | alternate first second hf hs =>
    have hleft : ∀ {id}, first.Covers base id → Between (Wired ((alternate first second).wiring base))
        ((alternate first second).entryAt base) ((alternate first second).exitAt base) id :=
      fun h => ((hf hp.1 h).mono fun _ _ _ h => wired_alternate.mpr (.inl h)).widen
        ⟨[], .silent (wired_alternate_entry.mpr ⟨rfl, .inl rfl⟩) (.here _)⟩
        ⟨[], .silent (wired_alternate_exit (.inl rfl) rfl) (.here _)⟩
    obtain ⟨⟨before, hbefore⟩, after, hafter⟩ := hleft (covers_entryAt base first)
    rcases covers_alternate h with h | h | rfl | rfl
    · exact hleft h
    · exact ((hs hp.2 h).mono fun _ _ _ h => wired_alternate.mpr (.inr (.inl h))).widen
        ⟨[], .silent (wired_alternate_entry.mpr ⟨rfl, .inr rfl⟩) (.here _)⟩
        ⟨[], .silent (wired_alternate_exit (.inr rfl) rfl) (.here _)⟩
    · exact (hbefore.append hafter).between_first
    · exact (hbefore.append hafter).between_last
  | star inner hi =>
    have hskip : Reads (Wired ((star inner).wiring base)) ((star inner).entryAt base) []
        ((star inner).exitAt base) :=
      .silent (wired_star_entry.mpr ⟨rfl, .inr rfl⟩) (.here _)
    rcases covers_star h with h | rfl | rfl
    · exact ((hi hp h).mono fun _ _ _ h => wired_star.mpr (.inl h)).widen
        ⟨[], .silent (wired_star_entry.mpr ⟨rfl, .inl rfl⟩) (.here _)⟩
        ⟨[], .silent (wired_star_exit (.inr rfl)) (.here _)⟩
    · exact hskip.between_first
    · exact hskip.between_last

/-- How many literals, bars and repetition signs there are in a text. -/
def weight (text : List UInt8) : Nat :=
  text.countP (fun byte => !isSign byte) + text.count '|'.toUInt8 + text.count '*'.toUInt8

lemma weight_append (text text' : List UInt8) : weight (text ++ text') = weight text + weight text' := by
  unfold weight
  rw [List.countP_append, List.count_append, List.count_append]
  omega

lemma weight_cons (byte : UInt8) (text : List UInt8) :
    weight (byte :: text) = weight [byte] + weight text := weight_append [byte] text

lemma weight_literal (h : IsLiteral byte) : weight [byte] = 1 := by
  obtain ⟨-, -, h1, h2, h3, h4⟩ := h
  simp [weight, isSign, h1, h2, h3, h4]

/-- Every literal, bar and repetition sign of a phrase stands for two nodes. -/
lemma Phrase.nodeCount_eq {rank : Rank} {room : Nat} {text : List UInt8} {regex : Regex}
    (h : Phrase rank room text regex) : regex.nodeCount = 2 * weight text := by
  have hopening : weight ['('.toUInt8] = 0 := by decide
  have hclosing : weight [')'.toUInt8] = 0 := by decide
  have hstar : weight ['*'.toUInt8] = 1 := by decide
  have hbar : weight ['|'.toUInt8] = 1 := by decide
  induction h with
  | literal h => rw [weight_literal h, nodeCount]
  | group _ ih => rw [weight_cons, weight_append, hopening, hclosing, ih, Nat.zero_add, Nat.add_zero]
  | atom _ ih => exact ih
  | star _ ih => rw [weight_append, hstar, nodeCount, ih, Nat.mul_add]
  | factor _ ih => exact ih
  | follow _ _ ih ih' => rw [weight_append, nodeCount, ih, ih', Nat.mul_add]
  | branch _ ih => exact ih
  | bar _ _ ih ih' =>
    rw [weight_append, weight_cons, hbar, nodeCount, ih, ih']
    omega

end Regex

namespace Automaton

variable {automaton after : Automaton} {token : UInt32} {pattern : String} {regex : Regex}
  {id entry exit source dest : NodeId} {symbol : UInt8}

/-- Whether a node is among those added to an automaton. -/
def Adds (automaton after : Automaton) (id : NodeId) : Prop :=
  automaton.size ≤ id.toNat ∧ id.toNat < after.size

/-- The nodes added to an automaton are a fragment for a pattern, from one of them to another. -/
structure Builds (automaton : Automaton) (pattern : String) (token : UInt32) (entry exit : NodeId)
    (after : Automaton) : Prop where
  size_eq : after.size = automaton.size + 2 * Regex.weight pattern.toUTF8.toList
  adds_entry : automaton.Adds after entry
  adds_exit : automaton.Adds after exit
  /-- Edges join added nodes with each other, and old ones with each other. -/
  apart : ∀ {source symbol dest}, after.Leads source symbol dest →
    (automaton.Adds after source ↔ automaton.Adds after dest)
  reads_iff : ∀ word, Reads after.Leads entry word exit ↔ Matches pattern word
  not_to_entry : ∀ source symbol, ¬ after.Leads source symbol entry
  not_from_exit : ∀ symbol dest, ¬ after.Leads exit symbol dest
  on_path : ∀ id, automaton.Adds after id → Between after.Leads entry exit id
  acceptedAt_eq : ∀ id, automaton.Adds after id →
    after.acceptedAt id = if id = exit then some token else none

/-! ## A fragment to which nothing leads -/

lemma not_covers_of_leads (ha : automaton.Settled) (regex : Regex)
    (hl : automaton.Leads source symbol dest) :
    ¬ regex.Covers automaton.size source ∧ ¬ regex.Covers automaton.size dest := by
  have hs := lt_size_of_edge hl
  have hd : dest.toNat < automaton.size := ha.dest_lt hl
  exact ⟨fun hc => absurd hc.1 (Nat.not_le.mpr hs), fun hc => absurd hc.1 (Nat.not_le.mpr hd)⟩

/-- Edges join added nodes with each other, and old ones with each other. -/
lemma adds_iff_of_extend (ha : automaton.Settled) {count : Nat} {wires : List Wire}
    (hneat : Neat automaton.size count wires) (hsize : after.size = automaton.size + count)
    (hedges : after.edgesOf = (automaton.picture.extend count wires).edges)
    (hl : after.Leads source symbol dest) :
    automaton.Adds after source ↔ automaton.Adds after dest := by
  unfold Adds
  rw [hsize]
  rcases (leads_extend hedges).mp hl with hl | hw
  · have hsource := lt_size_of_edge hl
    have hdest : dest.toNat < automaton.size := ha.dest_lt hl
    omega
  · exact iff_of_true (hneat.within hw).1 (hneat.within hw).2

section Gain

variable (ha : automaton.Settled)
  (h : Shows automaton (automaton.picture.gain regex token []) after)
include h

lemma Shows.size_gain : after.size = automaton.size + regex.nodeCount :=
  congrArg Picture.size h.picture_eq

lemma Shows.edgesOf_gain : after.edgesOf =
    (automaton.picture.extend regex.nodeCount (regex.wiring automaton.size)).edges := by
  rw [← List.append_nil (regex.wiring automaton.size)]
  exact congrArg Picture.edges h.picture_eq

lemma Shows.adds_gain_iff : automaton.Adds after id ↔ regex.Covers automaton.size id := by
  unfold Adds Regex.Covers
  rw [h.size_gain]

lemma Shows.leads_gain_iff : after.Leads source symbol dest ↔
    automaton.Leads source symbol dest ∨ Wired (regex.wiring automaton.size) source symbol dest :=
  leads_extend h.edgesOf_gain

lemma Shows.acceptedAt_gain (htoken : token ≠ State.noToken) (hid : automaton.Adds after id) :
    after.acceptedAt id = if id = regex.exitAt automaton.size then some token else none := by
  have htokens : after.tokenOf =
      Function.update automaton.tokenOf (regex.exitAt automaton.size) token :=
    congrArg Picture.token h.picture_eq
  rw [Automaton.acceptedAt_eq, htokens, Function.update_apply]
  by_cases hend : id = regex.exitAt automaton.size
  · rw [if_pos hend, if_pos hend, if_neg htoken]
  · rw [if_neg hend, if_neg hend, if_pos (tokenOf_of_size_le hid.1)]

include ha

/-- Where something touches a node of the fragment, it is a wire of the fragment. -/
lemma Shows.wired_gain (hl : after.Leads source symbol dest)
    (hc : regex.Covers automaton.size source ∨ regex.Covers automaton.size dest) :
    Wired (regex.wiring automaton.size) source symbol dest := by
  rcases h.leads_gain_iff.mp hl with hl | hw
  · have hold := not_covers_of_leads ha regex hl
    exact (hc.elim hold.1 hold.2).elim
  · exact hw

lemma Shows.reads_gain_iff (hp : regex.Proper) (word : List UInt8) :
    Reads after.Leads (regex.entryAt automaton.size) word (regex.exitAt automaton.size) ↔
      word ∈ regex.language := by
  have hentry := regex.covers_entryAt automaton.size
  have hexit := regex.covers_exitAt automaton.size
  have hmono : ∀ source symbol dest, Wired (regex.wiring automaton.size) source symbol dest →
      after.Leads source symbol dest := fun _ _ _ hw => h.leads_gain_iff.mpr (.inr hw)
  have hleaves : Leaves (Wired (regex.wiring automaton.size)) after.Leads
      (regex.Covers automaton.size) (regex.exitAt automaton.size) fun _ => False := by
    intro source symbol dest hin hl
    have hw := h.wired_gain ha hl (.inl hin)
    exact .inl ⟨hw, ((Regex.isolated automaton.size regex).covers hw).2⟩
  rw [hleaves.reads_iff hmono (fun _ => False.elim) hentry,
    ← Regex.passage_eq_language automaton.size hp]
  constructor
  · rintro (⟨-, hpath⟩ | ⟨_, _, _, -, -, hfalse, -⟩)
    · exact hpath
    · exact hfalse.elim
  · exact fun hpath => .inl ⟨hexit, hpath⟩

/-- What an automaton becomes by the fragment of a pattern. -/
lemma Shows.builds {nestLimit : UInt32} (hr : readPattern nestLimit token pattern = .ok regex) :
    automaton.Builds pattern token (regex.entryAt automaton.size) (regex.exitAt automaton.size)
      after := by
  obtain ⟨htoken, hphrase⟩ := readPattern_eq_ok_iff.mp hr
  have hisolated := Regex.isolated automaton.size regex
  have hentry := regex.covers_entryAt automaton.size
  have hexit := regex.covers_exitAt automaton.size
  refine ⟨?_, h.adds_gain_iff.mpr hentry, h.adds_gain_iff.mpr hexit, ?_, ?_, ?_, ?_, ?_, ?_⟩
  · rw [h.size_gain, hphrase.nodeCount_eq]
  · exact adds_iff_of_extend ha (neat_wiring _ regex) h.size_gain h.edgesOf_gain
  · intro word
    rw [h.reads_gain_iff ha hphrase.proper, matches_iff hphrase]
  · exact fun source symbol hl => hisolated.not_to_entry (h.wired_gain ha hl (.inr hentry))
  · exact fun symbol dest hl => hisolated.not_from_exit (h.wired_gain ha hl (.inl hexit))
  · intro id hid
    have hbetween := Regex.between_ends hphrase.proper (h.adds_gain_iff.mp hid)
    exact hbetween.mono fun _ _ _ hw => h.leads_gain_iff.mpr (.inr hw)
  · exact fun id hid => h.acceptedAt_gain htoken hid

end Gain

end Automaton

namespace Workspace

variable {workspace : Workspace}

/-- In any workspace that can arise, the nodes added for a pattern that is read are a fragment for it
that begins at the node given back. -/
theorem Arises.addFragmentOf_builds (h : workspace.Arises) (token : UInt32) (pattern : String) :
    WithinLimits (workspace.addFragmentOf token pattern) fun (compiled, after) =>
      ∀ entry, compiled.result = .ok entry →
        ∃ exit, workspace.automaton.Builds pattern token entry exit after.automaton := by
  have hs := h.regular.settled
  unfold addFragmentOf
  cases hr : readPattern workspace.config.chosenNestLimit token pattern with
  | error rejection =>
    apply (edit_withinLimits (Automaton.addFragmentOf_ensures_of_error hr
      (Automaton.assembleAll_settled hs _))).mono
    rintro ⟨compiled, after⟩ ⟨-, hresult, -⟩ entry heq
    rw [hresult] at heq
    cases heq
  | ok regex =>
    apply (edit_withinLimits (Automaton.addFragmentOf_ensures_of_ok hs hr)).mono
    rintro ⟨compiled, after⟩ ⟨-, hresult, hshows⟩ entry heq
    rw [hresult] at heq
    cases heq
    exact ⟨_, hshows.builds hs hr⟩

/-- A workspace that was reduced between patterns, and has a silent loop at its entry. -/
def worn : Except Fault Workspace := do
  let workspace ← looped
  let (_, workspace) ← workspace.reduce
  let workspace ← workspace.addTransition ⟨0⟩ Transition.epsilon ⟨0⟩
  let (_, workspace) ← workspace.addPattern 5 "b(c"
  return workspace

theorem Arises.addFragmentOf_builds_worn : ∃ workspace compiled after entry exit, worn = .ok workspace ∧
    workspace.Arises ∧ workspace.addFragmentOf 7 "(a|.)*b" = .ok (compiled, after) ∧
    compiled.result = .ok entry ∧
    workspace.automaton.Builds "(a|.)*b" 7 entry exit after.automaton := by
  have hok : (worn.toOption.any fun workspace =>
      (workspace.addFragmentOf 7 "(a|.)*b").toOption.any fun (compiled, _) =>
        compiled.result.toOption.isSome) = true := by decide +kernel
  obtain ⟨workspace, hworn, hok⟩ := exists_of_any hok
  obtain ⟨⟨compiled, after⟩, hadd, hok⟩ := exists_of_any hok
  have hw := hworn
  unfold worn at hw
  obtain ⟨first, hlooped, hw⟩ := exists_of_bind_eq_ok hw
  obtain ⟨⟨_, second⟩, hreduce, hw⟩ := exists_of_bind_eq_ok hw
  obtain ⟨third, hlink, hw⟩ := exists_of_bind_eq_ok hw
  obtain ⟨⟨_, fourth⟩, hpattern, hw⟩ := exists_of_bind_eq_ok hw
  cases hw
  have hlinked := ((arises_looped hlooped).use (.reduce trivial hreduce)).use
    (.addTransition trivial hlink)
  have harises := hlinked.use (.addPattern trivial hpattern)
  cases hresult : compiled.result with
  | error error => simp [hresult, Except.toOption] at hok
  | ok entry =>
    have hbuilds := (harises.addFragmentOf_builds 7 "(a|.)*b").of_eq_ok hadd
    obtain ⟨exit, h⟩ := hbuilds entry hresult
    exact ⟨_, compiled, after, entry, exit, hworn, harises, hadd, hresult, h⟩

end Workspace

end PatternAutomata
