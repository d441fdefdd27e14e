import PatternAutomata.Proofs.Session

/-!
# Reduced automata are position automata

What a session ends with, if it ends with a reduction, is determined by the expressions of the
accepted patterns alone: the live nodes are the entry and one node for each literal, and their edges
and tokens are those of the position automaton of the expressions. It does not matter how often the
automaton was reduced on the way, or which patterns were rejected.
-/

namespace PatternAutomata

namespace Automaton

def acceptedAt (automaton : Automaton) (id : NodeId) : Option UInt32 :=
  (automaton.node? id).bind fun node => node.data.accepted

lemma acceptedAt_eq (automaton : Automaton) (id : NodeId) : automaton.acceptedAt id =
    if automaton.tokenOf id = State.noToken then none else some (automaton.tokenOf id) := by
  unfold acceptedAt tokenOf
  cases automaton.node? id <;> rfl

/-- The live nodes of an automaton, in table order, are the entry and one node for each position of
some patterns. An edge leads from one to another, once and with the byte of the position to which it
leads, where that position can follow. The entry accepts with the least token of the patterns that
have the empty word, the node of a position with the token of its pattern if a word can end there. -/
structure IsPositionAutomaton (automaton : Automaton) (patterns : List (UInt32 × Regex)) : Prop
    where
  length_liveNodes : automaton.liveNodes.length = (lettersOf patterns).length + 1
  entry_first : automaton.liveNodes[0]? = some automaton.entry
  not_to_entry : ∀ id, ∀ edge ∈ automaton.edgesOf id, edge.dest ≠ automaton.entry
  nodup : ∀ id ∈ automaton.liveNodes, (automaton.edgesOf id).Nodup
  edges : ∀ {i id}, automaton.liveNodes[i]? = some id → ∀ edge, (edge ∈ automaton.edgesOf id ↔
    ∃ j, Succeeds patterns i j ∧ automaton.liveNodes[j]? = some edge.dest ∧
      (lettersOf patterns)[j - 1]? = some edge.data.symbol)
  entry_accepts : automaton.acceptedAt automaton.entry =
    least {token | ∃ regex, (token, regex) ∈ patterns ∧ regex.nullable = true}
  accepts : ∀ placed ∈ placements 1 patterns, ∀ {i id}, placed.regex.Numbers placed.base i →
    automaton.liveNodes[i]? = some id → automaton.acceptedAt id =
      if i ∈ placed.regex.last placed.base then some placed.token else none

variable {automaton : Automaton} {patterns : List (UInt32 × Regex)} {arrive : Nat → Edge Transition}
  {i : Nat}

section Distils

variable (h : automaton.Distils patterns arrive)

include h

lemma Distils.liveNodes_getElem? {id : NodeId} : automaton.liveNodes[i]? = some id ↔
    i ≤ (lettersOf patterns).length ∧ (arrive i).dest = id := by
  rw [h.liveNodes_eq, List.getElem?_map, Option.map_eq_some_iff]
  constructor
  · rintro ⟨j, hj, rfl⟩
    obtain ⟨hlt, rfl⟩ := List.getElem?_eq_some_iff.mp hj
    rw [List.length_range] at hlt
    rw [List.getElem_range]
    exact ⟨Nat.le_of_lt_succ hlt, rfl⟩
  · rintro ⟨hi, rfl⟩
    exact ⟨i, List.getElem?_range (Nat.lt_succ_of_le hi), rfl⟩

lemma Distils.letter_eq (hi : 1 ≤ i) (hi' : i ≤ (lettersOf patterns).length) :
    (lettersOf patterns)[i - 1]? = some (arrive i).data.symbol := by
  obtain ⟨k, rfl⟩ := Nat.exists_eq_add_of_le hi
  have hk : k < (lettersOf patterns).length := by omega
  rw [Nat.add_sub_cancel_left, List.getElem?_eq_getElem hk]
  exact congrArg some (h.letters k hk).symm

lemma Distils.acceptedAt_eq (hne : ∀ pattern ∈ patterns, pattern.1 ≠ State.noToken)
    (hi : i ≤ (lettersOf patterns).length) : automaton.acceptedAt (arrive i).dest =
      least {token | Concludes patterns i token} := by
  rw [Automaton.acceptedAt_eq]
  refine (least_eq_of_bounds ?_ fun bound => ?_).symm
  · rintro ⟨placed, hp, htoken, -⟩
    exact hne _ (exists_mem_placements_iff.mp ⟨placed.base, hp⟩) htoken
  · rw [← rests_iff_of_flat h.flat]
    exact h.rests hi bound

/-- What a reduction distils is the position automaton of the patterns. -/
theorem Distils.isPositionAutomaton (hne : ∀ pattern ∈ patterns, pattern.1 ≠ State.noToken) :
    automaton.IsPositionAutomaton patterns where
  length_liveNodes := by rw [h.liveNodes_eq, List.length_map, List.length_range]
  entry_first := h.liveNodes_getElem?.mpr ⟨Nat.zero_le _, h.arrive_zero⟩
  not_to_entry id edge he heq := h.not_to_entry id edge.data.symbol (heq ▸ he)
  nodup id _ := by
    rw [← filter_consumes_of_flat h.flat]
    exact h.nodup id
  edges hget edge := by
    obtain ⟨hi, rfl⟩ := h.liveNodes_getElem?.mp hget
    rw [h.toEmbodies.mem_edgesOf_iff h.flat hi]
    refine exists_congr fun j => and_congr_right fun hs => ?_
    rw [h.liveNodes_getElem?, h.letter_eq hs.le.2.1 hs.le.2.2]
    constructor
    · rintro rfl
      exact ⟨⟨hs.le.2.2, rfl⟩, rfl⟩
    · rintro ⟨⟨-, hdest⟩, hsymbol⟩
      obtain ⟨dest, ⟨symbol⟩⟩ := edge
      rw [show arrive j = ⟨(arrive j).dest, ⟨(arrive j).data.symbol⟩⟩ from rfl, hdest,
        Option.some.inj hsymbol]
  entry_accepts := by
    rw [← h.arrive_zero, h.acceptedAt_eq hne (Nat.zero_le _)]
    refine congrArg least (Set.ext fun token => ?_)
    simp only [Set.mem_ofPred_eq, ← @exists_mem_placements_iff patterns 1]
    constructor
    · rintro ⟨placed, hp, rfl, ⟨-, hnullable⟩ | hlast⟩
      · exact ⟨placed.regex, ⟨placed.base, hp⟩, hnullable⟩
      · have := (Regex.numbers_of_mem_last hlast).1
        have := (le_of_mem_placements hp).1
        omega
    · rintro ⟨regex, ⟨number, hp⟩, hnullable⟩
      exact ⟨_, hp, rfl, .inl ⟨rfl, hnullable⟩⟩
  accepts placed hp i id hn hget := by
    obtain ⟨hi, rfl⟩ := h.liveNodes_getElem?.mp hget
    have hpos : i ≠ 0 := by
      have := (le_of_mem_placements hp).1
      have := hn.1
      omega
    have hconcludes : ∀ token, Concludes patterns i token ↔
        placed.token = token ∧ i ∈ placed.regex.last placed.base := by
      intro token
      constructor
      · rintro ⟨other, ho, htoken, ⟨rfl, -⟩ | hlast⟩
        · exact absurd rfl hpos
        · rw [placement_unique hp ho hn (Regex.numbers_of_mem_last hlast)]
          exact ⟨htoken, hlast⟩
      · rintro ⟨htoken, hlast⟩
        exact ⟨placed, hp, htoken, .inr hlast⟩
    rw [h.acceptedAt_eq hne hi]
    simp only [hconcludes]
    by_cases hlast : i ∈ placed.regex.last placed.base
    · simp only [hlast, and_true, if_true]
      exact least_eq_some_iff.mpr ⟨rfl, fun other ho => ho ▸ UInt32.le_refl _⟩
    · simp only [hlast, and_false, if_false]
      exact least_eq_none_iff.mpr rfl

end Distils

end Automaton

lemma lettersOf_eq {nestLimit : UInt32} {accepted : List (UInt32 × String)}
    {patterns : List (UInt32 × Regex)} (h : List.Forall₂ (Expresses nestLimit) accepted patterns) :
    lettersOf patterns = accepted.flatMap fun (_, text) =>
      text.toUTF8.toList.filter fun byte => !Regex.isSign byte := by
  induction h with
  | nil => rfl
  | @cons pattern expressed accepted patterns hhead _ ih =>
    obtain ⟨token, text⟩ := pattern
    rw [List.flatMap_cons, ← ih]
    dsimp only
    rw [← hhead.2.letters_eq]
    exact List.flatMap_cons

/-- A session that ends with a reduction ends with the position automaton of the accepted patterns.
If dead nodes are removed, the table has one node for each literal byte, and the entry. -/
theorem play_reduce_isPositionAutomaton (config : Config) (commands : List Command) :
    WithinLimits (Session.play config (commands ++ [.reduce])) fun session => ∃ patterns,
      List.Forall₂ (Expresses config.chosenNestLimit) session.accepted patterns ∧
      lettersOf patterns = session.accepted.flatMap (fun (_, text) =>
        text.toUTF8.toList.filter fun byte => !Regex.isSign byte) ∧
      session.workspace.automaton.IsPositionAutomaton patterns ∧
      (config.chosenCompact = true →
        session.workspace.automaton.size = (lettersOf patterns).length + 1) := by
  have hplay : Session.play config (commands ++ [.reduce]) = (do
      let session ← Session.play config commands
      session.apply .reduce) := by
    simp only [Session.play, List.foldlM_append, List.foldlM_cons, List.foldlM_nil, bind_assoc,
      bind_pure]
  rw [hplay, withinLimits_bind]
  apply (Session.play_lawful config commands).mono
  intro session h
  obtain ⟨rfl, patterns, arrive, hc⟩ := h
  rw [Session.apply, withinLimits_bind]
  apply hc.reduce.mono
  rintro ⟨_, after⟩ ⟨hsame, arrive', hafter, hdistils, hsize⟩
  rw [withinLimits_pure]
  exact ⟨patterns, hc.expresses, lettersOf_eq hc.expresses,
    hdistils.isPositionAutomaton hafter.speaks.token_ne, hsize⟩

end PatternAutomata
