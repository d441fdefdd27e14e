import PatternAutomata.Proofs.Run
import Mathlib.Data.List.Nodup

/-!
# How often a node has an edge

A node may have several edges with the same symbol to the same node. Where a node takes over edges of
others, it keeps every consuming edge of its own as often as it had it, and takes over another edge
once at most.
-/

namespace PatternAutomata

def Edge.consumes (edge : Edge Transition) : Bool := !edge.data.isEpsilon

def Edge.key (edge : Edge Transition) : UInt8 × NodeId := (edge.data.symbol, edge.dest)

lemma Edge.key_injective : Function.Injective Edge.key := by
  rintro ⟨dest, ⟨symbol⟩⟩ ⟨dest', ⟨symbol'⟩⟩ h
  cases h
  rfl

lemma Edge.consumes_iff {edge : Edge Transition} :
    edge.consumes = true ↔ edge.data.symbol ≠ Transition.epsilon := by
  simp [consumes, Transition.isEpsilon]

lemma count_consuming (edges : List (Edge Transition)) {symbol : UInt8}
    (hs : symbol ≠ Transition.epsilon) (dest : NodeId) :
    ((edges.filter Edge.consumes).map Edge.key).count (symbol, dest) =
      (edges.map Edge.key).count (symbol, dest) := by
  induction edges with
  | nil => rfl
  | cons edge edges ih =>
    by_cases hc : edge.consumes = true
    · rw [List.filter_cons_of_pos hc, List.map_cons, List.map_cons, List.count_cons, List.count_cons, ih]
    · have hne : edge.key ≠ (symbol, dest) := by
        intro heq
        have hsymbol : edge.data.symbol = symbol := congrArg Prod.fst heq
        exact hc (Edge.consumes_iff.mpr (hsymbol ▸ hs))
      rw [List.filter_cons_of_neg hc, List.map_cons, List.count_cons_of_ne hne, ih]

namespace Automaton

variable {automaton after last : Automaton} {source dest id : NodeId} {symbol : UInt8}

/-- How many edges with a given symbol lead from one node to another. -/
def multiplicity (automaton : Automaton) (source : NodeId) (symbol : UInt8) (dest : NodeId) : Nat :=
  ((automaton.edgesOf source).map Edge.key).count (symbol, dest)

lemma multiplicity_pos_iff :
    0 < automaton.multiplicity source symbol dest ↔ automaton.Leads source symbol dest := by
  unfold multiplicity Leads
  rw [List.count_pos_iff]
  exact List.mem_map_of_injective (f := Edge.key) Edge.key_injective (a := ⟨dest, ⟨symbol⟩⟩)

/-- No consuming edge of a node is doubled exactly if each is there once at most. -/
lemma nodup_consuming_iff : ((automaton.edgesOf id).filter Edge.consumes).Nodup ↔
    ∀ symbol dest, symbol ≠ Transition.epsilon → automaton.multiplicity id symbol dest ≤ 1 := by
  rw [← List.nodup_map_iff Edge.key_injective, List.nodup_iff_count_le_one]
  constructor
  · intro h symbol dest hs
    have hle := h (symbol, dest)
    rwa [count_consuming _ hs] at hle
  · rintro h ⟨symbol, dest⟩
    by_cases hs : symbol = Transition.epsilon
    · have hnone : (symbol, dest) ∉ ((automaton.edgesOf id).filter Edge.consumes).map Edge.key := by
        intro hmem
        obtain ⟨edge, he, hkey⟩ := List.mem_map.mp hmem
        exact Edge.consumes_iff.mp (List.mem_filter.mp he).2 ((congrArg Prod.fst hkey).trans hs)
      rw [List.count_eq_zero.mpr hnone]
      exact Nat.zero_le _
    · rw [count_consuming _ hs]
      exact h symbol dest hs

/-- A node has its consuming edges as often as it had them, and others once at most. -/
def Keeps (automaton after : Automaton) (source : NodeId) : Prop :=
  ∀ symbol dest, symbol ≠ Transition.epsilon →
    after.multiplicity source symbol dest = automaton.multiplicity source symbol dest ∨
      (automaton.multiplicity source symbol dest = 0 ∧ after.multiplicity source symbol dest = 1)

lemma Keeps.of_edgesOf_eq (h : after.edgesOf source = automaton.edgesOf source) :
    automaton.Keeps after source := by
  intro symbol dest _
  unfold multiplicity
  rw [h]
  exact .inl rfl

lemma Keeps.trans (h : automaton.Keeps after source) (h' : after.Keeps last source) :
    automaton.Keeps last source := by
  intro symbol dest hs
  have hfirst := h symbol dest hs
  have hsecond := h' symbol dest hs
  omega

lemma Keeps.nodup (h : automaton.Keeps after id)
    (hn : ((automaton.edgesOf id).filter Edge.consumes).Nodup) :
    ((after.edgesOf id).filter Edge.consumes).Nodup := by
  rw [nodup_consuming_iff] at hn ⊢
  intro symbol dest hs
  have hle := hn symbol dest hs
  have hkeeps := h symbol dest hs
  omega

end Automaton

end PatternAutomata
