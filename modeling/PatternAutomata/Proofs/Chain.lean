import PatternAutomata.Proofs.Room
import Mathlib.Order.Bounds.Basic
import Mathlib.Order.WellFounded

/-!
# The chain of capacities

The search for room climbs one chain of capacities. Up to the last capacity that its turns lead to,
they are exact and gain room, so that the search ends at the first capacity that suffices. That last
capacity is a word whose double is not: the doubling loses its highest bit, and less is left than is
to be taken away from it. A search that has to go on from there overflows.
-/

namespace PatternAutomata

namespace Buffer

/-- The capacities on the chain, without bound. -/
def chain : Nat → Nat
  | 0 => 0
  | links + 1 => 2 * chain links - chain links / 2 + 8

lemma chain_lt_succ (links : Nat) : chain links < chain (links + 1) := by
  rw [chain]
  omega

lemma chain_strictMono : StrictMono chain := strictMono_nat_of_lt_succ chain_lt_succ

/-- The capacities on the chain that suffice for a number of elements. -/
def rooms (need : Nat) : Set Nat := {room | need ≤ room ∧ ∃ links, chain links = room}

/-- Room that suffices for more elements than asked for is the room for these as well. -/
lemma isLeast_rooms_max {peak need room : Nat} (h : IsLeast (rooms peak) room) (hle : need ≤ room) :
    IsLeast (rooms (max peak need)) room := by
  obtain ⟨⟨hpeak, hchain⟩, hleast⟩ := h
  exact ⟨⟨Nat.max_le.mpr ⟨hpeak, hle⟩, hchain⟩,
    fun other ho => hleast ⟨Nat.le_trans (Nat.le_max_left _ _) ho.1, ho.2⟩⟩

/-! ## The last capacity -/

/-- The last capacity on the chain that the search comes to. -/
def lastRoom : UInt64 := 9840053641935042784

lemma chain_lastRoom : chain 101 = lastRoom.toNat := by decide +kernel

lemma chain_lt_halfway {links : Nat} (h : links < 101) : chain links < halfway := by
  have hlast : chain 100 < halfway := by decide +kernel
  exact Nat.lt_of_le_of_lt (chain_strictMono.monotone (Nat.le_of_lt_succ h)) hlast

/-- A capacity that the search cannot leave: its double loses the highest bit, and less is left than
is to be taken away. -/
structure Stuck (capacity : UInt64) : Prop where
  doubled : (capacity <<< 1).toNat + UInt64.size = 2 * capacity.toNat
  short : capacity <<< 1 < capacity >>> 1
  next_eq : nextCapacity capacity = .error .differenceOverflow

lemma stuck_lastRoom : Stuck lastRoom := ⟨by decide, by decide, rfl⟩

/-- A capacity is on the part of the chain that the search comes to. -/
def Charted (capacity : UInt64) : Prop := ∃ links ≤ 101, chain links = capacity.toNat

section Charted

variable {capacity need found other : UInt64}

lemma charted_zero : Charted 0 := ⟨0, Nat.zero_le _, rfl⟩

lemma Charted.le_lastRoom (h : Charted capacity) : capacity ≤ lastRoom := by
  obtain ⟨links, hlinks, hchain⟩ := h
  rw [UInt64.le_iff_toNat_le, ← hchain, ← chain_lastRoom]
  exact chain_strictMono.monotone hlinks

/-! ## The search -/

/-- The search goes from a capacity to one that suffices, and meets none that suffices before. -/
inductive Climbs (need : UInt64) : UInt64 → UInt64 → Prop
  | enough {capacity : UInt64} : need ≤ capacity → Climbs need capacity capacity
  | turn {capacity next found : UInt64} :
      capacity < need → Turn capacity next → Climbs need next found → Climbs need capacity found

/-- The search goes from a capacity to one that it cannot leave, and meets none that suffices. -/
inductive Stalls (need : UInt64) : UInt64 → Prop
  | stuck {capacity : UInt64} : capacity < need → Stuck capacity → Stalls need capacity
  | turn {capacity next : UInt64} :
      capacity < need → Turn capacity next → Stalls need next → Stalls need capacity

lemma Climbs.need_le (h : Climbs need capacity found) : need ≤ found := by
  induction h with
  | enough h => exact h
  | turn _ _ _ ih => exact ih

lemma Turn.unique (h : Turn capacity found) (h' : Turn capacity other) : found = other :=
  Except.ok.inj (h.next_eq.symm.trans h'.next_eq)

lemma Climbs.unique (h : Climbs need capacity found) (h' : Climbs need capacity other) :
    found = other := by
  induction h with
  | enough hle =>
    cases h' with
    | enough => rfl
    | turn hlt => exact absurd hle (UInt64.not_le.mpr hlt)
  | turn hlt hturn _ ih =>
    cases h' with
    | enough hle => exact absurd hle (UInt64.not_le.mpr hlt)
    | turn _ hturn' hclimbs =>
      cases hturn.unique hturn'
      exact ih hclimbs

/-- The least room for a number of elements, where the search finds it. -/
structure Finds (need capacity found : UInt64) : Prop where
  climbs : Climbs need capacity found
  isLeast : IsLeast (rooms need.toNat) found.toNat
  charted : Charted found

lemma Finds.gain (h : Finds need capacity found) (hlt : capacity < need) :
    capacity.toNat < found.toNat :=
  UInt64.lt_iff_toNat_lt.mp (UInt64.lt_of_lt_of_le hlt h.climbs.need_le)

/-- What the search comes to, from a capacity on the chain before which none suffices. -/
lemma sufficientCapacity_chain {links steps : Nat} (hlinks : links ≤ 101)
    (hcapacity : chain links = capacity.toNat) (hshort : ∀ before < links, chain before < need.toNat)
    (hsteps : 101 < links + steps) :
    (need ≤ lastRoom ∧ ∃ found, sufficientCapacity need steps capacity = .ok found ∧
      Finds need capacity found) ∨
    (lastRoom < need ∧ sufficientCapacity need steps capacity = .error .differenceOverflow ∧
      Stalls need capacity) := by
  induction steps generalizing links capacity with
  | zero => exact absurd hsteps (Nat.not_lt.mpr hlinks)
  | succ steps ih =>
    have hcharted : Charted capacity := ⟨links, hlinks, hcapacity⟩
    unfold sufficientCapacity
    by_cases hle : need ≤ capacity
    · rw [if_pos hle]
      refine .inl ⟨UInt64.le_trans hle hcharted.le_lastRoom, capacity, rfl, .enough hle,
        ⟨⟨UInt64.le_iff_toNat_le.mp hle, links, hcapacity⟩, ?_⟩, hcharted⟩
      rintro _ ⟨hroom, other, rfl⟩
      rw [← hcapacity]
      by_contra hlt
      exact absurd (hshort other (chain_strictMono.lt_iff_lt.mp (Nat.not_le.mp hlt)))
        (Nat.not_lt.mpr hroom)
    · rw [if_neg hle]
      have hlt := UInt64.not_le.mp hle
      rcases Nat.lt_or_eq_of_le hlinks with hless | rfl
      · obtain ⟨next, hturn⟩ := exists_turn (hcapacity ▸ chain_lt_halfway hless)
        have hnext : chain (links + 1) = next.toNat := by
          rw [hturn.toNat_next, chain, hcapacity]
        have hbefore : ∀ before < links + 1, chain before < need.toNat := fun before hb =>
          Nat.lt_of_le_of_lt (chain_strictMono.monotone (Nat.le_of_lt_succ hb))
            (hcapacity ▸ UInt64.lt_iff_toNat_lt.mp hlt)
        rw [hturn.next_eq]
        rcases ih hless hnext hbefore (by omega) with
          ⟨hneed, found, hfound, hclimbs, hleast, hcharted⟩ | ⟨hneed, hfault, hstalls⟩
        · exact .inl ⟨hneed, found, hfound, .turn hlt hturn hclimbs, hleast, hcharted⟩
        · exact .inr ⟨hneed, hfault, .turn hlt hturn hstalls⟩
      · obtain rfl : lastRoom = capacity :=
          UInt64.toNat_inj.mp (chain_lastRoom.symm.trans hcapacity)
        rw [stuck_lastRoom.next_eq]
        exact .inr ⟨hlt, rfl, .stuck hlt stuck_lastRoom⟩

/-- From a capacity on the chain that does not suffice, the search finds the least that does, or
there is none that it comes to and it overflows. -/
lemma Charted.search (h : Charted capacity) (hlt : capacity < need) :
    (need ≤ lastRoom ∧ ∃ found, sufficientCapacity need UInt64.size capacity = .ok found ∧
      Finds need capacity found) ∨
    (lastRoom < need ∧ sufficientCapacity need UInt64.size capacity = .error .differenceOverflow ∧
      Stalls need capacity) := by
  obtain ⟨links, hlinks, hchain⟩ := h
  have hsteps : 101 < links + UInt64.size :=
    Nat.lt_of_lt_of_le (show 101 < UInt64.size by decide) (Nat.le_add_left _ _)
  refine sufficientCapacity_chain hlinks hchain (fun before hb => ?_) hsteps
  exact Nat.lt_trans (hchain ▸ chain_strictMono hb) (UInt64.lt_iff_toNat_lt.mp hlt)

end Charted

end Buffer

end PatternAutomata
