import PatternAutomata.Proofs.RobinHood
import Mathlib.Combinatorics.Enumerative.DoubleCounting

/-!
# The shape of a table

The shape of a table is what can be seen of it without telling keys with the same home apart: the size
of its ring, which slots are taken, how far the entries have walked and where they are at home. It
depends on the keys, but not on the order in which they were inserted, nor on when the ring was renewed.

The reason is a recurrence around the ring. Of the entries that come by a slot, counting those only
that have walked some number of steps there, one stays, and all others come by the next slot after one
more step; those at home there join them. The entries of two tables with the same keys have the same
homes. So a table by whose slot fewer entries come than in the other table stays behind the other
around the whole ring, and both are level at a slot which the other leaves vacant.
-/

namespace PatternAutomata

namespace Table

variable {κ ν : Type} {hash : κ → UInt64} {table other : Table hash ν} {key : κ} {value : ν}
  {index position distance steps : Nat}

/-! ## Steps around the ring -/

/-- The number of steps from one slot to another, around a ring of `capacity` slots. -/
def stepsBetween (capacity index position : Nat) : Nat :=
  if index ≤ position then position - index else position + capacity - index

lemma stepsBetween_eq {capacity : Nat} (hi : index < capacity) (hj : position < capacity) :
    stepsBetween capacity index position = (position + capacity - index) % capacity := by
  unfold stepsBetween
  split
  · rw [show position + capacity - index = position - index + capacity by omega, Nat.add_mod_right,
      Nat.mod_eq_of_lt (by omega)]
  · rw [Nat.mod_eq_of_lt (by omega)]

lemma next_lt (hi : index < table.capacity) : table.next index < table.capacity :=
  Nat.mod_lt _ (Nat.zero_lt_of_lt hi)

lemma next_eq_ite (hi : index < table.capacity) :
    table.next index = if index + 1 = table.capacity then 0 else index + 1 := by
  unfold next
  by_cases hlast : index + 1 = table.capacity
  · rw [if_pos hlast, hlast, Nat.mod_self]
  · rw [if_neg hlast, Nat.mod_eq_of_lt (by omega)]

lemma exists_next_eq (hi : index < table.capacity) :
    ∃ before < table.capacity, table.next before = index := by
  by_cases h0 : index = 0
  · refine ⟨table.capacity - 1, by omega, ?_⟩
    rw [next_eq_ite (by omega), if_pos (by omega), h0]
  · refine ⟨index - 1, by omega, ?_⟩
    rw [next_eq_ite (by omega), if_neg (by omega)]
    omega

/-- What goes on from each slot to the next, and holds at one slot, holds at each. -/
lemma around_induction {p : Nat → Prop}
    (hnext : ∀ index < table.capacity, p index → p (table.next index))
    (hi : index < table.capacity) (h : p index) (hj : position < table.capacity) : p position := by
  have hround : ∀ m, p ((index + m) % table.capacity) := by
    intro m
    induction m with
    | zero => rwa [Nat.add_zero, Nat.mod_eq_of_lt hi]
    | succ m ih =>
      have hm := hnext _ (Nat.mod_lt _ (by omega)) ih
      rwa [next, Nat.mod_add_mod, Nat.add_assoc] at hm
  have hposition := hround (table.capacity - index + position)
  rwa [← Nat.add_assoc, Nat.add_sub_cancel' (Nat.le_of_lt hi), Nat.add_mod_left,
    Nat.mod_eq_of_lt hj] at hposition

/-! ## Arrivals -/

/-- The slots of the entries that come by a slot after at least `steps` steps of their walk. -/
def arrivals (table : Table hash ν) (steps index : Nat) : Finset Nat :=
  (Finset.range table.capacity).filter fun position =>
    steps + stepsBetween table.capacity index position < (table.slot position).walked

/-- The slots of the entries that are at home in a slot. -/
def residents (table : Table hash ν) (index : Nat) : Finset Nat :=
  (Finset.range table.capacity).filter fun position =>
    stepsBetween table.capacity index position + 1 = (table.slot position).walked

lemma mem_arrivals : position ∈ table.arrivals steps index ↔ position < table.capacity ∧
    steps + stepsBetween table.capacity index position < (table.slot position).walked := by
  rw [arrivals, Finset.mem_filter, Finset.mem_range]

lemma mem_residents : position ∈ table.residents index ↔ position < table.capacity ∧
    stepsBetween table.capacity index position + 1 = (table.slot position).walked := by
  rw [residents, Finset.mem_filter, Finset.mem_range]

namespace Balanced

variable (h : table.Balanced)
include h

lemma walked_lt (hi : index < table.capacity) : (table.slot index).walked < table.capacity := by
  cases hs : table.slot index with
  | vacant => exact Nat.zero_lt_of_lt hi
  | occupied key value distance => exact h.distance_lt hs

lemma isOccupied_eq (index : Nat) :
    (table.slot index).isOccupied = decide ((table.slot index).walked ≠ 0) := by
  cases hs : table.slot index with
  | vacant => rfl
  | occupied key value distance =>
    have hpos := (h.orderly.trail hs).1
    exact (decide_eq_true (Nat.one_le_iff_ne_zero.mp hpos)).symm

/-- An entry has walked at most one step more than the one before it. -/
lemma walked_next_le (hi : index < table.capacity) :
    (table.slot (table.next index)).walked ≤ (table.slot index).walked + 1 := by
  cases hs : table.slot (table.next index) with
  | vacant => exact Nat.zero_le _
  | occupied key value distance =>
    by_cases hd : 1 < distance
    · obtain ⟨neighbour, held, before, hbefore, hle⟩ := h.preceded hs hd
      have hback : (table.next index + table.capacity - 1) % table.capacity = index := by
        rw [next_eq_ite hi]
        split
        · rw [Nat.zero_add, Nat.mod_eq_of_lt (by omega)]
          omega
        · rw [Nat.add_right_comm, Nat.add_sub_cancel, Nat.add_mod_right, Nat.mod_eq_of_lt hi]
      rw [hback] at hbefore
      rw [hbefore]
      simp only [Slot.walked]
      omega
    · simp only [Slot.walked]
      omega

lemma walked_le (hi : index < table.capacity) (hj : position < table.capacity) :
    (table.slot position).walked ≤
      (table.slot index).walked + stepsBetween table.capacity index position := by
  refine around_induction (p := fun position => (table.slot position).walked ≤
    (table.slot index).walked + stepsBetween table.capacity index position) ?_ hi ?_ hj
  · intro position hposition ih
    have hstep := h.walked_next_le hposition
    rw [next_eq_ite hposition] at hstep ⊢
    unfold stepsBetween at ih ⊢
    grind
  · exact Nat.le_add_right _ _

/-- Of the entries that come by a slot one stays, and the others come by the next one. -/
lemma card_arrivals (hi : index < table.capacity) (steps : Nat) :
    (table.arrivals steps index).card =
      (table.arrivals (steps + 1) (table.next index)).card +
        if steps < (table.slot index).walked then 1 else 0 := by
  have hlater : ∀ position, position ∈ table.arrivals (steps + 1) (table.next index) ↔
      position ∈ table.arrivals steps index ∧ position ≠ index := by
    intro position
    rw [mem_arrivals, mem_arrivals, next_eq_ite hi]
    have hlt := h.walked_lt hi
    unfold stepsBetween
    grind
  split
  · rename_i hstays
    have hinsert : table.arrivals steps index =
        Insert.insert index (table.arrivals (steps + 1) (table.next index)) := by
      ext position
      rw [Finset.mem_insert, hlater]
      by_cases heq : position = index
      · subst heq
        simpa [mem_arrivals, stepsBetween, hi] using hstays
      · simp [heq]
    rw [hinsert, Finset.card_insert_of_notMem]
    exact fun hmem => ((hlater index).mp hmem).2 rfl
  · rename_i hpasses
    have hsame : table.arrivals steps index =
        table.arrivals (steps + 1) (table.next index) := by
      ext position
      rw [hlater, iff_self_and]
      rintro hmem rfl
      rw [mem_arrivals] at hmem
      omega
    exact congrArg Finset.card hsame

/-- An entry stays in every slot by which entries come. -/
lemma lt_walked_iff (hi : index < table.capacity) (steps : Nat) :
    steps < (table.slot index).walked ↔ 0 < (table.arrivals steps index).card := by
  rw [Finset.card_pos]
  constructor
  · intro hstays
    refine ⟨index, mem_arrivals.mpr ⟨hi, ?_⟩⟩
    simpa [stepsBetween] using hstays
  · rintro ⟨position, hmem⟩
    obtain ⟨hposition, hlt⟩ := mem_arrivals.mp hmem
    have hle := h.walked_le hi hposition
    omega

lemma card_arrivals_succ (hi : index < table.capacity) (steps : Nat) :
    (table.arrivals (steps + 1) (table.next index)).card =
      (table.arrivals steps index).card - 1 := by
  have hcard := h.card_arrivals hi steps
  have hstays := h.lt_walked_iff hi steps
  split at hcard <;> omega

omit h in
/-- The entries that come by a slot are those on their way and those at home there. -/
lemma card_arrivals_zero (index : Nat) : (table.arrivals 0 index).card =
    (table.arrivals 1 index).card + (table.residents index).card := by
  have hunion : table.arrivals 0 index = table.arrivals 1 index ∪ table.residents index := by
    ext position
    rw [Finset.mem_union, mem_arrivals, mem_arrivals, mem_residents]
    omega
  rw [hunion, Finset.card_union_of_disjoint]
  rw [Finset.disjoint_left]
  intro position harrives hresides
  rw [mem_arrivals] at harrives
  rw [mem_residents] at hresides
  omega

/-- What comes by the next slot: all but one of what comes by a slot, and what is at home there. -/
lemma card_arrivals_next (hi : index < table.capacity) :
    (table.arrivals 0 (table.next index)).card =
      (table.arrivals 0 index).card - 1 + (table.residents (table.next index)).card := by
  rw [card_arrivals_zero, h.card_arrivals_succ hi]

lemma mem_residents_iff (hi : index < table.capacity) :
    position ∈ table.residents index ↔ ∃ key value distance,
      table.slot position = .occupied key value distance ∧ table.home key = index := by
  rw [mem_residents]
  cases hs : table.slot position with
  | vacant => simp [Slot.walked]
  | occupied key value distance =>
    have hposition := lt_capacity_of_occupied hs
    have hhome : table.home key < table.capacity := Nat.mod_lt _ (by omega)
    have hdistance := h.distance_eq hs
    rw [← stepsBetween_eq hhome hposition] at hdistance
    simp only [Slot.walked, Slot.occupied.injEq, and_assoc, hposition, true_and, hdistance]
    unfold stepsBetween
    grind

end Balanced

/-! ## Tables with the same keys -/

/-- The tables have rings of the same size and the same keys. -/
structure SameKeys (table other : Table hash ν) : Prop where
  capacity_eq : other.capacity = table.capacity
  hasKey_iff : ∀ key, other.HasKey key ↔ table.HasKey key

/-- One cannot tell the tables apart unless one tells apart the keys that have the same home: they have
the same keys, and the keys that share a slot share their home. -/
structure Alike (table other : Table hash ν) : Prop where
  capacity_eq : other.capacity = table.capacity
  size_eq : other.size = table.size
  isOccupied_eq : ∀ index, (other.slot index).isOccupied = (table.slot index).isOccupied
  walked_eq : ∀ index, (other.slot index).walked = (table.slot index).walked
  reach_eq : other.reach = table.reach
  hasKey_iff : ∀ key, other.HasKey key ↔ table.HasKey key
  home_eq : ∀ index, (other.keyAt index).map other.home = (table.keyAt index).map table.home

lemma SameKeys.symm (hk : table.SameKeys other) : other.SameKeys table where
  capacity_eq := hk.capacity_eq.symm
  hasKey_iff key := (hk.hasKey_iff key).symm

lemma SameKeys.lt_capacity (hk : table.SameKeys other) (hi : index < table.capacity) :
    index < other.capacity := hk.capacity_eq ▸ hi

lemma SameKeys.next_eq (hk : table.SameKeys other) (index : Nat) :
    other.next index = table.next index := by
  rw [next, next, hk.capacity_eq]

namespace Balanced

variable (h : table.Balanced) (h' : other.Balanced) (hk : table.SameKeys other)
include h h' hk

/-- An entry of one table is at home where the other table's entry under the same key is. -/
lemma card_residents_le (hi : index < table.capacity) :
    (table.residents index).card ≤ (other.residents index).card := by
  apply Finset.card_le_card_of_forall_subsingleton fun position position' =>
    ∃ key v d w e, table.slot position = .occupied key v d ∧ other.slot position' = .occupied key w e
  · intro position hmem
    obtain ⟨key, v, d, hs, hhome⟩ := (h.mem_residents_iff hi).mp hmem
    obtain ⟨w, position', e, hs'⟩ := (hk.hasKey_iff key).mpr ⟨v, position, d, hs⟩
    have hmem' : position' ∈ other.residents index := by
      refine (h'.mem_residents_iff (hk.lt_capacity hi)).mpr ⟨key, w, e, hs', ?_⟩
      rw [← hhome, home, home, hk.capacity_eq]
    exact ⟨position', hmem', key, v, d, w, e, hs, hs'⟩
  · rintro position' - i ⟨-, key, v, d, w, e, hi, hs⟩ j ⟨-, key', v', d', w', e', hj, hs'⟩
    rw [hs] at hs'
    cases hs'
    exact h.orderly.distinct hi hj

/-- Fewer arrivals at one slot than in the other table mean fewer at every slot. -/
lemma card_arrivals_le (hi : index < table.capacity)
    (hle : (table.arrivals 0 index).card ≤ (other.arrivals 0 index).card)
    (hj : position < table.capacity) :
    (table.arrivals 0 position).card ≤ (other.arrivals 0 position).card := by
  refine around_induction (p := fun index =>
    (table.arrivals 0 index).card ≤ (other.arrivals 0 index).card) ?_ hi hle hj
  intro index hi hle
  have hother := h'.card_arrivals_next (hk.lt_capacity hi)
  have hresidents := h.card_residents_le h' hk (next_lt hi)
  rw [hk.next_eq] at hother
  rw [h.card_arrivals_next hi, hother]
  omega

/-- At a slot which the table with more arrivals leaves vacant the other has none either. -/
lemma card_arrivals_eq_of_le (hi : index < table.capacity)
    (hle : (table.arrivals 0 index).card ≤ (other.arrivals 0 index).card) :
    (table.arrivals 0 index).card = (other.arrivals 0 index).card := by
  have hsize := h'.size_le
  have hc := hk.capacity_eq
  obtain ⟨free, hfree, hvacant⟩ := exists_vacant h'.orderly (by omega)
  have hnone : (other.arrivals 0 free).card = 0 := by
    have hstays := h'.lt_walked_iff hfree 0
    rw [hvacant] at hstays
    simp only [Slot.walked] at hstays
    omega
  have hbehind := h.card_arrivals_le h' hk hi hle (hk.symm.lt_capacity hfree)
  have hahead := h'.card_arrivals_le h hk.symm hfree (by omega) (hk.lt_capacity hi)
  exact Nat.le_antisymm hle hahead

lemma card_arrivals_eq (hi : index < table.capacity) (steps : Nat) :
    (table.arrivals steps index).card = (other.arrivals steps index).card := by
  induction steps generalizing index with
  | zero =>
    rcases Nat.le_total (table.arrivals 0 index).card (other.arrivals 0 index).card with hle | hle
    · exact h.card_arrivals_eq_of_le h' hk hi hle
    · exact (h'.card_arrivals_eq_of_le h hk.symm (hk.lt_capacity hi) hle).symm
  | succ steps ih =>
    obtain ⟨before, hbefore, rfl⟩ := exists_next_eq hi
    have hother := h'.card_arrivals_succ (hk.lt_capacity hbefore) steps
    rw [hk.next_eq] at hother
    rw [h.card_arrivals_succ hbefore, hother, ih hbefore]

lemma walked_eq (index : Nat) : (other.slot index).walked = (table.slot index).walked := by
  have hc := hk.capacity_eq
  by_cases hi : index < table.capacity
  · apply eq_of_forall_lt_iff
    intro steps
    rw [h.lt_walked_iff hi, h'.lt_walked_iff (hk.lt_capacity hi), h.card_arrivals_eq h' hk hi]
  · have hbeyond := slot_eq_vacant_of_le (Nat.not_lt.mp hi)
    rw [hbeyond, slot_eq_vacant_of_le (by omega)]

/-- How far an entry has walked tells where it is at home. -/
lemma home_eq (index : Nat) :
    (other.keyAt index).map other.home = (table.keyAt index).map table.home := by
  have hwalked := h.walked_eq h' hk index
  cases hs : table.slot index with
  | vacant =>
    rw [hs] at hwalked
    have hvacant : other.slot index = .vacant := by
      have hoccupied := h'.isOccupied_eq index
      rw [hwalked] at hoccupied
      cases hs' : other.slot index with
      | vacant => rfl
      | occupied key value distance => simp [hs', Slot.isOccupied, Slot.walked] at hoccupied
    rw [keyAt, keyAt, hs, hvacant]
    rfl
  | occupied key value distance =>
    have hi := lt_capacity_of_occupied hs
    have hhome : table.home key < table.capacity := Nat.mod_lt _ (Nat.zero_lt_of_lt hi)
    have hmem : index ∈ table.residents (table.home key) :=
      (h.mem_residents_iff hhome).mpr ⟨key, value, distance, hs, rfl⟩
    have hmem' : index ∈ other.residents (table.home key) := by
      rw [mem_residents] at hmem ⊢
      rwa [hk.capacity_eq, hwalked]
    obtain ⟨key', value', distance', hs', hhome'⟩ :=
      (h'.mem_residents_iff (hk.lt_capacity hhome)).mp hmem'
    rw [keyAt, keyAt, hs, hs', Option.map_some, Option.map_some, hhome']

/-- The keys and the size of the ring determine all that can be seen of a table. -/
theorem alike : table.Alike other := by
  have hwalked := h.walked_eq h' hk
  have hoccupied : ∀ index, (other.slot index).isOccupied = (table.slot index).isOccupied := by
    intro index
    rw [h'.isOccupied_eq, h.isOccupied_eq, hwalked]
  refine ⟨hk.capacity_eq, ?_, hoccupied, hwalked, ?_, hk.hasKey_iff, h.home_eq h' hk⟩
  · simp only [h'.orderly.size_eq_card, h.orderly.size_eq_card, hk.capacity_eq, hoccupied]
  · simp only [h'.robinHood.reach_eq, h.robinHood.reach_eq, hk.capacity_eq, hwalked]

end Balanced

/-! ## Insertions -/

variable [DecidableEq κ]

/-- The size of the ring once another entry has found room. -/
def roomierCapacity (capacity size : Nat) : Nat :=
  if capacity / 2 < size + 1 then nextCapacity capacity else capacity

/-- The size of the ring after a number of new entries. -/
def capacityAfter (capacity size : Nat) : Nat → Nat
  | 0 => capacity
  | count + 1 => capacityAfter (roomierCapacity capacity size) (size + 1) count

/-- A table that has got one new key. -/
structure Extended (table after : Table hash ν) (key : κ) : Prop where
  balanced : after.Balanced
  size_eq : after.size = table.size + 1
  hasKey_iff : ∀ k, after.HasKey k ↔ table.HasKey k ∨ k = key

variable [Footprint (Slot κ ν)]

variable (κ ν) in
/-- What another entry is charged for. -/
def due (capacity size : Nat) : Charged Unit :=
  if capacity / 2 < size + 1 then charge (Slot κ ν) (nextCapacity capacity).toUInt64 else pure ()

variable (κ ν) in
/-- What a number of new entries are charged for. -/
def dues (capacity size : Nat) : Nat → Charged Unit
  | 0 => return ()
  | count + 1 => do
    due κ ν capacity size
    dues (roomierCapacity capacity size) (size + 1) count

lemma dues_pays (κ ν : Type) [Footprint (Slot κ ν)] (capacity size count : Nat) :
    Charged.Pays (dues κ ν capacity size count) fun _ => True := by
  induction count generalizing capacity size with
  | zero => exact Charged.pays_pure trivial
  | succ count ih =>
    have hdue : Charged.Pays (due κ ν capacity size) fun _ => True := by
      unfold due
      split
      · exact Buffer.charge_pays _ _
      · exact Charged.pays_pure trivial
    exact hdue.bind fun _ _ => ih _ _

/-- Adds entries, one after the other. -/
def insertAll (table : Table hash ν) : List (κ × ν) → Charged (Table hash ν)
  | [] => return table
  | (key, value) :: rest => do
    let (_, table) ← table.insert key value
    table.insertAll rest

namespace Balanced

variable (h : table.Balanced)
include h

omit [DecidableEq κ] [Footprint (Slot κ ν)] in
lemma not_hasKey (hsize : table.size = 0) (key : κ) : ¬ table.HasKey key := by
  rintro ⟨v, i, d, hs⟩
  have hle := h.distance_le_size hs
  have hpos := (h.orderly.trail hs).1
  omega

omit [Footprint (Slot κ ν)] in
lemma place_new (hroom : table.size + 1 ≤ table.capacity / 2) (hk : ¬ table.HasKey key) (value : ν) :
    ∃ after : Table hash ν, table.place key value = .ok (none, after) ∧
      after.capacity = table.capacity ∧ table.Extended after key := by
  obtain ⟨after, heq, -, hcap, hsize, hholds⟩ := place_absent value h.orderly (by omega) hk
  have hafter := h.place hroom key value ⟨0, 0, 0⟩
  rw [heq] at hafter
  refine ⟨after, heq, hcap, hafter.2, hsize, fun k => ?_⟩
  simp [HasKey, hholds, exists_or]

/-- Whether a new entry finds room is not up to its key. -/
lemma insert_new (hk : ¬ table.HasKey key) (value : ν) : ∃ after : Table hash ν,
    table.insert key value = (do
      due κ ν table.capacity table.size
      return (none, after)) ∧
    after.capacity = roomierCapacity table.capacity table.size ∧ table.Extended after key := by
  rw [Table.insert, insertAt_eq, Table.ready, isLoaded, roomierCapacity, due]
  by_cases hl : table.capacity / 2 < table.size + 1
  · obtain ⟨grown, heq, hgrown⟩ := h.orderly.renewed_eq
    obtain ⟨hbalanced, hroom⟩ := h.renewed heq hgrown
    have hkey : ∀ k, grown.HasKey k ↔ table.HasKey k :=
      fun k => exists_congr fun v => hgrown.holds_iff k v
    obtain ⟨after, hplace, hcap, hafter⟩ := hbalanced.place_new hroom (by rwa [hkey]) value
    refine ⟨after, ?_, ?_, hafter.balanced, ?_, fun k => ?_⟩
    · simp only [hl, decide_true, if_true, grow_eq, heq, bind_assoc]
      congr 1
      funext _
      have hgrow : (liftM (Except.ok grown : Except Fault _) : Charged _) = pure grown := rfl
      rw [hgrow, pure_bind, hplace]
      rfl
    · rw [if_pos hl, hcap, hgrown.capacity_eq]
    · rw [hafter.size_eq, hgrown.size_eq]
    · rw [hafter.hasKey_iff, hkey]
  · obtain ⟨after, hplace, hcap, hafter⟩ := h.place_new (by omega) hk value
    refine ⟨after, ?_, by rw [if_neg hl, hcap], hafter⟩
    simp only [hl, decide_false, Bool.false_eq_true, if_false, pure_bind, hplace]
    rfl

/-- Which new entries are added makes no difference to what they are charged for, and none to the size
of the ring. -/
lemma insertAll_new {entries : List (κ × ν)} (hd : (entries.map Prod.fst).Nodup)
    (hk : ∀ key ∈ entries.map Prod.fst, ¬ table.HasKey key) : ∃ after : Table hash ν,
    table.insertAll entries = (do
      dues κ ν table.capacity table.size entries.length
      return after) ∧
    after.Balanced ∧ after.capacity = capacityAfter table.capacity table.size entries.length ∧
    ∀ key, after.HasKey key ↔ table.HasKey key ∨ key ∈ entries.map Prod.fst := by
  induction entries generalizing table with
  | nil => exact ⟨table, rfl, h, rfl, by simp⟩
  | cons entry rest ih =>
    obtain ⟨key, value⟩ := entry
    rw [List.map_cons, List.nodup_cons] at hd
    rw [List.map_cons, List.forall_mem_cons] at hk
    obtain ⟨added, hinsert, hcap, hadded⟩ := h.insert_new hk.1 value
    have hrest : ∀ k ∈ rest.map Prod.fst, ¬ added.HasKey k := by
      intro k hmem
      rw [hadded.hasKey_iff]
      rintro (hold | rfl)
      · exact hk.2 k hmem hold
      · exact hd.1 hmem
    obtain ⟨after, heq, hafter, hcapacity, hkeys⟩ := ih hadded.balanced hd.2 hrest
    refine ⟨after, ?_, hafter, ?_, fun k => ?_⟩
    · rw [insertAll, hinsert, List.length_cons, dues]
      simp only [bind_assoc, pure_bind]
      rw [heq, hcap, hadded.size_eq]
    · rw [hcapacity, hcap, hadded.size_eq, List.length_cons, capacityAfter]
    · rw [hkeys, hadded.hasKey_iff, List.map_cons, List.mem_cons, or_assoc]

end Balanced

end Table

/-- Whatever the hash, two orders in which the same new keys are inserted into an empty table, fresh or
cleared, lead to tables that look alike, and leave an arena in the same state; or both exhaust it. -/
theorem tables_alike_of_perm (κ ν : Type) [DecidableEq κ] [Footprint (Slot κ ν)] (hash : κ → UInt64)
    (commands : List (Versions.Command (Table.Request κ ν))) :
    Charged.Pays (Versions.obeyAll Table.answer { current := (Table.empty : Table hash ν) } commands)
      fun (_, versions) => ∀ table ∈ versions.current :: versions.saved, table.size = 0 →
        ∀ entries entries' : List (κ × ν), (entries.map Prod.fst).Nodup →
          (entries.map Prod.fst).Perm (entries'.map Prod.fst) → ∀ arena,
            match (table.insertAll entries).run arena, (table.insertAll entries').run arena with
            | .ok (after, left), .ok (after', left') => after.Alike after' ∧ left' = left
            | .error fault, .error fault' =>
              fault = .arenaExhausted arena.capacity ∧ fault' = .arenaExhausted arena.capacity
            | _, _ => False := by
  have hempty : (Table.empty : Table hash ν).Balanced := Table.Balanced.replicate (.inl rfl)
  apply (Versions.obeyAll_keeps (fun _ request h => Table.Balanced.answer h request)
    (List.forall_mem_singleton.mpr hempty) commands).mono
  intro _ hkept table hmem hsize entries entries' hd hperm arena
  have h := hkept table hmem
  have hnone := h.not_hasKey hsize
  obtain ⟨after, heq, hafter, hcap, hkeys⟩ := h.insertAll_new hd fun key _ => hnone key
  obtain ⟨after', heq', hafter', hcap', hkeys'⟩ :=
    h.insertAll_new (hperm.nodup_iff.mp hd) fun key _ => hnone key
  have hlength : entries'.length = entries.length := by simpa using hperm.length_eq.symm
  rw [hlength] at heq' hcap'
  have hsame : after.SameKeys after' := by
    refine ⟨by rw [hcap, hcap'], fun key => ?_⟩
    rw [hkeys, hkeys', hperm.mem_iff]
  have hdues := Table.dues_pays κ ν table.capacity table.size entries.length arena
  rw [heq, heq', StateT.run_bind, StateT.run_bind]
  cases hrun : (Table.dues κ ν table.capacity table.size entries.length).run arena with
  | error fault =>
    rw [hrun] at hdues
    exact ⟨hdues, hdues⟩
  | ok outcome => exact ⟨hafter.alike hafter' hsame, rfl⟩

/-- Five numbers, each hashed to itself. The fifth doubles the ring, whichever it is. -/
def Table.fiveEntries : List (UInt32 × Int64) := [(1, 0), (9, 0), (2, 0), (17, 0), (10, 0)]

/-- In the one order the numbers 1 and 17, which have the same home, keep the slots that they took. In the
reverse order they change places. -/
theorem five_entries_alike :
    let fresh : Table (fun key : UInt32 => key.toUInt64) Int64 := Table.empty
    ∃ after after' left, (fresh.insertAll Table.fiveEntries).run { capacity := 1048576 } =
        .ok (after, left) ∧
      (fresh.insertAll Table.fiveEntries.reverse).run { capacity := 1048576 } = .ok (after', left) ∧
      after.Alike after' ∧ after.capacity = 16 ∧ left.used = 768 ∧
      after.keyAt 1 = some 1 ∧ after.keyAt 2 = some 17 ∧
      after'.keyAt 1 = some 17 ∧ after'.keyAt 2 = some 1 := by
  intro fresh
  have halike := (tables_alike_of_perm UInt32 Int64 (fun key => key.toUInt64) []
    { capacity := 1048576 }).2 fresh (by simp [fresh]) rfl Table.fiveEntries Table.fiveEntries.reverse
    (by decide) (by decide) { capacity := 1048576 }
  have hfirst : ((fresh.insertAll Table.fiveEntries).run { capacity := 1048576 }).toOption.any
      (fun (after, left) => decide (after.capacity = 16) && decide (left.used = 768) &&
        decide (after.keyAt 1 = some 1) && decide (after.keyAt 2 = some 17)) = true := by
    decide +kernel
  have hsecond : ((fresh.insertAll Table.fiveEntries.reverse).run { capacity := 1048576 }).toOption.any
      (fun (after, _) => decide (after.keyAt 1 = some 17) && decide (after.keyAt 2 = some 1)) = true := by
    decide +kernel
  obtain ⟨⟨after, left⟩, hrun, hafter⟩ := exists_of_any hfirst
  obtain ⟨⟨after', left'⟩, hrun', hafter'⟩ := exists_of_any hsecond
  simp only [Bool.and_eq_true, decide_eq_true_eq] at hafter hafter'
  rw [hrun, hrun'] at halike
  obtain ⟨halike, rfl⟩ := halike
  obtain ⟨⟨⟨hcap, hused⟩, hone⟩, htwo⟩ := hafter
  exact ⟨after, after', _, hrun, hrun', halike, hcap, hused, hone, htwo, hafter'⟩

end PatternAutomata
