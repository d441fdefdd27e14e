import PatternAutomata.Proofs.Room

/-!
# Tables keep Robin Hood order

In an orderly table every slot that an entry's walk has passed holds an entry that has itself walked
at least as far as the walk had come there. Storing an entry only lets slots record longer walks, so
each single store keeps what all other entries have passed. A walk for a present key therefore meets
that key before it could evict an entry, and a walk for an absent key ends in a vacant slot.
-/

namespace PatternAutomata

variable {κ ν : Type} {hash : κ → UInt64}

/-- The distance that a slot records, zero if it is vacant. -/
def Slot.walked : Slot κ ν → Nat
  | .vacant => 0
  | .occupied _ _ distance => distance

def Slot.isOccupied : Slot κ ν → Bool
  | .vacant => false
  | .occupied _ _ _ => true

@[simp] lemma Slot.isOccupied_vacant : (Slot.vacant : Slot κ ν).isOccupied = false := rfl

@[simp] lemma Slot.isOccupied_occupied (key : κ) (value : ν) (distance : Nat) :
    (Slot.occupied key value distance).isOccupied = true := rfl

namespace Table

variable {table : Table hash ν} {key : κ} {value : ν} {index distance : Nat}

/-- The first `count` slots from a key's home have entries that walked as far as the key has. -/
def Trail (table : Table hash ν) (key : κ) (count : Nat) : Prop :=
  ∀ m < count, m < (table.slot ((table.home key + m) % table.capacity)).walked

def Holds (table : Table hash ν) (key : κ) (value : ν) : Prop :=
  ∃ index distance, table.slot index = .occupied key value distance

def HasKey (table : Table hash ν) (key : κ) : Prop := ∃ value, table.Holds key value

/-- Every entry has left a trail that ends in its slot, no key has two entries, and the entries and
the farthest walk are recorded. -/
structure Orderly (table : Table hash ν) : Prop where
  trail : ∀ {index key value distance}, table.slot index = .occupied key value distance →
    1 ≤ distance ∧ (table.home key + (distance - 1)) % table.capacity = index ∧
      table.Trail key distance
  distinct : ∀ {i j key v w d e}, table.slot i = .occupied key v d →
    table.slot j = .occupied key w e → i = j
  size_eq : table.size = table.slots.countP Slot.isOccupied
  reach_le : ∀ {index key value distance}, table.slot index = .occupied key value distance →
    distance ≤ table.reach

lemma slot_eq_vacant_of_le (h : table.capacity ≤ index) : table.slot index = .vacant := by
  simp only [slot, capacity] at *
  simp [Array.getElem?_eq_none h]

lemma lt_capacity_of_occupied (h : table.slot index = .occupied key value distance) :
    index < table.capacity := by
  by_contra hc
  rw [slot_eq_vacant_of_le (by omega)] at h
  cases h

lemma slot_eq_getElem (h : index < table.slots.size) : table.slot index = table.slots[index] := by
  simp [slot, h]

@[simp] lemma capacity_store : (table.store index key value distance).capacity = table.capacity := by
  simp [store, capacity]

@[simp] lemma home_store (other : κ) :
    (table.store index key value distance).home other = table.home other := by
  simp [home]

lemma slot_store (h : index < table.capacity) (other : Nat) :
    (table.store index key value distance).slot other =
      if other = index then .occupied key value distance else table.slot other := by
  unfold capacity at h
  by_cases hi : other = index
  · subst hi
    simp [store, slot, h]
  · simp [store, slot, hi, Ne.symm hi]

/-- A slot that stays vacant cuts every trail short of a whole round. -/
lemma Trail.lt_capacity {count : Nat} (h : table.Trail key count) (hi : index < table.capacity)
    (hv : table.slot index = .vacant) : count < table.capacity := by
  by_contra hc
  have hhome : table.home key < table.capacity := Nat.mod_lt _ (by omega)
  -- the offset of the vacant slot from the home slot
  have hm := h ((index + table.capacity - table.home key) % table.capacity)
    (Nat.lt_of_lt_of_le (Nat.mod_lt _ (by omega)) (by omega))
  have hslot : (table.home key + (index + table.capacity - table.home key) % table.capacity) %
      table.capacity = index := by
    rw [Nat.add_mod_mod, show table.home key + (index + table.capacity - table.home key) =
      index + table.capacity by omega, Nat.add_mod_right, Nat.mod_eq_of_lt hi]
  rw [hslot, hv] at hm
  simp [Slot.walked] at hm

lemma Trail.store {count : Nat} {other : κ} (h : table.Trail other count)
    (hi : index < table.capacity) (hd : (table.slot index).walked ≤ distance) :
    (table.store index key value distance).Trail other count := by
  intro m hm
  rw [home_store, capacity_store, slot_store hi]
  split
  · rename_i heq
    exact Nat.lt_of_lt_of_le (h m hm) (heq ▸ hd)
  · exact h m hm

lemma Trail.succ {count : Nat} (h : table.Trail key count)
    (hs : count < (table.slot ((table.home key + count) % table.capacity)).walked) :
    table.Trail key (count + 1) := by
  intro m hm
  by_cases heq : m = count
  · exact heq ▸ hs
  · exact h m (by omega)

lemma holds_store (h : index < table.capacity) (k : κ) (v : ν) :
    (table.store index key value distance).Holds k v ↔ (k = key ∧ v = value) ∨
      ∃ i d, i ≠ index ∧ table.slot i = .occupied k v d := by
  constructor
  · rintro ⟨i, d, hs⟩
    rw [slot_store h] at hs
    split at hs
    · cases hs
      exact .inl ⟨rfl, rfl⟩
    · rename_i hi
      exact .inr ⟨i, d, hi, hs⟩
  · rintro (⟨rfl, rfl⟩ | ⟨i, d, hi, hs⟩)
    · exact ⟨index, distance, by simp [slot_store h]⟩
    · exact ⟨i, d, by simp [slot_store h, hi, hs]⟩

/-- An entry stored in a vacant slot is new. -/
lemma holds_store_vacant (hi : index < table.capacity) (hslot : table.slot index = .vacant) (k : κ)
    (v : ν) : (table.store index key value distance).Holds k v ↔
      table.Holds k v ∨ (k = key ∧ v = value) := by
  rw [holds_store hi, or_comm]
  refine or_congr_left ⟨?_, ?_⟩
  · rintro ⟨i, d, -, hs⟩
    exact ⟨i, d, hs⟩
  · rintro ⟨i, d, hs⟩
    refine ⟨i, d, ?_, hs⟩
    rintro rfl
    rw [hslot] at hs
    cases hs

/-- An entry stored in an occupied slot is new, and the one that was there is the only one lost. -/
lemma holds_store_occupied (hi : index < table.capacity) {other : κ} {held : ν} {heldDistance : Nat}
    (hslot : table.slot index = .occupied other held heldDistance) (k : κ) (v : ν) :
    (table.store index key value distance).Holds k v ∨ (k = other ∧ v = held) ↔
      table.Holds k v ∨ (k = key ∧ v = value) := by
  rw [holds_store hi]
  constructor
  · rintro ((h | ⟨i, d, -, hs⟩) | ⟨rfl, rfl⟩)
    · exact .inr h
    · exact .inl ⟨i, d, hs⟩
    · exact .inl ⟨index, heldDistance, hslot⟩
  · rintro (⟨i, d, hs⟩ | h)
    · by_cases hii : i = index
      · subst hii
        rw [hslot] at hs
        cases hs
        exact .inr ⟨rfl, rfl⟩
      · exact .inl (.inr ⟨i, d, hii, hs⟩)
    · exact .inl (.inl h)

/-- Past an occupied slot, the vacant slot ahead is one step less away. -/
lemma vacant_ahead {after : Table hash ν} {steps : Nat} (hi : index < table.capacity)
    (hslot : table.slot index ≠ .vacant) (hcap : after.capacity = table.capacity)
    (hsame : ∀ j, j ≠ index → after.slot j = table.slot j)
    (hv : ∃ m < steps + 1, table.slot ((index + m) % table.capacity) = .vacant) :
    ∃ m < steps, after.slot ((table.next index + m) % after.capacity) = .vacant := by
  obtain ⟨m, hm, hvac⟩ := hv
  cases m with
  | zero =>
    rw [Nat.add_zero, Nat.mod_eq_of_lt hi] at hvac
    exact absurd hvac hslot
  | succ m =>
    have hmod : (table.next index + m) % table.capacity = (index + (m + 1)) % table.capacity := by
      rw [next, Nat.mod_add_mod, Nat.add_assoc, Nat.add_comm 1 m]
    refine ⟨m, by omega, ?_⟩
    rw [hcap, hmod, hsame, hvac]
    intro heq
    rw [heq] at hvac
    exact hslot hvac

/-- An entry on its walk: where it is, how far it has come, and what it has passed. -/
structure Walking (table : Table hash ν) (key : κ) (index distance : Nat) : Prop where
  pos : 1 ≤ distance
  at_index : (table.home key + (distance - 1)) % table.capacity = index
  trail : table.Trail key (distance - 1)

lemma Walking.lt_capacity (h : table.Walking key index distance) (hc : 0 < table.capacity) :
    index < table.capacity := by
  rw [← h.at_index]
  exact Nat.mod_lt _ hc

lemma next_eq (h : table.Walking key index distance) :
    (table.home key + distance) % table.capacity = table.next index := by
  rw [next, ← h.at_index, Nat.mod_add_mod, Nat.add_assoc, Nat.sub_add_cancel h.pos]

lemma Walking.pass (h : table.Walking key index distance)
    (hs : distance ≤ (table.slot index).walked) :
    table.Walking key (table.next index) (distance + 1) where
  pos := by omega
  at_index := next_eq h
  trail := by
    have hd : distance - 1 + 1 = distance := Nat.sub_add_cancel h.pos
    have ht := h.trail.succ (by rw [h.at_index]; omega)
    rw [hd] at ht
    exact ht

variable (value) in
lemma Orderly.store (ho : table.Orderly) (hw : table.Walking key index distance)
    (hc : 0 < table.capacity) (hd : (table.slot index).walked < distance)
    (habs : ¬ table.HasKey key) :
    let after : Table hash ν := { table.store index key value distance with
      size := table.size + if (table.slot index).isOccupied then 0 else 1 }
    after.Orderly := by
  have hi := hw.lt_capacity hc
  intro after
  have hslot : ∀ j, after.slot j = if j = index then .occupied key value distance else table.slot j :=
    slot_store hi
  refine ⟨?_, ?_, ?_, ?_⟩
  · intro i k v d hs
    rw [hslot] at hs
    split at hs
    · rename_i heq
      cases hs
      have ht : table.Trail key (distance - 1) := hw.trail
      have hd1 : distance - 1 + 1 = distance := Nat.sub_add_cancel hw.pos
      have hts : (table.store index key value distance).Trail key (distance - 1) :=
        Trail.store ht hi (Nat.le_of_lt hd)
      have hsucc : (table.store index key value distance).Trail key (distance - 1 + 1) := by
        apply hts.succ
        rw [home_store, capacity_store, hw.at_index, slot_store hi, if_pos rfl]
        simp only [Slot.walked]
        omega
      rw [hd1] at hsucc
      exact ⟨hw.pos, by rw [heq]; simpa [after, home, capacity, Table.store] using hw.at_index, hsucc⟩
    · obtain ⟨hpos, hat, ht⟩ := ho.trail hs
      exact ⟨hpos, by simpa [after, home, capacity, Table.store] using hat,
        Trail.store ht hi (Nat.le_of_lt hd)⟩
  · intro i j k v w d e hsi hsj
    rw [hslot] at hsi hsj
    split at hsi <;> split at hsj
    · omega
    · cases hsi
      exact absurd ⟨w, j, e, hsj⟩ habs
    · cases hsj
      exact absurd ⟨v, i, d, hsi⟩ habs
    · exact ho.distinct hsi hsj
  · have hi' : index < table.slots.size := hi
    simp only [after, Table.store, Array.setIfInBounds, hi', dite_true]
    rw [Array.countP_set hi', ho.size_eq, slot_eq_getElem hi']
    have hpos : table.slots[index].isOccupied = true → 0 < table.slots.countP Slot.isOccupied := by
      intro ht
      exact Array.countP_pos_iff.mpr ⟨_, Array.getElem_mem hi', ht⟩
    by_cases hocc : table.slots[index].isOccupied = true
    · have := hpos hocc
      simp [hocc]
      omega
    · simp [hocc]
  · intro i k v d hs
    rw [hslot] at hs
    change d ≤ max table.reach distance
    split at hs
    · cases hs
      exact Nat.le_max_right _ _
    · exact Nat.le_trans (ho.reach_le hs) (Nat.le_max_left _ _)

/-- The walk of an entry that evicts another turns into the walk of that other entry. -/
lemma Walking.evict {other : κ} {held : ν} {heldDistance : Nat} (ho : table.Orderly)
    (hs : table.slot index = .occupied other held heldDistance) (hd : heldDistance < distance) :
    (table.store index key value distance).Walking other (table.next index) (heldDistance + 1) := by
  have hi := lt_capacity_of_occupied hs
  obtain ⟨hpos, hat, ht⟩ := ho.trail hs
  refine ⟨by omega, ?_, ?_⟩
  · rw [home_store, capacity_store, Nat.add_sub_cancel, next, ← hat, Nat.mod_add_mod, Nat.add_assoc,
      Nat.sub_add_cancel hpos]
  · rw [Nat.add_sub_cancel]
    exact Trail.store ht hi (by rw [hs]; exact Nat.le_of_lt hd)

lemma exists_vacant (ho : table.Orderly) (hsize : table.size < table.capacity) :
    ∃ i < table.capacity, table.slot i = .vacant := by
  by_contra hc
  have hall : ∀ slot ∈ table.slots, slot.isOccupied = true := by
    intro slot hmem
    obtain ⟨i, hi, rfl⟩ := Array.mem_iff_getElem.mp hmem
    cases hs : table.slots[i] with
    | vacant => exact absurd ⟨i, hi, by rw [slot_eq_getElem hi, hs]⟩ hc
    | occupied key value distance => rfl
  rw [ho.size_eq, Array.countP_eq_size.mpr hall] at hsize
  exact Nat.lt_irrefl _ hsize

lemma walking_home (hc : 0 < table.capacity) : table.Walking key (table.home key) 1 where
  pos := Nat.le_refl 1
  at_index := Nat.mod_eq_of_lt (Nat.mod_lt _ hc)
  trail := fun m hm => by omega

lemma slot_replicate (capacity : Nat) (i : Nat) (size reach : Nat) :
    ({ slots := Array.replicate capacity .vacant, size, reach } : Table hash ν).slot i = .vacant := by
  by_cases hi : i < capacity
  · simp [slot, hi]
  · simp [slot, Nat.not_lt.mp hi]

lemma orderly_replicate (capacity : Nat) :
    ({ slots := Array.replicate capacity .vacant } : Table hash ν).Orderly := by
  refine ⟨?_, ?_, by simp [Array.countP_replicate], ?_⟩
  all_goals
    intros
    simp_all [slot_replicate]

lemma not_hasKey_replicate (capacity : Nat) (key : κ) :
    ¬ ({ slots := Array.replicate capacity .vacant } : Table hash ν).HasKey key := by
  rintro ⟨v, i, d, hs⟩
  rw [slot_replicate] at hs
  cases hs

lemma orderly_empty : (empty : Table hash ν).Orderly := orderly_replicate 0

lemma not_hasKey_empty (key : κ) : ¬ (empty : Table hash ν).HasKey key := not_hasKey_replicate 0 key

lemma orderly_clear (table : Table hash ν) : table.clear.Orderly := orderly_replicate _

lemma not_hasKey_clear (table : Table hash ν) (key : κ) : ¬ table.clear.HasKey key :=
  not_hasKey_replicate _ key

def DistinctKeys (slots : List (Slot κ ν)) : Prop :=
  slots.Pairwise fun a b => ∀ k v d w e, a = .occupied k v d → b ≠ .occupied k w e

lemma Orderly.distinctKeys (ho : table.Orderly) : DistinctKeys table.slots.toList := by
  rw [DistinctKeys, List.pairwise_iff_getElem]
  intro i j hi hj hij k v d w e hsi hsj
  rw [Array.length_toList] at hi hj
  rw [Array.getElem_toList] at hsi hsj
  have := ho.distinct (slot_eq_getElem hi ▸ hsi) (slot_eq_getElem hj ▸ hsj)
  omega

lemma holds_iff_mem (k : κ) (v : ν) :
    table.Holds k v ↔ ∃ d, Slot.occupied k v d ∈ table.slots.toList := by
  constructor
  · rintro ⟨i, d, hs⟩
    have hi : i < table.slots.size := lt_capacity_of_occupied hs
    refine ⟨d, ?_⟩
    rw [Array.mem_toList_iff, ← hs, slot_eq_getElem hi]
    exact Array.getElem_mem hi
  · rintro ⟨d, hm⟩
    obtain ⟨i, hi, hs⟩ := List.mem_iff_getElem.mp hm
    rw [Array.length_toList] at hi
    exact ⟨i, d, by rw [slot_eq_getElem hi, ← hs, Array.getElem_toList]⟩

lemma Orderly.size_le_capacity (ho : table.Orderly) : table.size ≤ table.capacity := by
  rw [ho.size_eq]
  exact Array.countP_le_size

variable [DecidableEq κ]

/-- The walk for a present key meets the key before it evicts an entry. -/
lemma walk_present (ho : table.Orderly) {home_index : Nat} {held : ν} {reached : Nat}
    (hs : table.slot home_index = .occupied key held reached) {steps : Nat}
    (hw : table.Walking key index distance) (hle : distance ≤ reached)
    (hsteps : reached < distance + steps) :
    walk steps table index distance key value = .ok (some home_index, table) := by
  induction steps generalizing index distance with
  | zero => omega
  | succ steps ih =>
    obtain ⟨hpos, hat, ht⟩ := ho.trail hs
    have hpass : distance ≤ (table.slot index).walked := by
      have hm := ht (distance - 1) (by have := hw.pos; omega)
      rw [hw.at_index] at hm
      omega
    unfold walk
    cases hslot : table.slot index with
    | vacant =>
      rw [hslot] at hpass
      have := hw.pos
      simp only [Slot.walked] at hpass
      omega
    | occupied other v d =>
      rw [hslot] at hpass
      simp only [Slot.walked] at hpass
      by_cases hk : other = key
      · subst hk
        simp [ho.distinct hslot hs]
      · have hne : distance ≠ reached := by
          intro heq
          have : index = home_index := by rw [← hw.at_index, heq, hat]
          rw [this, hs] at hslot
          cases hslot
          exact hk rfl
        simp only [hk, if_false, Nat.not_lt.mpr hpass]
        refine ih (hw.pass ?_) (by omega) (by omega)
        rw [hslot]
        exact hpass

variable (value) in
/-- The walk for an absent key ends in a vacant slot, and only the key's entry is new. -/
lemma walk_absent {steps : Nat} (ho : table.Orderly) (hw : table.Walking key index distance)
    (habs : ¬ table.HasKey key) (hc : 0 < table.capacity)
    (hv : ∃ m < steps, table.slot ((index + m) % table.capacity) = .vacant) :
    ∃ after : Table hash ν, walk steps table index distance key value = .ok (none, after) ∧
      after.Orderly ∧ after.capacity = table.capacity ∧ after.size = table.size + 1 ∧
      ∀ k v, after.Holds k v ↔ table.Holds k v ∨ (k = key ∧ v = value) := by
  induction steps generalizing table index distance key value with
  | zero =>
    obtain ⟨m, hm, -⟩ := hv
    omega
  | succ steps ih =>
    have hi := hw.lt_capacity hc
    unfold walk
    cases hslot : table.slot index with
    | vacant =>
      have hstore := Orderly.store value ho hw hc (by rw [hslot]; exact hw.pos) habs
      rw [hslot] at hstore
      exact ⟨_, rfl, hstore, capacity_store, rfl, holds_store_vacant hi hslot⟩
    | occupied other held heldDistance =>
      have hk : other ≠ key := by
        rintro rfl
        exact habs ⟨held, index, heldDistance, hslot⟩
      have hfull : table.slot index ≠ .vacant := by simp [hslot]
      by_cases hd : heldDistance < distance
      · simp only [hk, if_false, hd, if_true]
        have hstore := Orderly.store value ho hw hc (by rw [hslot]; exact hd) habs
        rw [hslot] at hstore
        change (table.store index key value distance).Orderly at hstore
        have habs' : ¬ (table.store index key value distance).HasKey other := by
          rintro ⟨v, hholds⟩
          rw [holds_store hi] at hholds
          rcases hholds with ⟨rfl, -⟩ | ⟨i, d, hne, hs⟩
          · exact hk rfl
          · exact hne (ho.distinct hs hslot)
        have hothers : ∀ j, j ≠ index →
            (table.store index key value distance).slot j = table.slot j := by
          intro j hj
          simp [slot_store hi, hj]
        have hv' := vacant_ahead hi hfull capacity_store hothers hv
        obtain ⟨after, heq, horderly, hcap, hsize, hholds⟩ :=
          ih held hstore (Walking.evict ho hslot hd) habs' (by simpa using hc) hv'
        refine ⟨after, heq, horderly, by simpa using hcap, hsize, fun k v => ?_⟩
        rw [hholds, holds_store_occupied hi hslot]
      · simp only [hk, if_false, hd]
        refine ih value ho (hw.pass ?_) habs hc (vacant_ahead hi hfull rfl (fun _ _ => rfl) hv)
        rw [hslot]
        exact Nat.not_lt.mp hd

lemma place_present (ho : table.Orderly) (hsize : table.size < table.capacity) {held : ν}
    {reached : Nat} (hs : table.slot index = .occupied key held reached) :
    table.place key value = .ok (some index, table) := by
  have hc : 0 < table.capacity := by omega
  obtain ⟨i, hi, hv⟩ := exists_vacant ho hsize
  obtain ⟨hpos, -, ht⟩ := ho.trail hs
  have hlt := ht.lt_capacity hi hv
  exact walk_present ho hs (walking_home hc) hpos (by omega)

variable (value) in
lemma place_absent (ho : table.Orderly) (hsize : table.size < table.capacity)
    (habs : ¬ table.HasKey key) :
    ∃ after : Table hash ν, table.place key value = .ok (none, after) ∧
      after.Orderly ∧ after.capacity = table.capacity ∧ after.size = table.size + 1 ∧
      ∀ k v, after.Holds k v ↔ table.Holds k v ∨ (k = key ∧ v = value) := by
  have hc : 0 < table.capacity := by omega
  apply walk_absent value ho (walking_home hc) habs hc
  obtain ⟨i, hi, hv⟩ := exists_vacant ho hsize
  have hhome : table.home key < table.capacity := Nat.mod_lt _ hc
  refine ⟨(i + table.capacity - table.home key) % table.capacity, Nat.mod_lt _ hc, ?_⟩
  rw [Nat.add_mod_mod, show table.home key + (i + table.capacity - table.home key) =
    i + table.capacity by omega, Nat.add_mod_right, Nat.mod_eq_of_lt hi, hv]

lemma placeSlots_ensures {slots : List (Slot κ ν)} {start : Table hash ν} (ho : start.Orderly)
    (hd : DistinctKeys slots) (hsize : start.size + slots.countP Slot.isOccupied < start.capacity)
    (habs : ∀ k v d, Slot.occupied k v d ∈ slots → ¬ start.HasKey k) :
    ∃ grown : Table hash ν, slots.foldlM (fun grown slot => grown.placeSlot slot) start = .ok grown ∧
      grown.Orderly ∧ grown.capacity = start.capacity ∧
      grown.size = start.size + slots.countP Slot.isOccupied ∧
      ∀ k v, grown.Holds k v ↔ start.Holds k v ∨ ∃ d, Slot.occupied k v d ∈ slots := by
  induction slots generalizing start with
  | nil => exact ⟨start, rfl, ho, rfl, rfl, by simp⟩
  | cons slot rest ih =>
    rw [DistinctKeys, List.pairwise_cons] at hd
    cases slot with
    | vacant =>
      simp only [List.countP_cons, Slot.isOccupied_vacant, Bool.false_eq_true, if_false,
        Nat.add_zero] at hsize ⊢
      obtain ⟨grown, heq, hrest⟩ := ih ho hd.2 hsize fun k v d hm => habs k v d (by simp [hm])
      refine ⟨grown, by simpa [placeSlot, bind, Except.bind] using heq, hrest.1, hrest.2.1,
        hrest.2.2.1, fun k v => ?_⟩
      simp [hrest.2.2.2]
    | occupied key value distance =>
      simp only [List.countP_cons, Slot.isOccupied_occupied, if_true] at hsize ⊢
      obtain ⟨placed, hplace, hpo, hcap, hps, hholds⟩ :=
        place_absent value ho (by omega) (habs key value distance (by simp))
      have habs' : ∀ k v d, Slot.occupied k v d ∈ rest → ¬ placed.HasKey k := by
        rintro k v d hm ⟨w, hw⟩
        rw [hholds] at hw
        rcases hw with hw | ⟨rfl, rfl⟩
        · exact habs k v d (by simp [hm]) ⟨w, hw⟩
        · exact hd.1 _ hm _ _ _ _ _ rfl rfl
      obtain ⟨grown, heq, hgo, hgc, hgs, hgh⟩ := ih hpo hd.2 (by omega) habs'
      refine ⟨grown, ?_, hgo, by omega, by omega, fun k v => ?_⟩
      · simpa [placeSlot, hplace, Except.map, bind, Except.bind] using heq
      · rw [hgh, hholds]
        simp only [List.mem_cons, Slot.occupied.injEq]
        constructor
        · rintro ((h | ⟨rfl, rfl⟩) | ⟨d, hm⟩)
          · exact .inl h
          · exact .inr ⟨distance, .inl ⟨rfl, rfl, rfl⟩⟩
          · exact .inr ⟨d, .inr hm⟩
        · rintro (h | ⟨d, ⟨rfl, rfl, -⟩ | hm⟩)
          · exact .inl (.inl h)
          · exact .inl (.inr ⟨rfl, rfl⟩)
          · exact .inr ⟨d, hm⟩

/-- The entries in the order of the slots, moved to a ring of the next size. -/
def renewed (table : Table hash ν) : Except Fault (Table hash ν) :=
  table.slots.toList.foldlM (fun grown slot => grown.placeSlot slot)
    { slots := Array.replicate (nextCapacity table.capacity) .vacant }

/-- The same entries in a ring of the next size. -/
structure Renewed (table grown : Table hash ν) : Prop where
  orderly : grown.Orderly
  capacity_eq : grown.capacity = nextCapacity table.capacity
  size_eq : grown.size = table.size
  holds_iff : ∀ k v, grown.Holds k v ↔ table.Holds k v

omit [DecidableEq κ] in
lemma lt_nextCapacity (ho : table.Orderly) : table.size < nextCapacity table.capacity := by
  have hle := ho.size_le_capacity
  unfold nextCapacity
  split <;> omega

omit [DecidableEq κ] in
lemma Renewed.size_lt {grown : Table hash ν} (h : Renewed table grown) (ho : table.Orderly) :
    grown.size < grown.capacity := by
  rw [h.size_eq, h.capacity_eq]
  exact lt_nextCapacity ho

lemma Orderly.renewed_eq (ho : table.Orderly) :
    ∃ grown : Table hash ν, table.renewed = .ok grown ∧ Renewed table grown := by
  let fresh : Table hash ν := { slots := Array.replicate (nextCapacity table.capacity) .vacant }
  have hcap : fresh.capacity = nextCapacity table.capacity := Array.size_replicate
  have hcount : table.slots.toList.countP Slot.isOccupied = table.size := by
    rw [ho.size_eq, Array.countP_toList]
  have hfree : fresh.size + table.slots.toList.countP Slot.isOccupied < fresh.capacity := by
    rw [hcount, hcap]
    simpa [fresh] using lt_nextCapacity ho
  obtain ⟨grown, heq, hgo, hgc, hgs, hgh⟩ := placeSlots_ensures
    (show fresh.Orderly from orderly_replicate _) ho.distinctKeys hfree
    fun k _ _ _ => not_hasKey_replicate _ k
  refine ⟨grown, heq, hgo, hgc.trans hcap, ?_, fun k v => ?_⟩
  · simpa [fresh, hcount] using hgs
  · rw [hgh, ← holds_iff_mem]
    exact or_iff_right fun h => not_hasKey_replicate _ k ⟨v, h⟩

/-- Growing is charged for before it moves an entry. -/
lemma grow_eq [Footprint (Slot κ ν)] : table.grow = (do
    charge (Slot κ ν) (nextCapacity table.capacity).toUInt64
    table.renewed) := by
  unfold grow withSlots renewed
  simp only [bind_assoc, pure_bind, Charged.foldlM_liftM]

/-- The table through which a new entry walks, renewed if one more entry would overload it. -/
def ready [Footprint (Slot κ ν)] (table : Table hash ν) : Charged (Table hash ν) :=
  if table.isLoaded then table.grow else pure table

lemma insertAt_eq [Footprint (Slot κ ν)] : table.insertAt key value = (do
    let ready ← table.ready
    ready.place key value) := by
  unfold insertAt ready
  split <;> rfl

lemma ready_pays [Footprint (Slot κ ν)] (ho : table.Orderly) :
    Charged.Pays table.ready fun ready =>
      ready.Orderly ∧ ready.size < ready.capacity ∧ ∀ k v, ready.Holds k v ↔ table.Holds k v := by
  unfold ready
  by_cases hl : table.isLoaded
  · rw [if_pos hl, grow_eq]
    apply (Buffer.charge_pays _ _).bind
    intro _ _
    obtain ⟨grown, heq, hgrown⟩ := ho.renewed_eq
    exact Charged.pays_lift heq ⟨hgrown.orderly, hgrown.size_lt ho, hgrown.holds_iff⟩
  · rw [if_neg hl]
    rw [isLoaded, decide_eq_true_eq] at hl
    exact Charged.pays_pure ⟨ho, by omega, fun _ _ => Iff.rfl⟩

/-- A table with room to spare places an entry, or finds the one that has the key. -/
lemma place_pays (ho : table.Orderly) (hsize : table.size < table.capacity) (key : κ) (value : ν) :
    Charged.Pays (liftM (table.place key value)) fun (found, after) => after.Orderly ∧
      (∀ k v, after.Holds k v ↔ table.Holds k v ∨ (k = key ∧ v = value ∧ ¬ table.HasKey key)) ∧
      (found = none ↔ ¬ table.HasKey key) ∧
      ∀ i, found = some i → ∃ v d, after.slot i = .occupied key v d := by
  by_cases hk : table.HasKey key
  · obtain ⟨v, i, d, hs⟩ := hk
    refine Charged.pays_lift (place_present ho hsize hs) ⟨ho, fun k w => ?_, ?_, ?_⟩
    · simp [show table.HasKey key from ⟨v, i, d, hs⟩]
    · simp [show table.HasKey key from ⟨v, i, d, hs⟩]
    · rintro _ ⟨rfl⟩
      exact ⟨v, d, hs⟩
  · obtain ⟨after, heq, hao, -, -, hah⟩ := place_absent value ho hsize hk
    exact Charged.pays_lift heq ⟨hao, fun k v => by simp [hah, hk], by simp [hk], by simp⟩

lemma insertAt_pays [Footprint (Slot κ ν)] (ho : table.Orderly) (key : κ) (value : ν) :
    Charged.Pays (table.insertAt key value) fun (found, after) =>
      after.Orderly ∧
      (∀ k v, after.Holds k v ↔ table.Holds k v ∨ (k = key ∧ v = value ∧ ¬ table.HasKey key)) ∧
      (found = none ↔ ¬ table.HasKey key) ∧
      ∀ i, found = some i → ∃ v d, after.slot i = .occupied key v d := by
  rw [insertAt_eq]
  apply (ready_pays ho).bind
  rintro ready ⟨hready, hroom, hholds⟩
  have hkey : ready.HasKey key ↔ table.HasKey key := exists_congr fun v => hholds key v
  have hplace := place_pays hready hroom key value
  simp only [hholds, hkey] at hplace
  exact hplace

end Table

namespace KeySet

variable [DecidableEq κ] [Footprint (Slot κ Unit)]

lemma insert_pays {set : KeySet hash} (ho : set.Orderly) (key : κ) :
    Charged.Pays (KeySet.insert set key) fun (known, after) =>
      after.Orderly ∧ (∀ k, after.HasKey k ↔ set.HasKey k ∨ k = key) ∧
      (known = none ↔ ¬ set.HasKey key) ∧ ∀ k, known = some k → k = key := by
  unfold KeySet.insert
  apply (Table.insertAt_pays ho key ()).bind
  rintro ⟨found, after⟩ ⟨hao, hah, hnone, hsome⟩
  apply Charged.pays_pure
  refine ⟨hao, fun k => ?_, ?_, ?_⟩
  · constructor
    · rintro ⟨v, hv⟩
      rcases (hah k v).mp hv with h | ⟨rfl, -⟩
      · exact .inl ⟨v, h⟩
      · exact .inr rfl
    · rintro (⟨v, hv⟩ | rfl)
      · exact ⟨v, (hah k v).mpr (.inl hv)⟩
      · by_cases hk : set.HasKey k
        · obtain ⟨v, hv⟩ := hk
          exact ⟨v, (hah k v).mpr (.inl hv)⟩
        · exact ⟨(), (hah k ()).mpr (.inr ⟨rfl, rfl, hk⟩)⟩
  · rw [← hnone]
    cases found with
    | none => simp
    | some i =>
      obtain ⟨v, d, hs⟩ := hsome i rfl
      simp [Table.keyAt, hs]
  · intro k hk
    obtain ⟨i, hi, hkey⟩ := Option.bind_eq_some_iff.mp hk
    obtain ⟨v, d, hs⟩ := hsome i hi
    simp only [Table.keyAt, hs, Option.some.injEq] at hkey
    exact hkey.symm

lemma insert_ensures {set : KeySet hash} (ho : set.Orderly) (key : κ) :
    Charged.Ensures (KeySet.insert set key) fun (known, after) =>
      after.Orderly ∧ (∀ k, after.HasKey k ↔ set.HasKey k ∨ k = key) ∧
      (known.isNone ↔ ¬ set.HasKey key) := by
  apply (insert_pays ho key).ensures.mono
  rintro ⟨known, after⟩ ⟨hao, hah, hnone, -⟩
  exact ⟨hao, hah, by rw [Option.isNone_iff_eq_none, hnone]⟩

end KeySet

end PatternAutomata
