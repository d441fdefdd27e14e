import PatternAutomata.Proofs.FiniteMap
import Mathlib.Data.Nat.Count
import Mathlib.Data.Nat.ModEq
import Mathlib.Order.Lattice.Nat

/-!
# What the slots of a table record

Whatever has been asked of a table, each entry records exactly how far its slot lies from its key's
home, the slot before an entry away from home is taken by one that has walked almost as far, and the
farthest recorded walk is that of an entry still in the table. For the last point one needs that an
evicted entry only moves on: a slot is overwritten by longer walks only, so the walk that was the
farthest is still in place when a shorter one is stored elsewhere.
-/

namespace PatternAutomata

namespace Versions

variable {σ ρ α : Type} {answer : σ → ρ → Charged (α × σ)} {Kept : σ → Prop}

/-- What every request keeps is kept by commands, in what is in use and in each copy. -/
lemma obeyAll_keeps
    (hanswer : ∀ value request, Kept value →
      Charged.Pays (answer value request) fun (_, after) => Kept after)
    {versions : Versions σ} (h : ∀ value ∈ versions.current :: versions.saved, Kept value)
    (commands : List (Command ρ)) :
    Charged.Pays (versions.obeyAll answer commands) fun (_, after) =>
      ∀ value ∈ after.current :: after.saved, Kept value := by
  induction commands generalizing versions with
  | nil => exact Charged.pays_pure h
  | cons command rest ih =>
    obtain ⟨current, saved⟩ := versions
    rw [List.forall_mem_cons] at h
    cases command with
    | request request =>
      simp only [obeyAll, obey, bind_assoc, pure_bind]
      apply (hanswer current request h.1).bind
      rintro ⟨reply, after⟩ hafter
      have hnext : ∀ value ∈ after :: saved, Kept value :=
        List.forall_mem_cons.mpr ⟨hafter, h.2⟩
      exact (ih hnext).bind fun _ hrest => Charged.pays_pure hrest
    | save =>
      simp only [obeyAll, obey, pure_bind]
      have hsaved : ∀ value ∈ current :: current :: saved, Kept value :=
        List.forall_mem_cons.mpr ⟨h.1, List.forall_mem_cons.mpr h⟩
      exact (ih hsaved).bind fun _ hrest => Charged.pays_pure hrest
    | restore =>
      simp only [obeyAll, obey, pure_bind]
      refine (ih ?_).bind fun _ hrest => Charged.pays_pure hrest
      cases saved with
      | nil => exact List.forall_mem_cons.mpr h
      | cons kept saved => exact h.2

end Versions

namespace Table

variable {κ ν : Type} {hash : κ → UInt64} {table : Table hash ν} {key : κ} {value : ν}
  {index distance : Nat}

/-! ## The farthest walk -/

/-- Some slot records the farthest walk. Beyond the ring none has been walked. -/
def Attained (table : Table hash ν) : Prop := ∃ index, (table.slot index).walked = table.reach

lemma attained_replicate (capacity : Nat) :
    ({ slots := Array.replicate capacity .vacant } : Table hash ν).Attained :=
  ⟨0, by rw [slot_replicate]; rfl⟩

/-- A longer walk stored over a shorter one either becomes the farthest or leaves it in place. -/
lemma Attained.store (ha : table.Attained) (hi : index < table.capacity)
    (hd : (table.slot index).walked < distance) :
    (table.store index key value distance).Attained := by
  obtain ⟨j, hj⟩ := ha
  have hreach : (table.store index key value distance).reach = max table.reach distance := rfl
  by_cases hle : table.reach ≤ distance
  · refine ⟨index, ?_⟩
    rw [slot_store hi, if_pos rfl, hreach, Nat.max_eq_right hle]
    rfl
  · refine ⟨j, ?_⟩
    have hne : j ≠ index := by
      rintro rfl
      omega
    rw [slot_store hi, if_neg hne, hj, hreach, Nat.max_eq_left (by omega)]

variable [DecidableEq κ] {found : Option Nat} {after : Table hash ν}

/-- Only shorter walks are evicted, so the farthest stays where it is or is outdone. -/
lemma Attained.walk {steps : Nat} (ha : table.Attained) (hi : index < table.capacity)
    (hd : 1 ≤ distance) (h : Table.walk steps table index distance key value = .ok (found, after)) :
    after.Attained := by
  induction steps generalizing table index distance key value with
  | zero => cases h
  | succ steps ih =>
    have hnext : table.next index < table.capacity := Nat.mod_lt _ (Nat.zero_lt_of_lt hi)
    unfold Table.walk at h
    cases hslot : table.slot index with
    | vacant =>
      rw [hslot] at h
      cases h
      exact ha.store hi (by rw [hslot]; exact hd)
    | occupied other held heldDistance =>
      simp only [hslot] at h
      split at h
      · cases h
        exact ha
      split at h
      · rename_i hlt
        have hstored : (table.store index key value distance).Attained :=
          ha.store hi (by rw [hslot]; exact hlt)
        exact ih hstored (by simpa using hnext) (by omega) h
      · exact ih ha hnext (by omega) h

lemma Attained.place (ha : table.Attained) (h : table.place key value = .ok (found, after)) :
    after.Attained := by
  by_cases hc : 0 < table.capacity
  · exact ha.walk (Nat.mod_lt _ hc) (Nat.le_refl 1) h
  · rw [Table.place, show table.capacity = 0 by omega] at h
    cases h

lemma Attained.placeSlots {slots : List (Slot κ ν)} (ha : table.Attained)
    (h : slots.foldlM (fun grown slot => grown.placeSlot slot) table = .ok after) :
    after.Attained := by
  induction slots generalizing table with
  | nil =>
    cases h
    exact ha
  | cons slot rest ih =>
    cases slot with
    | vacant => exact ih ha h
    | occupied key value distance =>
      rw [List.foldlM_cons] at h
      simp only [placeSlot] at h
      cases hplace : table.place key value with
      | error fault =>
        rw [hplace] at h
        cases h
      | ok outcome =>
        rw [hplace] at h
        exact ih (ha.place hplace) h

/-! ## Balance -/

/-- The table is orderly, its farthest walk is there, and at most half of its ring is filled. -/
structure Balanced (table : Table hash ν) : Prop where
  orderly : table.Orderly
  attained : table.Attained
  capacity_eq : table.capacity = 0 ∨ ∃ n, 3 ≤ n ∧ table.capacity = 2 ^ n
  size_le : table.size ≤ table.capacity / 2

namespace Balanced

omit [DecidableEq κ] in
lemma replicate {capacity : Nat} (h : capacity = 0 ∨ ∃ n, 3 ≤ n ∧ capacity = 2 ^ n) :
    ({ slots := Array.replicate capacity .vacant } : Table hash ν).Balanced where
  orderly := orderly_replicate capacity
  attained := attained_replicate capacity
  capacity_eq := by simpa [Table.capacity] using h
  size_le := Nat.zero_le _

variable (h : table.Balanced)
include h

lemma place (hroom : table.size + 1 ≤ table.capacity / 2) (key : κ) (value : ν) :
    Charged.Pays (liftM (table.place key value)) fun (_, after) => after.Balanced := by
  have hlt : table.size < table.capacity := by omega
  by_cases hk : table.HasKey key
  · obtain ⟨held, i, d, hs⟩ := hk
    exact Charged.pays_lift (place_present h.orderly hlt hs) h
  · obtain ⟨after, heq, hao, hcap, hsize, -⟩ := place_absent value h.orderly hlt hk
    refine Charged.pays_lift heq ⟨hao, h.attained.place heq, ?_, ?_⟩
    · rw [hcap]
      exact h.capacity_eq
    · rw [hcap, hsize]
      exact hroom

omit [DecidableEq κ] in
lemma nextCapacity : ∃ n, 3 ≤ n ∧ Table.nextCapacity table.capacity = 2 ^ n := by
  unfold Table.nextCapacity
  rcases h.capacity_eq with h0 | ⟨n, hn, hpow⟩
  · exact ⟨3, Nat.le_refl 3, by rw [if_pos h0]; rfl⟩
  · refine ⟨n + 1, by omega, ?_⟩
    rw [if_neg (by rw [hpow]; exact (Nat.two_pow_pos n).ne'), hpow, Nat.pow_succ, Nat.mul_comm]

/-- A renewed table has room for one more entry. -/
lemma renewed {grown : Table hash ν} (heq : table.renewed = .ok grown) (hgrown : Renewed table grown) :
    grown.Balanced ∧ grown.size + 1 ≤ grown.capacity / 2 := by
  have hroom : grown.size + 1 ≤ grown.capacity / 2 := by
    have hsize := h.size_le
    rw [hgrown.size_eq, hgrown.capacity_eq, Table.nextCapacity]
    rcases h.capacity_eq with h0 | ⟨n, hn, hpow⟩
    · rw [if_pos h0]
      omega
    · have h8 : 2 ^ 3 ≤ 2 ^ n := Nat.pow_le_pow_right (by omega) hn
      rw [if_neg (by omega)]
      omega
  refine ⟨⟨hgrown.orderly, (attained_replicate _).placeSlots heq, .inr ?_, by omega⟩, hroom⟩
  rw [hgrown.capacity_eq]
  exact h.nextCapacity

lemma ready [Footprint (Slot κ ν)] : Charged.Pays table.ready fun ready =>
    ready.Balanced ∧ ready.size + 1 ≤ ready.capacity / 2 := by
  unfold Table.ready
  by_cases hl : table.isLoaded
  · rw [if_pos hl, grow_eq]
    apply (Buffer.charge_pays _ _).bind
    intro _ _
    obtain ⟨grown, heq, hgrown⟩ := h.orderly.renewed_eq
    exact Charged.pays_lift heq (h.renewed heq hgrown)
  · rw [if_neg hl]
    rw [isLoaded, decide_eq_true_eq] at hl
    exact Charged.pays_pure ⟨h, by omega⟩

lemma insertAt [Footprint (Slot κ ν)] (key : κ) (value : ν) :
    Charged.Pays (table.insertAt key value) fun (_, after) => after.Balanced := by
  rw [insertAt_eq]
  apply h.ready.bind
  rintro ready ⟨hready, hroom⟩
  exact hready.place hroom key value

lemma insert [Footprint (Slot κ ν)] (key : κ) (value : ν) :
    Charged.Pays (table.insert key value) fun (_, after) => after.Balanced :=
  (h.insertAt key value).bind fun _ hplaced => Charged.pays_pure hplaced

lemma replace (key : κ) (value : ν) : (table.replace key value).2.Balanced := by
  unfold Table.replace
  cases hfind : table.find? key with
  | none => exact h
  | some i =>
    obtain ⟨old, d, hs⟩ := h.orderly.find?_eq_some_iff.mp hfind
    simp only [hs]
    refine ⟨h.orderly.overwrite hs, ?_, ?_, ?_⟩
    · obtain ⟨j, hj⟩ := h.attained
      exact ⟨j, (walked_overwrite hs j).trans hj⟩
    · simpa [Table.capacity] using h.capacity_eq
    · simpa [Table.capacity] using h.size_le

lemma answer [Footprint (Slot κ ν)] (request : Request κ ν) :
    Charged.Pays (table.answer request) fun (_, after) => after.Balanced := by
  cases request with
  | insert key value => exact (h.insert key value).bind fun _ hins => Charged.pays_pure hins
  | replace key value => exact Charged.pays_pure (h.replace key value)
  | clear => exact Charged.pays_pure (Balanced.replicate h.capacity_eq)
  | get key => exact Charged.pays_pure h
  | contains key => exact Charged.pays_pure h
  | entries => exact Charged.pays_pure h
  | size => exact Charged.pays_pure h

end Balanced

/-! ## Slots -/

omit [DecidableEq κ]

lemma Orderly.size_eq_card (ho : table.Orderly) :
    table.size = ((Finset.range table.capacity).filter fun i => (table.slot i).isOccupied).card := by
  have hslots : table.slots.toList = (List.range table.capacity).map table.slot := by
    apply List.ext_getElem
    · simp [Table.capacity]
    · intro i hi _
      rw [Array.length_toList] at hi
      simp [slot_eq_getElem hi]
  rw [ho.size_eq, ← Array.countP_toList, hslots, List.countP_map,
    ← Nat.count_eq_card_filter_range]
  simp [Nat.count, Function.comp_def]

/-- What the slots of a table record, and what the table records of its slots. -/
structure RobinHood (table : Table hash ν) : Prop where
  capacity_eq : table.capacity = 0 ∨ ∃ n, 3 ≤ n ∧ table.capacity = 2 ^ n
  home_eq : table.capacity ≠ 0 → ∀ key,
    table.home key = (hash key).toNat &&& (table.capacity - 1)
  walked_eq_zero_iff : ∀ {index}, (table.slot index).walked = 0 ↔ table.slot index = .vacant
  distance_eq : ∀ {index key value distance}, table.slot index = .occupied key value distance →
    distance = 1 + (index + table.capacity - table.home key) % table.capacity
  preceded : ∀ {index key value distance}, table.slot index = .occupied key value distance →
    1 < distance → ∃ other held before,
      table.slot ((index + table.capacity - 1) % table.capacity) = .occupied other held before ∧
        distance - 1 ≤ before
  distinct : ∀ {i j key v w d e}, table.slot i = .occupied key v d →
    table.slot j = .occupied key w e → i = j
  size_eq : table.size = table.slots.countP Slot.isOccupied
  size_le : table.size ≤ table.capacity / 2
  reach_eq : table.reach = (Finset.range table.capacity).sup fun index => (table.slot index).walked
  reach_le : table.reach ≤ table.size

namespace Balanced

variable (h : table.Balanced) (hs : table.slot index = .occupied key value distance)
include h hs

lemma distance_lt : distance < table.capacity := by
  have hi := lt_capacity_of_occupied hs
  have hsize := h.size_le
  obtain ⟨i, hlt, hv⟩ := exists_vacant h.orderly (by omega)
  exact (h.orderly.trail hs).2.2.lt_capacity hlt hv

lemma distance_eq : distance = 1 + (index + table.capacity - table.home key) % table.capacity := by
  obtain ⟨hpos, hat, -⟩ := h.orderly.trail hs
  have hlt := h.distance_lt hs
  have hhome : table.home key < table.capacity := Nat.mod_lt _ (by omega)
  have hoff : (index + table.capacity - table.home key) % table.capacity = distance - 1 := by
    rw [← hat]
    by_cases hround : table.home key + (distance - 1) < table.capacity
    · rw [Nat.mod_eq_of_lt hround, show table.home key + (distance - 1) + table.capacity -
        table.home key = distance - 1 + table.capacity by omega, Nat.add_mod_right,
        Nat.mod_eq_of_lt (by omega)]
    · have hover : (table.home key + (distance - 1)) % table.capacity =
          table.home key + (distance - 1) - table.capacity := by
        rw [Nat.mod_eq_sub_mod (by omega), Nat.mod_eq_of_lt (by omega)]
      rw [hover, show table.home key + (distance - 1) - table.capacity + table.capacity -
        table.home key = distance - 1 by omega, Nat.mod_eq_of_lt (by omega)]
  omega

lemma preceded (hd : 1 < distance) : ∃ other held before,
    table.slot ((index + table.capacity - 1) % table.capacity) = .occupied other held before ∧
      distance - 1 ≤ before := by
  obtain ⟨-, hat, ht⟩ := h.orderly.trail hs
  have hi := lt_capacity_of_occupied hs
  have hback : (index + table.capacity - 1) % table.capacity =
      (table.home key + (distance - 2)) % table.capacity := by
    rw [← hat, Nat.add_sub_assoc (by omega), Nat.mod_add_mod, show table.home key + (distance - 1) +
      (table.capacity - 1) = table.home key + (distance - 2) + table.capacity by omega,
      Nat.add_mod_right]
  have hwalked := ht (distance - 2) (by omega)
  rw [hback]
  cases hslot : table.slot ((table.home key + (distance - 2)) % table.capacity) with
  | vacant =>
    rw [hslot] at hwalked
    simp [Slot.walked] at hwalked
  | occupied other held before =>
    rw [hslot] at hwalked
    simp only [Slot.walked] at hwalked
    exact ⟨other, held, before, rfl, by omega⟩

/-- The slots that an entry has passed are as many entries. -/
lemma distance_le_size : distance ≤ table.size := by
  obtain ⟨hpos, hat, ht⟩ := h.orderly.trail hs
  have hlt := h.distance_lt hs
  rw [h.orderly.size_eq_card, ← Finset.card_range distance]
  apply Finset.card_le_card_of_injOn fun m => (table.home key + m) % table.capacity
  · intro m hm
    rw [Finset.coe_range, Set.mem_Iio] at hm
    have hwalked := ht m hm
    simp only [Finset.coe_filter, Finset.mem_range, Set.mem_ofPred_eq]
    refine ⟨Nat.mod_lt _ (by omega), ?_⟩
    cases hslot : table.slot ((table.home key + m) % table.capacity) with
    | vacant => simp [hslot, Slot.walked] at hwalked
    | occupied other held before => rfl
  · intro m hm n hn heq
    rw [Finset.coe_range, Set.mem_Iio] at hm hn
    exact (Nat.ModEq.add_left_cancel' (table.home key) heq).eq_of_lt_of_lt (by omega) (by omega)

omit hs in
lemma robinHood : table.RobinHood where
  capacity_eq := h.capacity_eq
  home_eq := by
    intro hc key
    obtain ⟨n, -, hpow⟩ := h.capacity_eq.resolve_left hc
    rw [home, hpow, Nat.and_two_pow_sub_one_eq_mod]
  walked_eq_zero_iff := by
    intro i
    cases hslot : table.slot i with
    | vacant => simp [Slot.walked]
    | occupied key value distance =>
      have hpos := (h.orderly.trail hslot).1
      simp only [Slot.walked, reduceCtorEq, iff_false]
      omega
  distance_eq := h.distance_eq
  preceded := h.preceded
  distinct := h.orderly.distinct
  size_eq := h.orderly.size_eq
  size_le := h.size_le
  reach_eq := by
    obtain ⟨j, hj⟩ := h.attained
    apply le_antisymm
    · rw [← hj]
      cases hslot : table.slot j with
      | vacant => exact Nat.zero_le _
      | occupied key value distance =>
        apply Finset.le_sup_of_le (Finset.mem_range.mpr (lt_capacity_of_occupied hslot))
        rw [hslot]
    · apply Finset.sup_le
      intro i _
      cases hslot : table.slot i with
      | vacant => exact Nat.zero_le _
      | occupied key value distance => exact h.orderly.reach_le hslot
  reach_le := by
    obtain ⟨j, hj⟩ := h.attained
    rw [← hj]
    cases hslot : table.slot j with
    | vacant => exact Nat.zero_le _
    | occupied key value distance => exact h.distance_le_size hslot

end Balanced

/-! ## Insertion -/

/-- A walk for a key that has an entry meets only entries that have walked at least as far, so it evicts
none before it meets that entry. A walk for any other key finds a vacant slot. -/
structure Receptive [DecidableEq κ] (table : Table hash ν) : Prop where
  passes : ∀ {index key held distance}, table.slot index = .occupied key held distance →
    ∀ m < distance, m + 1 ≤ (table.slot ((table.home key + m) % table.capacity)).walked
  present : ∀ {index key held distance}, table.slot index = .occupied key held distance →
    ∀ value, table.place key value = .ok (some index, table)
  absent : ∀ {key}, ¬ table.HasKey key → ∀ value, ∃ after, table.place key value = .ok (none, after)

lemma Balanced.receptive [DecidableEq κ] (h : table.Balanced)
    (hroom : table.size + 1 ≤ table.capacity / 2) : table.Receptive where
  passes hs := (h.orderly.trail hs).2.2
  present hs value := place_present h.orderly (by omega) hs
  absent hk value := by
    obtain ⟨after, heq, -⟩ := place_absent value h.orderly (by omega) hk
    exact ⟨after, heq⟩

end Table

/-- Whatever the hash, every table and every copy that commands lead to is in Robin Hood order, and so
is the ring through which the next entry will walk. The only fault is an exhausted arena. -/
theorem tables_keep_robinHood (κ ν : Type) [DecidableEq κ] [Footprint (Slot κ ν)] (hash : κ → UInt64)
    (commands : List (Versions.Command (Table.Request κ ν))) :
    Charged.Pays (Versions.obeyAll Table.answer { current := (Table.empty : Table hash ν) } commands)
      fun (_, versions) => ∀ table ∈ versions.current :: versions.saved,
        table.RobinHood ∧
          Charged.Pays table.ready fun ready => ready.RobinHood ∧ ready.Receptive := by
  have hempty : (Table.empty : Table hash ν).Balanced := Table.Balanced.replicate (.inl rfl)
  apply (Versions.obeyAll_keeps (fun _ request h => Table.Balanced.answer h request)
    (List.forall_mem_singleton.mpr hempty) commands).mono
  rintro ⟨replies, versions⟩ hkept table hmem
  have h := hkept table hmem
  refine ⟨h.robinHood, h.ready.mono ?_⟩
  rintro ready ⟨hready, hroom⟩
  exact ⟨hready.robinHood, hready.receptive hroom⟩

end PatternAutomata
