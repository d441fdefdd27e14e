import PatternAutomata.Proofs.Limits

/-!
# Buffers find room

A buffer `Fits` if it holds no more than it has paid for and has not paid for more bytes than can be
addressed. A buffer that is asked for a moderate number of elements climbs the chain of capacities
without leaving the 64-bit words. So the search for a capacity ends, and a buffer that fits still
fits once it has grown.
-/

namespace PatternAutomata

namespace Buffer

variable {α : Type}

lemma length_toList (buffer : Buffer α) : buffer.toList.length = buffer.size := rfl

/-- The buffer holds no more than it has paid for, which is no more than can be addressed. -/
structure Fits [Footprint α] (buffer : Buffer α) : Prop where
  size_le : buffer.size ≤ buffer.capacity.toNat
  bytes_le : (Footprint.bytes α).toNat * buffer.capacity.toNat ≤ greatestBytes

lemma fits_empty [Footprint α] : (empty : Buffer α).Fits where
  size_le := by simp [empty, size]
  bytes_le := by simp [empty]

/-- Requests up to this number are met without leaving the 64-bit words. -/
def moderate : Nat := 4611686018427387904

/-- The least number whose double is no word. -/
def halfway : Nat := 9223372036854775808

lemma toNat_double {capacity : UInt64} (h : capacity.toNat < halfway) :
    (capacity <<< 1).toNat = 2 * capacity.toNat := by
  unfold halfway at h
  simp [UInt64.toNat_shiftLeft, Nat.shiftLeft_eq]
  omega

lemma toNat_half (capacity : UInt64) : (capacity >>> 1).toNat = capacity.toNat / 2 := by
  simp [UInt64.toNat_shiftRight, Nat.shiftRight_eq_div_pow]

lemma half_le_double {capacity : UInt64} (h : capacity.toNat < halfway) :
    capacity >>> 1 ≤ capacity <<< 1 := by
  rw [UInt64.le_iff_toNat_le, toNat_double h, toNat_half]
  omega

lemma checkedSum_eq_ok {left right sum : UInt64} (h : left.toNat + right.toNat = sum.toNat) :
    checkedSum left right = .ok sum := by
  have hlt : left.toNat + right.toNat < UInt64.size := h ▸ sum.toNat_lt
  have hsum : left + right = sum := by
    rw [← UInt64.toNat_inj, UInt64.toNat_add, ← h]
    exact Nat.mod_eq_of_lt hlt
  rw [checkedSum, if_pos hlt, hsum]

/-- A turn of the search for room computes the numbers meant, and gains room. -/
structure Turn (capacity next : UInt64) : Prop where
  doubled : (capacity <<< 1).toNat = 2 * capacity.toNat
  reduced : (capacity <<< 1 - capacity >>> 1).toNat = 2 * capacity.toNat - capacity.toNat / 2
  next_eq : nextCapacity capacity = .ok next
  toNat_next : next.toNat = 2 * capacity.toNat - capacity.toNat / 2 + 8
  lt_next : capacity < next

/-- A capacity that can be doubled is left by a turn. -/
lemma exists_turn {capacity : UInt64} (h : capacity.toNat < halfway) :
    ∃ next, Turn capacity next := by
  have hle := half_le_double h
  have hreduced : (capacity <<< 1 - capacity >>> 1).toNat =
      2 * capacity.toNat - capacity.toNat / 2 := by
    rw [UInt64.toNat_sub_of_le _ _ hle, toNat_double h, toNat_half]
  have hword : 2 * capacity.toNat - capacity.toNat / 2 + 8 < UInt64.size := by
    unfold halfway at h
    change _ < 18446744073709551616
    omega
  have hnext : (2 * capacity.toNat - capacity.toNat / 2 + 8).toUInt64.toNat = _ :=
    Nat.mod_eq_of_lt hword
  refine ⟨_, toNat_double h, hreduced, ?_, hnext, ?_⟩
  · rw [nextCapacity, checkedDifference, if_pos hle]
    refine checkedSum_eq_ok ?_
    rw [hreduced, hnext]
    rfl
  · rw [UInt64.lt_iff_toNat_lt, hnext]
    omega

lemma exists_turn_of_moderate {need : Nat} (hn : need ≤ moderate) {capacity : UInt64}
    (h : capacity.toNat < need) : ∃ next, Turn capacity next := by
  apply exists_turn
  unfold moderate at hn
  unfold halfway
  omega

/-- The chain of capacities reaches every moderate request, and each step on it is a gain. -/
lemma sufficientCapacity_moderate {need : UInt64} (hn : need.toNat ≤ moderate) {steps : Nat}
    {capacity : UInt64} (hs : need.toNat - capacity.toNat < steps) :
    ∃ found, sufficientCapacity need steps capacity = .ok found ∧ need ≤ found := by
  induction steps generalizing capacity with
  | zero => omega
  | succ steps ih =>
    unfold sufficientCapacity
    by_cases hle : need ≤ capacity
    · exact ⟨capacity, by simp [hle], hle⟩
    · rw [if_neg hle]
      have hlt : capacity.toNat < need.toNat := by
        simpa [UInt64.le_iff_toNat_le] using hle
      obtain ⟨next, hturn⟩ := exists_turn_of_moderate hn hlt
      have hgain := UInt64.lt_iff_toNat_lt.mp hturn.lt_next
      rw [hturn.next_eq]
      exact ih (by omega)

/-- A capacity that suffices is the old one, or follows one that does not. -/
lemma sufficientCapacity_eq {need found : UInt64} (hn : need.toNat ≤ moderate) {steps : Nat}
    {capacity : UInt64} (h : sufficientCapacity need steps capacity = .ok found) :
    need ≤ found ∧ (found = capacity ∨ ∃ short, capacity.toNat ≤ short ∧ short < need.toNat ∧
      found.toNat = 2 * short - short / 2 + 8) := by
  induction steps generalizing capacity with
  | zero => cases h
  | succ steps ih =>
    unfold sufficientCapacity at h
    by_cases hle : need ≤ capacity
    · rw [if_pos hle] at h
      cases h
      exact ⟨hle, .inl rfl⟩
    · rw [if_neg hle] at h
      have hlt : capacity.toNat < need.toNat := by
        simpa [UInt64.le_iff_toNat_le] using hle
      obtain ⟨next, hturn⟩ := exists_turn_of_moderate hn hlt
      have hgain := UInt64.lt_iff_toNat_lt.mp hturn.lt_next
      rw [hturn.next_eq] at h
      obtain ⟨hneed, rfl | ⟨short, hge, hshort, hfound⟩⟩ := ih h
      · exact ⟨hneed, .inr ⟨capacity.toNat, Nat.le_refl _, hlt, hturn.toNat_next⟩⟩
      · exact ⟨hneed, .inr ⟨short, by omega, hshort, hfound⟩⟩

section Search

variable [Footprint α] {buffer : Buffer α} {need found : UInt64}

lemma makeRoom_of_le (h : need ≤ buffer.capacity) :
    buffer.makeRoom need = pure buffer.capacity := by
  unfold makeRoom
  rw [if_pos h]

/-- Where the search finds a capacity, that is charged. -/
lemma makeRoom_of_found (hshort : ¬ need ≤ buffer.capacity)
    (hfound : sufficientCapacity need UInt64.size buffer.capacity = .ok found) :
    buffer.makeRoom need = charge α found >>= fun _ =>
      if greatestBytes < (Footprint.bytes α).toNat * found.toNat then throw .bufferTooLarge
      else pure found := by
  unfold makeRoom
  rw [if_neg hshort, hfound]
  have hpure : (liftM (.ok found : Except Fault UInt64) : Charged UInt64) = pure found := rfl
  rw [hpure, pure_bind]
  rfl

/-- Where the search meets a fault, nothing is charged. -/
lemma makeRoom_of_error {fault : Fault} (hshort : ¬ need ≤ buffer.capacity)
    (hfault : sufficientCapacity need UInt64.size buffer.capacity = .error fault) :
    buffer.makeRoom need = throw fault := by
  unfold makeRoom
  rw [if_neg hshort, hfault]
  rfl

end Search

lemma charge_pays (α : Type) [Footprint α] (count : UInt64) :
    Charged.Pays (charge α count) fun _ => True := by
  intro arena
  have h : (∃ block after, arena.alloc (Footprint.bytes α) count = .ok (block, after) ∧
        after.capacity = arena.capacity) ∨
      arena.alloc (Footprint.bytes α) count = .error (.arenaExhausted arena.capacity) := by
    unfold Arena.alloc
    split
    · exact .inr rfl
    split
    · exact .inr rfl
    split
    · exact .inr rfl
    · exact .inl ⟨_, _, rfl, rfl⟩
  unfold charge
  cases h with
  | inl h =>
    obtain ⟨block, after, heq, hcap⟩ := h
    simp [heq, hcap]
  | inr heq => simp [heq]

lemma charge_ensures (α : Type) [Footprint α] (count : UInt64) :
    Charged.Ensures (charge α count) fun _ => True :=
  (charge_pays α count).ensures

/-- A moderate request is met, unless the arena or the addressable memory is too small. -/
lemma makeRoom_ensures [Footprint α] {buffer : Buffer α} {need : UInt64} (hb : buffer.Fits)
    (hn : need.toNat ≤ moderate) :
    Charged.Ensures (buffer.makeRoom need) fun capacity =>
      need ≤ capacity ∧ (Footprint.bytes α).toNat * capacity.toNat ≤ greatestBytes := by
  by_cases hle : need ≤ buffer.capacity
  · rw [makeRoom_of_le hle, Charged.ensures_pure]
    exact ⟨hle, hb.bytes_le⟩
  · have hsteps : need.toNat - buffer.capacity.toNat < UInt64.size :=
      Nat.lt_of_le_of_lt (Nat.sub_le _ _) need.toNat_lt
    obtain ⟨found, hf, hneed⟩ := sufficientCapacity_moderate hn hsteps
    rw [makeRoom_of_found hle hf]
    apply Charged.Ensures.bind (charge_ensures α found)
    intro _ _
    split
    · exact Charged.ensures_throw trivial
    · rw [Charged.ensures_pure]
      exact ⟨hneed, by omega⟩

/-- The elements of a type take at least four bytes each, so that no buffer of them outgrows the
moderate requests. -/
class Bulky (α : Type) [Footprint α] : Prop where
  four_le : 4 ≤ (Footprint.bytes α).toNat

instance : Bulky NodeId := ⟨by decide⟩
instance : Bulky (NodeId × Nat) := ⟨by decide⟩
instance : Bulky (Edge Transition) := ⟨by decide⟩
instance : Bulky (Node State Transition) := ⟨by decide⟩

lemma Fits.size_lt [Footprint α] [Bulky α] {buffer : Buffer α} (hb : buffer.Fits) :
    buffer.size < moderate := by
  have h4 := Bulky.four_le (α := α)
  have hs := hb.size_le
  have hbytes := hb.bytes_le
  unfold greatestBytes at hbytes
  have : 4 * buffer.capacity.toNat ≤ (Footprint.bytes α).toNat * buffer.capacity.toNat :=
    Nat.mul_le_mul_right _ h4
  unfold moderate
  omega

lemma Fits.sizeAfterPush [Footprint α] [Bulky α] {buffer : Buffer α} (hb : buffer.Fits) :
    buffer.sizeAfterPush.toNat = buffer.size + 1 := by
  have h := hb.size_lt
  unfold moderate at h
  unfold Buffer.sizeAfterPush
  simp [UInt64.toNat_add]
  omega

/-- A buffer that fits has room for one more element, and still fits with it. -/
lemma makeRoom_append_ensures [Footprint α] [Bulky α] {buffer : Buffer α} (hb : buffer.Fits)
    (value : α) :
    Charged.Ensures (buffer.makeRoom buffer.sizeAfterPush) fun capacity =>
      (buffer.append capacity value).Fits := by
  have hn := hb.sizeAfterPush
  have hlt := hb.size_lt
  apply Charged.Ensures.mono (makeRoom_ensures hb (by omega))
  rintro capacity ⟨hneed, hbytes⟩
  rw [UInt64.le_iff_toNat_le, hn] at hneed
  exact ⟨by simpa [append, size] using hneed, hbytes⟩

lemma reserve_ensures [Footprint α] {buffer : Buffer α} {need : UInt64} (hb : buffer.Fits)
    (hn : need.toNat ≤ moderate) (hs : buffer.size ≤ need.toNat) :
    Charged.Ensures (buffer.reserve need) fun after =>
      after.Fits ∧ after.data = buffer.data ∧ need ≤ after.capacity := by
  unfold reserve
  apply Charged.Ensures.bind (makeRoom_ensures hb hn)
  rintro capacity ⟨hneed, hbytes⟩
  rw [Charged.ensures_pure]
  rw [UInt64.le_iff_toNat_le] at hneed
  exact ⟨⟨Nat.le_trans hs hneed, hbytes⟩, rfl, by rwa [UInt64.le_iff_toNat_le]⟩

lemma ofList_ensures [Footprint α] {values : List α} (h : values.length ≤ moderate) :
    Charged.Ensures (ofList values) fun after => after.Fits ∧ after.data = values.toArray := by
  have hn : values.length.toUInt64.toNat = values.length :=
    UInt64.toNat_ofNat_of_lt' (Nat.lt_of_le_of_lt h (by decide))
  unfold ofList
  apply Charged.Ensures.bind
    (reserve_ensures fits_empty (hn.symm ▸ h) (Nat.zero_le _))
  rintro room ⟨hfits, -, hcap⟩
  rw [Charged.ensures_pure]
  rw [UInt64.le_iff_toNat_le, hn] at hcap
  exact ⟨⟨by simpa [size] using hcap, hfits.bytes_le⟩, rfl⟩

lemma Fits.of_size_le [Footprint α] {buffer after : Buffer α} (hb : buffer.Fits)
    (hc : after.capacity = buffer.capacity) (hs : after.size ≤ buffer.size) : after.Fits where
  size_le := hc ▸ Nat.le_trans hs hb.size_le
  bytes_le := hc ▸ hb.bytes_le

/-- The elements of a type take at most 64 bytes each. -/
class Slim (α : Type) [Footprint α] : Prop where
  le_64 : (Footprint.bytes α).toNat ≤ 64

instance : Slim NodeId := ⟨by decide⟩
instance : Slim (Option NodeId) := ⟨by decide⟩
instance : Slim (NodeId × Nat) := ⟨by decide⟩
instance : Slim (Edge Transition) := ⟨by decide⟩
instance : Slim (Node State Transition) := ⟨by decide⟩

/-- A number of nodes is a word. -/
lemma toNat_toUInt64_of_le_limit {count : Nat} (h : count ≤ NodeId.limit) :
    count.toUInt64.toNat = count :=
  UInt64.toNat_ofNat_of_lt' (Nat.lt_of_le_of_lt h (by decide))

/-- The most elements that a buffer has room for that never held more than a table has nodes. -/
def tableRoom : Nat := 2 * NodeId.limit + 8

/-- The buffer holds no more than it has paid for, which is no more than a table needs. -/
structure Snug (buffer : Buffer α) : Prop where
  size_le : buffer.size ≤ buffer.capacity.toNat
  capacity_le : buffer.capacity.toNat ≤ tableRoom

lemma snug_empty : (empty : Buffer α).Snug :=
  ⟨Nat.le_refl 0, Nat.zero_le _⟩

lemma Snug.of_size_le {buffer after : Buffer α} (hb : buffer.Snug)
    (hc : after.capacity = buffer.capacity) (hs : after.size ≤ buffer.size) : after.Snug where
  size_le := hc ▸ Nat.le_trans hs hb.size_le
  capacity_le := hc ▸ hb.capacity_le

section Slim

variable [Footprint α] [Slim α] {buffer : Buffer α}

/-- No more than a table needs can always be addressed. -/
lemma bytes_le_of_tableRoom {capacity : Nat} (h : capacity ≤ tableRoom) :
    (Footprint.bytes α).toNat * capacity ≤ greatestBytes := by
  have hmul := Nat.mul_le_mul (Slim.le_64 (α := α)) h
  change _ ≤ 64 * 4294967302 at hmul
  unfold greatestBytes
  omega

/-- Room for no more elements than a table has nodes is found, unless the arena is exhausted. -/
lemma makeRoom_pays (buffer : Buffer α) {need : UInt64} (hn : need.toNat ≤ NodeId.limit) :
    Charged.Pays (buffer.makeRoom need) fun capacity =>
      need ≤ capacity ∧ (capacity = buffer.capacity ∨ capacity.toNat ≤ tableRoom) := by
  have hlimit : need.toNat ≤ 2147483647 := hn
  have hmoderate : need.toNat ≤ moderate := by
    unfold moderate
    omega
  by_cases hle : need ≤ buffer.capacity
  · rw [makeRoom_of_le hle]
    exact Charged.pays_pure ⟨hle, .inl rfl⟩
  · have hsteps : need.toNat - buffer.capacity.toNat < UInt64.size :=
      Nat.lt_of_le_of_lt (Nat.sub_le _ _) need.toNat_lt
    obtain ⟨found, hf, -⟩ := sufficientCapacity_moderate hmoderate hsteps
    obtain ⟨hneed, hfound⟩ := sufficientCapacity_eq hmoderate hf
    have hroom : found.toNat ≤ tableRoom := by
      rcases hfound with rfl | ⟨short, -, hshort, hfound⟩
      · exact absurd hneed hle
      · change _ ≤ 4294967302
        omega
    have hbytes := Nat.not_lt.mpr (bytes_le_of_tableRoom (α := α) hroom)
    rw [makeRoom_of_found hle hf]
    simp only [hbytes, if_false]
    apply (charge_pays α found).bind
    intro _ _
    exact Charged.pays_pure ⟨hneed, .inr hroom⟩

lemma push_pays (hs : buffer.size < NodeId.limit) (value : α) :
    Charged.Pays (buffer.push value) fun after => after.data = buffer.data.push value ∧
      after.size ≤ after.capacity.toNat ∧
      (after.capacity = buffer.capacity ∨ after.capacity.toNat ≤ tableRoom) := by
  have hneed : buffer.sizeAfterPush.toNat = buffer.size + 1 := by
    change _ < 2147483647 at hs
    unfold sizeAfterPush
    simp [UInt64.toNat_add]
    omega
  unfold push
  apply (makeRoom_pays buffer (by omega)).bind
  rintro capacity ⟨hcapacity, hroom⟩
  rw [UInt64.le_iff_toNat_le, hneed] at hcapacity
  exact Charged.pays_pure ⟨rfl, by simpa [append, size] using hcapacity, hroom⟩

lemma Snug.makeRoom_pays (hb : buffer.Snug) {need : UInt64} (hn : need.toNat ≤ NodeId.limit) :
    Charged.Pays (buffer.makeRoom need) fun capacity =>
      need ≤ capacity ∧ capacity.toNat ≤ tableRoom := by
  apply (Buffer.makeRoom_pays buffer hn).mono
  rintro capacity ⟨hneed, rfl | hroom⟩
  · exact ⟨hneed, hb.capacity_le⟩
  · exact ⟨hneed, hroom⟩

lemma Snug.push_pays (hb : buffer.Snug) (hs : buffer.size < NodeId.limit) (value : α) :
    Charged.Pays (buffer.push value) fun after =>
      after.Snug ∧ after.data = buffer.data.push value := by
  apply (Buffer.push_pays hs value).mono
  rintro after ⟨hdata, hsize, heq | hroom⟩
  · exact ⟨⟨hsize, heq ▸ hb.capacity_le⟩, hdata⟩
  · exact ⟨⟨hsize, hroom⟩, hdata⟩

lemma Snug.reserve_pays (hb : buffer.Snug) {need : UInt64} (hn : need.toNat ≤ NodeId.limit)
    (hs : buffer.size ≤ need.toNat) : Charged.Pays (buffer.reserve need) fun after =>
      after.Snug ∧ after.data = buffer.data := by
  unfold reserve
  apply (hb.makeRoom_pays hn).bind
  rintro capacity ⟨hcapacity, hroom⟩
  rw [UInt64.le_iff_toNat_le] at hcapacity
  exact Charged.pays_pure ⟨⟨Nat.le_trans hs hcapacity, hroom⟩, rfl⟩

end Slim

end Buffer

end PatternAutomata
