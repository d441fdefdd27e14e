import PatternAutomata.Proofs.Accounts
import PatternAutomata.Proofs.Chain

/-!
# Room depends on the peak only

However a buffer is used, its room is the least member of the chain of capacities that suffices for
the most elements it ever held or was asked to hold. So neither the order nor the batching of the
requests matters, and no use takes room away. A use that changes the room charges the arena once, for
all of the new room; any other use leaves the arena alone.
-/

namespace PatternAutomata

namespace Buffer

variable {α : Type}

/-! ## Making room -/

lemma le_of_sufficientCapacity {need found : UInt64} {steps : Nat} {capacity : UInt64}
    (h : sufficientCapacity need steps capacity = .ok found) : need ≤ found := by
  induction steps generalizing capacity with
  | zero => cases h
  | succ steps ih =>
    unfold sufficientCapacity at h
    by_cases hle : need ≤ capacity
    · rw [if_pos hle] at h
      cases h
      exact hle
    · rw [if_neg hle] at h
      cases hnext : nextCapacity capacity with
      | error fault =>
        rw [hnext] at h
        cases h
      | ok next =>
        rw [hnext] at h
        exact ih h

section Room

variable [Footprint α] {buffer after : Buffer α} {arena later : Arena} {need capacity : UInt64}

/-- Room is made without the arena, or charged at once. -/
lemma cases_of_makeRoom (h : (buffer.makeRoom need).run arena = .ok (capacity, later)) :
    (need ≤ buffer.capacity ∧ capacity = buffer.capacity ∧ later = arena) ∨
    (buffer.capacity < need ∧ need ≤ capacity ∧
      sufficientCapacity need UInt64.size buffer.capacity = .ok capacity ∧
      (charge α capacity).run arena = .ok ((), later)) := by
  by_cases hle : need ≤ buffer.capacity
  · rw [makeRoom_of_le hle] at h
    cases h
    exact .inl ⟨hle, rfl, rfl⟩
  · cases hfound : sufficientCapacity need UInt64.size buffer.capacity with
    | error fault =>
      rw [makeRoom_of_error hle hfound] at h
      cases h
    | ok found =>
      rw [makeRoom_of_found hle hfound] at h
      obtain ⟨⟨⟨⟩, charged⟩, hcharge, h⟩ := Charged.exists_of_bind_eq_ok h
      by_cases hlarge : greatestBytes < (Footprint.bytes α).toNat * found.toNat
      · rw [if_pos hlarge] at h
        cases h
      · rw [if_neg hlarge] at h
        cases h
        exact .inr ⟨UInt64.not_le.mp hle, le_of_sufficientCapacity hfound, rfl, hcharge⟩

end Room

/-! ## Operations -/

/-- What a buffer can be used for. -/
inductive Operation (α : Type) where
  | reserve (need : UInt64)
  | push (value : α)
  | pop
  | swapRemove (position : Nat)
  | clear
  | retain (test : α → Bool)
  | clone

namespace Operation

/-- The number of elements that an operation asks for expressly. -/
def request : Operation α → Nat
  | .reserve need => need.toNat
  | _ => 0

/-- The number of elements that an operation needs room for. -/
def demand (buffer : Buffer α) : Operation α → Nat
  | .reserve need => need.toNat
  | .push _ => buffer.size + 1
  | _ => 0

end Operation

/-- Carries out an operation and forgets what it gives back. A clone has the room of its original. -/
def apply [Footprint α] (buffer : Buffer α) : Operation α → Charged (Buffer α)
  | .reserve need => buffer.reserve need
  | .push value => buffer.push value
  | .pop => return buffer.pop.2
  | .swapRemove position => do
    let (_, after) ← buffer.swapRemove position
    return after
  | .clear => return buffer.clear
  | .retain test => return buffer.retain test
  | .clone => return buffer

/-- The buffers that a new one can become, each with the largest number of elements that was asked for
or held so far. Other buffers may have used the arena between two operations. -/
inductive Grown [Footprint α] : Buffer α → Nat → Prop
  | empty : Grown empty 0
  | apply {buffer after : Buffer α} {peak : Nat} {operation : Operation α} {arena later : Arena} :
      Grown buffer peak → (buffer.apply operation).run arena = .ok (after, later) →
        Grown after (max peak (max operation.request after.size))

lemma sizeAfterPush_eq (buffer : Buffer α) : buffer.sizeAfterPush = (buffer.size + 1).toUInt64 :=
  (UInt64.ofNat_add _ _).symm

lemma toNat_demand {buffer : Buffer α} {operation : Operation α}
    (h : operation.demand buffer < UInt64.size) :
    (operation.demand buffer).toUInt64.toNat = operation.demand buffer :=
  Nat.mod_eq_of_lt h

/-- The buffer has the room that its peak calls for, on the part of the chain that the search comes
to, and its peak is no less than its size. -/
structure Roomy (buffer : Buffer α) (peak : Nat) : Prop where
  room : IsLeast (rooms peak) buffer.capacity.toNat
  size_le : buffer.size ≤ peak
  charted : Charted buffer.capacity

lemma roomy_empty : (empty : Buffer α).Roomy 0 :=
  ⟨⟨⟨Nat.le_refl 0, 0, rfl⟩, fun _ _ => Nat.zero_le _⟩, Nat.le_refl 0, charted_zero⟩

section Operations

variable [Footprint α] {buffer after : Buffer α} {arena later : Arena} {operation : Operation α}

/-- An element that is there is taken out without the arena. -/
lemma cases_of_swapRemove (buffer : Buffer α) (position : Nat) (arena : Arena) :
    (∃ after, (buffer.apply (.swapRemove position)).run arena = .ok (after, arena) ∧
      after.capacity = buffer.capacity ∧ after.size ≤ buffer.size) ∨
    (buffer.size ≤ position ∧
      (buffer.apply (.swapRemove position)).run arena = .error .outOfBounds) := by
  unfold apply swapRemove
  by_cases hlt : position < buffer.data.size
  · simp only [dif_pos hlt]
    exact .inl ⟨_, rfl, rfl, by simp [size]⟩
  · simp only [dif_neg hlt]
    exact .inr ⟨Nat.not_lt.mp hlt, rfl⟩

/-- An operation makes room for what it needs, and leaves no more elements than that. -/
lemma makeRoom_of_apply (h : (buffer.apply operation).run arena = .ok (after, later)) :
    (buffer.makeRoom (operation.demand buffer).toUInt64).run arena = .ok (after.capacity, later) ∧
      (after.size ≤ buffer.size ∧ operation.request = operation.demand buffer ∨
        after.size = operation.demand buffer ∧ operation.request = 0) := by
  have hnone : (buffer.makeRoom 0).run arena = .ok (buffer.capacity, arena) := by
    unfold makeRoom
    rw [if_pos UInt64.zero_le]
    rfl
  cases operation with
  | reserve need =>
    obtain ⟨⟨capacity, _⟩, hroom, h⟩ := Charged.exists_of_bind_eq_ok h
    cases h
    refine ⟨?_, .inl ⟨Nat.le_refl _, rfl⟩⟩
    rw [Operation.demand, show need.toNat.toUInt64 = need from UInt64.ofNat_toNat]
    exact hroom
  | push value =>
    obtain ⟨⟨capacity, _⟩, hroom, h⟩ := Charged.exists_of_bind_eq_ok h
    cases h
    refine ⟨?_, .inr ⟨by simp [append, size, Operation.demand], rfl⟩⟩
    rw [Operation.demand, ← sizeAfterPush_eq]
    exact hroom
  | swapRemove position =>
    rcases cases_of_swapRemove buffer position arena with ⟨_, hok, hcapacity, hsize⟩ | ⟨-, herror⟩
    · cases h.symm.trans hok
      exact ⟨hcapacity ▸ hnone, .inl ⟨hsize, rfl⟩⟩
    · cases h.symm.trans herror
  | pop =>
    cases h
    exact ⟨hnone, .inl ⟨by simp [pop, size], rfl⟩⟩
  | clear =>
    cases h
    exact ⟨hnone, .inl ⟨by simp [clear, size], rfl⟩⟩
  | retain test =>
    cases h
    exact ⟨hnone, .inl ⟨Array.size_filter_le, rfl⟩⟩
  | clone =>
    cases h
    exact ⟨hnone, .inl ⟨Nat.le_refl _, rfl⟩⟩

/-- The peak after an operation is what it was, unless the operation needs more. -/
lemma Roomy.peak_eq {peak : Nat} (h : buffer.Roomy peak)
    (happly : (buffer.apply operation).run arena = .ok (after, later)) :
    max peak (max operation.request after.size) = max peak (operation.demand buffer) := by
  have hsize := h.size_le
  obtain ⟨-, ⟨hle, hrequest⟩ | ⟨heq, hrequest⟩⟩ := makeRoom_of_apply happly
  · omega
  · omega

omit [Footprint α] in
lemma Roomy.demand_lt {peak : Nat} (h : buffer.Roomy peak) (operation : Operation α) :
    operation.demand buffer < UInt64.size := by
  have hpeak := h.room.1.1
  have hsize := h.size_le
  have hle : buffer.capacity.toNat ≤ 9840053641935042784 :=
    UInt64.le_iff_toNat_le.mp h.charted.le_lastRoom
  cases operation with
  | reserve need => exact need.toNat_lt
  | push value =>
    change buffer.size + 1 < 18446744073709551616
    omega
  | _ => exact (0 : UInt64).toNat_lt

/-- An operation keeps the room that the peak calls for. -/
lemma Roomy.apply {peak : Nat} (h : buffer.Roomy peak)
    (happly : (buffer.apply operation).run arena = .ok (after, later)) :
    after.Roomy (max peak (operation.demand buffer)) := by
  have hpeak := h.peak_eq happly
  obtain ⟨hroom, -⟩ := makeRoom_of_apply happly
  have hdemand := toNat_demand (h.demand_lt operation)
  have hsize : after.size ≤ max peak (operation.demand buffer) :=
    hpeak ▸ Nat.le_trans (Nat.le_max_right _ _) (Nat.le_max_right _ _)
  rcases cases_of_makeRoom hroom with ⟨hle, hcapacity, -⟩ | ⟨hlt, -, hsearch, -⟩
  · rw [UInt64.le_iff_toNat_le, hdemand] at hle
    exact ⟨hcapacity ▸ isLeast_rooms_max h.room hle, hsize, hcapacity ▸ h.charted⟩
  · rcases h.charted.search hlt with ⟨-, found, hfound, -, hleast, hcharted⟩ | ⟨-, hfault, -⟩
    · cases hsearch.symm.trans hfound
      rw [hdemand] at hleast
      rw [UInt64.lt_iff_toNat_lt, hdemand] at hlt
      have hmax : peak ≤ operation.demand buffer :=
        Nat.le_of_lt (Nat.lt_of_le_of_lt h.room.1.1 hlt)
      exact ⟨by rwa [Nat.max_eq_right hmax], hsize, hcharted⟩
    · cases hsearch.symm.trans hfault

lemma Grown.roomy {peak : Nat} (h : Grown buffer peak) : buffer.Roomy peak := by
  induction h with
  | empty => exact roomy_empty
  | apply _ happly ih =>
    rw [ih.peak_eq happly]
    exact ih.apply happly

/-! ## Charges and refusals -/

/-- A charge that succeeds takes one block, and one that fails is refused for lack of bytes. -/
lemma cases_of_charge (hs : arena.Solvent) (count : UInt64) :
    (∃ block later, (charge α count).run arena = .ok ((), later) ∧
      arena.Grants ⟨Footprint.bytes α, count⟩ block later) ∨
    ((charge α count).run arena = .error (.arenaExhausted arena.capacity) ∧
      arena.capacity.toNat - arena.used.toNat <
        roundedUp ((Footprint.bytes α).toNat * count.toNat)) := by
  have hanswers := hs.answers ⟨Footprint.bytes α, count⟩
  rw [charge_run_alloc]
  by_cases hfits : (⟨Footprint.bytes α, count⟩ : Arena.Request).room ≤
      arena.capacity.toNat - arena.used.toNat
  · obtain ⟨block, later, halloc, hgrants⟩ := hanswers.grants hfits
    exact .inl ⟨block, later, congrArg _ halloc, hgrants⟩
  · have hlarge := Nat.not_le.mp hfits
    exact .inr ⟨congrArg _ (hanswers.refuses_iff.mpr hlarge), hlarge⟩

/-- What becomes of a request for room. -/
inductive Settles (buffer : Buffer α) (arena : Arena) (need : UInt64) :
    Except Fault (Buffer α × Arena) → Prop
  | ample : need ≤ buffer.capacity → Settles buffer arena need (.ok (buffer, arena))
  | granted {found : UInt64} {block : Block} {later : Arena} :
      buffer.capacity < need → Finds need buffer.capacity found →
      arena.Grants ⟨Footprint.bytes α, found⟩ block later →
      (Footprint.bytes α).toNat * found.toNat ≤ greatestBytes →
      Settles buffer arena need (.ok ({ buffer with capacity := found }, later))
  | exhausted {found : UInt64} :
      buffer.capacity < need → Finds need buffer.capacity found →
      arena.capacity.toNat - arena.used.toNat <
        roundedUp ((Footprint.bytes α).toNat * found.toNat) →
      Settles buffer arena need (.error (.arenaExhausted arena.capacity))
  | tooLarge {found : UInt64} :
      buffer.capacity < need → Finds need buffer.capacity found →
      roundedUp ((Footprint.bytes α).toNat * found.toNat) ≤
        arena.capacity.toNat - arena.used.toNat →
      greatestBytes < (Footprint.bytes α).toNat * found.toNat →
      Settles buffer arena need (.error .bufferTooLarge)
  | overflows : lastRoom < need → Stalls need buffer.capacity →
      Settles buffer arena need (.error .differenceOverflow)

/-- What is granted fits what was left. -/
lemma room_le_of_grants {request : Arena.Request} {block : Block}
    (h : arena.Grants request block later) :
    request.room ≤ arena.capacity.toNat - arena.used.toNat := by
  have hle := UInt64.le_iff_toNat_le.mp h.solvent.used_le
  rw [h.used_eq, h.capacity_eq] at hle
  omega

/-- Every request of a buffer on the chain is settled. -/
lemma settles_reserve (hcharted : Charted buffer.capacity) (hs : arena.Solvent) (need : UInt64) :
    Settles buffer arena need ((buffer.reserve need).run arena) := by
  unfold reserve
  by_cases hle : need ≤ buffer.capacity
  · rw [makeRoom_of_le hle]
    exact .ample hle
  · have hlt := UInt64.not_le.mp hle
    rcases hcharted.search hlt with ⟨-, found, hfound, hfinds⟩ | ⟨hfar, hfault, hstalls⟩
    · rw [makeRoom_of_found hle hfound]
      simp only [StateT.run_bind]
      rcases cases_of_charge (α := α) hs found with ⟨block, later, hok, hgrants⟩ | ⟨herror, hfull⟩
      · have hfits := room_le_of_grants hgrants
        rw [hok]
        by_cases hlarge : greatestBytes < (Footprint.bytes α).toNat * found.toNat
        · rw [if_pos hlarge]
          exact .tooLarge hlt hfinds hfits hlarge
        · rw [if_neg hlarge]
          exact .granted hlt hfinds hgrants (Nat.not_lt.mp hlarge)
      · rw [herror]
        exact .exhausted hlt hfinds hfull
    · rw [makeRoom_of_error hle hfault]
      exact .overflows hfar hstalls

/-- An operation either leaves room and arena alone, or charges the arena once for all of the new
room. -/
lemma charges_of_apply (hs : arena.Solvent)
    (h : (buffer.apply operation).run arena = .ok (after, later)) :
    buffer.capacity ≤ after.capacity ∧ (after.capacity = buffer.capacity → later = arena) ∧
      (after.capacity ≠ buffer.capacity →
        ∃ block, arena.Grants ⟨Footprint.bytes α, after.capacity⟩ block later) := by
  obtain ⟨hroom, -⟩ := makeRoom_of_apply h
  rcases cases_of_makeRoom hroom with ⟨-, hcapacity, hlater⟩ | ⟨hlt, hle, -, hcharge⟩
  · exact ⟨hcapacity ▸ UInt64.le_refl _, fun _ => hlater, fun hne => absurd hcapacity hne⟩
  · have hgain : buffer.capacity < after.capacity := UInt64.lt_of_lt_of_le hlt hle
    refine ⟨UInt64.le_of_lt hgain, fun heq => absurd heq (UInt64.ne_of_lt hgain).symm, fun _ => ?_⟩
    rcases cases_of_charge (α := α) hs after.capacity with ⟨block, _, hok, hgrants⟩ | ⟨herror, -⟩
    · cases hcharge.symm.trans hok
      exact ⟨block, hgrants⟩
    · cases hcharge.symm.trans herror

/-- Why an operation may fail: the least room that suffices is more than the arena has left or more
than can be addressed, no capacity that the search comes to suffices, or an element is to be taken
out that is not there. -/
inductive Refuses (buffer : Buffer α) (arena : Arena) (operation : Operation α) : Fault → Prop
  | exhausted {room : Nat} : IsLeast (rooms (operation.demand buffer)) room →
      buffer.capacity.toNat < room →
      arena.capacity.toNat - arena.used.toNat < roundedUp ((Footprint.bytes α).toNat * room) →
      Refuses buffer arena operation (.arenaExhausted arena.capacity)
  | tooLarge {room : Nat} : IsLeast (rooms (operation.demand buffer)) room →
      buffer.capacity.toNat < room → greatestBytes < (Footprint.bytes α).toNat * room →
      Refuses buffer arena operation .bufferTooLarge
  | overflows : lastRoom.toNat < operation.demand buffer →
      Refuses buffer arena operation .differenceOverflow
  | absent {position : Nat} : operation = .swapRemove position → buffer.size ≤ position →
      Refuses buffer arena operation .outOfBounds

/-- An operation other than taking an element out fails only where room is made. -/
lemma error_of_apply {fault : Fault} (h : (buffer.apply operation).run arena = .error fault) :
    (buffer.makeRoom (operation.demand buffer).toUInt64).run arena = .error fault ∨
      ∃ position, operation = .swapRemove position ∧ buffer.size ≤ position ∧
        fault = .outOfBounds := by
  have hthen : ∀ {need : UInt64} {next : UInt64 → Buffer α},
      (buffer.makeRoom need >>= fun capacity => pure (next capacity)).run arena = .error fault →
        (buffer.makeRoom need).run arena = .error fault := by
    intro need next hbind
    rw [StateT.run_bind] at hbind
    cases hroom : (buffer.makeRoom need).run arena with
    | ok outcome =>
      rw [hroom] at hbind
      cases hbind
    | error other =>
      rw [hroom] at hbind
      cases hbind
      rfl
  cases operation with
  | reserve need =>
    rw [Operation.demand, show need.toNat.toUInt64 = need from UInt64.ofNat_toNat]
    exact .inl (hthen h)
  | push value =>
    rw [Operation.demand, ← sizeAfterPush_eq]
    exact .inl (hthen h)
  | swapRemove position =>
    rcases cases_of_swapRemove buffer position arena with ⟨_, hok, -⟩ | ⟨hle, herror⟩
    · cases h.symm.trans hok
    · cases h.symm.trans herror
      exact .inr ⟨position, rfl, hle, rfl⟩
  | _ => cases h

lemma Roomy.refuses {peak : Nat} (h : buffer.Roomy peak) (hs : arena.Solvent) {fault : Fault}
    (happly : (buffer.apply operation).run arena = .error fault) :
    Refuses buffer arena operation fault := by
  rcases error_of_apply happly with hroom | ⟨position, hremove, hle, rfl⟩
  · have hdemand := toNat_demand (h.demand_lt operation)
    have hsettles := settles_reserve h.charted hs (operation.demand buffer).toUInt64
    unfold reserve at hsettles
    rw [StateT.run_bind, hroom] at hsettles
    cases hsettles with
    | exhausted hlt hfinds hfull =>
      exact .exhausted (hdemand ▸ hfinds.isLeast) (hfinds.gain hlt) hfull
    | tooLarge hlt hfinds _ hlarge =>
      exact .tooLarge (hdemand ▸ hfinds.isLeast) (hfinds.gain hlt) hlarge
    | overflows hfar => exact .overflows (hdemand ▸ UInt64.lt_iff_toNat_lt.mp hfar)
  · exact .absent hremove hle

/-- The room of a buffer depends on its peak only: it is the least capacity on the chain that suffices
for the largest number of elements asked for or held so far. An operation never takes room away, charges
the arena exactly once for all of the new room if it changes the room, and leaves the arena alone
otherwise. -/
theorem Grown.capacity_isLeast {peak : Nat} (h : Grown buffer peak) :
    IsLeast (rooms peak) buffer.capacity.toNat ∧ buffer.size ≤ buffer.capacity.toNat ∧
      ∀ (arena : Arena) (operation : Operation α), arena.Solvent →
        match (buffer.apply operation).run arena with
        | .ok (after, later) => buffer.capacity ≤ after.capacity ∧
            (after.capacity = buffer.capacity → later = arena) ∧
            (after.capacity ≠ buffer.capacity →
              ∃ block, arena.Grants ⟨Footprint.bytes α, after.capacity⟩ block later)
        | .error fault => Refuses buffer arena operation fault := by
  have hroomy := h.roomy
  refine ⟨hroomy.room, Nat.le_trans hroomy.size_le hroomy.room.1.1, fun arena operation hs => ?_⟩
  cases happly : (buffer.apply operation).run arena with
  | ok outcome => exact charges_of_apply hs happly
  | error fault => exact hroomy.refuses hs happly

end Operations

/-- Carries out operations in turn, and keeps count of the largest number of elements asked for or
held. -/
def applyAll [Footprint α] (buffer : Buffer α) (peak : Nat) :
    List (Operation α) → Charged (Buffer α × Nat)
  | [] => return (buffer, peak)
  | operation :: rest => do
    let after ← buffer.apply operation
    after.applyAll (max peak (max operation.request after.size)) rest

lemma Grown.applyAll [Footprint α] {buffer after : Buffer α} {peak height : Nat} {arena later : Arena}
    (h : Grown buffer peak) {operations : List (Operation α)}
    (happly : (buffer.applyAll peak operations).run arena = .ok ((after, height), later)) :
    Grown after height := by
  induction operations generalizing buffer peak arena with
  | nil =>
    cases happly
    exact h
  | cons operation rest ih =>
    obtain ⟨⟨middle, charged⟩, hfirst, hrest⟩ := Charged.exists_of_bind_eq_ok happly
    exact ih (h.apply hfirst) hrest

/-- Operations that climb the chain by one link and by three at once, and others in between. -/
def climb : List (Operation UInt32) :=
  [.reserve 1, .push 5, .push 7, .swapRemove 0, .reserve 39, .clone, .retain (· < 6), .push 9, .pop,
    .clear]

theorem Grown.capacity_isLeast_climb : ∃ (buffer after : Buffer UInt32) (later last : Arena),
    (Buffer.applyAll {} 0 climb).run { capacity := 1000 } = .ok ((buffer, 39), later) ∧
    Grown buffer 39 ∧ buffer.capacity = 65 ∧
    IsLeast (rooms 39) 65 ∧ later.Solvent ∧
    (buffer.apply (.reserve 66)).run later = .ok (after, last) ∧ after.capacity = 106 ∧
    ∃ block, later.Grants ⟨4, 106⟩ block last := by
  have hclimb : ((Buffer.applyAll {} 0 climb).run { capacity := 1000 }).toOption.any
      (fun ((buffer, peak), later) => decide (buffer.capacity = 65 ∧ peak = 39 ∧
        later = { capacity := 1000, used := 296, requested := 292 }) &&
        ((buffer.apply (.reserve 66)).run later).toOption.any
          fun (after, _) => after.capacity = 106) = true := by decide +kernel
  obtain ⟨⟨⟨buffer, peak⟩, later⟩, hrun, htest⟩ := exists_of_any hclimb
  rw [Bool.and_eq_true, decide_eq_true_eq] at htest
  obtain ⟨⟨hcapacity, rfl, rfl⟩, hmore⟩ := htest
  obtain ⟨⟨after, last⟩, hreserve, hafter⟩ := exists_of_any hmore
  have hafter := of_decide_eq_true hafter
  have hgrown : Grown buffer 39 := Grown.empty.applyAll hrun
  obtain ⟨hleast, -, hstep⟩ := hgrown.capacity_isLeast
  have hsolvent : ({ capacity := 1000, used := 296, requested := 292 } : Arena).Solvent :=
    ⟨by decide, by decide, by decide⟩
  have hcharge := hstep _ (.reserve 66) hsolvent
  rw [hreserve] at hcharge
  have hblock := hcharge.2.2 (by rw [hafter, hcapacity]; decide)
  rw [hafter] at hblock
  rw [hcapacity] at hleast
  exact ⟨buffer, after, _, last, hrun, hgrown, hcapacity, hleast, hsolvent, hreserve, hafter,
    hblock⟩

end Buffer

end PatternAutomata
