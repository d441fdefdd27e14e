import PatternAutomata.Proofs.Growth

/-!
# Growth at the end of the words

The search for room computes with 64-bit words before the arena is asked. As long as the chain has
capacities that the search can come to, every turn is exact and gains room, the search ends, and a
request that is too large for the arena is refused for lack of bytes. A request beyond the last of
them never comes to the arena: its search overflows, however much the arena has left.
-/

namespace PatternAutomata

namespace Buffer

variable {α : Type}

/-! ## A request -/

section Request

variable [Footprint α] {buffer : Buffer α} {arena : Arena} {need found : UInt64}

/-- A request that the search can meet is refused for lack of bytes exactly if the capacity that the
search finds does not fit what the arena has left. -/
lemma Settles.exhausted_iff {result : Except Fault (Buffer α × Arena)}
    (h : Settles buffer arena need result) (hneed : need ≤ lastRoom)
    (hclimbs : Climbs need buffer.capacity found) :
    result = .error (.arenaExhausted arena.capacity) ↔ buffer.capacity < need ∧
      arena.capacity.toNat - arena.used.toNat <
        roundedUp ((Footprint.bytes α).toNat * found.toNat) := by
  cases h with
  | ample hle => exact iff_of_false nofun fun hlt => absurd hle (UInt64.not_le.mpr hlt.1)
  | granted hlt hother hgrants =>
    cases hother.climbs.unique hclimbs
    exact iff_of_false nofun fun hfull =>
      absurd (room_le_of_grants hgrants) (Nat.not_le.mpr hfull.2)
  | exhausted hlt hother hfull =>
    cases hother.climbs.unique hclimbs
    exact iff_of_true rfl ⟨hlt, hfull⟩
  | tooLarge hlt hother hfits =>
    cases hother.climbs.unique hclimbs
    exact iff_of_false nofun fun hfull => absurd hfits (Nat.not_le.mpr hfull.2)
  | overflows hfar => exact absurd hneed (UInt64.not_le.mpr hfar)

/-- A request beyond the last capacity overflows. -/
lemma Settles.eq_overflow {result : Except Fault (Buffer α × Arena)}
    (h : Settles buffer arena need result) (hcharted : Charted buffer.capacity)
    (hfar : lastRoom < need) : result = .error .differenceOverflow := by
  have hnone : ∀ {found : UInt64}, ¬ Finds need buffer.capacity found := fun hfinds =>
    absurd (UInt64.le_trans hfinds.climbs.need_le hfinds.charted.le_lastRoom)
      (UInt64.not_le.mpr hfar)
  cases h with
  | ample hle => exact absurd (UInt64.le_trans hle hcharted.le_lastRoom) (UInt64.not_le.mpr hfar)
  | granted _ hfinds => exact absurd hfinds hnone
  | exhausted _ hfinds => exact absurd hfinds hnone
  | tooLarge _ hfinds => exact absurd hfinds hnone
  | overflows => rfl

end Request

/-! ## Buffers in use -/

/-- The buffers that a new one can become, whatever is asked of it. Between two operations its elements
may be changed in place, and other buffers may have used the arena. -/
inductive Worn [Footprint α] : Buffer α → Prop
  | empty : Worn empty
  | apply {buffer after : Buffer α} {operation : Operation α} {arena later : Arena} :
      Worn buffer → (buffer.apply operation).run arena = .ok (after, later) → Worn after
  | edit {buffer : Buffer α} {data : Array α} :
      Worn buffer → data.size = buffer.size → Worn { buffer with data }

section Worn

variable [Footprint α] {buffer : Buffer α} {arena : Arena}

lemma Worn.charted (h : Worn buffer) : Charted buffer.capacity := by
  induction h with
  | empty => exact charted_zero
  | apply _ happly ih =>
    rcases cases_of_makeRoom (makeRoom_of_apply happly).1 with ⟨-, hsame, -⟩ | ⟨hlt, -, hsearch, -⟩
    · exact hsame ▸ ih
    · rcases ih.search hlt with ⟨-, found, hfound, hfinds⟩ | ⟨-, hfault, -⟩
      · cases hsearch.symm.trans hfound
        exact hfinds.charted
      · cases hsearch.symm.trans hfault
  | edit _ _ ih => exact ih

/-- How a request for room is answered. -/
structure Answered (buffer : Buffer α) (arena : Arena) (need : UInt64) : Prop where
  settles : Settles buffer arena need ((buffer.reserve need).run arena)
  /-- Up to the last capacity the search ends, after turns that are exact and gain room. The arena is
  then found exhausted exactly if what the search comes to does not fit. -/
  ascends : need ≤ lastRoom → ∃ found, Climbs need buffer.capacity found ∧
    ((buffer.reserve need).run arena = .error (.arenaExhausted arena.capacity) ↔
      buffer.capacity < need ∧ arena.capacity.toNat - arena.used.toNat <
        roundedUp ((Footprint.bytes α).toNat * found.toNat))
  /-- Beyond it the search comes, by such turns, to a capacity that it cannot leave. It overflows
  there, whatever the arena has left. -/
  overflows : lastRoom < need → Stalls need buffer.capacity ∧
    (buffer.reserve need).run arena = .error .differenceOverflow
  /-- A request for more than the arena has left is refused for lack of bytes, unless it is beyond the
  last capacity. -/
  refused : need ≤ lastRoom → buffer.capacity < need →
    arena.capacity.toNat - arena.used.toNat < roundedUp ((Footprint.bytes α).toNat * need.toNat) →
    (buffer.reserve need).run arena = .error (.arenaExhausted arena.capacity)

lemma Worn.ascends (h : Worn buffer) (hs : arena.Solvent) {need : UInt64} (hneed : need ≤ lastRoom) :
    ∃ found, Climbs need buffer.capacity found ∧
      ((buffer.reserve need).run arena = .error (.arenaExhausted arena.capacity) ↔
        buffer.capacity < need ∧ arena.capacity.toNat - arena.used.toNat <
          roundedUp ((Footprint.bytes α).toNat * found.toNat)) := by
  have hsettles := settles_reserve h.charted hs need
  by_cases hle : need ≤ buffer.capacity
  · exact ⟨_, .enough hle, hsettles.exhausted_iff hneed (.enough hle)⟩
  · rcases h.charted.search (UInt64.not_le.mp hle) with ⟨-, found, -, hfinds⟩ | ⟨hfar, -⟩
    · exact ⟨found, hfinds.climbs, hsettles.exhausted_iff hneed hfinds.climbs⟩
    · exact absurd hneed (UInt64.not_le.mpr hfar)

/-- The search for room is exact and ends as long as the chain of capacities has one that it can come
to. Beyond the last of these it overflows, and the arena is not asked. -/
theorem Worn.reserve_answered (h : Worn buffer) (hs : arena.Solvent) (need : UInt64) :
    Answered buffer arena need where
  settles := settles_reserve h.charted hs need
  ascends := h.ascends hs
  overflows hfar := by
    refine ⟨?_, (settles_reserve h.charted hs need).eq_overflow h.charted hfar⟩
    have hlt := UInt64.lt_of_le_of_lt h.charted.le_lastRoom hfar
    rcases h.charted.search hlt with ⟨hneed, -⟩ | ⟨-, -, hstalls⟩
    · exact absurd hneed (UInt64.not_le.mpr hfar)
    · exact hstalls
  refused hneed hlt hfull := by
    obtain ⟨found, hclimbs, hiff⟩ := h.ascends hs hneed
    have hroom := roundedUp_mono (Nat.mul_le_mul_left (Footprint.bytes α).toNat
      (UInt64.le_iff_toNat_le.mp hclimbs.need_le))
    exact hiff.mpr ⟨hlt, Nat.lt_of_lt_of_le hfull hroom⟩

/-- A buffer with room for eight elements is refused the last capacity on the chain for lack of bytes,
and overflows when it is asked for one element more. -/
theorem Worn.reserve_answered_pushed : ∃ (buffer : Buffer UInt32) (later : Arena),
    (Buffer.apply {} (.push 5)).run { capacity := 1000 } = .ok (buffer, later) ∧
    buffer.Worn ∧ later.Solvent ∧ buffer.capacity = 8 ∧
    (∃ found, Climbs 39 8 found ∧ 39 ≤ found) ∧
    (buffer.reserve lastRoom).run later = .error (.arenaExhausted 1000) ∧
    (buffer.reserve (lastRoom + 1)).run later = .error .differenceOverflow := by
  have hpush : ((Buffer.apply {} (.push (5 : UInt32))).run { capacity := 1000 }).toOption.any
      (fun (buffer, later) => decide (buffer.capacity = 8 ∧
        later = { capacity := 1000, used := 32, requested := 32 })) = true := by decide +kernel
  obtain ⟨⟨buffer, later⟩, hrun, htest⟩ := exists_of_any hpush
  obtain ⟨hcapacity, rfl⟩ := of_decide_eq_true htest
  have hworn : buffer.Worn := Worn.empty.apply hrun
  have hsolvent : ({ capacity := 1000, used := 32, requested := 32 } : Arena).Solvent :=
    ⟨by decide, by decide, by decide⟩
  obtain ⟨found, hclimbs, -⟩ := (hworn.reserve_answered hsolvent 39).ascends (by decide)
  refine ⟨buffer, _, hrun, hworn, hsolvent, hcapacity, ⟨found, hcapacity ▸ hclimbs, hclimbs.need_le⟩,
    ?_, ?_⟩
  · exact (hworn.reserve_answered hsolvent lastRoom).refused (UInt64.le_refl _)
      (by rw [hcapacity]; decide) (by decide)
  · exact ((hworn.reserve_answered hsolvent (lastRoom + 1)).overflows (by decide)).2

/-- One element more than the last capacity is far too much for the usual arena, and calls for room
that the largest arena has bytes for. Neither is asked: the double of the last capacity loses its
highest bit, less is left than is to be taken away, and the request overflows. -/
theorem reserve_overflows_past_lastRoom :
    (empty : Buffer UInt8).Worn ∧
    (9840053641935042784 : UInt64) <<< 1 = 1233363210160533952 ∧
    (9840053641935042784 : UInt64) >>> 1 = 4920026820967521392 ∧
    nextCapacity 9840053641935042784 = .error .differenceOverflow ∧
    Stalls 9840053641935042785 0 ∧
    Arena.defaultCapacity.toNat < roundedUp (1 * 9840053641935042785) ∧
    ((empty : Buffer UInt8).reserve 9840053641935042785).run { capacity := Arena.defaultCapacity } =
      .error .differenceOverflow ∧
    IsLeast (rooms 9840053641935042785) 14760080462902564184 ∧
    roundedUp (1 * 14760080462902564184) ≤ 18446744073709551615 ∧
    ((empty : Buffer UInt8).reserve 9840053641935042785).run { capacity := 18446744073709551615 } =
      .error .differenceOverflow := by
  have hworn : (empty : Buffer UInt8).Worn := .empty
  have hfar : lastRoom < 9840053641935042785 := by decide
  have hlast : chain 101 = 9840053641935042784 := chain_lastRoom
  have hleast : IsLeast (rooms 9840053641935042785) 14760080462902564184 := by
    have hnext : chain 102 = 14760080462902564184 := by
      rw [chain, hlast]
    refine ⟨⟨by decide, 102, hnext⟩, ?_⟩
    rintro _ ⟨hroom, links, rfl⟩
    rw [← hnext]
    apply chain_strictMono.monotone
    by_contra hlt
    have hle := chain_strictMono.monotone (Nat.le_of_lt_succ (Nat.not_le.mp hlt))
    omega
  have hdefault := settles_reserve hworn.charted (Arena.solvent_new Arena.defaultCapacity)
    9840053641935042785
  have hlargest := settles_reserve hworn.charted (Arena.solvent_new 18446744073709551615)
    9840053641935042785
  have hstalls : Stalls 9840053641935042785 0 := by
    rcases charted_zero.search (show (0 : UInt64) < 9840053641935042785 by decide) with
      ⟨hneed, -⟩ | ⟨-, -, hstalls⟩
    · exact absurd hneed (UInt64.not_le.mpr hfar)
    · exact hstalls
  exact ⟨hworn, by decide, by decide, rfl, hstalls, by decide,
    hdefault.eq_overflow hworn.charted hfar, hleast, by decide,
    hlargest.eq_overflow hworn.charted hfar⟩

end Worn

end Buffer

end PatternAutomata
