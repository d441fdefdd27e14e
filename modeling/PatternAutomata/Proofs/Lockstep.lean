import PatternAutomata.Proofs.Room

/-!
# Runs under two ceilings

A computation that has succeeded is run again with another capacity of its arena. The second run
takes every step that the first one took until one of them needs more than the other capacity. So it
ends as the first one if that capacity holds what the first one had used in the end, and otherwise it
exhausts its arena.
-/

namespace PatternAutomata

variable {α β γ δ : Type}

/-- What a computation may do to an arena: it keeps the ceiling and takes no bytes back. -/
structure Arena.Spends (arena after : Arena) : Prop where
  capacity_eq : after.capacity = arena.capacity
  used_le : arena.used ≤ after.used
  le_capacity : after.used ≤ after.capacity

lemma Arena.Spends.refl {arena : Arena} (h : arena.used ≤ arena.capacity) : arena.Spends arena :=
  ⟨rfl, UInt64.le_refl _, h⟩

lemma Arena.Spends.trans {arena middle after : Arena} (h : arena.Spends middle)
    (h' : middle.Spends after) : arena.Spends after :=
  ⟨h'.capacity_eq.trans h.capacity_eq, UInt64.le_trans h.used_le h'.used_le, h'.le_capacity⟩

/-- A state of which an arena is a part, and whose arena can be given another capacity. -/
class Budgeted (σ : Type) where
  arena : σ → Arena
  withCapacity : σ → UInt64 → σ

instance : Budgeted Arena := ⟨id, fun arena capacity => { arena with capacity }⟩

section Lockstep

open Budgeted (arena withCapacity)

variable {σ : Type} [Budgeted σ]

/-- Whatever the computation spends, it spends within the ceiling and for good. -/
def Thrifty (computation : StateT σ (Except Fault) α) : Prop := ∀ state value after,
  (arena state).used ≤ (arena state).capacity → computation.run state = .ok (value, after) →
    (arena state).Spends (arena after)

/-- Whenever the first computation succeeds, the second one, under a given ceiling, ends in a related
value and in the same state but for the ceiling, or exhausts its arena. Which of the two depends on
whether the ceiling holds what the first one has used. -/
def Lockstep (capacity : UInt64) (R : α → β → Prop) (first : StateT σ (Except Fault) α)
    (second : StateT σ (Except Fault) β) : Prop :=
  ∀ state value after, (arena state).used ≤ (arena state).capacity →
    first.run state = .ok (value, after) → (arena state).used ≤ capacity →
      ((arena after).used ≤ capacity → ∃ value', R value value' ∧
        second.run (withCapacity state capacity) = .ok (value', withCapacity after capacity)) ∧
      (capacity < (arena after).used →
        second.run (withCapacity state capacity) = .error (.arenaExhausted capacity))

namespace Thrifty

/-- A computation that leaves the state alone spends nothing. -/
lemma lift (result : Except Fault α) :
    Thrifty (liftM result : StateT σ (Except Fault) α) := by
  intro state value after hs hrun
  cases result with
  | error fault => cases hrun
  | ok found =>
    cases hrun
    exact .refl hs

lemma bind {first : StateT σ (Except Fault) α} {next : α → StateT σ (Except Fault) β}
    (h : Thrifty first) (hn : ∀ value, Thrifty (next value)) : Thrifty (first >>= next) := by
  intro state value after hs hrun
  rw [StateT.run_bind] at hrun
  obtain ⟨⟨found, middle⟩, hfirst, hnext⟩ := exists_of_bind_eq_ok hrun
  have hspends := h state found middle hs hfirst
  exact hspends.trans (hn found middle value after hspends.le_capacity hnext)

lemma map {first : StateT σ (Except Fault) α} (h : Thrifty first) (f : α → β) :
    Thrifty (f <$> first) := by
  rw [map_eq_pure_bind]
  exact h.bind fun value => lift (.ok (f value))

end Thrifty

namespace Lockstep

variable {capacity : UInt64} {R : α → β → Prop} {S : γ → δ → Prop}
  {first : StateT σ (Except Fault) α} {second : StateT σ (Except Fault) β}

lemma mono {R' : α → β → Prop} (h : Lockstep capacity R first second)
    (hR : ∀ value value', R value value' → R' value value') : Lockstep capacity R' first second := by
  intro state value after hs hrun hle
  have hstep := h state value after hs hrun hle
  refine ⟨fun hfits => ?_, hstep.2⟩
  obtain ⟨value', hvalue, hrun'⟩ := hstep.1 hfits
  exact ⟨value', hR _ _ hvalue, hrun'⟩

lemma lift (result : Except Fault α) :
    Lockstep capacity Eq (liftM result : StateT σ (Except Fault) α) (liftM result) := by
  intro state value after hs hrun hle
  cases result with
  | error fault => cases hrun
  | ok found =>
    cases hrun
    exact ⟨fun _ => ⟨value, rfl, rfl⟩, fun hlt => absurd hle (UInt64.not_le.mpr hlt)⟩

lemma pure {value : α} {value' : β} (h : R value value') :
    Lockstep capacity R (pure value : StateT σ (Except Fault) α) (pure value') := by
  intro state found after hs hrun hle
  cases hrun
  exact ⟨fun _ => ⟨value', h, rfl⟩, fun hlt => absurd hle (UInt64.not_le.mpr hlt)⟩

lemma bind {next : α → StateT σ (Except Fault) γ} {next' : β → StateT σ (Except Fault) δ}
    (ht : Thrifty first) (htn : ∀ value, Thrifty (next value)) (h : Lockstep capacity R first second)
    (hn : ∀ value value', R value value' → Lockstep capacity S (next value) (next' value')) :
    Lockstep capacity S (first >>= next) (second >>= next') := by
  intro state value after hs hrun hle
  rw [StateT.run_bind] at hrun
  obtain ⟨⟨found, middle⟩, hfirst, hnext⟩ := exists_of_bind_eq_ok hrun
  have hspends := ht state found middle hs hfirst
  have hlater := htn found middle value after hspends.le_capacity hnext
  have hstep := h state found middle hs hfirst hle
  -- whether the second run gets through to the rest is decided by the bytes used up to there
  by_cases hfits : (arena middle).used ≤ capacity
  · obtain ⟨found', hR, hsecond⟩ := hstep.1 hfits
    have hrest := hn found found' hR middle value after hspends.le_capacity hnext hfits
    rw [StateT.run_bind, hsecond]
    exact hrest
  · have hover : capacity < (arena middle).used := UInt64.not_le.mp hfits
    rw [StateT.run_bind, hstep.2 hover]
    refine ⟨fun hafter => ?_, fun _ => rfl⟩
    exact absurd (UInt64.le_trans hlater.used_le hafter) hfits

lemma map {f : α → γ} {f' : β → δ} (h : Lockstep capacity R first second) (ht : Thrifty first)
    (hf : ∀ value value', R value value' → S (f value) (f' value')) :
    Lockstep capacity S (f <$> first) (f' <$> second) := by
  rw [map_eq_pure_bind, map_eq_pure_bind]
  apply Lockstep.bind ht (fun value => Thrifty.lift (.ok (f value))) h
  exact fun value value' hR => Lockstep.pure (hf value value' hR)

end Lockstep

/-- Under any ceiling, the computation keeps in step with itself. -/
structure Paced (R : UInt64 → α → α → Prop) (computation : StateT σ (Except Fault) α) : Prop where
  thrifty : Thrifty computation
  lockstep : ∀ capacity, Lockstep capacity (R capacity) computation computation

namespace Paced

variable {R : UInt64 → α → α → Prop} {S : UInt64 → β → β → Prop}
  {computation : StateT σ (Except Fault) α}

lemma lift (result : Except Fault α) :
    Paced (fun _ => Eq) (liftM result : StateT σ (Except Fault) α) :=
  ⟨Thrifty.lift result, fun _ => Lockstep.lift result⟩

lemma pure {value : α} (h : ∀ capacity, R capacity value value) :
    Paced R (pure value : StateT σ (Except Fault) α) :=
  ⟨Thrifty.lift (.ok value), fun capacity => Lockstep.pure (h capacity)⟩

lemma bind {next : α → StateT σ (Except Fault) β} (h : Paced R computation)
    (hn : ∀ value, Thrifty (next value))
    (hstep : ∀ capacity value value', R capacity value value' →
      Lockstep capacity (S capacity) (next value) (next value')) : Paced S (computation >>= next) :=
  ⟨h.thrifty.bind hn,
    fun capacity => Lockstep.bind h.thrifty hn (h.lockstep capacity) (hstep capacity)⟩

lemma map {f : α → β} (h : Paced R computation)
    (hf : ∀ capacity value value', R capacity value value' → S capacity (f value) (f value')) :
    Paced S (f <$> computation) :=
  ⟨h.thrifty.map f, fun capacity => (h.lockstep capacity).map h.thrifty (hf capacity)⟩

/-- Reading the state tells its ceiling. -/
lemma get : Paced (fun capacity state other => other = withCapacity state capacity)
    (get : StateT σ (Except Fault) σ) where
  thrifty := by
    intro state value after hs hrun
    cases hrun
    exact .refl hs
  lockstep := by
    intro capacity state value after hs hrun hle
    cases hrun
    exact ⟨fun _ => ⟨_, rfl, rfl⟩, fun hlt => absurd hle (UInt64.not_le.mpr hlt)⟩

end Paced

end Lockstep

/-! ## Charges -/

/-- What a charge takes from an arena, whatever its ceiling, if the number of bytes is a word. -/
def Arena.block? (bytes count : UInt64) : Option (UInt64 × UInt64) :=
  (Arena.product? bytes count).bind fun requested =>
    (Arena.roundUp? requested).map fun size => (requested, size)

/-- A byte count rounded up to whole words of eight bytes, however large. -/
def roundedUp (bytes : Nat) : Nat := (bytes + 7) / 8 * 8

lemma le_roundedUp (bytes : Nat) : bytes ≤ roundedUp bytes := by
  unfold roundedUp
  omega

lemma roundedUp_mono {bytes more : Nat} (h : bytes ≤ more) : roundedUp bytes ≤ roundedUp more := by
  unfold roundedUp
  omega

/-- A charge asks for the product, and takes it rounded up unless that is no word. -/
lemma Arena.block?_spec (bytes count : UInt64) :
    match block? bytes count with
    | some (requested, size) => requested.toNat = bytes.toNat * count.toNat ∧
        size.toNat = roundedUp (bytes.toNat * count.toNat)
    | none => UInt64.size ≤ roundedUp (bytes.toNat * count.toNat) := by
  have hword : UInt64.size = 18446744073709551616 := rfl
  unfold block? product? roundUp? wholeWords roundedUp
  rw [hword]
  by_cases hproduct : bytes.toNat * count.toNat < 18446744073709551616
  · have hrequested : (bytes * count).toNat = bytes.toNat * count.toNat := by
      rw [UInt64.toNat_mul, Nat.mod_eq_of_lt hproduct]
    rw [if_pos hproduct, Option.bind_some, hrequested]
    by_cases hround : bytes.toNat * count.toNat + 7 < 18446744073709551616
    · rw [if_pos hround]
      refine ⟨hrequested, ?_⟩
      rw [UInt64.toNat_mul, UInt64.toNat_div, UInt64.toNat_add, hrequested]
      change (bytes.toNat * count.toNat + 7) % 18446744073709551616 / 8 * 8 %
        18446744073709551616 = _
      omega
    · rw [if_neg hround]
      dsimp only [Option.map_none]
      omega
  · rw [if_neg hproduct]
    dsimp only [Option.bind_none]
    omega

lemma Arena.toNat_of_block? {bytes count requested size : UInt64}
    (h : block? bytes count = some (requested, size)) :
    requested.toNat = bytes.toNat * count.toNat ∧
      size.toNat = roundedUp (bytes.toNat * count.toNat) := by
  have hspec := block?_spec bytes count
  rw [h] at hspec
  exact hspec

lemma Arena.alloc_eq (arena : Arena) (bytes count : UInt64) :
    arena.alloc bytes count =
      (block? bytes count).elim (.error (.arenaExhausted arena.capacity)) fun block =>
        if arena.remaining < block.2 then .error (.arenaExhausted arena.capacity)
        else .ok (⟨arena.used, block.2⟩, { arena with
          used := arena.used + block.2, requested := arena.requested + block.1 }) := by
  unfold alloc block?
  cases product? bytes count with
  | none => rfl
  | some requested =>
    cases hround : roundUp? requested with
    | none => simp only [Option.bind_some, hround, Option.map_none, Option.elim_none]
    | some size => simp only [Option.bind_some, hround, Option.map_some, Option.elim_some]

/-- To charge an arena is to ask it for one block. -/
lemma charge_run_alloc (α : Type) [Footprint α] (count : UInt64) (arena : Arena) :
    (charge α count).run arena =
      (arena.alloc (Footprint.bytes α) count).map fun outcome => ((), outcome.2) := by
  unfold charge
  cases ha : arena.alloc (Footprint.bytes α) count <;> simp [ha, Except.map]

lemma charge_run (α : Type) [Footprint α] (count : UInt64) (arena : Arena) :
    (charge α count).run arena =
      (Arena.block? (Footprint.bytes α) count).elim (.error (.arenaExhausted arena.capacity))
        fun block => if arena.remaining < block.2 then .error (.arenaExhausted arena.capacity)
          else .ok ((), { arena with
            used := arena.used + block.2, requested := arena.requested + block.1 }) := by
  rw [charge_run_alloc, Arena.alloc_eq]
  cases Arena.block? (Footprint.bytes α) count with
  | none => rfl
  | some block =>
    simp only [Option.elim_some]
    split <;> rfl

lemma Arena.remaining_lt_iff {arena : Arena} (h : arena.used ≤ arena.capacity) {size : UInt64} :
    arena.remaining < size ↔ arena.capacity.toNat < arena.used.toNat + size.toNat := by
  unfold remaining
  rw [UInt64.lt_iff_toNat_lt, UInt64.toNat_sub_of_le _ _ h]
  have hle : arena.used.toNat ≤ arena.capacity.toNat := UInt64.le_iff_toNat_le.mp h
  omega

/-- A charge fails exactly if what it is to take does not fit what is left. -/
lemma charge_eq_error_iff {α : Type} [Footprint α] {count : UInt64} {arena : Arena}
    (hs : arena.used ≤ arena.capacity) {fault : Fault} :
    (charge α count).run arena = .error fault ↔ fault = .arenaExhausted arena.capacity ∧
      arena.capacity.toNat <
        arena.used.toNat + roundedUp ((Footprint.bytes α).toNat * count.toNat) := by
  have hspec := Arena.block?_spec (Footprint.bytes α) count
  rw [charge_run]
  cases hb : Arena.block? (Footprint.bytes α) count with
  | none =>
    rw [hb] at hspec
    have hlt : arena.capacity.toNat < UInt64.size := arena.capacity.toNat_lt
    simp only [Option.elim_none, Except.error.injEq]
    exact ⟨fun h => ⟨h.symm, by omega⟩, fun h => h.1.symm⟩
  | some block =>
    obtain ⟨requested, size⟩ := block
    rw [hb] at hspec
    rw [← hspec.2, ← Arena.remaining_lt_iff hs, Option.elim_some]
    by_cases hlarge : arena.remaining < size
    · rw [if_pos hlarge]
      exact ⟨fun h => ⟨(Except.error.inj h).symm, hlarge⟩, fun h => h.1 ▸ rfl⟩
    · rw [if_neg hlarge]
      exact ⟨nofun, fun h => absurd h.2 hlarge⟩

/-- What a successful charge does. -/
structure Charges (bytes : Nat) (arena after : Arena) : Prop where
  spends : arena.Spends after
  le_used : arena.used.toNat + bytes ≤ after.used.toNat

lemma charge_charges {α : Type} [Footprint α] {count : UInt64} {arena after : Arena} {value : Unit}
    (hs : arena.used ≤ arena.capacity) (h : (charge α count).run arena = .ok (value, after)) :
    Charges ((Footprint.bytes α).toNat * count.toNat) arena after := by
  rw [charge_run] at h
  cases hb : Arena.block? (Footprint.bytes α) count with
  | none => simp [hb] at h
  | some block =>
    obtain ⟨requested, size⟩ := block
    have hsize := le_roundedUp ((Footprint.bytes α).toNat * count.toNat)
    rw [← (Arena.toNat_of_block? hb).2] at hsize
    simp only [hb, Option.elim_some, Arena.remaining_lt_iff hs] at h
    split at h
    · cases h
    · rename_i hfits
      cases h
      have hlt := arena.capacity.toNat_lt
      have hused : (arena.used + size).toNat = arena.used.toNat + size.toNat := by
        rw [UInt64.toNat_add, Nat.mod_eq_of_lt (by omega)]
      refine ⟨⟨rfl, ?_, ?_⟩, by dsimp only; omega⟩
      · rw [UInt64.le_iff_toNat_le]
        dsimp only
        omega
      · rw [UInt64.le_iff_toNat_le]
        dsimp only
        omega

lemma lockstep_charge (capacity : UInt64) (α : Type) [Footprint α] (count : UInt64) :
    Lockstep capacity Eq (charge α count) (charge α count) := by
  intro arena value after hs hrun hle
  have hin : arena.used ≤ arena.capacity := hs
  rw [charge_run] at hrun
  change ((after.used ≤ capacity → ∃ value', value = value' ∧
      (charge α count).run { arena with capacity } = .ok (value', { after with capacity })) ∧
    (capacity < after.used →
      (charge α count).run { arena with capacity } = .error (.arenaExhausted capacity)))
  rw [charge_run]
  cases hb : Arena.block? (Footprint.bytes α) count with
  | none => simp [hb] at hrun
  | some block =>
    obtain ⟨requested, size⟩ := block
    have hother : ({ arena with capacity } : Arena).remaining < size ↔
        capacity.toNat < arena.used.toNat + size.toNat := Arena.remaining_lt_iff hle
    simp only [hb, Option.elim_some, Arena.remaining_lt_iff hin] at hrun
    split at hrun
    · cases hrun
    · rename_i hfits
      cases hrun
      have hlt := arena.capacity.toNat_lt
      have hused : (arena.used + size).toNat = arena.used.toNat + size.toNat := by
        rw [UInt64.toNat_add, Nat.mod_eq_of_lt (by omega)]
      simp only [Option.elim_some, UInt64.le_iff_toNat_le, UInt64.lt_iff_toNat_lt (a := capacity),
        hused, hother]
      refine ⟨fun hfit => ⟨(), trivial, ?_⟩, fun hover => ?_⟩
      · rw [if_neg (by omega)]
      · rw [if_pos hover]

lemma paced_charge (α : Type) [Footprint α] (count : UInt64) :
    Paced (fun _ => Eq) (charge α count) :=
  ⟨fun _ _ _ hs h => (charge_charges hs h).spends, fun capacity => lockstep_charge capacity α count⟩

end PatternAutomata
