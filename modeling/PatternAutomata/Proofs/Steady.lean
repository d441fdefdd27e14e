import PatternAutomata.Proofs.Lockstep
import PatternAutomata.Proofs.Restriction

/-!
# Steady computations

A computation is steady if nothing it does depends on the ceiling of its arena, so that it keeps in
step with itself, if the buffers that it makes grow never become too large, and if it is only abandoned
with cause: it exhausts its arena where a charge that it comes to does not fit what is left. A buffer
cannot grow too large as long as all that its predecessors were charged is still spent: it grows by
half, so what it and they have taken together is more than twice what it takes.
-/

namespace PatternAutomata

variable {α β : Type}

/-- Whether a fault that no charge is behind may be met: it says nothing of an arena or of a buffer, and
of handles only what is so. -/
def Fault.IsPlain : Fault → Prop
  | .arenaExhausted _ | .bufferTooLarge => False
  | .handleTooLarge attempted => NodeId.greatest.toNat < attempted
  | _ => True

namespace Charged

/-! ## Causes of faults -/

/-- A computation that is run on an arena comes to a charge that does not fit what is left of it. -/
inductive Refused : {α : Type} → Charged α → Arena → Prop
  | charge {α : Type} [Footprint α] {count : UInt64} {arena : Arena} :
      arena.capacity.toNat <
        arena.used.toNat + roundedUp ((Footprint.bytes α).toNat * count.toNat) →
      Refused (charge α count) arena
  | first {α β : Type} {first : Charged α} {next : α → Charged β} {arena : Arena} :
      Refused first arena → Refused (first >>= next) arena
  | later {α β : Type} {first : Charged α} {next : α → Charged β} {value : α}
      {arena middle : Arena} : first.run arena = .ok (value, middle) → arena.Spends middle →
      Refused (next value) middle → Refused (first >>= next) arena

/-- A computation that comes to such a charge ends there. -/
lemma Refused.run_eq {computation : Charged α} {arena : Arena} (h : Refused computation arena)
    (hs : arena.used ≤ arena.capacity) :
    computation.run arena = .error (.arenaExhausted arena.capacity) := by
  induction h with
  | charge hlarge => exact (charge_eq_error_iff hs).mpr ⟨rfl, hlarge⟩
  | first _ ih =>
    rw [StateT.run_bind, ih hs]
    rfl
  | later hrun hspends _ ih =>
    rw [StateT.run_bind, hrun, ← hspends.capacity_eq]
    exact ih hspends.le_capacity

/-- Whether a computation on an arena has cause to be abandoned with a fault. -/
def HasCause (computation : Charged α) (arena : Arena) : Fault → Prop
  | .arenaExhausted capacity => capacity = arena.capacity ∧ Refused computation arena
  | fault => fault.IsPlain

lemma hasCause_of_isPlain {computation : Charged α} {arena : Arena} {fault : Fault}
    (h : fault.IsPlain) : computation.HasCause arena fault := by
  cases fault with
  | arenaExhausted capacity => exact h.elim
  | _ => exact h

/-- What the first of two computations has cause for, both together have. -/
lemma HasCause.bind_first {computation : Charged α} {next : α → Charged β} {arena : Arena}
    {fault : Fault} (h : computation.HasCause arena fault) :
    (computation >>= next).HasCause arena fault := by
  cases fault with
  | arenaExhausted capacity => exact ⟨h.1, .first h.2⟩
  | _ => exact h

lemma HasCause.bind_later {computation : Charged α} {next : α → Charged β} {value : α}
    {arena middle : Arena} {fault : Fault} (hrun : computation.run arena = .ok (value, middle))
    (hspends : arena.Spends middle) (h : (next value).HasCause middle fault) :
    (computation >>= next).HasCause arena fault := by
  cases fault with
  | arenaExhausted capacity =>
    exact ⟨h.1.trans hspends.capacity_eq, .later hrun hspends h.2⟩
  | _ => exact h

/-! ## Steady computations -/

/-- The computation keeps in step with itself. If a property holds of the number of bytes used before,
it is only abandoned with cause, no buffer grows too large, and another property holds of the value and
of the number of bytes used after. -/
structure Nearly (R : UInt64 → α → α → Prop) (p : Nat → Prop) (computation : Charged α)
    (q : α → Nat → Prop) : Prop extends Paced R computation where
  affords : ∀ arena, arena.used ≤ arena.capacity → p arena.used.toNat →
    match computation.run arena with
    | .ok (value, after) => q value after.used.toNat
    | .error fault => computation.HasCause arena fault

/-- The computation gives the same value under any ceiling that suffices. -/
abbrev Steady (p : Nat → Prop) (computation : Charged α) (q : α → Nat → Prop) : Prop :=
  Nearly (fun _ => Eq) p computation q

variable {R : UInt64 → α → α → Prop} {S : UInt64 → β → β → Prop} {p o m : Nat → Prop}
  {computation : Charged α} {q r : α → Nat → Prop}

lemma Nearly.mono (h : Nearly R p computation q)
    (hp : ∀ used, used < UInt64.size → o used → p used)
    (hq : ∀ value used, used < UInt64.size → q value used → r value used) :
    Nearly R o computation r where
  toPaced := h.toPaced
  affords := by
    intro arena hs ho
    have ha := h.affords arena hs (hp _ (UInt64.toNat_lt _) ho)
    cases hr : computation.run arena with
    | error fault =>
      rw [hr] at ha
      exact ha
    | ok outcome =>
      rw [hr] at ha
      exact hq _ _ (UInt64.toNat_lt _) ha

/-- What holds of the bytes used, and goes on to hold when more are used, holds afterwards. -/
lemma Nearly.frame (h : Nearly R p computation q)
    (hm : ∀ used more, used ≤ more → m used → m more) :
    Nearly R (fun used => p used ∧ m used) computation fun value used => q value used ∧ m used where
  toPaced := h.toPaced
  affords := by
    rintro arena hs ⟨hp, hused⟩
    have ha := h.affords arena hs hp
    cases hr : computation.run arena with
    | error fault =>
      rw [hr] at ha
      exact ha
    | ok outcome =>
      rw [hr] at ha
      have hspends := h.thrifty arena outcome.1 outcome.2 hs hr
      exact ⟨ha, hm _ _ (UInt64.le_iff_toNat_le.mp hspends.used_le) hused⟩

lemma Nearly.bind {next : α → Charged β} {t : β → Nat → Prop} (h : Nearly R p computation q)
    (hn : ∀ value, Nearly S (q value) (next value) t)
    (hstep : ∀ capacity value value', R capacity value value' →
      Lockstep capacity (S capacity) (next value) (next value')) :
    Nearly S p (computation >>= next) t where
  toPaced := h.toPaced.bind (fun value => (hn value).thrifty) hstep
  affords := by
    intro arena hs hp
    have ha := h.affords arena hs hp
    rw [StateT.run_bind]
    cases hr : computation.run arena with
    | error fault =>
      rw [hr] at ha
      exact HasCause.bind_first ha
    | ok outcome =>
      obtain ⟨value, middle⟩ := outcome
      rw [hr] at ha
      have hspends := h.thrifty arena value middle hs hr
      have hnext := (hn value).affords middle hspends.le_capacity ha
      change match (next value).run middle with
        | .ok (value, after) => t value after.used.toNat
        | .error fault => (computation >>= next).HasCause arena fault
      cases hr' : (next value).run middle with
      | ok outcome =>
        rw [hr'] at hnext
        exact hnext
      | error fault =>
        rw [hr'] at hnext
        exact HasCause.bind_later hr hspends hnext

/-- A computation exhausts its arena exactly if a charge that it comes to does not fit. -/
lemma Nearly.exhausts_iff (h : Nearly R p computation q) {arena : Arena}
    (hs : arena.used ≤ arena.capacity) (hp : p arena.used.toNat) {capacity : UInt64} :
    computation.run arena = .error (.arenaExhausted capacity) ↔
      capacity = arena.capacity ∧ Refused computation arena := by
  constructor
  · intro hr
    have ha := h.affords arena hs hp
    rw [hr] at ha
    exact ha
  · rintro ⟨rfl, hrefused⟩
    exact hrefused.run_eq hs

lemma Nearly.pure {value : α} (hR : ∀ capacity, R capacity value value)
    (h : ∀ used, p used → q value used) : Nearly R p (pure value : Charged α) q where
  toPaced := Paced.pure hR
  affords _ _ hp := h _ hp

namespace Steady

lemma mono (h : Steady p computation q) (hp : ∀ used, used < UInt64.size → o used → p used)
    (hq : ∀ value used, used < UInt64.size → q value used → r value used) :
    Steady o computation r :=
  Nearly.mono h hp hq

lemma frame (h : Steady p computation q) (hm : ∀ used more, used ≤ more → m used → m more) :
    Steady (fun used => p used ∧ m used) computation fun value used => q value used ∧ m used :=
  Nearly.frame h hm

lemma pure {value : α} (h : ∀ used, p used → q value used) :
    Steady p (pure value : Charged α) q :=
  Nearly.pure (fun _ => rfl) h

lemma lift {result : Except Fault α}
    (h : ∀ used, p used → match result with
      | .ok value => q value used
      | .error fault => fault.IsPlain) :
    Steady p (liftM result : Charged α) q where
  toPaced := Paced.lift result
  affords := by
    intro arena hs hp
    have hr := h _ hp
    cases result with
    | ok value => exact hr
    | error fault => exact hasCause_of_isPlain hr

lemma throw {fault : Fault} (h : ∀ used, p used → fault.IsPlain) :
    Steady p (throw fault : Charged α) q where
  toPaced := Paced.lift (.error fault)
  affords _ _ hp := hasCause_of_isPlain (h _ hp)

lemma throw_bind {fault : Fault} {next : α → Charged β} {t : β → Nat → Prop}
    (h : ∀ used, p used → fault.IsPlain) :
    Steady p ((MonadExcept.throw fault : Charged α) >>= next) t :=
  Steady.throw h

lemma bind {next : α → Charged β} {t : β → Nat → Prop} (h : Steady p computation q)
    (hn : ∀ value, Nearly S (q value) (next value) t) : Nearly S p (computation >>= next) t := by
  apply Nearly.bind h hn
  rintro capacity value _ rfl
  exact (hn value).lockstep capacity

lemma foldlM {step : β → α → Charged β} (inv : β → Nat → Prop)
    (hstep : ∀ state input, Steady (inv state) (step state input) inv) (inputs : List α)
    (state : β) : Steady (inv state) (inputs.foldlM step state) inv := by
  induction inputs generalizing state with
  | nil => exact Steady.pure fun _ h => h
  | cons input rest ih =>
    rw [List.foldlM_cons]
    exact (hstep state input).bind ih

lemma charge (α : Type) [Footprint α] (count : UInt64) :
    Steady p (charge α count) fun _ used => ∃ before, p before ∧
      before + (Footprint.bytes α).toNat * count.toNat ≤ used where
  toPaced := paced_charge α count
  affords := by
    intro arena hs hp
    cases hr : (PatternAutomata.charge α count).run arena with
    | ok outcome => exact ⟨_, hp, (charge_charges hs hr).le_used⟩
    | error fault =>
      obtain ⟨rfl, hlarge⟩ := (charge_eq_error_iff hs).mp hr
      exact ⟨rfl, .charge hlarge⟩

end Steady

end Charged

/-! ## Buffers -/

namespace Buffer

/-- The bytes that a buffer may take without its predecessors having been paid for. No table that is
reserved as a whole takes more. -/
def slack : Nat := 4398046511104

/-- Whether so many bytes have been used that a buffer's room and its predecessors' rooms have been
paid for. -/
def Paid (α : Type) [Footprint α] (capacity used : Nat) : Prop :=
  11 * ((Footprint.bytes α).toNat * capacity) ≤ 5 * used + slack

/-- The buffer holds no more than it has paid for, and its predecessors have been paid for too. -/
structure Funded [Footprint α] (buffer : Buffer α) (used : Nat) : Prop where
  size_le : buffer.size ≤ buffer.capacity.toNat
  paid : Paid α buffer.capacity.toNat used

variable [Footprint α] {buffer after : Buffer α} {used more : Nat}

lemma Paid.mono {capacity : Nat} (h : Paid α capacity used) (hle : used ≤ more) :
    Paid α capacity more := by
  unfold Paid at *
  omega

lemma Funded.mono (h : buffer.Funded used) (hle : used ≤ more) : buffer.Funded more :=
  ⟨h.size_le, h.paid.mono hle⟩

lemma funded_empty : (empty : Buffer α).Funded used := by
  refine ⟨Nat.zero_le _, ?_⟩
  unfold Paid
  simp [empty]

lemma Funded.of_size_le (h : buffer.Funded used) (hc : after.capacity = buffer.capacity)
    (hs : after.size ≤ buffer.size) : after.Funded used :=
  ⟨hc ▸ Nat.le_trans hs h.size_le, hc ▸ h.paid⟩

/-- Whether room for a number of elements can be paid for: the rooms that do not suffice, and the
room after them. -/
structure Affordable (buffer : Buffer α) (need : UInt64) (used : Nat) : Prop where
  moderate : need.toNat ≤ moderate
  paid : Paid α buffer.capacity.toNat used
  next : ∀ short, buffer.capacity.toNat ≤ short → short < need.toNat →
    6 * ((Footprint.bytes α).toNat * (2 * short - short / 2 + 8)) ≤ 5 * used + slack

/-- The search for a capacity has no charge behind its faults. -/
lemma isPlain_of_sufficientCapacity {need : UInt64} {steps : Nat} {capacity : UInt64} {fault : Fault}
    (h : sufficientCapacity need steps capacity = .error fault) : fault.IsPlain := by
  have hchecked : ∀ {left right : UInt64} {fault : Fault},
      checkedSum left right = .error fault → fault.IsPlain := by
    unfold checkedSum
    intro left right fault h
    split at h <;> cases h
    trivial
  induction steps generalizing capacity with
  | zero =>
    cases h
    trivial
  | succ steps ih =>
    unfold sufficientCapacity at h
    split at h
    · cases h
    · cases hnext : nextCapacity capacity with
      | ok next =>
        rw [hnext] at h
        exact ih h
      | error other =>
        rw [hnext] at h
        cases h
        unfold nextCapacity checkedDifference at hnext
        split at hnext
        · exact hchecked hnext
        · cases hnext
          trivial

lemma makeRoom_steady (buffer : Buffer α) (need : UInt64) :
    Charged.Steady (buffer.Affordable need) (buffer.makeRoom need) fun capacity used =>
      need ≤ capacity ∧ Paid α capacity.toNat used := by
  by_cases hle : need ≤ buffer.capacity
  · rw [makeRoom_of_le hle]
    exact Charged.Steady.pure fun used h => ⟨hle, h.paid⟩
  · cases hf : sufficientCapacity need UInt64.size buffer.capacity with
    | error fault =>
      rw [makeRoom_of_error hle hf]
      exact Charged.Steady.throw fun _ _ => isPlain_of_sufficientCapacity hf
    | ok capacity =>
      rw [makeRoom_of_found hle hf]
      refine (Charged.Steady.charge (p := buffer.Affordable need) α capacity).bind fun _ => ?_
      have hpaid : ∀ used, (∃ before, buffer.Affordable need before ∧
          before + (Footprint.bytes α).toNat * capacity.toNat ≤ used) →
          need ≤ capacity ∧ Paid α capacity.toNat used := by
        rintro used ⟨before, h, hused⟩
        obtain ⟨hneed, rfl | ⟨short, hge, hshort, hfound⟩⟩ := sufficientCapacity_eq h.moderate hf
        · exact absurd hneed hle
        · have hnext := h.next short hge hshort
          rw [← hfound] at hnext
          refine ⟨hneed, ?_⟩
          unfold Paid
          omega
      split
      · rename_i hlarge
        have hnever : ∀ used, used < UInt64.size → ¬ ∃ before, buffer.Affordable need before ∧
            before + (Footprint.bytes α).toNat * capacity.toNat ≤ used := by
          intro used hlt h
          have hp := (hpaid used h).2
          change used < 18446744073709551616 at hlt
          unfold Paid slack at hp
          unfold greatestBytes at hlarge
          omega
        refine Charged.Steady.mono (p := fun _ => False) (q := fun _ _ => False) ?_ hnever
          fun _ _ _ => False.elim
        exact Charged.Steady.throw fun _ => False.elim
      · exact Charged.Steady.pure hpaid

lemma Funded.capacity_lt [Bulky α] (h : buffer.Funded used) (hu : used < UInt64.size) :
    buffer.capacity.toNat < 2305843009213693952 := by
  have h4 := Bulky.four_le (α := α)
  have hpaid := h.paid
  change used < 18446744073709551616 at hu
  unfold Paid slack at hpaid
  have hmul : 4 * buffer.capacity.toNat ≤ (Footprint.bytes α).toNat * buffer.capacity.toNat :=
    Nat.mul_le_mul_right _ h4
  omega

lemma Funded.sizeAfterPush [Bulky α] (h : buffer.Funded used) (hu : used < UInt64.size) :
    buffer.sizeAfterPush.toNat = buffer.size + 1 := by
  have hlt := h.capacity_lt hu
  have hle := h.size_le
  unfold Buffer.sizeAfterPush
  simp [UInt64.toNat_add]
  omega

/-- A buffer grows by one step at most when an element is appended. -/
lemma Funded.affordable [Bulky α] [Slim α] (h : buffer.Funded used) (hu : used < UInt64.size) :
    buffer.Affordable buffer.sizeAfterPush used := by
  have hlt := h.capacity_lt hu
  have hle := h.size_le
  have hpaid := h.paid
  have hneed := h.sizeAfterPush hu
  refine ⟨?_, hpaid, ?_⟩
  · unfold Buffer.moderate
    omega
  · intro short hge hshort
    have heq : short = buffer.capacity.toNat := by omega
    subst heq
    unfold Paid slack at *
    by_cases hfew : 26 ≤ buffer.capacity.toNat
    · have hgrow : 6 * (2 * buffer.capacity.toNat - buffer.capacity.toNat / 2 + 8) ≤
          11 * buffer.capacity.toNat := by omega
      have hmul := Nat.mul_le_mul_left (Footprint.bytes α).toNat hgrow
      rw [Nat.mul_left_comm, Nat.mul_left_comm _ 11] at hmul
      exact Nat.le_trans hmul hpaid
    · have hgrow : 2 * buffer.capacity.toNat - buffer.capacity.toNat / 2 + 8 ≤ 60 := by omega
      have hmul := Nat.mul_le_mul (Slim.le_64 (α := α)) hgrow
      omega

lemma affordable_reserve [Slim α] {need : UInt64} (h : buffer.Funded used)
    (hn : need.toNat ≤ NodeId.limit) : buffer.Affordable need used := by
  have hlimit : need.toNat ≤ 2147483647 := hn
  refine ⟨?_, h.paid, ?_⟩
  · unfold moderate
    omega
  · intro short hge hshort
    have hgrow : 2 * short - short / 2 + 8 ≤ 4294967302 := by omega
    have hmul := Nat.mul_le_mul (Slim.le_64 (α := α)) hgrow
    unfold slack
    omega

lemma makeRoom_append_steady [Bulky α] [Slim α] (buffer : Buffer α) (value : α) :
    Charged.Steady buffer.Funded (buffer.makeRoom buffer.sizeAfterPush) fun capacity =>
      (buffer.append capacity value).Funded := by
  apply ((makeRoom_steady buffer buffer.sizeAfterPush).frame (m := buffer.Funded)
    fun _ _ hle h => h.mono hle).mono
  · exact fun used hu h => ⟨h.affordable hu, h⟩
  · rintro capacity used hu ⟨⟨hneed, hpaid⟩, h⟩
    rw [UInt64.le_iff_toNat_le, h.sizeAfterPush hu] at hneed
    exact ⟨by simpa [append, size] using hneed, hpaid⟩

lemma push_steady [Bulky α] [Slim α] (buffer : Buffer α) (value : α) :
    Charged.Steady buffer.Funded (buffer.push value) fun after used =>
      after.Funded used ∧ after.data = buffer.data.push value := by
  unfold push
  exact (makeRoom_append_steady buffer value).bind fun _ => Charged.Steady.pure fun _ h => ⟨h, rfl⟩

lemma reserve_steady [Slim α] (buffer : Buffer α) (need : UInt64) :
    Charged.Steady (fun used => buffer.Funded used ∧ buffer.size ≤ need.toNat ∧
      need.toNat ≤ NodeId.limit) (buffer.reserve need) fun after used =>
        after.Funded used ∧ need.toNat ≤ after.capacity.toNat := by
  unfold reserve
  refine Charged.Steady.bind (q := fun capacity used => (need ≤ capacity ∧
    Paid α capacity.toNat used) ∧ buffer.size ≤ need.toNat) ?_ fun capacity => ?_
  · apply ((makeRoom_steady buffer need).frame (m := fun _ => buffer.size ≤ need.toNat)
      fun _ _ _ h => h).mono
    · exact fun used _ h => ⟨affordable_reserve h.1 h.2.2, h.2.1⟩
    · exact fun _ _ _ h => h
  · apply Charged.Steady.pure
    rintro used ⟨⟨hneed, hpaid⟩, hsize⟩
    rw [UInt64.le_iff_toNat_le] at hneed
    exact ⟨⟨Nat.le_trans hsize hneed, hpaid⟩, hneed⟩

/-- No table has more nodes than a buffer can be given room for at once. -/
lemma reserve_empty_steady [Slim α] (count : Nat) :
    Charged.Steady (fun _ => count ≤ NodeId.limit) ((empty : Buffer α).reserve count.toUInt64)
      fun after used => after.Funded used ∧ count ≤ after.capacity.toNat := by
  apply ((reserve_steady empty count.toUInt64).frame (m := fun _ => count ≤ NodeId.limit)
    fun _ _ _ h => h).mono
  · intro used _ h
    rw [toNat_toUInt64_of_le_limit h]
    exact ⟨⟨funded_empty, Nat.zero_le _, h⟩, h⟩
  · rintro after used _ ⟨⟨hfunded, hcapacity⟩, h⟩
    rw [toNat_toUInt64_of_le_limit h] at hcapacity
    exact ⟨hfunded, hcapacity⟩

lemma ofList_steady [Slim α] (values : List α) :
    Charged.Steady (fun _ => values.length ≤ NodeId.limit) (ofList values) fun after used =>
      after.Funded used ∧ after.data = values.toArray := by
  unfold ofList
  apply (reserve_empty_steady values.length).bind
  intro buffer
  apply Charged.Steady.pure
  rintro used ⟨hfunded, hcapacity⟩
  exact ⟨⟨hcapacity, hfunded.paid⟩, rfl⟩

end Buffer

/-! ## Tables -/

/-- A steady computation without a buffer. -/
abbrev Charged.Plain (computation : Charged α) : Prop :=
  Charged.Steady (fun _ => True) computation fun _ _ => True

lemma Charged.Plain.keep {computation : Charged α} (h : Charged.Plain computation) {m : Nat → Prop}
    (hm : ∀ used more, used ≤ more → m used → m more) :
    Charged.Steady m computation fun _ => m :=
  (Charged.Steady.frame h hm).mono (fun _ _ h => ⟨trivial, h⟩) fun _ _ _ h => h.2

lemma Charged.plain_lift {result : Except Fault α}
    (h : ∀ fault, result = .error fault → fault.IsPlain) :
    Charged.Plain (liftM result) := by
  apply Charged.Steady.lift
  intro used _
  cases result with
  | ok value => trivial
  | error fault => exact h fault rfl

namespace Table

variable {κ ν : Type} {hash : κ → UInt64} [DecidableEq κ]

lemma walk_error {steps : Nat} {table : Table hash ν} {index distance : Nat} {key : κ} {value : ν}
    {fault : Fault} (h : walk steps table index distance key value = .error fault) :
    fault = .tableFull := by
  induction steps generalizing table index distance key value with
  | zero =>
    cases h
    rfl
  | succ steps ih =>
    unfold walk at h
    split at h
    · cases h
    · split at h
      · cases h
      · split at h
        · exact ih h
        · exact ih h

lemma place_plain (table : Table hash ν) (key : κ) (value : ν) :
    Charged.Plain (liftM (table.place key value)) := by
  apply Charged.plain_lift
  intro fault h
  rw [walk_error h]
  trivial

lemma placeSlot_plain (table : Table hash ν) (slot : Slot κ ν) :
    Charged.Plain (liftM (table.placeSlot slot)) := by
  apply Charged.plain_lift
  intro fault h
  cases slot with
  | vacant => cases h
  | occupied key value distance =>
    unfold placeSlot at h
    cases hr : table.place key value with
    | ok outcome => simp [hr, Except.map] at h
    | error other =>
      simp only [hr, Except.map, Except.error.injEq] at h
      rw [← h, walk_error hr]
      trivial

variable [Footprint (Slot κ ν)]

lemma grow_plain (table : Table hash ν) : Charged.Plain table.grow := by
  unfold grow withSlots
  refine Charged.Steady.bind (q := fun _ _ => True) ?_ fun fresh => ?_
  · exact (Charged.Steady.charge _ _).bind fun _ => Charged.Steady.pure fun _ _ => trivial
  · exact Charged.Steady.foldlM (fun _ _ => True) (fun grown slot => grown.placeSlot_plain slot)
      _ fresh

lemma insertAt_plain (table : Table hash ν) (key : κ) (value : ν) :
    Charged.Plain (table.insertAt key value) := by
  unfold insertAt
  by_cases hl : table.isLoaded
  · simp only [hl, if_true]
    exact table.grow_plain.bind fun ready => ready.place_plain key value
  · simp only [hl, Bool.false_eq_true, if_false, pure_bind]
    exact table.place_plain key value

end Table

lemma KeySet.insert_plain {κ : Type} {hash : κ → UInt64} [DecidableEq κ] [Footprint (Slot κ Unit)]
    (set : KeySet hash) (key : κ) : Charged.Plain (KeySet.insert set key) := by
  unfold KeySet.insert
  exact (Table.insertAt_plain set key ()).bind fun _ => Charged.Steady.pure fun _ h => h

/-! ## Digraphs -/

namespace Digraph

variable {graph : Digraph State Transition} {used more : Nat}

/-- Every buffer of the digraph is paid for, and every node has a handle. -/
structure Funded (graph : Digraph State Transition) (used : Nat) : Prop where
  nodes : graph.nodes.Funded used
  edges : ∀ {index : Nat} {node : Node State Transition},
    graph.nodes.data[index]? = some node → node.edges.Funded used
  size_le : graph.size ≤ NodeId.limit

lemma Funded.mono (h : graph.Funded used) (hle : used ≤ more) : graph.Funded more :=
  ⟨h.nodes.mono hle, fun hn => (h.edges hn).mono hle, h.size_le⟩

lemma isPlain_of_fetch {values : Buffer α} {position : Nat} {fault : Fault}
    (h : values.fetch position = .error fault) : fault.IsPlain := by
  unfold Buffer.fetch at h
  split at h <;> cases h
  trivial

lemma isPlain_of_node {id : NodeId} {fault : Fault} (h : graph.node id = .error fault) :
    fault.IsPlain := isPlain_of_fetch h

lemma node_steady (graph : Digraph State Transition) (id : NodeId) :
    Charged.Steady graph.Funded (liftM (graph.node id)) fun node used =>
      graph.Funded used ∧ graph.nodes.data[id.toNat]? = some node := by
  apply Charged.Steady.lift
  intro used h
  cases hn : graph.node id with
  | ok found => exact ⟨h, node_eq_ok_iff.mp hn⟩
  | error fault => exact isPlain_of_node hn

lemma Funded.modify (h : graph.Funded used) {position : Nat}
    {f : Node State Transition → Node State Transition}
    (hf : ∀ node, graph.nodes.data[position]? = some node → (f node).edges.Funded used) :
    Funded { nodes := graph.nodes.modify position f } used where
  nodes := h.nodes.of_size_le rfl (by simp [Buffer.modify, Buffer.size])
  edges := by
    intro index node hn
    simp only [Buffer.modify, Array.getElem?_modify] at hn
    split at hn
    · rename_i heq
      obtain ⟨old, hold, rfl⟩ := Option.map_eq_some_iff.mp hn
      exact hf old (heq ▸ hold)
    · exact h.edges hn
  size_le := by
    simpa [Buffer.modify, size, Buffer.size] using h.size_le

/-- Changing a node is steady if the node's edges stay paid for. -/
lemma modify_steady (graph : Digraph State Transition) (id : NodeId)
    (f : Node State Transition → Node State Transition) :
    Charged.Steady (fun used => graph.Funded used ∧
      ∀ node, graph.nodes.data[id.toNat]? = some node → (f node).edges.Funded used)
      (liftM (graph.modify id f)) Funded := by
  apply Charged.Steady.lift
  rintro used ⟨h, hf⟩
  unfold Digraph.modify
  split
  · rename_i outcome heq
    split at heq
    · cases heq
      exact h.modify hf
    · cases heq
  · rename_i fault heq
    split at heq
    · cases heq
    · cases heq
      trivial

lemma modifyData_steady (graph : Digraph State Transition) (id : NodeId) (f : State → State) :
    Charged.Steady graph.Funded (liftM (graph.modifyData id f)) Funded := by
  apply (modify_steady graph id _).mono
  · refine fun used _ h => ⟨h, fun node hn => ?_⟩
    have hedges : node.edges.Funded used := h.edges hn
    exact hedges
  · exact fun _ _ _ h => h

lemma require_steady (graph : Digraph State Transition) :
    Charged.Steady graph.Funded (liftM (NodeId.require graph.size)) fun _ used =>
      graph.Funded used ∧ graph.size + 1 ≤ NodeId.limit := by
  apply Charged.Steady.lift
  intro used h
  unfold NodeId.require NodeId.ofNat?
  by_cases hle : graph.size ≤ NodeId.greatest.toNat
  · simp only [hle, if_true]
    exact ⟨h, Nat.succ_le_succ hle⟩
  · simp only [hle, if_false]
    exact Nat.not_le.mp hle

lemma addNode_steady (graph : Digraph State Transition) (data : State) :
    Charged.Steady graph.Funded (graph.addNode data) fun added => added.2.Funded := by
  unfold addNode
  apply (require_steady graph).bind
  intro id
  have hpush := (Buffer.push_steady graph.nodes { data }).frame
    (m := fun used => graph.Funded used ∧ graph.size + 1 ≤ NodeId.limit)
    fun _ _ hle h => ⟨h.1.mono hle, h.2⟩
  apply (hpush.mono (fun _ _ h => ⟨h.1.nodes, h⟩) fun _ _ _ h => h).bind
  intro nodes
  apply Charged.Steady.pure
  rintro used ⟨⟨hnodes, hdata⟩, h, hlimit⟩
  refine ⟨hnodes, ?_, ?_⟩
  · intro index node hn
    rw [hdata, Array.getElem?_push] at hn
    split at hn
    · cases hn
      exact Buffer.funded_empty
    · exact h.edges hn
  · change nodes.data.size ≤ NodeId.limit
    rw [hdata, Array.size_push]
    exact hlimit

lemma link_steady (graph : Digraph State Transition) (source dest : NodeId) (data : Transition) :
    Charged.Steady graph.Funded (graph.link source dest data) Funded := by
  unfold link
  split
  · exact Charged.Steady.throw_bind fun _ _ => trivial
  · apply (node_steady graph source).bind
    intro node
    have hroom := (Buffer.makeRoom_append_steady node.edges ⟨dest, data⟩).frame
      (m := fun used => graph.Funded used ∧ graph.nodes.data[source.toNat]? = some node)
      fun _ _ hle h => ⟨h.1.mono hle, h.2⟩
    apply (hroom.mono (fun _ _ h => ⟨h.1.edges h.2, h⟩) fun _ _ _ h => h).bind
    intro capacity
    apply (modify_steady graph source _).mono
    · rintro used _ ⟨hedges, h, hnode⟩
      refine ⟨h, fun other ho => ?_⟩
      cases hnode.symm.trans ho
      exact hedges
    · exact fun _ _ _ h => h

/-- Restricting a digraph to some of its nodes gives no node more room for its edges. -/
lemma Funded.restricted {table : Array (Option NodeId)} {nodes : Buffer (Node State Transition)}
    (h : graph.Funded used) (hnodes : nodes.Funded used)
    (hdata : nodes.data = ((graph.survivors table).map (Node.redirected table)).toArray) :
    Funded { nodes } used where
  nodes := hnodes
  edges := by
    intro index node hn
    have hmem : node ∈ (graph.survivors table).map (Node.redirected table) := by
      rw [← List.mem_toArray, ← hdata]
      exact Array.mem_of_getElem? hn
    obtain ⟨old, hold, rfl⟩ := List.mem_map.mp hmem
    obtain ⟨position, hposition⟩ := Array.mem_iff_getElem?.mp (mem_nodes_of_survivors hold)
    exact (h.edges hposition).of_size_le rfl Array.size_filterMap_le
  size_le := by
    change nodes.data.size ≤ NodeId.limit
    rw [hdata, List.size_toArray, List.length_map]
    exact Nat.le_trans (graph.length_survivors_le table) h.size_le

/-- Moving nodes is steady, whether or not all of their edges can be led anew. -/
lemma rehouse_steady (table : Buffer (Option NodeId)) (nodes : List (Node State Transition)) :
    Charged.Steady (fun _ => nodes.length ≤ NodeId.limit) (rehouse table nodes) fun after used =>
      after.nodes.Funded used ∧
        after.nodes.data = (nodes.map (Node.redirected table.data)).toArray := by
  rcases Node.mapM_redirect table nodes with hmoved | ⟨hout, -⟩
  · rw [rehouse_of_moved hmoved]
    refine Charged.Steady.bind ((Buffer.ofList_steady _).mono (fun _ _ h => ?_) fun _ _ _ h => h)
      fun nodes => Charged.Steady.pure fun _ h => h
    rwa [List.length_map]
  · unfold rehouse
    rw [hout]
    exact (Buffer.reserve_empty_steady nodes.length).bind fun _ =>
      Charged.Steady.throw_bind fun _ _ => trivial

lemma restrict_steady (graph : Digraph State Transition)
    (keep : NodeId → Node State Transition → Bool) :
    Charged.Steady graph.Funded (graph.restrict keep) fun restricted => restricted.2.Funded := by
  unfold restrict
  have hmono : ∀ used more, used ≤ more → graph.Funded used → graph.Funded more :=
    fun _ _ hle h => h.mono hle
  have hlength : (renumber 0 (graph.tested keep)).length = graph.size := by
    rw [length_renumber, length_tested]
  have htable : Charged.Steady graph.Funded (Buffer.ofList (renumber 0 (graph.tested keep)))
      fun _ => graph.Funded :=
    ((Buffer.ofList_steady _).frame hmono).mono (fun _ _ h => ⟨hlength ▸ h.size_le, h⟩)
      fun _ _ _ h => h.2
  apply htable.bind
  intro table
  refine Charged.Steady.bind (((rehouse_steady table _).frame hmono).mono (fun _ _ h => ⟨?_, h⟩)
    fun _ _ _ h => h) fun after => Charged.Steady.pure fun _ h => h.2.restricted h.1.1 h.1.2
  exact Nat.le_trans (graph.length_survivors_le _) h.size_le

namespace Walk

/-- The buffers of a depth-first walk are paid for. -/
structure Funded (walk : Walk) (used : Nat) : Prop where
  order : walk.order.Funded used
  stack : walk.stack.Funded used

lemma Funded.mono {walk : Walk} (h : walk.Funded used) (hle : used ≤ more) : walk.Funded more :=
  ⟨h.order.mono hle, h.stack.mono hle⟩

lemma enter_steady (walk : Walk) (id : NodeId) :
    Charged.Steady walk.Funded (walk.enter id) Funded := by
  obtain ⟨order, met, stack⟩ := walk
  unfold enter
  apply ((KeySet.insert_plain met id).keep fun _ _ hle h => Funded.mono h hle).bind
  rintro ⟨known, met'⟩
  cases known with
  | some _ => exact Charged.Steady.pure fun _ h => ⟨h.order, h.stack⟩
  | none =>
    have hpush := (Buffer.push_steady stack (id, 0)).frame (m := order.Funded)
      fun _ _ hle h => h.mono hle
    apply (hpush.mono (fun _ _ h => ⟨h.stack, h.order⟩) fun _ _ _ h => h).bind
    exact fun pushed => Charged.Steady.pure fun _ h => ⟨h.2, h.1.1⟩

variable {σ τ : Type}

lemma advance_steady (graph : Digraph State Transition) (walk : Walk) (id : NodeId)
    (followed : Nat) : Charged.Steady walk.Funded (advance graph walk id followed) Funded := by
  obtain ⟨order, met, stack⟩ := walk
  unfold advance
  apply ((Charged.plain_lift fun _ => isPlain_of_node).keep fun _ _ hle h => Funded.mono h hle).bind
  intro node
  cases node.edges.get? followed with
  | some edge =>
    apply (enter_steady ⟨order, met, stack.setBack (id, followed + 1)⟩ edge.dest).mono
    · refine fun _ _ h => ⟨h.order, h.stack.of_size_le rfl ?_⟩
      simp [Buffer.setBack, Buffer.set, Buffer.size]
    · exact fun _ _ _ h => h
  | none =>
    have hpush := (Buffer.push_steady order id).frame (m := stack.Funded)
      fun _ _ hle h => h.mono hle
    apply (hpush.mono (fun _ _ h => ⟨h.order, h.stack⟩) fun _ _ _ h => h).bind
    refine fun pushed => Charged.Steady.pure fun _ h => ⟨h.1.1, h.2.of_size_le rfl ?_⟩
    simp [Buffer.pop, Buffer.size]

lemma run_steady (graph : Digraph State Transition) (steps : Nat) (walk : Walk) :
    Charged.Steady walk.Funded (run graph steps walk) Funded := by
  induction steps generalizing walk with
  | zero => exact Charged.Steady.throw fun _ _ => trivial
  | succ steps ih =>
    unfold run
    cases walk.stack.back? with
    | none => exact Charged.Steady.pure fun _ h => h
    | some top => exact (advance_steady graph walk top.1 top.2).bind ih

end Walk

lemma postOrder_steady (graph : Digraph State Transition) :
    Charged.Steady graph.Funded graph.postOrder fun _ => graph.Funded := by
  unfold postOrder
  have hmono : ∀ used more, used ≤ more → graph.Funded used → graph.Funded more :=
    fun _ _ hle h => h.mono hle
  have hreserve : Charged.Steady graph.Funded
      ((Buffer.empty : Buffer NodeId).reserve graph.size.toUInt64)
      fun order used => order.Funded used ∧ graph.Funded used := by
    apply ((Buffer.reserve_empty_steady graph.size).frame hmono).mono
    · exact fun _ _ h => ⟨h.size_le, h⟩
    · exact fun _ _ _ h => ⟨h.1.1, h.2⟩
  apply hreserve.bind
  intro order
  have hwalks := (Charged.Steady.foldlM Walk.Funded (fun walk root =>
    (Walk.enter_steady walk ⟨root⟩).bind (Walk.run_steady graph graph.walkBound))
    (List.range graph.size) { order }).frame hmono
  apply (hwalks.mono (fun _ _ h => ⟨⟨h.1, Buffer.funded_empty⟩, h.2⟩) fun _ _ _ h => h).bind
  exact fun walk => Charged.Steady.pure fun _ h => h.2

end Digraph

end PatternAutomata
