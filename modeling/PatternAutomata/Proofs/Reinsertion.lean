import PatternAutomata.Proofs.RobinHood

/-!
# Inserting under a key that has an entry

A table with room for one more entry is not changed by an insertion under a key that already has one,
and nothing is charged for. But whether there is room is settled before the key is looked for: a
table that is filled to its limit is renewed, and the new ring is charged for, although no entry is
added. The entries are the same afterwards; their slots and their order need not be.
-/

namespace PatternAutomata

variable {κ ν : Type} {hash : κ → UInt64}

namespace Table

variable {table : Table hash ν} {key : κ} {held : ν} {index distance : Nat}
  [DecidableEq κ] [Footprint (Slot κ ν)]

/-- What an insertion does under a key of which something is known: it leaves a table alone that has
room for one more entry, renews any other, and gives back what is known. -/
structure Reinserts {α : Type} (table : Table hash ν) (insertion : Charged (Option α × Table hash ν))
    (known : α) : Prop where
  roomy : table.size + 1 ≤ table.capacity / 2 → insertion = pure (some known, table)
  loaded : table.capacity / 2 < table.size + 1 → ∃ grown, Renewed table grown ∧ insertion = (do
    charge (Slot κ ν) (2 * table.capacity).toUInt64
    return (some known, grown))

lemma insertAt_roomy (ho : table.Orderly) (hs : table.slot index = .occupied key held distance)
    (hroom : table.size + 1 ≤ table.capacity / 2) (value : ν) :
    table.insertAt key value = pure (some index, table) := by
  have hl : table.isLoaded = false := decide_eq_false (by omega)
  rw [insertAt_eq, ready, hl, if_neg Bool.false_ne_true, pure_bind, place_present ho (by omega) hs]
  rfl

lemma insertAt_loaded (ho : table.Orderly) (hs : table.slot index = .occupied key held distance)
    (hfull : table.capacity / 2 < table.size + 1) :
    ∃ (grown : Table hash ν) (i d : Nat), Renewed table grown ∧
      grown.slot i = .occupied key held d ∧ ∀ value, table.insertAt key value = (do
        charge (Slot κ ν) (2 * table.capacity).toUInt64
        return (some i, grown)) := by
  obtain ⟨grown, heq, hgrown⟩ := ho.renewed_eq
  obtain ⟨i, d, hi⟩ := (hgrown.holds_iff key held).mpr ⟨index, distance, hs⟩
  refine ⟨grown, i, d, hgrown, hi, fun value => ?_⟩
  have hl : table.isLoaded = true := decide_eq_true hfull
  have hc : nextCapacity table.capacity = 2 * table.capacity := by
    have := lt_capacity_of_occupied hs
    rw [nextCapacity, if_neg (by omega)]
  have hplace : grown.place key value = .ok (some i, grown) :=
    place_present hgrown.orderly (hgrown.size_lt ho) hi
  rw [insertAt_eq, ready, if_pos hl, grow_eq, heq, hc, bind_assoc]
  congr 1
  funext _
  change (liftM (grown.place key value) : Charged _) = _
  rw [hplace]
  rfl

lemma Orderly.reinserts (ho : table.Orderly) (hk : table.Holds key held) (value : ν) :
    table.Reinserts (table.insert key value) held := by
  obtain ⟨index, distance, hs⟩ := hk
  constructor
  · intro hroom
    rw [insert, insertAt_roomy ho hs hroom, pure_bind]
    simp [valueAt, hs]
  · intro hfull
    obtain ⟨grown, i, d, hgrown, hi, heq⟩ := insertAt_loaded ho hs hfull
    refine ⟨grown, hgrown, ?_⟩
    rw [insert, heq, bind_assoc]
    simp [valueAt, hi]

end Table

namespace KeySet

variable {set : KeySet hash} {key : κ} [DecidableEq κ] [Footprint (Slot κ Unit)]

lemma reinserts (ho : set.Orderly) (hk : set.HasKey key) :
    set.Reinserts (KeySet.insert set key) key := by
  obtain ⟨held, index, distance, hs⟩ := hk
  constructor
  · intro hroom
    rw [KeySet.insert, Table.insertAt_roomy ho hs hroom, pure_bind]
    simp [Table.keyAt, hs]
  · intro hfull
    obtain ⟨grown, i, d, hgrown, hi, heq⟩ := Table.insertAt_loaded ho hs hfull
    refine ⟨grown, hgrown, ?_⟩
    rw [KeySet.insert, heq, bind_assoc]
    simp [Table.keyAt, hi]

lemma insert_balanced (h : set.Balanced) (key : κ) :
    Charged.Pays (KeySet.insert set key) fun (_, after) => Table.Balanced after :=
  (h.insertAt key ()).bind fun _ hplaced => Charged.pays_pure hplaced

lemma answer_balanced (h : set.Balanced) (request : Request κ) :
    Charged.Pays (KeySet.answer set request) fun (_, after) => Table.Balanced after := by
  cases request with
  | insert key => exact (insert_balanced h key).bind fun _ hins => Charged.pays_pure hins
  | clear => exact Charged.pays_pure (Table.Balanced.replicate h.capacity_eq)
  | contains key => exact Charged.pays_pure h
  | keys => exact Charged.pays_pure h
  | size => exact Charged.pays_pure h

end KeySet

/-- Whatever the hash, and whatever commands led to a table or a set of keys: an insertion under a
present key changes nothing as long as there is room for one more entry. Otherwise it moves the same
entries to a ring of twice the size, and this is all that it is charged for. -/
theorem tables_reinsert (κ ν : Type) [DecidableEq κ] (hash : κ → UInt64) :
    (∀ [Footprint (Slot κ ν)] (commands : List (Versions.Command (Table.Request κ ν))),
      Charged.Pays (Versions.obeyAll Table.answer { current := (Table.empty : Table hash ν) } commands)
        fun (_, versions) => ∀ table ∈ versions.current :: versions.saved,
          ∀ key held, table.Holds key held → ∀ value,
            table.Reinserts (table.insert key value) held) ∧
    (∀ [Footprint (Slot κ Unit)] (commands : List (Versions.Command (KeySet.Request κ))),
      Charged.Pays
        (Versions.obeyAll KeySet.answer { current := (Table.empty : KeySet hash) } commands)
        fun (_, versions) => ∀ set ∈ versions.current :: versions.saved,
          ∀ key, Table.HasKey set key → Table.Reinserts set (KeySet.insert set key) key) := by
  constructor
  · intro _ commands
    have hempty : (Table.empty : Table hash ν).Balanced := Table.Balanced.replicate (.inl rfl)
    apply (Versions.obeyAll_keeps (fun _ request h => Table.Balanced.answer h request)
      (List.forall_mem_singleton.mpr hempty) commands).mono
    intro _ hkept table hmem _ _ hk value
    exact (hkept table hmem).orderly.reinserts hk value
  · intro _ commands
    have hempty : (Table.empty : KeySet hash).Balanced := Table.Balanced.replicate (.inl rfl)
    apply (Versions.obeyAll_keeps (fun _ request h => KeySet.answer_balanced h request)
      (List.forall_mem_singleton.mpr hempty) commands).mono
    intro _ hkept set hmem _ hk
    exact KeySet.reinserts (hkept set hmem).orderly hk

/-- Four numbers, each hashed to itself, fill a ring of eight to its limit. -/
def Table.fillEight : Charged (Table (fun key : UInt32 => key.toUInt64) Int64) := do
  let (_, versions) ← Versions.obeyAll Table.answer { current := Table.empty }
    ([1, 2, 3, 4].map fun key => .request (.insert key 0))
  return versions.current

/-- Inserting one of the four again doubles the ring and is charged for it, and an arena that is used up
refuses it. -/
theorem reinsertion_doubles_ring :
    (∃ table before grown after, Table.fillEight.run { capacity := 1048576 } = .ok (table, before) ∧
      table.get? 1 = some 0 ∧ (table.insert 1 9).run before = .ok ((some 0, grown), after) ∧
      table.capacity = 8 ∧ grown.capacity = 16 ∧ before.used = 256 ∧ after.used = 768) ∧
    ∃ table full, Table.fillEight.run { capacity := 256 } = .ok (table, full) ∧
      table.get? 1 = some 0 ∧ (table.insert 1 9).run full = .error (.arenaExhausted 256) := by
  have hgrown : ((Table.fillEight.run { capacity := 1048576 }).toOption.any fun (table, before) =>
      (decide (table.get? 1 = some 0) && decide (table.capacity = 8) && decide (before.used = 256)) &&
      ((table.insert 1 9).run before).toOption.any fun (outcome, after) =>
        decide (outcome.1 = some 0) && decide (outcome.2.capacity = 16) &&
          decide (after.used = 768)) = true := by decide +kernel
  have hfull : ((Table.fillEight.run { capacity := 256 }).toOption.any fun (table, full) =>
      decide (table.get? 1 = some 0) && match (table.insert 1 9).run full with
        | .error fault => decide (fault = .arenaExhausted 256)
        | .ok _ => false) = true := by decide +kernel
  constructor
  · obtain ⟨⟨table, before⟩, hfill, hgrown⟩ := exists_of_any hgrown
    simp only [Bool.and_eq_true, decide_eq_true_eq] at hgrown
    obtain ⟨⟨⟨hpresent, hcap⟩, hused⟩, hinsert⟩ := hgrown
    obtain ⟨⟨⟨known, grown⟩, after⟩, hinsert, hafter⟩ := exists_of_any hinsert
    simp only [Bool.and_eq_true, decide_eq_true_eq] at hafter
    obtain ⟨⟨rfl, hdouble⟩, hcharged⟩ := hafter
    exact ⟨table, before, grown, after, hfill, hpresent, hinsert, hcap, hdouble, hused, hcharged⟩
  · obtain ⟨⟨table, full⟩, hfill, hfull⟩ := exists_of_any hfull
    simp only [Bool.and_eq_true, decide_eq_true_eq] at hfull
    refine ⟨table, full, hfill, hfull.1, ?_⟩
    cases hrun : (table.insert 1 9).run full with
    | ok outcome => simp [hrun] at hfull
    | error fault =>
      simp only [hrun, decide_eq_true_eq] at hfull
      rw [hfull.2]

end PatternAutomata
