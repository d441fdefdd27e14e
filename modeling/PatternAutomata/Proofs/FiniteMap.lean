import PatternAutomata.Proofs.Ring
import PatternAutomata.Versions
import Mathlib.Data.Finmap

/-!
# Tables are finite maps

An orderly table represents the finite map of its entries, whatever the hash of its keys: a key has
at most one entry, and a search as far as the farthest recorded walk meets it. Each operation does to
the table what it does to the map, and the only fault it can meet is an exhausted arena. So a table
answers any sequence of requests as the map would, and so does a set of keys.
-/

namespace PatternAutomata

/-! ## Answers that an ideal value would give -/

namespace Versions

variable {σ τ ρ α : Type} {answer : σ → ρ → Charged (α × σ)}
  {specification : Specification τ ρ α} {represents : σ → τ → Prop}

/-- What is in use represents an ideal value, and so does each copy. -/
structure Represents (represents : σ → τ → Prop) (versions : Versions σ) (ideal : Versions τ) :
    Prop where
  current : represents versions.current ideal.current
  saved : List.Forall₂ represents versions.saved ideal.saved

variable {versions : Versions σ} {ideal : Versions τ}

lemma Represents.start {value : σ} {model : τ} (h : represents value model) :
    Represents represents { current := value } { current := model } :=
  ⟨h, .nil⟩

lemma Represents.save (h : versions.Represents represents ideal) :
    versions.save.Represents represents ideal.save :=
  ⟨h.current, .cons h.current h.saved⟩

lemma Represents.restore (h : versions.Represents represents ideal) :
    versions.restore.Represents represents ideal.restore := by
  obtain ⟨current, saved⟩ := versions
  obtain ⟨model, models⟩ := ideal
  cases h.saved with
  | nil => exact h
  | cons hkept hsaved => exact ⟨hkept, hsaved⟩

/-- If every single request is answered as by an ideal value, then so are all commands. -/
lemma Represents.obeyAll_pays
    (hanswer : ∀ value model request, represents value model →
      Charged.Pays (answer value request) fun (reply, after) =>
        specification.Admits model request reply ∧
          represents after (specification.next model request))
    (h : versions.Represents represents ideal) (commands : List (Command ρ)) :
    Charged.Pays (versions.obeyAll answer commands) fun (replies, _) =>
      specification.AdmitsAll ideal commands replies := by
  induction commands generalizing versions ideal with
  | nil => exact Charged.pays_pure trivial
  | cons command rest ih =>
    cases command with
    | request request =>
      simp only [obeyAll, obey, bind_assoc, pure_bind]
      apply (hanswer _ _ request h.current).bind
      rintro ⟨reply, after⟩ ⟨hadmits, hafter⟩
      have hnext : Represents represents { versions with current := after }
          { ideal with current := specification.next ideal.current request } :=
        ⟨hafter, h.saved⟩
      exact (ih hnext).bind fun _ hrest => Charged.pays_pure ⟨hadmits, hrest⟩
    | save =>
      simp only [obeyAll, obey, pure_bind]
      exact (ih h.save).bind fun _ hrest => Charged.pays_pure hrest
    | restore =>
      simp only [obeyAll, obey, pure_bind]
      exact (ih h.restore).bind fun _ hrest => Charged.pays_pure hrest

end Versions

variable {κ ν : Type} {hash : κ → UInt64}

namespace Table

variable {table : Table hash ν} {content : Finmap fun _ : κ => ν} {key : κ} {value : ν} {index : Nat}

/-! ## Entries in order -/

lemma mem_toList {k : κ} {v : ν} : (k, v) ∈ table.toList ↔ table.Holds k v := by
  rw [holds_iff_mem, toList, List.mem_filterMap]
  constructor
  · rintro ⟨slot, hmem, hslot⟩
    cases slot with
    | vacant => cases hslot
    | occupied key value distance =>
      cases hslot
      exact ⟨distance, hmem⟩
  · rintro ⟨d, hmem⟩
    exact ⟨_, hmem, rfl⟩

lemma Orderly.nodup_keys (ho : table.Orderly) : (table.toList.map Prod.fst).Nodup := by
  rw [toList, List.map_filterMap, List.Nodup, List.pairwise_filterMap]
  apply ho.distinctKeys.imp
  intro a b hab k hk l hl
  cases a with
  | vacant => cases hk
  | occupied key value distance =>
    cases b with
    | vacant => cases hl
    | occupied other held heldDistance =>
      cases hk
      cases hl
      rintro rfl
      exact hab key value distance held heldDistance rfl rfl

lemma Orderly.length_toList (ho : table.Orderly) : table.toList.length = table.size := by
  rw [ho.size_eq, ← Array.countP_toList, toList, List.length_filterMap_eq_countP]
  apply List.countP_congr
  intro slot _
  cases slot <;> simp

/-! ## Searching -/

variable [DecidableEq κ]

lemma exists_of_findFrom {steps : Nat} {start : Nat}
    (h : table.findFrom key steps start = some index) :
    ∃ v d, table.slot index = .occupied key v d := by
  induction steps generalizing start with
  | zero => cases h
  | succ steps ih =>
    unfold findFrom at h
    cases hslot : table.slot start with
    | vacant =>
      rw [hslot] at h
      exact ih h
    | occupied other v d =>
      simp only [hslot] at h
      by_cases hk : other = key
      · simp only [hk, if_true, Option.some.injEq] at h
        exact ⟨v, d, by rw [← h, hslot, hk]⟩
      · simp only [hk, if_false] at h
        exact ih h

/-- A search that has not yet passed a key's entry, and may go as far, meets it. -/
lemma Orderly.findFrom_eq (ho : table.Orderly) {d : Nat}
    (hs : table.slot index = .occupied key value d) {steps passed : Nat} (hp : passed < d)
    (hsteps : d ≤ passed + steps) :
    table.findFrom key steps ((table.home key + passed) % table.capacity) = some index := by
  induction steps generalizing passed with
  | zero => omega
  | succ steps ih =>
    obtain ⟨hpos, hat, -⟩ := ho.trail hs
    have hnext : table.slot ((table.home key + passed) % table.capacity) ≠ table.slot index →
        table.findFrom key steps (table.next ((table.home key + passed) % table.capacity)) =
          some index := by
      intro hne
      have hlt : passed + 1 < d := by
        by_contra hc
        apply hne
        rw [← hat, show d - 1 = passed by omega]
      rw [next, Nat.mod_add_mod, Nat.add_assoc]
      exact ih hlt (by omega)
    unfold findFrom
    cases hslot : table.slot ((table.home key + passed) % table.capacity) with
    | vacant =>
      apply hnext
      simp [hslot, hs]
    | occupied other held heldDistance =>
      by_cases hk : other = key
      · subst hk
        simp [ho.distinct hslot hs]
      · simp only [hk, if_false]
        apply hnext
        simp [hslot, hs, hk]

lemma Orderly.find?_eq_some_iff (ho : table.Orderly) :
    table.find? key = some index ↔ ∃ v d, table.slot index = .occupied key v d := by
  constructor
  · exact exists_of_findFrom
  · rintro ⟨v, d, hs⟩
    have hpos := (ho.trail hs).1
    have hreach := ho.reach_le hs
    have h : table.findFrom key table.reach ((table.home key + 0) % table.capacity) = some index :=
      ho.findFrom_eq hs (by omega) (by omega)
    have hc : 0 < table.capacity := Nat.zero_lt_of_lt (lt_capacity_of_occupied hs)
    rwa [Nat.add_zero, Nat.mod_eq_of_lt (show table.home key < table.capacity from Nat.mod_lt _ hc)] at h

lemma Orderly.get?_eq_some_iff (ho : table.Orderly) :
    table.get? key = some value ↔ table.Holds key value := by
  rw [get?, Option.bind_eq_some_iff]
  constructor
  · rintro ⟨i, hi, hv⟩
    obtain ⟨v, d, hs⟩ := ho.find?_eq_some_iff.mp hi
    simp only [valueAt, hs, Option.some.injEq] at hv
    exact ⟨i, d, hv ▸ hs⟩
  · rintro ⟨i, d, hs⟩
    exact ⟨i, ho.find?_eq_some_iff.mpr ⟨value, d, hs⟩, by simp [valueAt, hs]⟩

lemma Orderly.contains_iff (ho : table.Orderly) : table.contains key = true ↔ table.HasKey key := by
  rw [contains, Option.isSome_iff_exists]
  constructor
  · rintro ⟨i, hi⟩
    obtain ⟨v, d, hs⟩ := ho.find?_eq_some_iff.mp hi
    exact ⟨v, i, d, hs⟩
  · rintro ⟨v, i, d, hs⟩
    exact ⟨i, ho.find?_eq_some_iff.mpr ⟨v, d, hs⟩⟩

/-! ## Overwriting -/

omit [DecidableEq κ] in
lemma walked_overwrite {old : ν} {d : Nat} (hs : table.slot index = .occupied key old d) (j : Nat) :
    ((table.store index key value d).slot j).walked = (table.slot j).walked := by
  rw [slot_store (lt_capacity_of_occupied hs)]
  split
  · rename_i heq
    simp [heq, hs, Slot.walked]
  · rfl

omit [DecidableEq κ] in
/-- A table stays orderly if an entry's value is overwritten. -/
lemma Orderly.overwrite (ho : table.Orderly) {old : ν} {d : Nat}
    (hs : table.slot index = .occupied key old d) :
    Orderly ({ table with slots := table.slots.setIfInBounds index (.occupied key value d) } :
      Table hash ν) := by
  have hi := lt_capacity_of_occupied hs
  let after : Table hash ν :=
    { table with slots := table.slots.setIfInBounds index (.occupied key value d) }
  have hcap : after.capacity = table.capacity := by simp [after, capacity]
  have hslot : ∀ j, after.slot j = if j = index then .occupied key value d else table.slot j :=
    slot_store hi
  have hback : ∀ {j k v e}, after.slot j = .occupied k v e → ∃ w, table.slot j = .occupied k w e := by
    intro j k v e hj
    rw [hslot] at hj
    split at hj
    · rename_i heq
      cases hj
      exact ⟨old, heq ▸ hs⟩
    · exact ⟨v, hj⟩
  have hwalked : ∀ j, (after.slot j).walked = (table.slot j).walked := walked_overwrite hs
  have hhome : ∀ k, after.home k = table.home k := fun k => by simp [home, hcap]
  refine ⟨?_, ?_, ?_, ?_⟩
  · intro j k v e hj
    obtain ⟨w, hw⟩ := hback hj
    obtain ⟨hpos, hat, ht⟩ := ho.trail hw
    refine ⟨hpos, ?_, ?_⟩
    · change (after.home k + (e - 1)) % after.capacity = j
      rw [hhome, hcap, hat]
    · intro m hm
      change m < (after.slot ((after.home k + m) % after.capacity)).walked
      rw [hhome, hcap, hwalked]
      exact ht m hm
  · intro i j k v w e f hi hj
    obtain ⟨v', hv'⟩ := hback hi
    obtain ⟨w', hw'⟩ := hback hj
    exact ho.distinct hv' hw'
  · have hi' : index < table.slots.size := hi
    have hocc : table.slots[index].isOccupied = true := by
      rw [← slot_eq_getElem hi', hs]
      rfl
    have hpos : 0 < table.slots.countP Slot.isOccupied :=
      Array.countP_pos_iff.mpr ⟨_, Array.getElem_mem hi', hocc⟩
    simp only [Array.setIfInBounds, hi', dite_true]
    rw [Array.countP_set hi', ho.size_eq]
    simp [hocc]
    omega
  · intro j k v e hj
    obtain ⟨w, hw⟩ := hback hj
    exact ho.reach_le hw

/-- Overwriting an entry's value changes the entry of its key only. -/
lemma Orderly.holds_overwrite (ho : table.Orderly) {old : ν} {d : Nat}
    (hs : table.slot index = .occupied key old d) (k : κ) (v : ν) :
    (table.store index key value d).Holds k v ↔ if k = key then v = value else table.Holds k v := by
  rw [holds_store (lt_capacity_of_occupied hs)]
  by_cases hk : k = key
  · subst hk
    rw [if_pos rfl]
    constructor
    · rintro (⟨-, rfl⟩ | ⟨j, e, hne, hj⟩)
      · rfl
      · exact absurd (ho.distinct hj hs) hne
    · intro hv
      exact .inl ⟨rfl, hv⟩
  · rw [if_neg hk]
    constructor
    · rintro (⟨rfl, -⟩ | ⟨j, e, -, hj⟩)
      · exact absurd rfl hk
      · exact ⟨j, e, hj⟩
    · rintro ⟨j, e, hj⟩
      refine .inr ⟨j, e, ?_, hj⟩
      rintro rfl
      rw [hs] at hj
      cases hj
      exact hk rfl

/-! ## Representation -/

/-- The table is orderly and its entries are those of a finite map. -/
structure Represents (table : Table hash ν) (content : Finmap fun _ : κ => ν) : Prop where
  orderly : table.Orderly
  holds_iff : ∀ {k v}, table.Holds k v ↔ content.lookup k = some v

namespace Represents

variable (h : table.Represents content)
include h

lemma hasKey_iff {key : κ} : table.HasKey key ↔ key ∈ content := by
  rw [Finmap.mem_iff]
  exact exists_congr fun _ => h.holds_iff

lemma get? (key : κ) : table.get? key = content.lookup key := by
  apply Option.ext
  intro v
  rw [h.orderly.get?_eq_some_iff, h.holds_iff]

lemma contains_iff {key : κ} : table.contains key = true ↔ key ∈ content := by
  rw [h.orderly.contains_iff, h.hasKey_iff]

lemma entries_eq : (table.toList.map fun (k, v) => (⟨k, v⟩ : Sigma fun _ : κ => ν) : Multiset _) =
    content.entries := by
  have hkeys := h.orderly.nodup_keys
  rw [Multiset.Nodup.ext _ content.nodup_entries]
  · rintro ⟨k, v⟩
    rw [← Finmap.lookup_eq_some_iff, ← h.holds_iff, ← mem_toList]
    simp
  · rw [Multiset.coe_nodup]
    apply List.Nodup.of_map Sigma.fst
    rw [List.map_map]
    exact hkeys

lemma size_eq : table.size = content.keys.card := by
  rw [← h.orderly.length_toList]
  have := congrArg Multiset.card h.entries_eq
  simpa [Finmap.keys, Multiset.keys] using this

omit h in
lemma empty : (Table.empty : Table hash ν).Represents ∅ where
  orderly := orderly_empty
  holds_iff := by
    intro k v
    simp only [Finmap.lookup_empty, reduceCtorEq, iff_false]
    exact fun hv => not_hasKey_empty k ⟨v, hv⟩

omit h in
lemma clear (table : Table hash ν) : table.clear.Represents ∅ where
  orderly := orderly_clear table
  holds_iff := by
    intro k v
    simp only [Finmap.lookup_empty, reduceCtorEq, iff_false]
    exact fun hv => not_hasKey_clear table k ⟨v, hv⟩

lemma insert [Footprint (Slot κ ν)] (key : κ) (value : ν) :
    Charged.Pays (table.insert key value) fun (found, after) => found = content.lookup key ∧
      after.Represents (if key ∈ content then content else content.insert key value) := by
  unfold Table.insert
  apply (insertAt_pays h.orderly key value).bind
  rintro ⟨found, after⟩ ⟨hao, hholds, hnone, hsome⟩
  apply Charged.pays_pure
  simp only [h.hasKey_iff] at hholds hnone
  by_cases hk : key ∈ content
  · rw [if_pos hk]
    have hsame : after.Represents content := ⟨hao, by simp [hholds, hk, h.holds_iff]⟩
    refine ⟨?_, hsame⟩
    cases found with
    | none => exact absurd hk (hnone.mp rfl)
    | some i =>
      obtain ⟨v, d, hs⟩ := hsome i rfl
      have hv : after.Holds key v := ⟨i, d, hs⟩
      rw [hsame.holds_iff] at hv
      simp [valueAt, hs, hv]
  · rw [if_neg hk, hnone.mpr hk, Finmap.lookup_eq_none.mpr hk]
    refine ⟨rfl, hao, ?_⟩
    intro k v
    rw [hholds, h.holds_iff]
    by_cases hkk : k = key
    · subst hkk
      simp [Finmap.lookup_eq_none.mpr hk, hk, eq_comm]
    · simp [hkk, Finmap.lookup_insert_of_ne _ hkk]

lemma replace (key : κ) (value : ν) : (table.replace key value).1 = content.lookup key ∧
    (table.replace key value).2.Represents
      (if key ∈ content then content.insert key value else content) := by
  unfold Table.replace
  by_cases hk : key ∈ content
  · obtain ⟨old, i, d, hs⟩ := h.hasKey_iff.mpr hk
    have hfind := h.orderly.find?_eq_some_iff.mpr ⟨old, d, hs⟩
    have hold : content.lookup key = some old := h.holds_iff.mp ⟨i, d, hs⟩
    simp only [hfind, hs, hold, if_pos hk, true_and]
    refine ⟨h.orderly.overwrite hs, ?_⟩
    intro k v
    change (table.store i key value d).Holds k v ↔ _
    rw [h.orderly.holds_overwrite hs]
    by_cases hkk : k = key
    · rw [if_pos hkk, hkk, Finmap.lookup_insert, Option.some.injEq, eq_comm]
    · rw [if_neg hkk, Finmap.lookup_insert_of_ne _ hkk, h.holds_iff]
  · have hfind : table.find? key = none := by
      rw [Option.eq_none_iff_forall_ne_some]
      intro i hi
      obtain ⟨v, d, hs⟩ := h.orderly.find?_eq_some_iff.mp hi
      exact hk (h.hasKey_iff.mp ⟨v, i, d, hs⟩)
    simp only [hfind, Finmap.lookup_eq_none.mpr hk, if_neg hk, true_and]
    exact h

end Represents

/-! ## Requests -/

/-- What a table can be asked. -/
inductive Request (κ ν : Type) where
  /-- To add an entry unless its key has one. -/
  | insert (key : κ) (value : ν)
  | get (key : κ)
  /-- To overwrite the value under a key that has one. -/
  | replace (key : κ) (value : ν)
  | contains (key : κ)
  | entries
  | size
  | clear

inductive Reply (κ ν : Type) where
  | value (value : Option ν)
  | presence (present : Bool)
  | entries (entries : List (κ × ν))
  | size (size : Nat)
  | done

def answer [Footprint (Slot κ ν)] (table : Table hash ν) :
    Request κ ν → Charged (Reply κ ν × Table hash ν)
  | .insert key value => do
    let (found, table) ← table.insert key value
    return (.value found, table)
  | .get key => return (.value (table.get? key), table)
  | .replace key value => return (.value (table.replace key value).1, (table.replace key value).2)
  | .contains key => return (.presence (table.contains key), table)
  | .entries => return (.entries table.toList, table)
  | .size => return (.size table.size, table)
  | .clear => return (.done, table.clear)

/-- How a finite map answers: the first value inserted under a key stays until it is replaced. -/
def finiteMap : Specification (Finmap fun _ : κ => ν) (Request κ ν) (Reply κ ν) where
  next content
    | .insert key value => if key ∈ content then content else content.insert key value
    | .replace key value => if key ∈ content then content.insert key value else content
    | .clear => ∅
    | .get _ | .contains _ | .entries | .size => content
  Admits content
    | .insert key _, .value found => found = content.lookup key
    | .get key, .value found => found = content.lookup key
    | .replace key _, .value old => old = content.lookup key
    | .contains key, .presence present => present = true ↔ key ∈ content
    | .entries, .entries entries =>
      (entries.map fun (key, value) => (⟨key, value⟩ : Sigma fun _ : κ => ν) : Multiset _) =
        content.entries
    | .size, .size size => size = content.keys.card
    | .clear, .done => True
    | _, _ => False

lemma Represents.answer [Footprint (Slot κ ν)] (h : table.Represents content)
    (request : Request κ ν) : Charged.Pays (table.answer request) fun (reply, after) =>
      finiteMap.Admits content request reply ∧ after.Represents (finiteMap.next content request) := by
  cases request with
  | insert key value =>
    exact (h.insert key value).bind fun _ hins => Charged.pays_pure hins
  | get key => exact Charged.pays_pure ⟨h.get? key, h⟩
  | replace key value => exact Charged.pays_pure (h.replace key value)
  | contains key => exact Charged.pays_pure ⟨h.contains_iff, h⟩
  | entries => exact Charged.pays_pure ⟨h.entries_eq, h⟩
  | size => exact Charged.pays_pure ⟨h.size_eq, h⟩
  | clear => exact Charged.pays_pure ⟨trivial, Represents.clear table⟩

end Table

namespace KeySet

variable {set : KeySet hash} {members : Finset κ} {key : κ} [DecidableEq κ]

/-- The table is orderly and its keys are the members of a finite set. -/
structure Represents (set : KeySet hash) (members : Finset κ) : Prop where
  orderly : set.Orderly
  hasKey_iff : ∀ {k}, set.HasKey k ↔ k ∈ members

namespace Represents

omit [DecidableEq κ] in
lemma empty : KeySet.Represents (Table.empty : KeySet hash) ∅ where
  orderly := Table.orderly_empty
  hasKey_iff := by simp [Table.not_hasKey_empty]

omit [DecidableEq κ] in
lemma clear (set : KeySet hash) : KeySet.Represents set.clear ∅ where
  orderly := Table.orderly_clear set
  hasKey_iff := by simp [Table.not_hasKey_clear]

variable (h : KeySet.Represents set members)
include h

omit [DecidableEq κ] in
lemma keys_eq : (KeySet.keys set : Multiset κ) = members.val := by
  unfold KeySet.keys
  rw [Multiset.Nodup.ext (Multiset.coe_nodup.mpr h.orderly.nodup_keys) members.nodup]
  intro k
  change k ∈ set.toList.map Prod.fst ↔ k ∈ members
  rw [← h.hasKey_iff, List.mem_map]
  constructor
  · rintro ⟨⟨key, value⟩, hmem, rfl⟩
    exact ⟨value, Table.mem_toList.mp hmem⟩
  · rintro ⟨value, hv⟩
    exact ⟨(k, value), Table.mem_toList.mpr hv, rfl⟩

omit [DecidableEq κ] in
lemma size_eq : set.size = members.card := by
  rw [← h.orderly.length_toList, ← List.length_map Prod.fst, Finset.card_def, ← h.keys_eq]
  rfl

lemma insert [Footprint (Slot κ Unit)] (key : κ) :
    Charged.Pays (KeySet.insert set key) fun (known, after) =>
      known = (if key ∈ members then some key else none) ∧
        KeySet.Represents after (Insert.insert key members) := by
  apply (insert_pays h.orderly key).mono
  rintro ⟨known, after⟩ ⟨hao, hkeys, hnone, hsome⟩
  rw [h.hasKey_iff] at hnone
  refine ⟨?_, hao, ?_⟩
  · by_cases hk : key ∈ members
    · rw [if_pos hk]
      cases known with
      | none => exact absurd hk (hnone.mp rfl)
      | some k => rw [hsome k rfl]
    · rw [if_neg hk]
      exact hnone.mpr hk
  · intro k
    rw [hkeys, h.hasKey_iff, Finset.mem_insert, or_comm]

end Represents

/-- What a set of keys can be asked. -/
inductive Request (κ : Type) where
  | insert (key : κ)
  | contains (key : κ)
  | keys
  | size
  | clear

inductive Reply (κ : Type) where
  | known (key : Option κ)
  | presence (present : Bool)
  | keys (keys : List κ)
  | size (size : Nat)
  | done

def answer [Footprint (Slot κ Unit)] (set : KeySet hash) :
    Request κ → Charged (Reply κ × KeySet hash)
  | .insert key => do
    let (known, set) ← KeySet.insert set key
    return (.known known, set)
  | .contains key => return (.presence (set.contains key), set)
  | .keys => return (.keys (KeySet.keys set), set)
  | .size => return (.size set.size, set)
  | .clear => return (.done, set.clear)

/-- How a finite set answers. -/
def finiteSet : Specification (Finset κ) (Request κ) (Reply κ) where
  next members
    | .insert key => Insert.insert key members
    | .clear => ∅
    | .contains _ | .keys | .size => members
  Admits members
    | .insert key, .known known => known = if key ∈ members then some key else none
    | .contains key, .presence present => present = true ↔ key ∈ members
    | .keys, .keys keys => (keys : Multiset κ) = members.val
    | .size, .size size => size = members.card
    | .clear, .done => True
    | _, _ => False

lemma Represents.answer [Footprint (Slot κ Unit)] (h : KeySet.Represents set members)
    (request : Request κ) : Charged.Pays (KeySet.answer set request) fun (reply, after) =>
      finiteSet.Admits members request reply ∧
        KeySet.Represents after (finiteSet.next members request) := by
  cases request with
  | insert key =>
    exact (h.insert key).bind fun _ hins => Charged.pays_pure hins
  | contains key =>
    exact Charged.pays_pure ⟨h.orderly.contains_iff.trans h.hasKey_iff, h⟩
  | keys => exact Charged.pays_pure ⟨h.keys_eq, h⟩
  | size => exact Charged.pays_pure ⟨h.size_eq, h⟩
  | clear => exact Charged.pays_pure ⟨trivial, Represents.clear set⟩

end KeySet

/-- Whatever the hash, a table answers commands as a finite map in which the first value inserted
under a key stays, and a set of keys answers as a finite set. The only fault is an exhausted arena. -/
theorem tables_refine_finite_maps (κ ν : Type) [DecidableEq κ] (hash : κ → UInt64) :
    (∀ [Footprint (Slot κ ν)] (commands : List (Versions.Command (Table.Request κ ν))),
      Charged.Pays (Versions.obeyAll Table.answer { current := (Table.empty : Table hash ν) } commands)
        fun (replies, _) => Table.finiteMap.AdmitsAll { current := ∅ } commands replies) ∧
    (∀ [Footprint (Slot κ Unit)] (commands : List (Versions.Command (KeySet.Request κ))),
      Charged.Pays
        (Versions.obeyAll KeySet.answer { current := (Table.empty : KeySet hash) } commands)
        fun (replies, _) => KeySet.finiteSet.AdmitsAll { current := ∅ } commands replies) := by
  constructor
  · intro _ commands
    exact (Versions.Represents.start Table.Represents.empty).obeyAll_pays
      (fun _ _ request h => h.answer request) commands
  · intro _ commands
    exact (Versions.Represents.start KeySet.Represents.empty).obeyAll_pays
      (fun _ _ request h => h.answer request) commands

end PatternAutomata
