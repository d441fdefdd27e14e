import PatternAutomata.Buffer
import PatternAutomata.Fnv

/-!
# Tables of keys in Robin Hood order

A table keeps its entries in a ring of slots. An entry starts at its key's home slot and walks
forward; whenever it has walked farther than the entry it meets, it takes that entry's slot and the
other entry walks on. Each slot records how far its entry has walked, counting from one, and the
table records the farthest walk, so that a search can stop there. A table never holds more entries
than half its slots: it doubles first, from eight slots on, and is charged whole for each new ring.
-/

namespace PatternAutomata

/-- A place in the ring of a table. -/
inductive Slot (κ ν : Type) where
  /-- A place without an entry. -/
  | vacant
  /-- An entry, and one more than its distance from its key's home slot. -/
  | occupied (key : κ) (value : ν) (distance : Nat)

instance : Footprint (Slot UInt32 Int64) := ⟨32⟩
instance : Footprint (Slot UInt64 Int64) := ⟨32⟩
instance : Footprint (Slot NodeId Int64) := ⟨32⟩
instance : Footprint (Slot (UInt8 × NodeId) Int64) := ⟨32⟩
instance : Footprint (Slot String Int64) := ⟨40⟩
instance : Footprint (Slot UInt32 Unit) := ⟨12⟩
instance : Footprint (Slot UInt64 Unit) := ⟨24⟩
instance : Footprint (Slot NodeId Unit) := ⟨12⟩
instance : Footprint (Slot (UInt8 × NodeId) Unit) := ⟨16⟩
instance : Footprint (Slot String Unit) := ⟨32⟩

/-- Values under distinct keys, placed by a hash of the keys. -/
structure Table {κ : Type} (hash : κ → UInt64) (ν : Type) where
  slots : Array (Slot κ ν) := #[]
  size : Nat := 0
  /-- The farthest walk recorded since the ring was last renewed. -/
  reach : Nat := 0

namespace Table

variable {κ ν : Type} {hash : κ → UInt64}

def empty : Table hash ν := {}

def capacity (table : Table hash ν) : Nat := table.slots.size

/-- The slot at an index; there is nothing beyond the ring. -/
def slot (table : Table hash ν) (index : Nat) : Slot κ ν := table.slots[index]?.getD .vacant

/-- The index that follows around the ring. -/
def next (table : Table hash ν) (index : Nat) : Nat := (index + 1) % table.capacity

/-- The index at which a key's walk starts. -/
def home (table : Table hash ν) (key : κ) : Nat := (hash key).toNat % table.capacity

/-- Every entry in the order of the slots. -/
def toList (table : Table hash ν) : List (κ × ν) :=
  table.slots.toList.filterMap fun
    | .vacant => none
    | .occupied key value _ => some (key, value)

/-- Takes out every entry and keeps the ring. -/
def clear (table : Table hash ν) : Table hash ν :=
  { slots := Array.replicate table.capacity .vacant }

/-- A table without entries whose ring is charged for. -/
def withSlots [Footprint (Slot κ ν)] (capacity : Nat) : Charged (Table hash ν) := do
  charge (Slot κ ν) capacity.toUInt64
  return { slots := Array.replicate capacity .vacant }

variable [DecidableEq κ]

/-- The index of a key's entry among the next `steps` slots. -/
def findFrom (table : Table hash ν) (key : κ) : Nat → Nat → Option Nat
  | 0, _ => none
  | steps + 1, index =>
    match table.slot index with
    | .vacant => findFrom table key steps (table.next index)
    | .occupied other _ _ =>
      if other = key then some index else findFrom table key steps (table.next index)

/-- The index of a key's entry, looked for no farther than any entry has walked. -/
def find? (table : Table hash ν) (key : κ) : Option Nat :=
  table.findFrom key table.reach (table.home key)

/-- The value in the slot at an index. -/
def valueAt (table : Table hash ν) (index : Nat) : Option ν :=
  match table.slot index with
  | .vacant => none
  | .occupied _ value _ => some value

/-- The key in the slot at an index. -/
def keyAt (table : Table hash ν) (index : Nat) : Option κ :=
  match table.slot index with
  | .vacant => none
  | .occupied key _ _ => some key

def get? (table : Table hash ν) (key : κ) : Option ν := (table.find? key).bind table.valueAt

def contains (table : Table hash ν) (key : κ) : Bool := (table.find? key).isSome

/-- Overwrites the value under a key that has one, and gives the value it had. -/
def replace (table : Table hash ν) (key : κ) (value : ν) : Option ν × Table hash ν :=
  match table.find? key with
  | none => (none, table)
  | some index =>
    match table.slot index with
    | .vacant => (none, table)
    | .occupied key old distance =>
      (some old,
        { table with slots := table.slots.setIfInBounds index (.occupied key value distance) })

/-- Puts an entry into the slot at an index. -/
@[inline] def store (table : Table hash ν) (index : Nat) (key : κ) (value : ν) (distance : Nat) :
    Table hash ν :=
  { table with
    slots := table.slots.setIfInBounds index (.occupied key value distance)
    reach := max table.reach distance }

/-- Lets an entry walk for at most `steps` slots. The result has the index of the entry that
already has the key, if there is one. -/
def walk : Nat → Table hash ν → Nat → Nat → κ → ν → Except Fault (Option Nat × Table hash ν)
  | 0, _, _, _, _, _ => .error .tableFull
  | steps + 1, table, index, distance, key, value =>
    match table.slot index with
    | .vacant =>
      .ok (none, { table.store index key value distance with size := table.size + 1 })
    | .occupied other held heldDistance =>
      let after := table.next index
      if other = key then .ok (some index, table)
      else if heldDistance < distance then
        walk steps (table.store index key value distance) after (heldDistance + 1) other held
      else walk steps table after (distance + 1) key value

/-- Lets an entry walk from its key's home slot, once around the ring at most. -/
def place (table : Table hash ν) (key : κ) (value : ν) :
    Except Fault (Option Nat × Table hash ν) :=
  walk table.capacity table (table.home key) 1 key value

/-- Places the entry of a slot, if it has one. -/
def placeSlot (table : Table hash ν) : Slot κ ν → Except Fault (Table hash ν)
  | .vacant => .ok table
  | .occupied key value _ => (table.place key value).map Prod.snd

/-- The number of slots after a given one. -/
def nextCapacity (capacity : Nat) : Nat := if capacity = 0 then 8 else 2 * capacity

/-- Moves every entry, in the order of the slots, to a ring of the next size. -/
def grow [Footprint (Slot κ ν)] (table : Table hash ν) : Charged (Table hash ν) := do
  let fresh ← withSlots (nextCapacity table.capacity)
  table.slots.toList.foldlM (fun grown slot => grown.placeSlot slot) fresh

/-- Whether one more entry would fill more than half the slots. -/
def isLoaded (table : Table hash ν) : Bool := table.capacity / 2 < table.size + 1

/-- Adds an entry unless its key has one, and gives the index of the entry that has it. The ring is
renewed for one more entry before the key is looked for. -/
def insertAt [Footprint (Slot κ ν)] (table : Table hash ν) (key : κ) (value : ν) :
    Charged (Option Nat × Table hash ν) := do
  let table ← if table.isLoaded then table.grow else pure table
  table.place key value

/-- Adds an entry unless its key has one, and gives the value that the key already has. -/
def insert [Footprint (Slot κ ν)] (table : Table hash ν) (key : κ) (value : ν) :
    Charged (Option ν × Table hash ν) := do
  let (found, table) ← table.insertAt key value
  return (found.bind table.valueAt, table)

end Table

/-- A table that records only which keys are present. -/
abbrev KeySet {κ : Type} (hash : κ → UInt64) := Table hash Unit

namespace KeySet

variable {κ : Type} {hash : κ → UInt64}

def keys (set : KeySet hash) : List κ := set.toList.map Prod.fst

/-- Adds a key, and gives the equal key that is already present. -/
def insert [DecidableEq κ] [Footprint (Slot κ Unit)] (set : KeySet hash) (key : κ) :
    Charged (Option κ × KeySet hash) := do
  let (found, set) ← Table.insertAt set key ()
  return (found.bind (Table.keyAt set), set)

end KeySet

end PatternAutomata
