import PatternAutomata.Arena

/-!
# Growable buffers that pay for their room

A buffer is a sequence of elements together with the number of elements it has paid for. A buffer
that needs more room grows along one chain of capacities, `0, 8, 20, 38, 65, …`, until the room
suffices, and is then charged whole: what its smaller predecessors were charged stays spent.
Shrinking never gives room back.
-/

namespace PatternAutomata

/-- A sequence of elements and the room paid for. -/
structure Buffer (α : Type) where
  data : Array α := #[]
  /-- The number of elements the buffer can hold before it must grow. -/
  capacity : UInt64 := 0

namespace Buffer

variable {α : Type}

def empty : Buffer α := {}

def size (buffer : Buffer α) : Nat := buffer.data.size

def toList (buffer : Buffer α) : List α := buffer.data.toList

/-- The sum of two words, unless it is too large. -/
def checkedSum (left right : UInt64) : Except Fault UInt64 :=
  if left.toNat + right.toNat < UInt64.size then .ok (left + right) else .error .sumOverflow

/-- The difference of two words, unless it is negative. -/
def checkedDifference (left right : UInt64) : Except Fault UInt64 :=
  if right ≤ left then .ok (left - right) else .error .differenceOverflow

/-- The capacity after a given one: half as much again and eight more. Doubling drops the highest
bit without notice; the difference and the sum are checked. -/
def nextCapacity (capacity : UInt64) : Except Fault UInt64 := do
  checkedSum (← checkedDifference (capacity <<< 1) (capacity >>> 1)) 8

/-- The first capacity from the given one on that suffices, within a number of steps. -/
def sufficientCapacity (need : UInt64) : Nat → UInt64 → Except Fault UInt64
  | 0, _ => .error .endless
  | steps + 1, capacity =>
    if need ≤ capacity then .ok capacity
    else do sufficientCapacity need steps (← nextCapacity capacity)

/-- The most bytes that one buffer may take. -/
def greatestBytes : Nat := 9223372036854775807

/-- The capacity of a buffer once it has room for `need` elements. Room that is not there yet is
charged; no chain of distinct capacities is longer than the number of words. -/
def makeRoom [Footprint α] (buffer : Buffer α) (need : UInt64) : Charged UInt64 := do
  if need ≤ buffer.capacity then return buffer.capacity
  let capacity ← sufficientCapacity need UInt64.size buffer.capacity
  charge α capacity
  if greatestBytes < (Footprint.bytes α).toNat * capacity.toNat then throw .bufferTooLarge
  return capacity

/-- Makes room for `need` elements in all. -/
def reserve [Footprint α] (buffer : Buffer α) (need : UInt64) : Charged (Buffer α) := do
  let capacity ← buffer.makeRoom need
  return { buffer with capacity }

/-- Appends an element to a buffer whose capacity has become `capacity`. -/
def append (buffer : Buffer α) (capacity : UInt64) (value : α) : Buffer α :=
  ⟨buffer.data.push value, capacity⟩

/-- The number of elements after one more has been appended. -/
def sizeAfterPush (buffer : Buffer α) : UInt64 := buffer.size.toUInt64 + 1

def push [Footprint α] (buffer : Buffer α) (value : α) : Charged (Buffer α) := do
  let capacity ← buffer.makeRoom buffer.sizeAfterPush
  return buffer.append capacity value

def pop (buffer : Buffer α) : Option α × Buffer α :=
  (buffer.data.back?, { buffer with data := buffer.data.pop })

def get? (buffer : Buffer α) (position : Nat) : Option α := buffer.data[position]?

/-- The element at a position that should have one. -/
def fetch (buffer : Buffer α) (position : Nat) : Except Fault α :=
  match buffer.data[position]? with
  | some value => .ok value
  | none => .error .outOfBounds

def front? (buffer : Buffer α) : Option α := buffer.data[0]?

def back? (buffer : Buffer α) : Option α := buffer.data.back?

def set (buffer : Buffer α) (position : Nat) (value : α) : Buffer α :=
  { buffer with data := buffer.data.setIfInBounds position value }

/-- Puts an element at the last position, if there is one. -/
def setBack (buffer : Buffer α) (value : α) : Buffer α := buffer.set (buffer.size - 1) value

/-- Changes the element at a position, if there is one. -/
@[inline] def modify (buffer : Buffer α) (position : Nat) (f : α → α) : Buffer α :=
  { buffer with data := buffer.data.modify position f }

/-- Changes every element and keeps the room. -/
@[inline] def mapInPlace (buffer : Buffer α) (f : α → α) : Buffer α :=
  { buffer with data := buffer.data.map f }

/-- Takes out the element at a position and moves the last element into its place. -/
def swapRemove (buffer : Buffer α) (position : Nat) : Except Fault (α × Buffer α) :=
  if h : position < buffer.data.size then
    .ok (buffer.data[position],
      { buffer with data := (buffer.data.swap position (buffer.data.size - 1)).pop })
  else .error .outOfBounds

def clear (buffer : Buffer α) : Buffer α := { buffer with data := #[] }

/-- Takes out the elements that fail a test; the others keep their order. -/
@[inline] def retain (buffer : Buffer α) (test : α → Bool) : Buffer α :=
  { buffer with data := buffer.data.filter test }

def reverse (buffer : Buffer α) : Buffer α := { buffer with data := buffer.data.reverse }

def sort (buffer : Buffer α) (le : α → α → Bool) : Buffer α :=
  { buffer with data := (buffer.data.toList.mergeSort le).toArray }

/-- A buffer that has room for given elements from the start. -/
def ofList [Footprint α] (values : List α) : Charged (Buffer α) := do
  let buffer ← (empty : Buffer α).reserve values.length.toUInt64
  return { buffer with data := values.toArray }

end Buffer

end PatternAutomata
