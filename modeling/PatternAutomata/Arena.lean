import PatternAutomata.Fault

/-!
# A byte budget with a fixed ceiling

Every container charges its buffers against an arena. An arena hands out consecutive blocks, each
rounded up to a whole number of eight-byte words, and takes nothing back. Byte counts are 64-bit
words; a request whose size does not fit a word does not fit the arena either.
-/

namespace PatternAutomata

/-- A fixed number of bytes, handed out from the front. -/
structure Arena where
  capacity : UInt64
  /-- Bytes handed out so far, padding included. -/
  used : UInt64 := 0
  /-- Bytes asked for so far, without padding. -/
  requested : UInt64 := 0
deriving DecidableEq

/-- A run of bytes handed out by an arena. -/
structure Block where
  offset : UInt64
  /-- The number of bytes, padding included. -/
  size : UInt64
deriving DecidableEq

def Block.stop (block : Block) : UInt64 := block.offset + block.size

/-- A byte count rounded up to whole words of eight bytes. -/
def wholeWords (bytes : UInt64) : UInt64 := (bytes + 7) / 8 * 8

namespace Arena

/-- The capacity of an arena for which none was chosen: 1 MiB. -/
def defaultCapacity : UInt64 := 1048576

def remaining (arena : Arena) : UInt64 := arena.capacity - arena.used

/-- The product of an element size and a count, if it is a word. -/
def product? (bytes count : UInt64) : Option UInt64 :=
  if bytes.toNat * count.toNat < UInt64.size then some (bytes * count) else none

/-- A byte count rounded up to whole words of eight bytes, if the result is a word. -/
def roundUp? (bytes : UInt64) : Option UInt64 :=
  if bytes.toNat + 7 < UInt64.size then some (wholeWords bytes) else none

/-- Hands out a block for `count` elements of `bytes` bytes each. -/
def alloc (arena : Arena) (bytes count : UInt64) : Except Fault (Block × Arena) :=
  match product? bytes count with
  | none => .error (.arenaExhausted arena.capacity)
  | some requested =>
    match roundUp? requested with
    | none => .error (.arenaExhausted arena.capacity)
    | some size =>
      if arena.remaining < size then .error (.arenaExhausted arena.capacity)
      else .ok (⟨arena.used, size⟩,
        { arena with used := arena.used + size, requested := arena.requested + requested })

/-- What an arena has been used for, in one line. -/
def summary (arena : Arena) : String :=
  s!"arena: {arena.requested} bytes requested, {arena.used} bytes used, {arena.capacity} bytes capacity"

end Arena

/-- The bytes that one element of a container takes in the arena. -/
class Footprint (α : Type) where
  bytes : UInt64

instance : Footprint UInt8 := ⟨1⟩
instance : Footprint UInt32 := ⟨4⟩
instance : Footprint Int64 := ⟨8⟩
instance : Footprint NodeId := ⟨4⟩
instance : Footprint (Option NodeId) := ⟨8⟩
instance : Footprint (NodeId × Nat) := ⟨16⟩

/-- A computation that charges an arena and may end in a fault. -/
abbrev Charged := StateT Arena (Except Fault)

/-- Charges the arena for `count` elements of type `α`. -/
def charge (α : Type) [Footprint α] (count : UInt64) : Charged Unit := do
  let (_, arena) ← (← get).alloc (Footprint.bytes α) count
  set arena

end PatternAutomata
