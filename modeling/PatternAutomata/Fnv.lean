import PatternAutomata.NodeId

/-!
# FNV-1a fingerprints

The 64-bit FNV-1a hash of a sequence of bytes, and the bytes by which a key is known to it.
-/

namespace PatternAutomata

namespace Fnv

/-- The multiplier of the 64-bit variant. -/
def prime : UInt64 := 1099511628211

/-- The hash of no bytes. -/
def basis : UInt64 := 14695981039346656037

/-- Takes one more byte into a hash. -/
def step (hash : UInt64) (byte : UInt8) : UInt64 := (hash ^^^ byte.toUInt64) * prime

/-- Takes more bytes into a hash. -/
def extend (hash : UInt64) (bytes : List UInt8) : UInt64 := bytes.foldl step hash

def hash (bytes : List UInt8) : UInt64 := extend basis bytes

end Fnv

/-- The lowest `count` bytes of a number, the lowest first. -/
def littleEndian : Nat → Nat → List UInt8
  | 0, _ => []
  | count + 1, n => n.toUInt8 :: littleEndian count (n / 256)

/-- Keys with a byte sequence to be hashed by. -/
class Fingerprint (κ : Type) where
  bytes : κ → List UInt8

instance : Fingerprint UInt8 := ⟨fun byte => [byte]⟩
instance : Fingerprint UInt32 := ⟨fun word => littleEndian 4 word.toNat⟩
instance : Fingerprint UInt64 := ⟨fun word => littleEndian 8 word.toNat⟩
instance : Fingerprint NodeId := ⟨fun id => littleEndian 4 id.toNat⟩

/-- A text is known by its UTF-8 bytes and a byte that occurs in no such text. -/
instance : Fingerprint String := ⟨fun text => text.toUTF8.toList ++ [255]⟩

instance {κ μ : Type} [Fingerprint κ] [Fingerprint μ] : Fingerprint (κ × μ) :=
  ⟨fun key => Fingerprint.bytes key.1 ++ Fingerprint.bytes key.2⟩

/-- The FNV-1a hash of a key. -/
def Fnv.ofKey {κ : Type} [Fingerprint κ] (key : κ) : UInt64 := Fnv.hash (Fingerprint.bytes key)

end PatternAutomata
