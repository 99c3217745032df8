/-!
# Rolling weak checksums

Model of `WeakChecksum`: `substitution_table`, `compute` and `roll`.

Each byte is mapped through a table of 256 words drawn from a seed, and the words of a window are
folded into two sums: `low` is the sum of the words, `high` the sum of the running `low` sums. They
are formed in 32 bits, where they may wrap, and their low halves side by side are the hash of the
window. Two checksums with different seeds hash the same window independently.

When the window slides by one byte, both sums follow from the byte that leaves and the byte that
enters, without another look at the window (`Checksum.roll`).
-/

namespace BinaryDelta

/-- The step between the states of the table generator. -/
def tableStep : UInt64 := 0x9e3779b97f4a7c15

/-- Scrambles a generator state. -/
def scramble (state : UInt64) : UInt64 :=
  let z := (state ^^^ (state >>> 30)) * 0xbf58476d1ce4e5b9
  let z := (z ^^^ (z >>> 27)) * 0x94d049bb133111eb
  z ^^^ (z >>> 31)

/-- A weak checksum: a seed and the table drawn from it. -/
structure Checksum where
  seed : UInt64
  table : Vector UInt16 256
  deriving DecidableEq

namespace Checksum

/-- Seed of the first index of a block table. -/
def primarySeed : UInt64 := 0x9e3779b97f4a7c15

/-- Seed of the second index of a block table. -/
def secondarySeed : UInt64 := 0xd1b54a32d192ed03

/-- The checksum of a seed: word `i` of the table is the top of the scrambled state `i + 1`. -/
def ofSeed (seed : UInt64) : Checksum where
  seed
  table := Vector.ofFn fun i =>
    (scramble (seed + tableStep * (UInt64.ofNat i.val + 1)) >>> 48).toUInt16

/-- The word of a byte. -/
def word (c : Checksum) (byte : UInt8) : UInt16 :=
  have h : byte.toNat < 256 := byte.toNat_lt
  c.table[byte.toNat]

/-- The low half of a word. -/
def lowHalf (x : UInt32) : UInt32 := x &&& 0xffff

/-- The low halves of the two sums side by side. -/
def join (low high : UInt32) : UInt32 := (lowHalf high <<< 16) ||| lowHalf low

/-- The low sum of a hash. -/
def lowOf (hash : UInt32) : UInt32 := lowHalf hash

/-- The high sum of a hash. -/
def highOf (hash : UInt32) : UInt32 := hash >>> 16

/-- Adds the next `count` bytes from `start` to the sums `low` and `high`. -/
def hashFrom (c : Checksum) (bytes : ByteArray) (low high : UInt32) (start : Nat) : Nat → UInt32
  | 0 => join low high
  | count + 1 =>
    if h : start < bytes.size then
      let low := low + (c.word bytes[start]).toUInt32
      c.hashFrom bytes low (high + low) (start + 1) count
    else join low high

/-- The hash of the `count` bytes from `start`, as far as they exist. -/
def hashRange (c : Checksum) (bytes : ByteArray) (start count : Nat) : UInt32 :=
  c.hashFrom bytes 0 0 start count

/-- The hash of a window. -/
def hash (c : Checksum) (window : ByteArray) : UInt32 :=
  c.hashRange window 0 window.size

/-- The hash after the window of `width` bytes has slid by one: `outgoing` left at the front and
`incoming` entered at the back. -/
def roll (c : Checksum) (hash : UInt32) (outgoing incoming : UInt8) (width : Nat) : UInt32 :=
  let old := (c.word outgoing).toUInt32
  let low := lowHalf (lowOf hash - old + (c.word incoming).toUInt32)
  join low (highOf hash - old * UInt32.ofNat width + low)

end Checksum

end BinaryDelta
