import BinaryDelta.Stream.Reader

/-!
# Reading to the end

How much a reader has left is not known beforehand, so what it delivers goes into a buffer that
grows. The first call is a small probe, since many readers have nothing left, and a buffer that has
no room for another probe is doubled. `readToEnd` then asks for as much as the buffer has room for,
up to a limit, and where the answer is shorter for the rest of that.
-/

namespace BinaryDelta

namespace ByteReader

/-- The size of the first read, and the least room to be had. -/
def probeSize : Nat := 32

/-- The most bytes asked for at a time, until a read as large as that has been answered in full. -/
def firstLimit : Nat := 8192

/-- The room of a buffer that holds `size` bytes, after it has been made larger if it had too little
room left. -/
def grown (capacity size : Nat) : Nat :=
  if capacity - size < probeSize then max (2 * capacity) (size + probeSize) else capacity

variable {ρ : Type} [ByteReader ρ]

/-- How much to ask for where `missing` bytes of the last answer are still to come: those, unless
they are no more than a probe, and else as much as there is room for. -/
def request (missing room limit : Nat) : Nat :=
  if missing ≤ probeSize then min room limit else missing

/-- Reads on behind `acc`, which is in a buffer with room for `capacity` bytes, until the reader
ends. -/
def readToEndAfter (acc : ByteArray) (capacity missing limit : Nat) (r : ρ) :
    Except Fault ByteArray × ρ :=
  let capacity := grown capacity acc.size
  let n := request missing (capacity - acc.size) limit
  match _h : readSome r n with
  | (.error fault, r') => (.error fault, r')
  | (.ok bytes, r') =>
    if bytes.size = 0 then (.ok acc, r')
    else
      let limit := if limit ≤ n ∧ bytes.size = n then 2 * limit else limit
      readToEndAfter (acc ++ bytes) capacity (n - bytes.size) limit r'
termination_by remaining r
decreasing_by
  have := remaining_of_readSome _h
  omega

/-- Reads until the reader ends. Bytes read before a fault are lost. -/
def readToEnd (r : ρ) : Except Fault ByteArray × ρ :=
  match readSome r probeSize with
  | (.error fault, r) => (.error fault, r)
  | (.ok bytes, r) =>
    if bytes.size = 0 then (.ok bytes, r)
    else readToEndAfter bytes (max 8 bytes.size) 0 firstLimit r

end ByteReader

end BinaryDelta
