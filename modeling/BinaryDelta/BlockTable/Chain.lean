/-!
# Chains of block offsets

Model of `Chain`, and of the search in it by which `contains` decides.

The blocks that share a hash form a chain, in the order in which they were recorded. Membership is
decided by a halving search, which is exact on ascending chains. On a chain that is not ascending it
may miss a member, and it always answers the same.
-/

namespace BinaryDelta

/-- The offsets of the blocks that share a hash, in the order of recording. -/
abbrev Chain := Array Nat

namespace Chain

/-- Halves the `size` places from `base` until one is left: it keeps the upper part unless the
middle offset is beyond the one searched for. -/
def narrow (chain : Chain) (offset base size : Nat) : Nat :=
  if size ≤ 1 then base
  else
    let half := size / 2
    let base := if offset < chain.getD (base + half) 0 then base else base + half
    chain.narrow offset base (size - half)
termination_by size

/-- Is the offset found in the chain? -/
def holds (chain : Chain) (offset : Nat) : Bool :=
  chain[chain.narrow offset 0 chain.size]? == some offset

/-- The chain with one more offset, unless it has reached its limit. -/
def extend (limit : Option Nat) (offset : Nat) (chain : Chain) : Chain :=
  match limit with
  | none => chain.push offset
  | some limit => if limit ≤ chain.size then chain else chain.push offset

end Chain

end BinaryDelta
