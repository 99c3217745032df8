import BinaryDelta.Instruction

/-!
# Collecting instructions

Model of `InstructionCollector`.

A collector keeps the instructions in memory. Literal bytes that follow each other become one
literal, however they were cut, so a collector holds the coalesced form of what it was given.
-/

namespace BinaryDelta

/-- The instructions added so far. -/
structure Collector where
  instructions : Array Instruction := #[]
  closed : Bool := false

namespace Collector

/-- Appends bytes to a literal. -/
def extendLiteral (bytes : ByteArray) : Instruction → Instruction
  | .literal run => .literal (run ++ bytes)
  | .copy offset length => .copy offset length

/-- Is the last instruction a literal? -/
def endsInLiteral (instructions : Array Instruction) : Bool :=
  match instructions.back? with
  | some (.literal _) => true
  | _ => false

/-- Appends a copy. -/
def addCopy : Collector → Nat → Nat → Collector
  | ⟨instructions, closed⟩, offset, length => ⟨instructions.push (.copy offset length), closed⟩

/-- Appends literal bytes, to the last literal if there is nothing behind it. -/
def addLiteral : Collector → ByteArray → Collector
  | ⟨instructions, closed⟩, bytes =>
    if bytes.size = 0 then ⟨instructions, closed⟩
    else if endsInLiteral instructions then
      ⟨instructions.modify (instructions.size - 1) (extendLiteral bytes), closed⟩
    else ⟨instructions.push (.literal bytes), closed⟩

/-- The number of bytes that the instructions append. -/
def outputLength (c : Collector) : Nat :=
  c.instructions.foldl (fun n i => n + i.outputLength) 0

instance : InstructionSink Collector where
  addCopy c offset length := (.ok (), c.addCopy offset length)
  addByte c byte := (.ok (), c.addLiteral (ByteArray.empty.push byte))
  addLiteral c bytes := (.ok (), c.addLiteral bytes)
  flush c := (.ok (), c)
  close c := (.ok (), { c with closed := true })

end Collector

end BinaryDelta
