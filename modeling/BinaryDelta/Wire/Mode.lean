import BinaryDelta.BigEndian

/-!
# Modes and the preamble

Model of `Mode`, `write_header` and `read_header`.

A stream opens with four magic bytes and a version byte, which names its mode. In normal mode copy
offsets are absolute, in differential mode they are signed distances from the previous copy.
-/

namespace BinaryDelta

/-- How copy offsets are stored. -/
inductive Mode where
  | normal
  | differential
  deriving Repr, DecidableEq

namespace Mode

/-- The version byte of the preamble. -/
def flag : Mode → UInt8
  | normal => 4
  | differential => 5

/-- The mode of a version byte. -/
def ofFlag? (flag : UInt8) : Option Mode :=
  if flag = 4 then some normal else if flag = 5 then some differential else none

@[simp] theorem ofFlag?_flag (mode : Mode) : ofFlag? mode.flag = some mode := by
  cases mode <;> rfl

/-- The longest literal whose length is its opcode. -/
def literalMax : Mode → Nat
  | normal => 246
  | differential => 243

end Mode

/-- The bytes every stream opens with. -/
def magic : List UInt8 := [0xd1, 0xff, 0xd1, 0xff]

/-- The length of the preamble. -/
def preambleLength : Nat := 5

/-- The preamble of a stream. -/
def preamble (mode : Mode) : List UInt8 := magic ++ [mode.flag]

/-- The mode of a preamble. -/
def modeOfPreamble? (bytes : List UInt8) : Option Mode :=
  if bytes.take 4 = magic then bytes[4]?.bind Mode.ofFlag? else none

@[simp] theorem modeOfPreamble?_preamble (mode : Mode) :
    modeOfPreamble? (preamble mode) = some mode := by
  cases mode <;> rfl

/-- Reads the preamble. A stream too short for it has none. -/
def readPreamble {ρ : Type} [ByteReader ρ] (r : ρ) : Except DeltaError Mode × ρ :=
  match ByteReader.readExact r preambleLength with
  | (.error .ended, r) => (.error .invalidMagic, r)
  | (.error (.fault fault), r) => (.error (.io fault), r)
  | (.ok bytes, r) =>
    match modeOfPreamble? bytes.data.toList with
    | none => (.error .invalidMagic, r)
    | some mode => (.ok mode, r)

end BinaryDelta
