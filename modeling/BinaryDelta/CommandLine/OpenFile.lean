import BinaryDelta.CommandLine.Files
import BinaryDelta.Sink.PatchWriter
import BinaryDelta.Source.Overlap
import BinaryDelta.Source.Seeking
import BinaryDelta.Stream.Buffered

/-!
# Open files

An open file is read through a `FileHandle`, and written through a `FileWriter`, which gathers small
writes before they reach the file. Both may be the same file: it is emptied when it is opened for
writing, and from then on shows what has reached it. `SourceFile` is an input that is read anywhere
and catches up with that.

Results:
* `contents_write`: whatever the sizes of the writes, the contents are what was written, in order.
-/

namespace BinaryDelta.CommandLine

/-! ## Reading -/

/-- An open file, and the position of the next byte to be read. -/
structure FileHandle where
  place : Place
  file : StoredFile
  position : Nat := 0
  /-- Was a directory opened? It cannot be read. -/
  isDirectory : Bool := false
  /-- Is the file being written anew? -/
  rewritten : Bool := false

namespace FileHandle

/-- The next bytes, at most `n`. A read that begins before a hole ends with it at the latest. -/
def take (h : FileHandle) (n : Nat) : ByteArray :=
  if h.position < h.file.bytes.size then h.file.bytes.extract h.position (h.position + n)
  else zeroBytes (min n (h.file.size - h.position))

theorem size_take_le (h : FileHandle) (n : Nat) :
    (h.take n).size ≤ min n (h.file.size - h.position) := by
  unfold take StoredFile.size
  split
  · rw [ByteArray.size_extract]
    omega
  · simp

/-- One read call. -/
def read (h : FileHandle) (n : Nat) : Reply × FileHandle :=
  if h.isDirectory then (.failed (.device PathFault.isDirectory.message), h)
  else (.data (h.take n), { h with position := h.position + (h.take n).size })

/-- What a delivering call delivers, and what it leaves. -/
theorem eq_of_read_data {h h' : FileHandle} {n : Nat} {bytes : ByteArray}
    (hr : h.read n = (.data bytes, h')) :
    bytes = h.take n ∧ h' = { h with position := h.position + (h.take n).size } := by
  unfold read at hr
  split at hr
  · simp at hr
  · obtain ⟨⟨⟩, rfl⟩ := Prod.mk.inj hr
    exact ⟨rfl, rfl⟩

/-- No file interrupts a call. -/
theorem read_ne_interrupted (h h' : FileHandle) (n : Nat) : h.read n ≠ (.interrupted, h') := by
  unfold read
  split <;> simp

/-- Moves anywhere from the start of the file on. -/
def seek (h : FileHandle) (goal : SeekTo) : Moved Nat × FileHandle :=
  match goal.resolve h.file.size h.position with
  | none => (.failed (.device "Invalid argument (os error 22)"), h)
  | some position => (.reached position, { h with position })

theorem seek_ne_interrupted (h h' : FileHandle) (goal : SeekTo) :
    h.seek goal ≠ (.interrupted, h') := by
  unfold seek
  split <;> simp

instance : SeekableReader FileHandle where
  read := read
  remaining h := h.file.size - h.position
  patience _ := 0
  size_le_of_read {h n bytes h'} hr := by
    obtain ⟨rfl, _⟩ := eq_of_read_data hr
    have := size_take_le h n
    omega
  remaining_of_read {h n bytes h'} hr := by
    obtain ⟨rfl, rfl⟩ := eq_of_read_data hr
    have := size_take_le h n
    dsimp only
    omega
  remaining_of_interrupted hr := absurd hr (read_ne_interrupted _ _ _)
  patience_of_interrupted hr := absurd hr (read_ne_interrupted _ _ _)
  seek := seek
  seekBy h offset := forgetPosition (h.seek (.current offset))
  patience_seek_le _ _ := Nat.le_refl _
  patience_seekBy_le _ _ := Nat.le_refl _
  patience_of_seek_interrupted hs := absurd hs (seek_ne_interrupted _ _ _)
  patience_of_seekBy_interrupted hs :=
    absurd (eq_of_forgetPosition_interrupted hs) (seek_ne_interrupted _ _ _)

/-- The handle after a file was created, or emptied, at a place. -/
def afterCreation (h : FileHandle) (place : Place) : FileHandle :=
  if h.place = place ∧ h.file.discards = false then { h with file := {}, rewritten := true } else h

end FileHandle

/-! ## Writing -/

/-- A file in the course of being written. -/
structure FileWriter where
  /-- What has reached the file. -/
  visible : ByteArray := ByteArray.empty
  /-- What is held back until there is more of it. -/
  held : ByteArray := ByteArray.empty

namespace FileWriter

/-- The most bytes held back. -/
def capacity : Nat := 8192

/-- All that was written. -/
def contents (w : FileWriter) : ByteArray := w.visible ++ w.held

/-- Takes bytes. They are held back where there is room behind what is held; if there is none, that
goes to the file first, and so do bytes that would fill all the room. -/
def write : FileWriter → ByteArray → FileWriter
  | ⟨visible, held⟩, bytes =>
    if held.size + bytes.size ≤ capacity ∧ bytes.size < capacity then ⟨visible, held ++ bytes⟩
    else if bytes.size < capacity then ⟨visible ++ held, bytes⟩
    else ⟨visible ++ held ++ bytes, ByteArray.empty⟩

/-- Lets everything reach the file. -/
def flush (w : FileWriter) : FileWriter := ⟨w.contents, ByteArray.empty⟩

/-- Whatever the sizes of the writes, the contents are what was written, in order. -/
@[simp] theorem contents_write (w : FileWriter) (bytes : ByteArray) :
    (w.write bytes).contents = w.contents ++ bytes := by
  rcases w with ⟨visible, held⟩
  simp only [write, contents]
  split
  · rw [ByteArray.append_assoc]
  · split
    · rfl
    · rw [ByteArray.append_empty]

@[simp] theorem contents_flush (w : FileWriter) : w.flush.contents = w.contents :=
  ByteArray.append_empty

instance : ByteOutput FileWriter where
  write w bytes := (.ok (), w.write bytes)
  flush w := (.ok (), w.flush)

end FileWriter

/-! ## Reading what is being written -/

/-- A file that is read anywhere, in large pieces. -/
abbrev SourceFile := SeekingSource (BufferedStream FileHandle)

namespace SourceFile

/-- A file of a known length, to be read from the start. -/
def ofHandle (handle : FileHandle) (length : Nat) : SourceFile :=
  ⟨{ input := handle }, { length }, some 0⟩

/-- Lets the handle below change. -/
def onHandle (change : FileHandle → FileHandle) : SourceFile → SourceFile
  | ⟨⟨handle, buffer, cursor⟩, span, position⟩ =>
    ⟨⟨change handle, buffer, cursor⟩, span, position⟩

/-- The file once it holds these bytes. What has been read in advance is kept. -/
def holding (s : SourceFile) (bytes : ByteArray) : SourceFile :=
  { s.onHandle fun h => { h with file := { bytes } } with span := s.span.reaching bytes.size }

/-- The file as a writer has left it, if that is writing to it. -/
def catchUp (s : SourceFile) (w : FileWriter) : SourceFile :=
  if s.input.input.rewritten then s.holding w.visible else s

theorem length_catchUp (s : SourceFile) (w : FileWriter) :
    Source.length (s.catchUp w) = Source.length s := by
  unfold catchUp
  split <;> rfl

instance : Overlap SourceFile FileWriter := ⟨catchUp, length_catchUp⟩

instance : Overlap SourceFile (PatchWriter FileWriter) :=
  ⟨fun s w => s.catchUp w.output, fun s w => length_catchUp s w.output⟩

end SourceFile

end BinaryDelta.CommandLine
