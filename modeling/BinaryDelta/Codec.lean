import BinaryDelta.Engine.Basic
import BinaryDelta.Merge.Basic
import BinaryDelta.Patch.Apply
import BinaryDelta.Sink.PatchWriter
import BinaryDelta.Source.Memory

/-!
# Deltas of byte strings

Model of `encode`, `encode_with`, `decode` and `merge_bytes`.

The operations of this library on byte strings in memory.
-/

namespace BinaryDelta

/-- A patch that describes a target over a source. -/
def encodeWith (source target : ByteArray) (options : EngineOptions) (writer : WriterOptions) :
    Except DeltaError ByteArray :=
  match Engine.ofOptions options with
  | .error e => .error e
  | .ok engine =>
    match PatchWriter.create ByteArray.empty writer with
    | .error (e, _) => .error e
    | .ok writer =>
      let outcome := engine.compute (⟨source, 0⟩ : MemoryStream) (⟨target, 0⟩ : MemoryStream) writer
      match outcome.result with
      | .error e => .error e
      | .ok _ => .ok outcome.sink.output

/-- A patch that describes a target over a source, with the default settings. -/
def encode (source target : ByteArray) : Except DeltaError ByteArray :=
  encodeWith source target {} {}

/-- The target that a patch describes over a source. -/
def decode (patch source : ByteArray) : Except DeltaError ByteArray :=
  match apply (⟨source, 0⟩ : MemoryStream) (⟨patch, 0⟩ : MemoryStream) ByteArray.empty with
  | (.error e, _) => .error e
  | (.ok _, rebuilt) => .ok rebuilt.output

/-- The patch that two patches that follow each other amount to. -/
def mergeBytes (first second : ByteArray) (writer : WriterOptions) : Except DeltaError ByteArray :=
  match PatchWriter.create ByteArray.empty writer with
  | .error (e, _) => .error e
  | .ok writer =>
    match merge (⟨first, 0⟩ : MemoryStream) (⟨second, 0⟩ : MemoryStream) writer {} with
    | (.error e, _) => .error e
    | (.ok _, merged) => .ok merged.sink.output

/-- A patch with the instructions of another, written anew. -/
def convertBytes (patch : ByteArray) (writer : WriterOptions) : Except DeltaError ByteArray :=
  match PatchWriter.create ByteArray.empty writer with
  | .error (e, _) => .error e
  | .ok writer =>
    match convert (⟨patch, 0⟩ : MemoryStream) writer with
    | (.error e, _) => .error e
    | (.ok _, writer) => .ok writer.output

end BinaryDelta
