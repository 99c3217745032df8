import BinaryDelta.CommandLine.OpenFile
import BinaryDelta.CommandLine.Report
import BinaryDelta.Engine.Basic
import BinaryDelta.Merge.Basic
import BinaryDelta.Patch.Apply
import BinaryDelta.Sink.Listing

/-!
# Running commands

Model of `handle_diff`, `handle_patch`, `handle_merge`, `handle_convert` and `handle_dump`.

A command checks its inputs and its output, in this order, opens them, and only then begins. The
output file is created empty before the inputs are read, so an input that is also the output is
empty by then, and shows what has been written so far when it is read; what a command wrote before
it failed stays in the file.

Out of scope: links, permissions, full disks, other programs that use the same files, and the log
that `-v` asks for.
-/

namespace BinaryDelta.CommandLine

/-- The files, and what has been printed. -/
structure Session where
  files : Files
  printed : Array Piece := #[]

/-- A part of a command. -/
abbrev Action := ExceptT Failure (StateM Session)

/-- The largest input accepted. -/
def maxInputSize : Nat := 0x7fffffff

/-- The size that a directory has. -/
def directorySize : Nat := 4096

/-- Where a directory ends for those who move through it as if it were a file. -/
def directoryLength : Nat := 0x7fffffffffffffff

namespace Action

/-- Prints bytes. -/
def print (bytes : ByteArray) : Action Unit :=
  modify fun s => { s with printed := s.printed.push (.text bytes) }

/-- Prints a line. -/
def say (line : String) : Action Unit := print (line ++ "\n").toUTF8

/-- Prints how long an activity took. -/
def sayElapsed (activity : String) : Action Unit := do
  print s!"   {activity} took ".toUTF8
  modify fun s => { s with printed := s.printed.push .elapsed }
  print "\n".toUTF8

/-- Fails during an activity. -/
def fail {α : Type} (context : String) (error : DeltaError) : Action α :=
  throw (.operation (some context) error)

/-- The answer of an operation, or a failure during an activity. -/
def check {α : Type} (context : String) : Except DeltaError α → Action α
  | .ok a => pure a
  | .error error => fail context error

/-- The answer of an operation, or a failure that speaks for itself. -/
def checkPlainly {α : Type} : Except DeltaError α → Action α
  | .ok a => pure a
  | .error error => throw (.operation none error)

/-! ## Inputs and outputs -/

/-- The size of an input, which has to exist and not to be too large. -/
def inputSize (path role : String) : Action Nat := do
  match (← get).files.lookup path with
  | .error _ => throw (.fileNotFound path)
  | .ok (_, .directory) => pure directorySize
  | .ok (_, .file file) =>
    if maxInputSize < file.size then
      fail s!"{role} file is too large: {path}" (.sizeLimit file.size maxInputSize)
    else pure file.size

/-- Makes sure that the output may be written. -/
def checkOutput (output : Destination) : Action Unit := do
  if (← get).files.has output.path && !output.force then throw (.outputExists output.path)

/-- Creates an empty file, or empties the one that is there, and answers with its place. -/
def create (path role : String) : Action Place := do
  let files := (← get).files
  match files.destination path with
  | .error fault => throw (.cannotCreate role path fault.message)
  | .ok place =>
    modify fun s => { s with files := files.write place ByteArray.empty }
    pure place

/-- Puts into a file what was written to it. -/
def store (place : Place) (writer : FileWriter) : Action Unit :=
  modify fun s => { s with files := s.files.write place writer.contents }

/-- Opens an input to be read from front to end. A directory can be opened, but not read. -/
def openInput (path : String) : Action FileHandle := do
  match (← get).files.lookup path with
  | .error _ => throw (.fileNotFound path)
  | .ok (place, .file file) => pure { place, file }
  | .ok (place, .directory) => pure { place, file := {}, isDirectory := true }

/-- Opens an input to be read anywhere. -/
def openSource (path : String) : Action SourceFile := do
  let handle ← openInput path
  pure (.ofHandle handle (if handle.isDirectory then directoryLength else handle.file.size))

/-- A writer of a patch into an empty file. -/
def startPatch (differential : Bool) : Action (PatchWriter FileWriter) :=
  match PatchWriter.create ({} : FileWriter) { differential } with
  | .ok writer => pure writer
  | .error (error, _) => throw (.operation none error)

/-! ## Checksum files -/

/-- An engine with these settings. A checksum file that exists is loaded; one that does not makes
the engine keep its table, to be stored. -/
def prepareEngine (settings : DiffSettings) (quiet : Bool) : Action Engine := do
  let engine ← checkPlainly <| Engine.ofOptions {
    chunkSize := settings.chunkSize, duplicate := settings.duplicate
    acceptHash := settings.acceptHash }
  match settings.checksums with
  | none => pure engine
  | some path =>
    if (← get).files.has path then
      let engine ← check ("Failed to load checksum file: " ++ path)
        (engine.readChecksums (← openInput path)).1
      unless quiet do
        say s!"Info: Loaded checksums from {path} (chunk size {engine.options.chunkSize})"
      pure engine
    else pure (engine.setKeepSource true)

/-- Stores the table of an engine in the checksum file, unless that exists by now. -/
def saveChecksums (settings : DiffSettings) (engine : Engine) (quiet : Bool) : Action Unit := do
  match settings.checksums with
  | none => pure ()
  | some path =>
    unless (← get).files.has path do
      let place ← create path "checksum"
      let (answer, writer) := engine.writeChecksums ({} : FileWriter)
      checkPlainly answer
      store place writer
      unless quiet do say ("Info: Saved checksums to " ++ path)

/-! ## Commands -/

/-- Writes a patch from a source to a target. -/
def diff (source target : String) (settings : DiffSettings) (differential : Bool)
    (output : Destination) : Action Unit := do
  let sourceSize ← inputSize source "source"
  let targetSize ← inputSize target "target"
  checkOutput output
  unless output.quiet do
    say s!"File sizes: Source: {sizeText sourceSize}, Target: {sizeText targetSize}"
  let engine ← prepareEngine settings output.quiet
  let sourceFile ← openSource source
  let targetFile ← openInput target
  let place ← create output.path "output"
  let writer ← startPatch differential
  let outcome := engine.compute (sourceFile.onHandle (·.afterCreation place))
    (targetFile.afterCreation place) writer
  store place outcome.sink.output
  let stats ← check "Diff failed" outcome.result
  saveChecksums settings outcome.engine output.quiet
  unless output.quiet do
    let written := outcome.sink.stats.written
    let copies := outcome.sink.stats.copies
    let share := percentText written targetSize
    say s!"Success: Created {output.path} ({sizeText written}, {share}% of target)"
    say (s!"   Copied {sizeText stats.copied} in {stats.copies} copies ({copies.byte} byte / " ++
      s!"{copies.short} short / {copies.int} int / {copies.long} long offsets), " ++
      s!"{sizeText stats.literal} literal")
    sayElapsed "Diff"

/-- Lists the instructions from a source to a target. -/
def list (source target : String) (settings : DiffSettings) : Action Unit := do
  let _ ← inputSize source "source"
  let _ ← inputSize target "target"
  let engine ← prepareEngine settings true
  let listing : Listing ByteArray := { output := ByteArray.empty }
  let outcome := engine.compute (← openSource source) (← openInput target) listing
  print outcome.sink.output
  let _ ← check "Diff failed" outcome.result
  saveChecksums settings outcome.engine true

/-- Rebuilds a target from a source and a patch. -/
def patch (source patch : String) (output : Destination) : Action Unit := do
  let sourceSize ← inputSize source "source"
  let patchSize ← inputSize patch "patch"
  checkOutput output
  unless output.quiet do
    say s!"File sizes: Source: {sizeText sourceSize}, Patch: {sizeText patchSize}"
  let sourceFile ← openSource source
  let patchFile ← openInput patch
  let place ← create output.path "output"
  let (answer, rebuilt) := apply (sourceFile.onHandle (·.afterCreation place))
    (patchFile.afterCreation place) ({} : FileWriter)
  store place rebuilt.output
  let written ← check "Patch failed" answer
  unless output.quiet do
    say ""
    say s!"Success: Created {output.path} ({sizeText written})"
    sayElapsed "Patching"

/-- Merges two patches that follow each other. -/
def merge (first second : String) (interval : Nat) (differential : Bool) (output : Destination) :
    Action Unit := do
  let _ ← inputSize first "first patch"
  let _ ← inputSize second "second patch"
  checkOutput output
  let firstFile ← openSource first
  let secondFile ← openInput second
  let place ← create output.path "output"
  let writer ← startPatch differential
  let (answer, merged) := BinaryDelta.merge (firstFile.onHandle (·.afterCreation place))
    (secondFile.afterCreation place) writer { interval }
  store place merged.sink.output
  let length ← check "Merge failed" answer
  unless output.quiet do
    let written := sizeText merged.sink.stats.written
    say s!"Success: Created {output.path} ({written}, reconstructs {sizeText length})"
    sayElapsed "Merging"

/-- Writes a patch in the mode that is asked for. -/
def convert (patch : String) (differential : Bool) (output : Destination) : Action Unit := do
  let patchSize ← inputSize patch "patch"
  checkOutput output
  let patchFile ← openInput patch
  let place ← create output.path "output"
  let writer ← startPatch differential
  let (answer, writer) := BinaryDelta.convert (patchFile.afterCreation place) writer
  store place writer.output
  let _ ← check "Convert failed" answer
  unless output.quiet do
    let written := sizeText writer.stats.written
    say s!"Success: Created {output.path} ({sizeText patchSize} -> {written})"

/-- Lists the instructions of a patch. -/
def dump (patch : String) : Action Unit := do
  let _ ← inputSize patch "patch"
  let listing : Listing ByteArray := { output := ByteArray.empty }
  let (answer, listing) := BinaryDelta.convert (← openInput patch) listing
  print listing.output
  let _ ← check "Dump failed" answer

end Action

/-- What a request amounts to. -/
def Request.action : Request → Action Unit
  | .diff source target settings differential output =>
    Action.diff source target settings differential output
  | .list source target settings => Action.list source target settings
  | .patch source wire output => Action.patch source wire output
  | .merge first second interval differential output =>
    Action.merge first second interval differential output
  | .convert wire differential output => Action.convert wire differential output
  | .dump wire => Action.dump wire

/-- Runs a command line on files, and answers with the report and the files it leaves. -/
def run (files : Files) (arguments : List String) : Report × Files :=
  match readArguments arguments with
  | .error stop => (.ofStop stop, files)
  | .ok request =>
    match request.action.run { files } with
    | (result, session) => (.ofResult session.printed result, session.files)

end BinaryDelta.CommandLine
