import BinaryDelta.CommandLine.Run

/-!
# The program

Looks up the files that a command line names, runs it on them, writes the files that it wrote, and
prints the report.
-/

namespace BinaryDelta.CommandLine

/-- The paths that a request names. -/
def Request.paths (request : Request) : List String :=
  match request with
  | .diff source target settings _ output =>
    [source, target, output.path] ++ settings.checksums.toList
  | .list source target settings => [source, target] ++ settings.checksums.toList
  | .patch source wire output => [source, wire, output.path]
  | .merge first second _ _ output => [first, second, output.path]
  | .convert wire _ output => [wire, output.path]
  | .dump wire => [wire]

/-- The places that components lead through from a directory, its own included. -/
def Place.along (here : Place) : List String → List Place
  | [] => [here]
  | component :: components => here :: (here.step component).along components

/-- The code with which the system refuses to read from a directory. -/
def codeOfDirectory : UInt32 := 21

/-- Reads a file to its end. What is behind the largest size of an input is only counted. -/
partial def readHandle (handle : IO.FS.Handle) (file : StoredFile) : IO StoredFile := do
  let bytes ← handle.read 65536
  if bytes.isEmpty then return file
  else if file.size ≤ maxInputSize then
    let ⟨before, hole, discards⟩ := file
    readHandle handle ⟨before ++ bytes, hole, discards⟩
  else readHandle handle { file with hole := file.hole + bytes.size }

/-- Looks up what is at a place in the file system, and adds it to what is known. -/
def Files.load (files : Files) (place : Place) : IO Files := do
  if (files.at? place).isSome then return files
  try
    let handle ← IO.FS.Handle.mk place.toText .read
    return files.addFile place (← readHandle handle {})
  catch
    | .inappropriateType _ code _ =>
      return if code == codeOfDirectory then files.addDirectory place else files
    | .noFileOrDirectory .. => return files
    | e => throw e

/-- Writes the files that a command wrote. -/
def Files.save (files : Files) : IO Unit :=
  for place in files.written do
    match files.entries.lookup place with
    | some file => IO.FS.writeBinFile place.toText file.bytes
    | none => pure ()

/-- The files that a command line names, and the directories on the way to them. -/
def loadFiles (arguments : List String) : IO Files := do
  let workingDirectory := (Path.ofText (← IO.currentDir).toString).place {}
  let files : Files := { workingDirectory }
  match readArguments arguments with
  | .error _ => return files
  | .ok request =>
    let places := request.paths.flatMap fun text =>
      let path := Path.ofText text
      (path.start workingDirectory).along path.components
    places.foldlM Files.load files

end BinaryDelta.CommandLine

open BinaryDelta.CommandLine in
def main (arguments : List String) : IO UInt32 := do
  let known ← loadFiles arguments
  let start ← IO.monoNanosNow
  let (report, files) := run known arguments
  files.save
  let elapsed := (← IO.monoNanosNow) - start
  (← IO.getStdout).write (report.render (durationText elapsed))
  (← IO.getStdout).flush
  IO.eprint report.errors
  if report.showsUsage then
    if report.code == 0 then IO.print Report.usage else IO.eprint Report.usage
  return UInt32.ofNat report.code
