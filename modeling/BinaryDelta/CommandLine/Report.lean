import BinaryDelta.CommandLine.Arguments
import BinaryDelta.Decimal.Fixed
import BinaryDelta.Error

/-!
# Reports

Model of `format_bytes`, `percent`, `format_duration` and of what the commands print.

What a command prints, and its exit code. Sizes are rounded to a unit of 1024 or its powers. The
time that a command took is the only part of a report that is not known beforehand, so a report
holds a gap for it.

Out of scope: colours.
-/

namespace BinaryDelta.CommandLine

/-! ## Numbers as text -/

/-- A kilobyte. -/
def kilobyte : Nat := 1024

/-- A megabyte. -/
def megabyte : Nat := 1024 * kilobyte

/-- A gigabyte. -/
def gigabyte : Nat := 1024 * megabyte

/-- A number of bytes. -/
def sizeText (bytes : Nat) : String :=
  if gigabyte ≤ bytes then Decimal.fixed 2 bytes gigabyte ++ " GB"
  else if megabyte ≤ bytes then Decimal.fixed 1 bytes megabyte ++ " MB"
  else if kilobyte ≤ bytes then Decimal.fixed 1 bytes kilobyte ++ " KB"
  else s!"{bytes} B"

/-- The nearest double. -/
def nearestDouble (n : Nat) : Float := (UInt64.ofNat n).toFloat

/-- A part of a whole in percent, with one place; the quotient and the product are rounded as
doubles. -/
def percentText (part whole : Nat) : String :=
  let percent := if whole = 0 then 0.0 else nearestDouble part / nearestDouble whole * 100.0
  match Binary64.ofFloat percent with
  | .finite _ mantissa exponent =>
    let (num, den) := Binary64.fraction mantissa exponent
    Decimal.fixed 1 num den
  | _ => "0.0"

/-- A time in nanoseconds. -/
def durationText (nanoseconds : Nat) : String :=
  if nanoseconds < 1000 then s!"{nanoseconds}ns"
  else if nanoseconds < 1000000 then Decimal.fixed 1 nanoseconds 1000 ++ "μs"
  else if nanoseconds < 1000000000 then Decimal.fixed 2 nanoseconds 1000000 ++ "ms"
  else Decimal.fixed 3 nanoseconds 1000000000 ++ "s"

/-! ## Failures -/

/-- Why a command failed. -/
inductive Failure where
  | fileNotFound (path : String)
  | outputExists (path : String)
  /-- A file could not be created, for a reason in the words of the system. -/
  | cannotCreate (role path reason : String)
  /-- An operation failed; the context says during what, if anything is to be said. -/
  | operation (context : Option String) (error : DeltaError)
  deriving Repr

namespace Failure

/-- The wording of an error, followed by that of the fault behind it. -/
def explain (error : DeltaError) : String :=
  match error with
  | .io fault => error.message ++ ": " ++ fault.message
  | _ => error.message

/-- The wording of a failure. -/
def message : Failure → String
  | fileNotFound path => "File not found: " ++ path
  | outputExists path => "Output file already exists: " ++ path ++ "\n   Use --force to overwrite"
  | cannotCreate role path reason => s!"Failed to create {role} file: {path}: {reason}"
  | operation none error => explain error
  | operation (some context) error => context ++ ": " ++ explain error

/-- The exit code of a failed operation: 3 for an input that is too large, 2 for a patch that is
malformed or does not fit its source, 101 for one that was given up. -/
def codeOfError (error : DeltaError) : Nat :=
  match error with
  | .overflow _ => 101
  | .sizeLimit .. => 3
  | .unexpectedEndOfSource .. | .rangeOutOfBounds .. => 2
  | _ => if error.isFormatError then 2 else 1

/-- What is reported of a failure. An operation that was given up ends the program, which does not
come to report it. -/
def report (failure : Failure) : String :=
  match failure with
  | operation _ (.overflow _) => ""
  | failure => "Error: " ++ failure.message ++ "\n"

/-- The exit code of a failure. -/
def code : Failure → Nat
  | operation _ error => codeOfError error
  | _ => 1

end Failure

/-! ## Output -/

/-- A part of what is printed. -/
inductive Piece where
  | text (bytes : ByteArray)
  /-- The time that the command took. -/
  | elapsed

/-- What a command prints, and how it ends. -/
structure Report where
  code : Nat := 0
  output : Array Piece := #[]
  errors : String := ""
  /-- Is the usage of the program to be shown? -/
  showsUsage : Bool := false

namespace Report

/-- What is printed, when the command took a time with this text. -/
def render (r : Report) (elapsed : String) : ByteArray :=
  r.output.foldl (fun out piece =>
    match piece with
    | .text bytes => out ++ bytes
    | .elapsed => out ++ elapsed.toUTF8) ByteArray.empty

/-- The version of the program. -/
def version : String := "0.1.0"

/-- How the program is used. -/
def usage : String :=
  "Usage:\n" ++
  "  gdiff diff <source> <target> (-o <output> | -d) [-c <size>] [--differential]\n" ++
  "      [--duplicate-checksum] [--accept-hash] [--checksums <file>] [-f] [-q]\n" ++
  "  gdiff patch <source> <patch> -o <output> [-f] [-q]\n" ++
  "  gdiff merge <first> <second> -o <output> [--interval <records>] [--differential]\n" ++
  "      [-f] [-q]\n" ++
  "  gdiff convert <patch> -o <output> [--differential] [-f] [-q]\n" ++
  "  gdiff dump <patch>\n"

/-- The report when no command is run. -/
def ofStop : Stop → Report
  | .help => { showsUsage := true }
  | .version name => { output := #[.text s!"{name} {version}\n".toUTF8] }
  | .misuse => { code := 2, showsUsage := true }

/-- The report of a command that printed `output` and then failed, or did not. -/
def ofResult (output : Array Piece) : Except Failure Unit → Report
  | .ok () => { output }
  | .error failure => { code := failure.code, output, errors := failure.report }

end Report

end BinaryDelta.CommandLine
