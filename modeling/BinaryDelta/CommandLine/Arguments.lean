import BinaryDelta.Engine.Options
import BinaryDelta.Merge.Index

/-!
# Arguments

The command line names a command, followed by its files and options in any order. An option has a
long name, `--name`, and may have a one-letter name, `-n`. The value of an option follows as the
next argument or after an equals sign, and behind a one-letter name also directly. One-letter
options may share a dash. Behind `--` there are no options. No option may be given twice, but for
`-v`.

`tokens` tells options, values and words apart, `Form.read` gathers what was given, and the rest
turns that into a `Request`. Reading goes from left to right and stops at the first mistake or
request for help.
-/

namespace BinaryDelta.CommandLine

/-! ## Options -/

/-- What the value of an option has to be. -/
inductive ValueKind where
  /-- Any text but the empty one. -/
  | path
  /-- A natural number of 64 bits. -/
  | number
  deriving Repr, DecidableEq

/-- An option and its names. A switch has no value. -/
structure OptionForm where
  long : String
  short : Option Char := none
  value : Option ValueKind := none
  deriving Repr, DecidableEq

/-- The number that a value spells: decimal digits, perhaps behind a plus sign. -/
def readNumber? (text : String) : Option Nat :=
  let digits := match text.toList with
    | '+' :: digits => digits
    | digits => digits
  if digits.isEmpty || !digits.all Char.isDigit then none
  else
    let n := digits.foldl (fun n c => n * 10 + (c.toNat - '0'.toNat)) 0
    if n < 0x10000000000000000 then some n else none

/-- May this text be a value of that kind? -/
def ValueKind.admits (text : String) : ValueKind → Bool
  | path => text != ""
  | number => (readNumber? text).isSome

/-! ## Tokens -/

/-- What an argument, or a letter of one, stands for. -/
inductive Token where
  | word (text : String)
  | switch (option : OptionForm)
  | assigned (option : OptionForm) (text : String)
  /-- An option whose value has to follow. -/
  | awaiting (option : OptionForm)
  | endOfOptions
  | unknown
  deriving Repr, DecidableEq

/-- The tokens of one-letter options that share a dash. -/
def clusterTokens (options : List OptionForm) : List Char → List Token
  | [] => []
  | letter :: letters =>
    match options.find? fun o => o.short == some letter with
    | none => [.unknown]
    | some o =>
      if o.value.isNone then .switch o :: clusterTokens options letters
      else
        match letters with
        | [] => [.awaiting o]
        | '=' :: text => [.assigned o (String.ofList text)]
        | text => [.assigned o (String.ofList text)]

/-- The token of a long option, without its dashes. -/
def longToken (options : List OptionForm) (text : List Char) : Token :=
  match options.find? fun o => o.long.toList == text.takeWhile (· != '=') with
  | none => .unknown
  | some o =>
    match text.dropWhile (· != '='), o.value with
    | [], none => .switch o
    | [], some _ => .awaiting o
    | _ :: text, some _ => .assigned o (String.ofList text)
    | _ :: _, none => .unknown

/-- The tokens of one argument. -/
def argumentTokens (options : List OptionForm) (argument : String) : List Token :=
  match argument.toList with
  | '-' :: '-' :: text => [longToken options text]
  | '-' :: letter :: letters => clusterTokens options (letter :: letters)
  | _ => [.word argument]

/-- The tokens of a list of arguments. -/
def tokens (options : List OptionForm) : List String → List Token
  | [] => []
  | argument :: arguments =>
    if argument = "--" then .endOfOptions :: arguments.map .word
    else argumentTokens options argument ++ tokens options arguments

/-! ## Gathering -/

/-- Why no command is run. -/
inductive Stop where
  | help
  /-- The version is asked for, of the program or of one of its commands. -/
  | version (name : String)
  | misuse
  deriving Repr, DecidableEq

/-- The words and options of a command line. -/
structure Given where
  words : List String := []
  switches : List String := []
  values : List (String × String) := []
  deriving Repr

namespace Given

/-- Was the switch given? -/
def has (g : Given) (long : String) : Bool := g.switches.contains long

/-- The value of an option, if it was given. -/
def value? (g : Given) (long : String) : Option String := g.values.lookup long

/-- The number given as the value of an option, or else its default. -/
def number (g : Given) (long : String) (default : Nat) : Nat :=
  ((g.value? long).bind readNumber?).getD default

/-- Adds the value of an option. -/
def addValue (g : Given) (option : OptionForm) (text : String) : Except Stop Given :=
  if (g.value? option.long).isSome || !option.value.any (ValueKind.admits text) then .error .misuse
  else .ok { g with values := (option.long, text) :: g.values }

end Given

/-- The switch that asks for help. -/
def helpSwitch : OptionForm := { long := "help", short := some 'h' }

/-- The switch that asks for the version. -/
def versionSwitch : OptionForm := { long := "version", short := some 'V' }

/-- The switch that asks for more messages; it may be given several times. -/
def verboseSwitch : OptionForm := { long := "verbose", short := some 'v' }

/-- The switches that every command has. -/
def commonSwitches : List OptionForm := [helpSwitch, versionSwitch, verboseSwitch]

/-- The name of a command, the number of files it takes, and its options. -/
structure Form where
  name : String
  words : Nat
  options : List OptionForm
  deriving Repr

namespace Form

/-- Takes a switch into account. -/
def addSwitch (form : Form) (g : Given) (option : OptionForm) : Except Stop Given :=
  if option = helpSwitch then .error .help
  else if option = versionSwitch then .error (.version form.name)
  else if option = verboseSwitch then .ok g
  else if g.has option.long then .error .misuse
  else .ok { g with switches := option.long :: g.switches }

/-- Takes a word into account. All words are paths. -/
def addWord (form : Form) (g : Given) (text : String) : Except Stop Given :=
  if g.words.length < form.words && text != "" then .ok { g with words := g.words ++ [text] }
  else .error .misuse

/-- Gathers what the tokens give. -/
def read (form : Form) (g : Given) : List Token → Except Stop Given
  | [] => .ok g
  | .awaiting option :: .word text :: rest =>
    match g.addValue option text with
    | .error stop => .error stop
    | .ok g => form.read g rest
  | .assigned option text :: rest =>
    match g.addValue option text with
    | .error stop => .error stop
    | .ok g => form.read g rest
  | .switch option :: rest =>
    match form.addSwitch g option with
    | .error stop => .error stop
    | .ok g => form.read g rest
  | .word text :: rest =>
    match form.addWord g text with
    | .error stop => .error stop
    | .ok g => form.read g rest
  | .endOfOptions :: rest => form.read g rest
  | .awaiting _ :: _ => .error .misuse
  | .unknown :: _ => .error .misuse

end Form

/-! ## Requests -/

/-- A file to be written. -/
structure Destination where
  path : String
  /-- Write over a file that exists? -/
  force : Bool := false
  /-- Print nothing but errors? -/
  quiet : Bool := false
  deriving Repr, DecidableEq

/-- How a difference is computed. -/
structure DiffSettings where
  chunkSize : Nat := ({} : EngineOptions).chunkSize
  duplicate : Bool := false
  acceptHash : Bool := false
  /-- A file that the block table is loaded from, or stored in if there is none. -/
  checksums : Option String := none
  deriving Repr, DecidableEq

/-- What the command line asks for. -/
inductive Request where
  | diff (source target : String) (settings : DiffSettings) (differential : Bool)
      (output : Destination)
  /-- A difference that is only listed. -/
  | list (source target : String) (settings : DiffSettings)
  | patch (source patch : String) (output : Destination)
  | merge (first second : String) (interval : Nat) (differential : Bool) (output : Destination)
  | convert (patch : String) (differential : Bool) (output : Destination)
  | dump (patch : String)
  deriving Repr, DecidableEq

/-- The option that names the output. -/
def outputOption : OptionForm := { long := "output", short := some 'o', value := some .path }

/-- The options of every command that writes a file. -/
def outputOptions : List OptionForm :=
  [outputOption, { long := "force", short := some 'f' }, { long := "quiet", short := some 'q' }]

/-- The switch between the two modes of a patch. -/
def differentialSwitch : OptionForm := { long := "differential" }

/-- The commands. -/
def forms : List Form :=
  [ { name := "diff", words := 2, options := outputOptions ++ [differentialSwitch,
        { long := "dump", short := some 'd' },
        { long := "chunk-size", short := some 'c', value := some .number },
        { long := "duplicate-checksum" }, { long := "accept-hash" },
        { long := "checksums", value := some .path }] },
    { name := "patch", words := 2, options := outputOptions },
    { name := "merge", words := 2, options := outputOptions ++ [differentialSwitch,
        { long := "interval", value := some .number }] },
    { name := "convert", words := 1, options := outputOptions ++ [differentialSwitch] },
    { name := "dump", words := 1, options := [] } ]

/-- The destination that was given, if one was. -/
def Given.destination? (g : Given) : Option Destination :=
  (g.value? "output").map fun path => { path, force := g.has "force", quiet := g.has "quiet" }

/-- The settings that were given. -/
def Given.diffSettings (g : Given) : DiffSettings where
  chunkSize := g.number "chunk-size" ({} : EngineOptions).chunkSize
  duplicate := g.has "duplicate-checksum"
  acceptHash := g.has "accept-hash"
  checksums := g.value? "checksums"

/-- The request that a command and what was given for it make, if they make one. A difference is
either written or listed. -/
def request? (name : String) (g : Given) : Option Request :=
  let differential := g.has "differential"
  match name, g.words, g.destination? with
  | "diff", [source, target], some output =>
    if g.has "dump" then none else some (.diff source target g.diffSettings differential output)
  | "diff", [source, target], none =>
    if g.has "dump" then some (.list source target g.diffSettings) else none
  | "patch", [source, patch], some output => some (.patch source patch output)
  | "merge", [first, second], some output =>
    let interval := g.number "interval" ({} : IndexOptions).interval
    some (.merge first second interval differential output)
  | "convert", [patch], some output => some (.convert patch differential output)
  | "dump", [patch], _ => some (.dump patch)
  | _, _, _ => none

/-- The name of the program. -/
def programName : String := "gdiff"

/-- Reads the arguments behind the name of a command. -/
def readCommand (name : String) (arguments : List String) : Except Stop Request :=
  match forms.find? fun form => form.name == name with
  | none => .error .misuse
  | some form =>
    let full := { form with
      name := programName ++ "-" ++ name, options := form.options ++ commonSwitches }
    match full.read {} (tokens full.options arguments) with
    | .error stop => .error stop
    | .ok g =>
      match request? name g with
      | none => .error .misuse
      | some request => .ok request

/-- Reads the arguments behind the word `help`: nothing, or the name of a command. -/
def readHelp : List String → Stop
  | [] => .help
  | [name] => if name = "help" || forms.any (·.name == name) then .help else .misuse
  | _ => .misuse

/-- Reads a command line: switches that every command has, then the command. -/
def readArguments : List String → Except Stop Request
  | [] => .error .misuse
  | argument :: arguments =>
    if argument = "--" then .error .misuse
    else
      match argumentTokens commonSwitches argument with
      | [.word name] =>
        if name = "help" then .error (readHelp arguments) else readCommand name arguments
      | found =>
        let form : Form := { name := programName, words := 0, options := commonSwitches }
        match form.read {} found with
        | .error stop => .error stop
        | .ok _ => readArguments arguments

end BinaryDelta.CommandLine
