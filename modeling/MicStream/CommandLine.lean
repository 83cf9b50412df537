import MicStream.Stream.Settings
/-!
# The command line

`Invocation.ofArgs` reads the arguments. An option may be given by its letter
or its name, and its value behind it, attached, or behind an equals sign. A
value that stands alone is looked at only when the next option comes or the
arguments end; asking for help or for the version ends the reading at once.
Options are not abbreviated and not given twice. Two commands are known,
`record` and `help`, and options of the program stand before the command.
-/
namespace MicStream

/-! ## What can be asked for -/

/-- What the program is told before it starts.
mirrors `Cli` -/
structure Options where
  card : Option UInt32
  device : Option UInt32
  localization : Bool
  geometry : Option String
  deriving DecidableEq, Repr

/-- A recording to a file, which may end by itself.
mirrors `Commands.Record` -/
structure Recording where
  output : String
  seconds : Option UInt64
  deriving DecidableEq, Repr

/-- What the arguments ask for. -/
structure Invocation where
  options : Options
  recording : Option Recording
  deriving DecidableEq, Repr

/-- The program itself, or one of its commands. -/
inductive Command where
  | program
  | record
  | help
  deriving DecidableEq, Repr

/-- Why the arguments ask for nothing to be run. -/
inductive Halt where
  | help (about : Command)
  | version
  | usage
  deriving DecidableEq, Repr

/-- The settings that an invocation makes of given ones.
mirrors `main`, where arguments override the settings -/
def Options.apply (o : Options) (s : StreamSettings) : StreamSettings :=
  { s with
    card := o.card.getD s.card
    device := o.device.getD s.device
    localization := o.localization || s.localization
    geometryPath := o.geometry.getD s.geometryPath }

/-- The note of the settings that the program starts with.
mirrors `main`, its first log line -/
def StreamSettings.note (s : StreamSettings) : String :=
  s!"card={s.card}, device={s.device}, localization={s.localization}"

/-- Why the program does not go on.
mirrors `hardware_backends`, without hardware -/
def noHardware : String := "built without hardware support, enable the `hardware` feature"

namespace CommandLine

/-! ## Values -/

/-- The number that decimal digits stand for, at least one of them. -/
def readDigits (cs : List Char) : Option Nat :=
  if cs ≠ [] ∧ cs.all Char.isDigit then some (Nat.ofDigitChars 10 cs 0) else none

/-- A natural number, with a plus sign or without. -/
def readNatural (cs : List Char) : Option Nat :=
  match cs with
  | '+' :: ds => readDigits ds
  | ds => readDigits ds

/-- A number of 32 bits. A minus sign is allowed before zero. -/
def readWord (cs : List Char) : Option UInt32 :=
  match cs with
  | '-' :: ds => if readDigits ds = some 0 then some 0 else none
  | cs => (readNatural cs).bind fun n => if n < UInt32.size then some (UInt32.ofNat n) else none

def readLong (cs : List Char) : Option UInt64 :=
  (readNatural cs).bind fun n => if n < UInt64.size then some (UInt64.ofNat n) else none

def readPath (cs : List Char) : Option String := if cs.isEmpty then none else some (String.ofList cs)

/-! ## Options -/

/-- The options of the program and of its commands. -/
inductive Flag where
  | card
  | device
  | localization
  | geometry
  | output
  | seconds
  | help
  | version
  deriving DecidableEq, Repr

namespace Flag

def hasValue : Flag → Bool
  | .localization | .help | .version => false
  | _ => true

def ofName? : Command → String → Option Flag
  | .program, name =>
    if name = "card" then some .card
    else if name = "device" then some .device
    else if name = "localization" then some .localization
    else if name = "geometry" then some .geometry
    else if name = "help" then some .help
    else if name = "version" then some .version
    else none
  | .record, name =>
    if name = "output" then some .output
    else if name = "seconds" then some .seconds
    else if name = "help" then some .help
    else none
  | .help, _ => none

def ofLetter? : Command → Char → Option Flag
  | .program, c =>
    if c = 'd' then some .card
    else if c = 'D' then some .device
    else if c = 'h' then some .help
    else if c = 'V' then some .version
    else none
  | .record, c =>
    if c = 'o' then some .output
    else if c = 't' then some .seconds
    else if c = 'h' then some .help
    else none
  | .help, _ => none

end Flag

/-- The values given so far. -/
structure Given where
  card : Option UInt32
  device : Option UInt32
  localization : Bool
  geometry : Option String
  output : Option String
  seconds : Option UInt64
  deriving DecidableEq, Repr

namespace Given

def nothing : Given := ⟨none, none, false, none, none, none⟩

def first {β : Type} (old new : Option β) : Option β := if old.isSome then none else new

def take (g : Given) (f : Flag) (value : List Char) : Option Given :=
  match f with
  | .card => (first g.card (readWord value)).map fun v => { g with card := some v }
  | .device => (first g.device (readWord value)).map fun v => { g with device := some v }
  | .localization => if g.localization then none else some { g with localization := true }
  | .geometry => (first g.geometry (readPath value)).map fun v => { g with geometry := some v }
  | .output => (first g.output (readPath value)).map fun v => { g with output := some v }
  | .seconds => (first g.seconds (readLong value)).map fun v => { g with seconds := some v }
  | .help | .version => none

end Given

/-! ## Reading -/

/-- Arguments while they are read: what was given, and an option that waits to be taken with its
value or for it. -/
structure Scan where
  command : Command
  given : Given
  waiting : Option (Flag × Option (List Char))
  deriving DecidableEq, Repr

namespace Scan

def new (command : Command) : Scan := ⟨command, Given.nothing, none⟩

def wantsValue (s : Scan) : Bool :=
  match s.waiting with
  | some (_, none) => true
  | _ => false

def take (s : Scan) (f : Flag) (value : List Char) : Except Halt Scan :=
  match s.given.take f value with
  | some given => .ok { s with given }
  | none => .error .usage

def resolve (s : Scan) : Except Halt Scan :=
  match s.waiting with
  | none => .ok s
  | some (_, none) => .error .usage
  | some (f, some value) => { s with waiting := none }.take f value

def give (s : Scan) (f : Flag) (value : List Char) : Except Halt Scan :=
  match s.resolve with
  | .error h => .error h
  | .ok s =>
    match f with
    | .help => .error (.help s.command)
    | .version => .error .version
    | f => s.take f value

def expect (s : Scan) (f : Flag) : Except Halt Scan :=
  match s.resolve with
  | .error h => .error h
  | .ok s => .ok { s with waiting := some (f, none) }

/-- An option by its name, without the two dashes. -/
def readName (s : Scan) (arg : List Char) : Except Halt Scan :=
  let name := arg.takeWhile (· ≠ '=')
  match Flag.ofName? s.command (String.ofList name), arg.dropWhile (· ≠ '=') with
  | none, _ => .error .usage
  | some f, [] => if f.hasValue then s.expect f else s.give f []
  | some f, _ :: value => if f.hasValue then s.give f value else .error .usage

def readLetters (s : Scan) : List Char → Except Halt Scan
  | [] => .ok s
  | c :: rest =>
    match Flag.ofLetter? s.command c with
    | none => .error .usage
    | some f =>
      if f.hasValue then
        match rest with
        | [] => s.expect f
        | '=' :: value => s.give f value
        | value => s.give f value
      else
        match s.give f [] with
        | .error h => .error h
        | .ok s => s.readLetters rest

def readArg (s : Scan) (arg : List Char) : Except Halt Scan :=
  match arg with
  | '-' :: '-' :: name => s.readName name
  | '-' :: c :: letters => s.readLetters (c :: letters)
  | value =>
    match s.waiting with
    | some (f, none) => .ok { s with waiting := some (f, some value) }
    | _ => .error .usage

end Scan

def commandOf? (arg : List Char) : Option Command :=
  if arg = ['r', 'e', 'c', 'o', 'r', 'd'] then some .record
  else if arg = ['h', 'e', 'l', 'p'] then some .help
  else none

/-- What help on the given commands is about. -/
def helpOn : List (List Char) → Halt
  | [] => .help .program
  | [arg] =>
    match commandOf? arg with
    | some c => .help c
    | none => .usage
  | _ => .usage

/-- Reads arguments up to their end or to a command, of which the arguments are left. -/
def scan (s : Scan) : List (List Char) → Except Halt (Scan × Option (List (List Char)))
  | [] => .ok (s, none)
  | arg :: rest =>
    let named := if s.command = .program ∧ s.wantsValue = false then commandOf? arg else none
    match named with
    | some .help => .error (helpOn rest)
    | some _ => .ok (s, some rest)
    | none =>
      if arg = ['-', '-'] then if rest.isEmpty then .ok (s, none) else .error .usage
      else match s.readArg arg with
        | .error h => .error h
        | .ok s => scan s rest

def readRecording (args : List (List Char)) : Except Halt Recording :=
  match scan (.new .record) args with
  | .error h => .error h
  | .ok (s, _) =>
    match s.resolve with
    | .error h => .error h
    | .ok s =>
      match s.given.output with
      | some output => .ok ⟨output, s.given.seconds⟩
      | none => .error .usage

end CommandLine

open CommandLine in
/-- Reads the arguments of the program. -/
def Invocation.ofArgs (args : List String) : Except Halt Invocation :=
  match scan (.new .program) (args.map String.toList) with
  | .error h => .error h
  | .ok (s, rest) =>
    match rest.map readRecording with
    | some (.error h) => .error h
    | recording =>
      match s.resolve with
      | .error h => .error h
      | .ok s =>
        let g := s.given
        .ok ⟨⟨g.card, g.device, g.localization, g.geometry⟩, recording.bind Except.toOption⟩

/-! ## What the program comes to -/

def Command.page : Command → List String
  | .program =>
    ["Microphone AAC streaming and sound localization", "",
      "Usage: bionic_mic_rs [OPTIONS] [COMMAND]", "",
      "Commands:",
      "  record  Record the ADTS stream to a file",
      "  help    Print this message or the help of the given subcommand(s)", "",
      "Options:",
      "  -d, --card <CARD>          ALSA card index",
      "  -D, --device <DEVICE>      ALSA device index",
      "      --localization         Enable sound-source localization (capture layout from the geometry file)",
      "      --geometry <GEOMETRY>  Mic-array geometry YAML",
      "  -h, --help                 Print help",
      "  -V, --version              Print version"]
  | .record =>
    ["Record the ADTS stream to a file", "",
      "Usage: bionic_mic_rs record [OPTIONS] --output <OUTPUT>", "",
      "Options:",
      "  -o, --output <OUTPUT>    Output .aac file",
      "  -t, --seconds <SECONDS>  Stop after this many seconds (default: until Ctrl+C)",
      "  -h, --help               Print help"]
  | .help =>
    ["Print this message or the help of the given subcommand(s)", "",
      "Usage: bionic_mic_rs help [COMMAND]...", "",
      "Arguments:",
      "  [COMMAND]...  Print help for the subcommand(s)"]

/-- What the program writes and the code that it exits with. -/
structure Outcome where
  output : List String
  errors : List String
  code : UInt8
  deriving DecidableEq, Repr

/-- What the program does for its arguments. It has no hardware to run on.
mirrors `main` -/
def Outcome.ofArgs (settings : Settings) (args : List String) : Outcome :=
  match Invocation.ofArgs args with
  | .error (.help about) => ⟨about.page, [], 0⟩
  | .error .version => ⟨[s!"{settings.name} {settings.version}"], [], 0⟩
  | .error .usage => ⟨[], ["error: invalid arguments", "", "For more information, try '--help'."], 2⟩
  | .ok i =>
    let note := (i.options.apply settings.stream).note
    ⟨[], [s!"{settings.name} {settings.version} starting: {note}", s!"Error: {noHardware}"], 1⟩

end MicStream
