import LayerAnimation.Decimal.Literal
import LayerAnimation.Format.Script

/-!
# The command line

The commands `simulate` and `check` on a file that holds a motion script.

- `Request.parse?` reads the arguments; anything that is not understood is refused as a whole.
- `Request.answer` says what is printed and with which code the program ends, given what is found
  under the path of the file.
-/

namespace LayerAnimation.CommandLine

/-! ## §1 Requests -/

/-- What is asked for. -/
inductive Request where
  | version
  | help
  | simulate (path : String) (fps : Float) (finalOnly : Bool)
  | check (path : String)
  deriving Repr

/-- The two commands. -/
inductive Mode where
  | simulate
  | check
  deriving DecidableEq, Repr

/-- What is known while the arguments are read. -/
structure Found where
  path : Option String := none
  fps : Option Float := none
  finalOnly : Bool := false
  verbose : Bool := false

/-- The sampling rate unless told otherwise. -/
def standardRate : Float := 60.0

/-- The result of reading one argument: go on, or stop with a request. -/
inductive Reading where
  | more (found : Found)
  | stop (request : Request)

namespace Request

/-- Whether an argument can be the value of the option in front of it. -/
def isValue (arg : String) : Bool :=
  arg == "-" || !"-".isPrefixOf arg

/-- The value that an argument carries behind an option and an equals sign. -/
def attached? (option arg : String) : Option String :=
  if (option ++ "=").isPrefixOf arg then some ((arg.drop (option.length + 1)).toString) else none

/-- Note that more is printed; only once per level. -/
def verbose (found : Found) : Option Reading :=
  if found.verbose then none else some (.more { found with verbose := true })

/-- Note the path of the file; only once, and not empty. -/
def path (found : Found) (value : String) : Option Reading :=
  if found.path.isSome || value.isEmpty then none
  else some (.more { found with path := some value })

/-- Note the sampling rate; only once. -/
def rate (found : Found) (value : String) : Option Reading :=
  if found.fps.isSome then none
  else (Decimal.literal? value).map fun fps => .more { found with fps := some fps }

/-- Note that only the final values are wanted; only once. -/
def finalOnly (found : Found) : Option Reading :=
  if found.finalOnly then none else some (.more { found with finalOnly := true })

/-- Read single-letter flags that stand together; the version is asked for before any command. -/
def letters (versionAllowed : Bool) : List Char → Found → Option Reading
  | [], found => some (.more found)
  | c :: rest, found =>
      if c = 'v' then
        match verbose found with
        | some (.more found) => letters versionAllowed rest found
        | other => other
      else if c = 'h' then some (.stop .help)
      else if c = 'V' ∧ versionAllowed then some (.stop .version)
      else none

/-- Read a flag that needs no value. -/
def flag (versionAllowed : Bool) (arg : String) (found : Found) : Option Reading :=
  if arg = "--verbose" then verbose found
  else if arg = "--help" then some (.stop .help)
  else if arg = "--version" ∧ versionAllowed then some (.stop .version)
  else
    match arg.toList with
    | '-' :: c :: rest => if c = '-' then none else letters versionAllowed (c :: rest) found
    | _ => none

/-- Read an option of a command that carries its value, or a flag. -/
def single (mode : Mode) (arg : String) (found : Found) : Option Reading :=
  match attached? "--in" arg with
  | some value => path found value
  | none =>
      if mode = .simulate then
        match attached? "--fps" arg with
        | some value => rate found value
        | none => if arg = "--final-only" then finalOnly found else flag false arg found
      else flag false arg found

/-- The request for a command, once all arguments are read. -/
def ofFound (mode : Mode) (found : Found) : Option Request :=
  found.path.map fun path =>
    match mode with
    | .simulate => .simulate path (found.fps.getD standardRate) found.finalOnly
    | .check => .check path

/-- Read the arguments of a command. -/
def parseCommand? (mode : Mode) : Found → List String → Option Request
  | found, [] => ofFound mode found
  | found, arg :: rest =>
      if arg = "--" then
        -- Behind two dashes nothing is an option any more, and a command takes nothing else.
        if rest.isEmpty then ofFound mode found else none
      else if arg = "--in" ∨ (arg = "--fps" ∧ mode = .simulate) then
        match rest with
        | [] => none
        | value :: rest =>
            -- What looks like a flag is none of the option's business.
            if isValue value then
              match if arg = "--in" then path found value else rate found value with
              | some (.more found) => parseCommand? mode found rest
              | some (.stop request) => some request
              | none => none
            else none
      else
        match single mode arg found with
        | some (.more found) => parseCommand? mode found rest
        | some (.stop request) => some request
        | none => none

/-- What help can be asked about. -/
def helpTopics : List String :=
  ["simulate", "check", "help"]

/-- Ask for help, in general or about one topic. -/
def helpAbout : List String → Option Request
  | [] => some .help
  | [topic] => if topic ∈ helpTopics then some .help else none
  | _ => none

/-- Read all arguments: flags first, then a command with its own arguments. -/
def parseFrom? : Found → List String → Option Request
  | _, [] => none
  | found, arg :: rest =>
      -- A command has arguments of its own, and flags given before it do not count among them.
      if arg = "simulate" then parseCommand? .simulate {} rest
      else if arg = "check" then parseCommand? .check {} rest
      else if arg = "help" then helpAbout rest
      else
        match flag true arg found with
        | some (.more found) => parseFrom? found rest
        | some (.stop request) => some request
        | none => none

/-- Read all arguments. -/
def parse? (args : List String) : Option Request :=
  parseFrom? {} args

end Request

/-! ## §2 Answers -/

/-- What is found under a path. -/
inductive Contents where
  /-- Nothing that can be opened. -/
  | absent
  /-- Something that cannot be read, such as a folder. -/
  | unreadable
  | bytes (data : ByteArray)

/-- How a run ends: its code and what it prints. -/
structure Result where
  exitCode : UInt8
  output : String := ""
  /-- The lines for the error stream. -/
  notes : List String := []

/-- A run that fails with a message. -/
def failure (message : String) : Result :=
  { exitCode := 1, notes := ["Error: " ++ message] }

/-- The name and version of the program. -/
def versionLine : String := "layer-motion 0.1.0"

/-- How the program is called. -/
def usage : String :=
  "Usage: layer-motion [-v] simulate --in <FILE> [--fps <RATE>] [--final-only]\n" ++
  "       layer-motion [-v] check --in <FILE>\n"

/-- Read a script from what is found under a path, or say which step of that failed. -/
def loadScript (path : String) (contents : Contents) : Except String (Script Float) :=
  let failed (step : String) := step ++ " motion script '" ++ path ++ "'"
  match contents with
  | .absent => .error (failed "open")
  | .unreadable => .error (failed "read")
  | .bytes data =>
      match String.fromUTF8? data with
      | none => .error (failed "read")
      | some text =>
          match Script.parse text with
          | .ok script => .ok script
          | .error _ => .error (failed "parse")

/-- The line for a sample. -/
def sampleLine (s : Sample Float) : String :=
  (Format.writeSample Format.number s).compact

/-- The line for the final values of a simulation. -/
def finalLine (s : Simulation Float) : String :=
  (Format.attributeMap (Format.value Format.number)).compact s.final

/-- The note that closes a simulation. -/
def closingNote (s : Simulation Float) : String :=
  let last := (s.samples.getLast?.map Sample.t).getD 0.0
  "simulated " ++ toString s.samples.length ++ " frames (" ++ Decimal.fixed 3 last ++ "s)"

/-- Lines as a text. -/
def lines (ls : List String) : String :=
  String.join (ls.map (· ++ "\n"))

namespace Request

/-- The file that a request reads, if it reads one. -/
def path? : Request → Option String
  | .simulate path _ _ | .check path => some path
  | .version | .help => none

/-- Answer a request, given what is found under the path of its file. -/
def answer (request : Request) (contents : Contents) : Result :=
  match request with
  | .version => { exitCode := 0, output := lines [versionLine] }
  | .help => { exitCode := 0, output := usage }
  | .check path =>
      match loadScript path contents with
      | .error message => failure message
      | .ok script => { exitCode := 0, output := lines [script.pretty] }
  | .simulate path fps finalOnly =>
      match loadScript path contents with
      | .error message => failure message
      | .ok script =>
          match script.simulate fps with
          | .error problem => failure problem.fault.message
          | .ok simulation =>
              let output :=
                if finalOnly then [finalLine simulation] else simulation.samples.map sampleLine
              { exitCode := 0, output := lines output, notes := [closingNote simulation] }

end Request

/-- Answer the arguments of a run; those that are not understood are refused with code 2. -/
def run (args : List String) (contents : String → Contents) : Result :=
  match Request.parse? args with
  | none => { exitCode := 2, notes := [usage] }
  | some request => request.answer ((request.path?.map contents).getD .absent)

end LayerAnimation.CommandLine
