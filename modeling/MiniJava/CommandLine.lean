import MiniJava.CommandLine.Toolkit
import MiniJava.Compile

/-!
# The command line

The commands of the compiler: `build` writes the assembly of a source, `run` executes it, and
`dumpconfig` shows the settings.  Without a command, a source is built.

* **`makeSettings`**, **`setup`** — what holds for a command.
* **`build`**, **`runSource`**, **`dumpConfig`** — the commands.
* **`app`** — all of them together, as the toolkit is told of them.
* **`session`** — what the compiler does with its arguments; the result is the exit code.

Settings are taken from the defaults, then from a file, then from the environment, and last from
flags.
-/

namespace MiniJava.CommandLine

/-! ### Flags and commands -/

namespace Flag

/-- The file of settings. -/
def config : Flag := ⟨"config", .text, "TOML configuration file"⟩

def logLevel : Flag := ⟨"loglevel", .text, "Log level (debug, info, warn, error, crit)"⟩

/-- Where assembly is written. -/
def output : Flag :=
  ⟨"output, o", .text, "Assembly output path (default: input name with .s)"⟩

/-- The external simulator to use. -/
def spim : Flag :=
  ⟨"spim", .text, "Run under this spim binary instead of the built-in simulator"⟩

/-- How many instructions a program may execute. -/
def maxSteps : Flag := ⟨"maxsteps", .int, "Simulator instruction limit (0 = unlimited)"⟩

end Flag

namespace CommandInfo

def build : CommandInfo where
  name := "build"
  usage := "Compile a MiniJava file to SPIM assembly"
  argsUsage := "<file.java | ->"
  category := []
  description := "\nCompiles the program and writes the assembly next to the input, or to the\n" ++
    "path given with --output. \"-\" reads the program from standard input and\n" ++
    "writes the assembly to standard output unless --output is set."
  flags := [Flag.output]

def run : CommandInfo where
  name := "run"
  usage := "Compile a MiniJava file and execute it"
  argsUsage := "<file.java | ->"
  category := []
  description := "\nRuns the compiled program on the built-in MIPS simulator. With --spim or\n" ++
    "MJC_SPIM the program is handed to an external spim binary instead."
  flags := [Flag.spim, Flag.maxSteps]

def dumpConfig : CommandInfo where
  name := "dumpconfig"
  usage := "Show configuration values"
  argsUsage := []
  category := "MISCELLANEOUS COMMANDS"
  description := "The dumpconfig command shows configuration values."
  flags := []

end CommandInfo

/-- What is told about the commands. -/
def AppInfo.compiler : AppInfo where
  name := "minijavac"
  usage := "MiniJava to MIPS compiler"
  hideVersion := true
  flags := [Flag.config, Flag.logLevel, Flag.output]
  commands := [.build, .run, .dumpConfig]

/-! ### Settings -/

namespace Settings

/-- The settings of a record have the names of its fields as keys, and no other keys are known. -/
def keys : RecordKeys where
  normal _ key := key
  ofField _ field := field
  missing record key := "unknown config key " ++ Quoted.quote key ++ " in " ++ record

variable (kit : Toolkit)

/-- The settings under those of the file at a path. -/
def load (path : Bytes) (s : Settings) : Session (Except Failure Settings) := do
  match ← Session.contentOf path with
  | .error e => return .error (.settings e.message)
  | .ok content =>
      match kit.decode keys content s with
      | .ok s => return .ok s
      | .error (.inLine text) => return .error (.settings (path ++ ", " ++ text))
      | .error (.other text) => return .error (.settings text)

/-- The settings under the variable of one of them. -/
def overlayOne (s : Settings) (x : Setting) (value : Option Bytes) : Settings :=
  let read := kit.variableReader
  s.change (read.text value) (read.int value)
    (fun b => if read.has value then read.switch value else b) x

/-- The settings under the variables of the environment. -/
def overlay (s : Settings) : List Setting → Session Settings
  | [] => return s
  | x :: xs => do overlay (s.overlayOne kit x (← Session.variableOf x.variableName)) xs

end Settings

variable (kit : Toolkit)

/-- The settings under those of the file at a path, if there is a path. -/
def fileSettings (path : Bytes) : Session (Except Failure Settings) :=
  if path.isEmpty then return .ok .default else Settings.load kit path .default

/-- The settings that hold. -/
def makeSettings (inv : Invocation) : Session (Except Failure Settings) := do
  match ← fileSettings kit (inv.globalText "config") with
  | .error e => return .error e
  | .ok s =>
      let s ← s.overlay kit Setting.all
      return .ok { s with
        logLevel := if inv.globalIsSet "loglevel" then inv.globalText "loglevel" else s.logLevel }

/-- What holds for a command. -/
def setup (inv : Invocation) : Session (Except Failure Context) := do
  match ← makeSettings kit inv with
  | .error e => return .error e
  | .ok s =>
      match kit.levelOf s.logLevel with
      | .ok level => return .ok ⟨s, level⟩
      | .error reason => return .error (.logLevel s.logLevel reason)

/-- Log events. -/
def Context.log (c : Context) (records : List LogRecord) : Session Unit :=
  Session.complain (records.flatMap (kit.logText c.level))

/-! ### Sources -/

/-- The path that stands for standard input. -/
def inputPath : Bytes := "-"

/-- The name and the text of a source. -/
def readSource (path : Bytes) : Session (Except Failure (Bytes × Bytes)) := do
  if path == inputPath then
    match ← Session.input with
    | .ok source => return .ok ("<stdin>", source)
    | .error reason => return .error (.input reason)
  else
    match ← Session.contentOf path with
    | .ok source => return .ok (path, source)
    | .error e => return .error (.source e)

/-- The assembly of a source, or else its diagnostics on standard error. -/
def compileSource (c : Context) (name source : Bytes) : Session (Except Failure Bytes) := do
  let (result, g) := Generator.fresh.compile source
  c.log kit (g.events.map eventRecord)
  match result with
  | .ok code => return .ok code
  | .error e =>
      Session.complain (e.report name source)
      return .error .rejected

/-- The assembly of the source at a path. -/
def compilePath (c : Context) (path : Bytes) : Session (Except Failure Bytes) := do
  match ← readSource path with
  | .ok (name, source) => compileSource kit c name source
  | .error e => return .error e

/-! ### Building -/

/-- The path of the assembly of a source: its extension, from the last dot after the last slash,
becomes `.s`. -/
def outputPath (path : Bytes) : Bytes :=
  match Bytes.cut '.' (path.reverse.takeWhile (· != '/')) with
  | some (extension, _) => path.take (path.length - extension.length - 1) ++ ".s"
  | none => path ++ ".s"

/-- Where the flags and settings say that assembly is written. -/
def chosenOutput (s : Settings) (inv : Invocation) : Bytes :=
  if inv.isSet "output" then inv.text "output"
  else if inv.globalIsSet "output" then inv.globalText "output"
  else s.output

/-- Write assembly to a file. -/
def writeCode (c : Context) (path code : Bytes) : Session Result := do
  match ← Session.store path code with
  | .error e => return .error (.output e)
  | .ok () =>
      c.log kit [writtenRecord path code.length]
      Session.say ("Compiled to: " ++ path ++ "\n")
      return .ok ()

/-- Build the source at a path. -/
def buildPath (c : Context) (inv : Invocation) (path : Bytes) : Session Result := do
  match ← compilePath kit c path with
  | .error e => return .error e
  | .ok code =>
      let output := chosenOutput c.settings inv
      if !output.isEmpty then writeCode kit c output code
      else if path == inputPath then
        Session.say code
        return .ok ()
      else writeCode kit c (outputPath path) code

/-- Build a source. -/
def build : Action := fun c inv => do
  match inv.args with
  | path :: _ => buildPath kit c inv path
  | [] =>
      Session.say (kit.appUsage .compiler)
      return .error .noInput

/-! ### Running -/

/-- Run assembly on the built-in machine. -/
def runCode (c : Context) (s : Settings) (code : Bytes) : Session Result := do
  c.log kit [startRecord s.maxSteps s.stackBytes s.heapBytes]
  match assemble code with
  | .error e => return .error (.assembly e)
  | .ok image =>
      let (status, final) := Machine.run image s.machine false (.start image s.machine none)
      Session.say final.console.output
      c.log kit (final.allocations.reverse.map allocationRecord)
      match status with
      | .failed e => return .error (.execution e)
      | _ =>
          c.log kit [exitRecord final]
          return .ok ()

/-- Run assembly on an external simulator. -/
def runOutside (simulator code : Bytes) : Session Result := do
  match ← Session.outputOf simulator code with
  | .ok output =>
      Session.say output
      return .ok ()
  | .error e => return .error (.simulator e)

/-- Run a source. -/
def runSource : Action := fun c inv => do
  match inv.args with
  | [] =>
      Session.say (kit.commandUsage .compiler CommandInfo.run.name)
      return .error .noInput
  | path :: _ =>
      match ← compilePath kit c path with
      | .error e => return .error e
      | .ok code =>
          let s := { c.settings with
            spim := if inv.isSet "spim" then inv.text "spim" else c.settings.spim
            maxSteps := if inv.isSet "maxsteps" then inv.int "maxsteps" else c.settings.maxSteps }
          if s.spim.isEmpty then runCode kit c s code else runOutside s.spim code

/-! ### All of it -/

/-- Show the settings. -/
def dumpConfig : Action := fun c _ => do
  match kit.encode Settings.keys c.settings with
  | .ok text =>
      Session.say text
      return .ok ()
  | .error reason => return .error (.settings reason)

/-- The commands, as the toolkit is told of them. -/
def app : App where
  info := .compiler
  actions := [(CommandInfo.build.name, build kit), (CommandInfo.run.name, runSource kit),
    (CommandInfo.dumpConfig.name, dumpConfig kit)]
  action := build kit
  before := setup kit

/-- Say what is still to be said about a failure. -/
def Failure.report (e : Failure) : Session Unit :=
  match e.message? with
  | some text => Session.complain (text ++ "\n")
  | none => return ()

/-- What the compiler does with its arguments, to the end; the result is the exit code. -/
def session (args : List Bytes) : Session Nat := do
  match ← kit.run (app kit) args with
  | .exited code => return code
  | .returned (.ok ()) => return 0
  | .returned (.error e) =>
      e.report
      return 1

end MiniJava.CommandLine
