import MiniJava.Assembly.Assemble
import MiniJava.CommandLine.Log
import MiniJava.CommandLine.Session
import MiniJava.CommandLine.Settings
import MiniJava.Machine.Run
import MiniJava.Text.Quoted

/-!
# What the command line is built with

The command line reads no arguments, no files of settings and no variables itself, and writes no
lines of its log: it tells a toolkit what there is to be read and written.  A toolkit can be
anything that has the parts below.

* **`AppInfo`** — what there is to be told about commands and flags.
* **`Invocation`** — what a command learns about the arguments.
* **`Failure`** — why a command fails, with what it says about that.
* **`App`** — commands, and what is done for each.
* **`Toolkit`** — all that is taken from elsewhere.
-/

namespace MiniJava.CommandLine

/-! ### Flags and commands -/

/-- The values that a flag takes. -/
inductive FlagKind where
  | text
  | int
  deriving DecidableEq, Repr

/-- A flag. -/
structure Flag where
  /-- The names by which it can be given, with commas between them. -/
  name : Bytes
  kind : FlagKind
  usage : Bytes
  deriving DecidableEq, Repr

/-- What is told about a command. -/
structure CommandInfo where
  name : Bytes
  usage : Bytes
  argsUsage : Bytes
  category : Bytes
  description : Bytes
  flags : List Flag
  deriving DecidableEq, Repr

/-- What is told about all of the commands. -/
structure AppInfo where
  name : Bytes
  usage : Bytes
  hideVersion : Bool
  /-- The flags in front of the command. -/
  flags : List Flag
  commands : List CommandInfo
  deriving DecidableEq, Repr

/-- What a command learns about the arguments.  Flags are asked for by one of their names. -/
structure Invocation where
  /-- The arguments that are no flags. -/
  args : List Bytes
  isSet : Bytes → Bool
  text : Bytes → Bytes
  int : Bytes → Int
  /-- Was a flag given in front of the command? -/
  globalIsSet : Bytes → Bool
  globalText : Bytes → Bytes

/-! ### Failures -/

/-- Why a command fails. -/
inductive Failure where
  /-- The toolkit says what is wrong. -/
  | toolkit (text : Bytes)
  /-- The settings cannot be read or shown. -/
  | settings (text : Bytes)
  /-- There is no such log level. -/
  | logLevel (name reason : Bytes)
  /-- No source was named. -/
  | noInput
  /-- Standard input cannot be read. -/
  | input (reason : Bytes)
  | source (error : PathError)
  /-- The source was rejected, and it was said why. -/
  | rejected
  | output (error : PathError)
  | assembly (error : AsmError)
  | execution (error : Machine.RunError)
  | simulator (error : SimulatorError)
  deriving DecidableEq, Repr

/-- What is still to be said about a failure. -/
def Failure.message? : Failure → Option Bytes
  | toolkit text => some text
  | settings text => some text
  | logLevel name reason => some ("invalid log level " ++ Quoted.quote name ++ ": " ++ reason)
  | noInput => some "no input file"
  | input reason => some ("failed to read stdin: " ++ reason)
  | source e => some e.message
  | rejected => none
  | output e => some ("failed to write assembly: " ++ e.message)
  | assembly e => some ("execution failed: " ++ e.message)
  | execution e => some ("execution failed: " ++ e.message)
  | simulator e => some ("execution failed: " ++ e.message)

/-- What a command comes to. -/
abbrev Result := Except Failure Unit

/-! ### Apps -/

/-- What holds for a command. -/
structure Context where
  settings : Settings
  level : LogLevel
  deriving DecidableEq, Repr

/-- What is done for a command. -/
abbrev Action := Context → Invocation → Session Result

/-- Commands, and what is done for each. -/
structure App where
  info : AppInfo
  /-- What is done for each command, by its name. -/
  actions : List (Bytes × Action)
  /-- What is done without a command. -/
  action : Action
  /-- What comes before everything that is done. -/
  before : Invocation → Session (Except Failure Context)

/-- How an app ends. -/
inductive Ended where
  | returned (result : Result)
  /-- The toolkit ends everything, with an exit code. -/
  | exited (code : Nat)

/-! ### Settings in files and in the environment -/

/-- How the fields of a record and the keys of a document belong together.  Everything depends on
the name of the record. -/
structure RecordKeys where
  /-- The name under which a key is looked for. -/
  normal : Bytes → Bytes → Bytes
  /-- The key that a field is written with. -/
  ofField : Bytes → Bytes → Bytes
  /-- What is said about a key that no field has. -/
  missing : Bytes → Bytes → Bytes

/-- Why a document cannot be read. -/
inductive DecodeError where
  /-- Something is wrong in one line, which the text names. -/
  | inLine (text : Bytes)
  | other (text : Bytes)
  deriving DecidableEq, Repr

/-- How the values of variables are understood.  There is no value if a variable is not set. -/
structure VariableReader where
  /-- The text of a variable, or else the given one. -/
  text : Option Bytes → Bytes → Bytes
  /-- The number of a variable, or else the given one. -/
  int : Option Bytes → Int → Int
  /-- Does the variable say anything? -/
  has : Option Bytes → Bool
  /-- Does the variable say yes? -/
  switch : Option Bytes → Bool

/-! ### Toolkits -/

/-- All that is taken from elsewhere. -/
structure Toolkit where
  /-- Read the arguments and carry out what they say. -/
  run : App → List Bytes → Session Ended
  /-- How an app is used. -/
  appUsage : AppInfo → Bytes
  /-- How the command of a name is used. -/
  commandUsage : AppInfo → Bytes → Bytes
  /-- The settings under those of a document. -/
  decode : RecordKeys → Bytes → Settings → Except DecodeError Settings
  /-- The document of settings; an error says why there is none. -/
  encode : RecordKeys → Settings → Except Bytes Bytes
  variableReader : VariableReader
  /-- The log level of a name; an error says what is wrong with the name. -/
  levelOf : Bytes → Except Bytes LogLevel
  /-- What is written to the log for an event under a level. -/
  logText : LogLevel → LogRecord → Bytes

end MiniJava.CommandLine
