import MiniJava.Machine.State

/-!
# Settings

What can be set once and for all, in a file or in the environment, instead of by a flag each
time.

* **`Setting`** — one thing that can be set: its table and key in a file, its variable.
* **`Settings`** — all of them; `Settings.default` is what holds when nothing is set.
* **`Settings.get`**, **`Settings.change`** — one of them.
-/

namespace MiniJava.CommandLine

/-- A value of a setting. -/
inductive SettingValue where
  | text (s : Bytes)
  | int (n : Int)
  | switch (b : Bool)
  deriving DecidableEq, Repr

/-- The tables that settings are in. -/
inductive SettingTable where
  | build
  | run
  deriving DecidableEq, Repr

/-- The name of a table. -/
def SettingTable.name : SettingTable → Bytes
  | build => "Build"
  | run => "Run"

/-- The names of the records that the settings are kept in: the outer one, and one for each table. -/
def SettingTable.recordName : Option SettingTable → Bytes
  | none => "minijavacConfig"
  | some build => "buildConfig"
  | some run => "runConfig"

/-- The things that can be set. -/
inductive Setting where
  /-- Where assembly is written. -/
  | output
  | logLevel
  /-- How many instructions a program may execute. -/
  | maxSteps
  | stackBytes
  | heapBytes
  /-- Is fresh memory filled with a pattern? -/
  | poison
  /-- The external simulator to use. -/
  | spim
  deriving DecidableEq, Repr

namespace Setting

/-- All settings, in the order in which they are read from the environment. -/
def all : List Setting := [output, logLevel, maxSteps, stackBytes, heapBytes, poison, spim]

/-- The table of a setting. -/
def table : Setting → SettingTable
  | output | logLevel => .build
  | maxSteps | stackBytes | heapBytes | poison | spim => .run

/-- The key of a setting in its table. -/
def key : Setting → Bytes
  | output => "Output"
  | logLevel => "LogLevel"
  | maxSteps => "MaxSteps"
  | stackBytes => "StackBytes"
  | heapBytes => "HeapBytes"
  | poison => "Poison"
  | spim => "Spim"

/-- The variable of a setting. -/
def variableName : Setting → Bytes
  | output => "MJC_OUTPUT"
  | logLevel => "MJC_LOG_LEVEL"
  | maxSteps => "MJC_MAX_STEPS"
  | stackBytes => "MJC_STACK_BYTES"
  | heapBytes => "MJC_HEAP_BYTES"
  | poison => "MJC_POISON"
  | spim => "MJC_SPIM"

end Setting

/-- All settings. -/
structure Settings where
  /-- Where assembly is written; nothing is next to the source. -/
  output : Bytes
  logLevel : Bytes
  maxSteps : Int
  stackBytes : Int
  heapBytes : Int
  poison : Bool
  /-- The external simulator; nothing is the built-in machine. -/
  spim : Bytes
  deriving DecidableEq, Repr

namespace Settings

/-- What holds when nothing is set. -/
def default : Settings where
  output := []
  logLevel := "warn"
  maxSteps := Machine.Config.default.maxSteps
  stackBytes := Machine.Config.default.stackBytes
  heapBytes := Machine.Config.default.heapBytes
  poison := Machine.Config.default.poison
  spim := []

/-- The limits of a run. -/
def machine (s : Settings) : Machine.Config := ⟨s.maxSteps, s.stackBytes.toNat, s.heapBytes, s.poison⟩

/-- The value of a setting. -/
def get (s : Settings) : Setting → SettingValue
  | .output => .text s.output
  | .logLevel => .text s.logLevel
  | .maxSteps => .int s.maxSteps
  | .stackBytes => .int s.stackBytes
  | .heapBytes => .int s.heapBytes
  | .poison => .switch s.poison
  | .spim => .text s.spim

/-- The settings with one of them changed, in the way that its type asks for. -/
def change (s : Settings) (text : Bytes → Bytes) (int : Int → Int) (switch : Bool → Bool) :
    Setting → Settings
  | .output => { s with output := text s.output }
  | .logLevel => { s with logLevel := text s.logLevel }
  | .maxSteps => { s with maxSteps := int s.maxSteps }
  | .stackBytes => { s with stackBytes := int s.stackBytes }
  | .heapBytes => { s with heapBytes := int s.heapBytes }
  | .poison => { s with poison := switch s.poison }
  | .spim => { s with spim := text s.spim }

/-- Only the setting that is changed is another one. -/
theorem get_change_ne (s : Settings) (text : Bytes → Bytes) (int : Int → Int)
    (switch : Bool → Bool) {x y : Setting} (h : y ≠ x) :
    (s.change text int switch x).get y = s.get y := by
  cases x <;> cases y <;> first | rfl | exact absurd rfl h

end Settings

end MiniJava.CommandLine
