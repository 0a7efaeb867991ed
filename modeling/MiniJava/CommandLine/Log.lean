import MiniJava.Compile.Generator
import MiniJava.Machine.State

/-!
# The log

What the compiler says about its own work: an event is a message with fields, and has a level.

* **`LogLevel`** — the levels.
* **`LogRecord`** — an event with its fields.
* **`eventRecord`**, **`allocationRecord`**, **`exitRecord`**, **`startRecord`**,
  **`writtenRecord`** — the events of the generator, the machine and the commands.
-/

namespace MiniJava.CommandLine

/-- The levels, the most important one first. -/
inductive LogLevel where
  | critical
  | error
  | warning
  | info
  | debug
  deriving DecidableEq, Repr

/-- A value of a field. -/
inductive LogValue where
  | text (s : Bytes)
  | int (n : Int)
  deriving DecidableEq, Repr

/-- An event that can be logged. -/
structure LogRecord where
  level : LogLevel
  message : Bytes
  /-- The part of the compiler that it comes from. -/
  part : Bytes
  /-- The fields, each with its key. -/
  fields : List (Bytes × LogValue)
  deriving DecidableEq, Repr

/-- The record of an event of the generator. -/
def eventRecord : GenEvent → LogRecord
  | .method cls method label params locals =>
      ⟨.debug, "emit method", "codegen",
        [("class", .text cls), ("method", .text method), ("label", .text label),
         ("params", .int params), ("locals", .int locals)]⟩
  | .failed message line column =>
      ⟨.debug, "generation failed", "codegen",
        [("err", .text message), ("line", .int line), ("col", .int column)]⟩
  | .finished classes labels bytes =>
      ⟨.debug, "generated program", "codegen",
        [("classes", .int classes), ("labels", .int labels), ("bytes", .int bytes)]⟩

/-- The record of a block that a program allocated. -/
def allocationRecord (a : Machine.Allocation) : LogRecord :=
  ⟨.debug, "sbrk", "mips",
    [("bytes", .int a.size), ("addr", .text (Machine.addressText a.address))]⟩

/-- The record of a program that ended itself. -/
def exitRecord (s : Machine.State) : LogRecord :=
  ⟨.debug, "program exited", "mips", [("steps", .int s.steps), ("heap", .int s.memory.heap.size)]⟩

/-- The record of the start of a program. -/
def startRecord (maxSteps stackBytes heapBytes : Int) : LogRecord :=
  ⟨.debug, "Running on simulator", "cli",
    [("maxsteps", .int maxSteps), ("stack", .int stackBytes), ("heap", .int heapBytes)]⟩

/-- The record of assembly that was written to a file. -/
def writtenRecord (path : Bytes) (bytes : Nat) : LogRecord :=
  ⟨.info, "Wrote assembly", "cli", [("path", .text path), ("bytes", .int bytes)]⟩

end MiniJava.CommandLine
