import MiniJava.CommandLine.Log
import MiniJava.Text.Decimal
import MiniJava.Text.Utf8

/-!
# Lines of a log

One line for each event: fields `key=value`, of which the level, the message and the part that the
event comes from are the first.  Events below the chosen level are left out.

* **`Logfmt.levelOf`** — the level of a name.
* **`Logfmt.text`** — the line of an event, if the chosen level lets it through.
-/

namespace MiniJava.Plain.Logfmt

open CommandLine

/-! ### Levels -/

/-- The number of a level: the more important, the smaller. -/
def rank : LogLevel → Nat
  | .critical => 0
  | .error => 1
  | .warning => 2
  | .info => 3
  | .debug => 4

/-- The name of a level in a line. -/
def name : LogLevel → Bytes
  | .critical => "crit"
  | .error => "eror"
  | .warning => "warn"
  | .info => "info"
  | .debug => "dbug"

/-- The level of the given name, or what is wrong with the name. -/
def levelOf (s : Bytes) : Except Bytes LogLevel :=
  if s == "debug" || s == "dbug" then .ok .debug
  else if s == "info" then .ok .info
  else if s == "warn" then .ok .warning
  else if s == "error" || s == "eror" then .ok .error
  else if s == "crit" then .ok .critical
  else .error ("Unknown level: " ++ s)

/-! ### Values -/

/-- Does a value with this byte have to stand between quotes? -/
def needsQuotes (c : UInt8) : Bool := c ≤ ' ' || c == '=' || c == '"'

/-- The escape of a byte, if it has one. -/
def escape? (c : UInt8) : Option Bytes :=
  if c == '\\' then some "\\\\"
  else if c == '"' then some "\\\""
  else if c == '\n' then some "\\n"
  else if c == '\r' then some "\\r"
  else if c == '\t' then some "\\t"
  else none

/-- How one item of a text is written; what is no character becomes the replacement character. -/
def item : UInt8 × Option Char → Bytes
  | (c, some ch) => (escape? c).getD (Utf8.encode ch)
  | (_, none) => Utf8.replacement

/-- A text as it is written: as it is if nothing in it asks for quotes or escapes. -/
def quoted (s : Bytes) : Bytes :=
  let escaped := (Utf8.chars s).flatMap item
  if s.any needsQuotes then "\"" ++ escaped ++ "\""
  else if s.any fun c => (escape? c).isSome then escaped
  else s

/-- A value as it is written. -/
def value : LogValue → Bytes
  | .text s => quoted s
  | .int n => decimal n

/-! ### Lines -/

/-- The line of a record. -/
def line (r : LogRecord) : Bytes :=
  let fields : List (Bytes × LogValue) :=
    ("lvl", .text (name r.level)) :: ("msg", .text r.message) :: ("pkg", .text r.part) :: r.fields
  Bytes.join " " (fields.map fun (key, v) => key ++ "=" ++ value v) ++ "\n"

/-- The line of a record if the given level lets it through. -/
def text (level : LogLevel) (r : LogRecord) : Bytes :=
  if rank r.level ≤ rank level then line r else []

end MiniJava.Plain.Logfmt
