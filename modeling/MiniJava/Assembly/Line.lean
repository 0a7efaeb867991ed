import MiniJava.Assembly.Instr

/-!
# Lines of assembly

An assembly text line by line: segments, string data, labels, instructions and remarks.

* **`Line`**, **`Code`** — a line, and lines in order.
* **`Code.text`** — the text, each line ended by a line feed.
* **`Literal.escape`** — how a string is written between its quotes.
-/

namespace MiniJava

namespace Literal

/-- How a byte is written in a string literal. -/
def escapeByte (c : UInt8) : Bytes :=
  if c == '\n' then "\\n"
  else if c == '\t' then "\\t"
  else if c == 0 then "\\0"
  else if c == '\\' then "\\\\"
  else if c == '"' then "\\\""
  else [c]

/-- How a string is written between its quotes. -/
def escape (s : Bytes) : Bytes := s.flatMap escapeByte

end Literal

/-- A line of assembly. -/
inductive Line where
  /-- What follows is data. -/
  | data
  /-- What follows is code. -/
  | text
  /-- The label is visible outside. -/
  | global (label : Bytes)
  /-- The bytes of a string and a zero byte, under a label. -/
  | string (label content : Bytes)
  /-- A label for what follows. -/
  | label (name : Bytes)
  /-- An instruction, and what stands after it on its line. -/
  | instr (i : Instr) (remark : Bytes)
  /-- A remark on a line of its own, `indent` columns in. -/
  | remark (indent : Nat) (content : Bytes)
  | blank
  deriving DecidableEq, Repr

/-- The text of a line, without the line feed. -/
def Line.write : Line → Bytes
  | data => ".data"
  | text => ".text"
  | global l => ".globl " ++ l
  | string l s => l ++ ": .asciiz \"" ++ Literal.escape s ++ "\""
  | label l => l ++ ":"
  | instr i r => "    " ++ i.text ++ r
  | remark n s => Bytes.replicate n ' ' ++ "# " ++ s
  | blank => []

/-- Lines of assembly in order. -/
abbrev Code := List Line

/-- The text of lines, each ended by a line feed. -/
def Code.text (c : Code) : Bytes := c.flatMap fun l => (l.write ++ "\n" : Bytes)

end MiniJava
