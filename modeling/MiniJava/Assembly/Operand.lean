import MiniJava.Assembly.Line
import MiniJava.Text.Blank
import MiniJava.Text.Integer
import MiniJava.Text.Quoted
import MiniJava.Text.Utf8

/-!
# Reading operands

The parts of a line of assembly: registers, numbers, labels and string literals.

* **`Reg.read?`** — `$name` or `$number`.
* **`Immediate.read`** — a number of 32 bits, signed or unsigned.
* **`isLabel`** — what can be a label.
* **`Literal.read`** — the bytes of a string literal.
-/

namespace MiniJava

/-- The register that is written `s`: a dollar sign and a name or a number. -/
def Reg.read? (s : Bytes) : Option Reg :=
  match s with
  | [] => none
  | c :: name =>
      if c == '$' then
        Reg.named? name <|> do
          let n ← Integer.plain? name
          if h : 0 ≤ n ∧ n.toNat < 32 then some ⟨n.toNat, h.2⟩ else none
      else none

/-! ### Numbers -/

namespace Immediate

/-- Why a text is no number of 32 bits. -/
inductive Fault where
  /-- It is no 64-bit integer to begin with. -/
  | unreadable (text : Bytes) (reason : Integer.Fault)
  /-- It does not fit in 32 bits, signed or unsigned. -/
  | tooWide
  deriving DecidableEq, Repr

/-- The text of a reason. -/
def reasonText : Integer.Fault → Bytes
  | .malformed => "invalid syntax"
  | .outOfRange => "value out of range"

/-- The text of a fault. -/
def Fault.message : Fault → Bytes
  | unreadable s reason =>
      "strconv.ParseInt: parsing " ++ Quoted.quote s ++ ": " ++ reasonText reason
  | tooWide => reasonText .outOfRange

/-- A number of 32 bits as a signed one. -/
def toSigned (n : Int) : Int := if 0x80000000 ≤ n then n - 0x100000000 else n

/-- Read a number of 32 bits; one that is too large for a signed number wraps around. -/
def read (s : Bytes) : Except Fault Int :=
  match Integer.literal s with
  | .error reason => .error (.unreadable s reason)
  | .ok n => if -0x80000000 ≤ n ∧ n < 0x100000000 then .ok (toSigned n) else .error .tooWide

/-- Read a number of 32 bits, if there is one. -/
def read? (s : Bytes) : Option Int := (read s).toOption

end Immediate

/-! ### Labels -/

/-- Bytes that can occur in a label. -/
def isLabelByte (c : UInt8) : Bool := isLetter c || isDigit c || c == '_' || c == '$' || c == '.'

/-- Can the text be a label?  Letters, digits, `_`, `$` and `.`, no digit in front, and no
register. -/
def isLabel (s : Bytes) : Bool :=
  match s with
  | [] => false
  | c :: _ => !isDigit c && s.all isLabelByte && (Reg.read? s).isNone

/-! ### String literals -/

namespace Literal

/-- Why a text is no string literal. -/
inductive Fault where
  /-- It does not stand between quotes. -/
  | unquoted (text : Bytes)
  /-- It ends in the middle of an escape. -/
  | dangling (text : Bytes)
  /-- No escape has this byte. -/
  | unknownEscape (byte : UInt8)
  deriving DecidableEq, Repr

/-- The text of a fault. -/
def Fault.message : Fault → Bytes
  | unquoted s => "bad string literal " ++ s
  | dangling s => "dangling escape in " ++ s
  | unknownEscape c => "unknown escape \\" ++ Utf8.ofByte c

/-- The byte that an escape stands for. -/
def unescapeByte? (c : UInt8) : Option UInt8 :=
  if c == 'n' then some '\n'
  else if c == 't' then some '\t'
  else if c == '0' then some 0
  else if c == '\\' || c == '"' then some c
  else none

/-- The bytes that stand between quotes; `whole` is the literal they belong to. -/
def unescape (whole : Bytes) : Bytes → Except Fault Bytes
  | [] => .ok []
  | [c] => if c == '\\' then .error (.dangling whole) else .ok [c]
  | c :: d :: rest =>
      if c == '\\' then
        match unescapeByte? d with
        | some b => return b :: (← unescape whole rest)
        | none => .error (.unknownEscape d)
      else return c :: (← unescape whole (d :: rest))

/-- Read a string literal, with blank space around it. -/
def read (s : Bytes) : Except Fault Bytes :=
  let s := s.trim
  match s with
  | c :: d :: rest =>
      if c == '"' && (d :: rest).getLast? == some '"' then unescape s (d :: rest).dropLast
      else .error (.unquoted s)
  | _ => .error (.unquoted s)

end Literal

end MiniJava
