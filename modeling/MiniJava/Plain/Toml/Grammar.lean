import MiniJava.Text.Utf8
import MiniJava.Plain.Toml.Datetime
import MiniJava.Plain.Toml.Reader

/-!
# The grammar of TOML files

A file is a sequence of statements: a header names the table that the entries after it belong to,
and an entry gives a key its value.  After a header entries need not be on lines of their own;
everywhere else a line break ends a statement.  Blanks and remarks are passed over.

* **`Value`**, **`Entry`**, **`Statement`** — what a file says.
* **`Grammar.value`** — the reader of values.
* **`statements`** — what a text says, or the line in which reading stopped.
-/

namespace MiniJava.Toml

/-! ### Statements -/

/-- A key of an entry, with its line; there is no name when an escape in it stands for no
character. -/
structure Key where
  line : Nat
  name : Option Bytes
  deriving DecidableEq, Repr

mutual

/-- A value as a file has it. -/
inductive Value where
  /-- A text that ends in the given line; there is no value when an escape in it stands for no
  character. -/
  | text (line : Nat) (value : Option Bytes)
  /-- An integer of any size, without its underscores. -/
  | integer (written : Bytes)
  | float (written : Bytes)
  | boolean (b : Bool)
  | datetime (d : Datetime)
  | array (items : List Value)
  /-- A table between braces, which opens in the given line. -/
  | table (line : Nat) (entries : List Entry)

/-- A key with its value, and the line in which the value ends. -/
inductive Entry where
  | mk (key : Key) (value : Value) (line : Nat)

end

/-- What a file can say at once. -/
inductive Statement where
  /-- The entries that follow belong to the table of the given path, or, if `again` holds, to a
  further table of that path.  There is no path when an escape in it stands for no character. -/
  | header (line : Nat) (again : Bool) (path : Option (List Bytes))
  | entry (e : Entry)

/-! ### Paths -/

/-- The parts of a path so far: those that are complete and the current one, both in reverse, and
whether a quote is open. -/
structure PathParts where
  complete : List (List Char)
  current : List Char
  quoted : Bool

/-- One more character of a path. -/
def PathParts.push (p : PathParts) (c : Char) : PathParts :=
  if c = '.' ∧ ¬p.quoted then ⟨p.current.reverse :: p.complete, [], false⟩
  else if c = '"' then { p with quoted := !p.quoted }
  else if (c = ' ' ∨ c = '\t') ∧ ¬p.quoted then p
  else { p with current := c :: p.current }

/-- The parts of a path: it is divided at the dots outside quotes, and the quotes and the blanks
outside them are left out. -/
def splitPath (s : List Char) : List (List Char) :=
  let p := s.foldl PathParts.push ⟨[], [], false⟩
  (p.current.reverse :: p.complete).reverse

/-! ### Texts -/

/-- A character of a text, as it stands or as an escape. -/
inductive Glyph where
  | plain (c : Char)
  | escape (value : Option Char)
  deriving DecidableEq, Repr

/-- The character that is meant. -/
def Glyph.char? : Glyph → Option Char
  | plain c => some c
  | escape value => value

/-- The bytes of a text, if all its escapes stand for characters. -/
def textOf (s : List Glyph) : Option Bytes := (s.mapM Glyph.char?).map Utf8.encodeAll

/-- A text of several lines without the line breaks at its front. -/
def dropBreaks (s : List Char) : List Char := s.dropWhile isBreak

namespace Grammar

open Reader

/-! ### Blanks -/

/-- Is the character a blank or a tab? -/
def isGap (c : Char) : Bool := c = ' ' || c = '\t'

/-- Can the character stand in a remark, or in a text without escapes? -/
def isVisible (c : Char) : Bool := c = '\t' || ' ' ≤ c

/-- The character `c`. -/
def char (c : Char) : Reader Char := satisfy (· = c)

/-- Blanks and tabs. -/
def gap : Reader Unit := construct do discard (takeWhile isGap)

/-- Line breaks, at least one. -/
def newline : Reader (List Char) := construct do
  let c ← satisfy isBreak
  return c :: (← takeWhile isBreak)

/-- Blanks, tabs and line breaks. -/
def wideGap : Reader Unit := construct do discard (takeWhile fun c => isGap c || isBreak c)

/-- A remark. -/
def remark : Reader Unit := construct do
  discard (char '#')
  discard (takeWhile isVisible)

/-- Blanks and perhaps a remark. -/
def lineEnd : Reader Unit := do
  gap
  discard (optional remark)

/-! ### Numbers -/

/-- The value of a digit. -/
def digit : Reader Nat := construct do return (← satisfy Char.isDigit).toNat - '0'.toNat

/-- A digit that follows another. -/
def furtherDigit : Reader Nat := digit <|> do
  discard (char '_')
  digit

/-- Is the character a sign? -/
def isSign (c : Char) : Bool := c = '-' || c = '+'

/-- A number without a sign: more than one digit do not start with zero. -/
def natural (bound : Nat) : Reader Unit := construct <|
  (do
    discard (satisfy fun c => c.isDigit && c != '0')
    discard (many1 bound furtherDigit)) <|>
  discard digit

/-- A number with or without a sign. -/
def integer (bound : Nat) : Reader Unit := construct do
  discard (optional (satisfy isSign))
  natural bound

/-- Digits with single underscores between them. -/
def digits (bound : Nat) : Reader Unit := do
  discard digit
  discard (many bound furtherDigit)

/-- The digits after a point. -/
def fraction (bound : Nat) : Reader Unit := construct do
  discard (char '.')
  digits bound

/-- A power of ten. -/
def exponent (bound : Nat) : Reader Unit := construct do
  discard (satisfy fun c => c = 'e' || c = 'E')
  discard (optional (satisfy isSign))
  digits bound

/-- A number with a fraction, an exponent or both. -/
def float (bound : Nat) : Reader Unit := construct do
  integer bound
  (do
    fraction bound
    discard (optional (exponent bound))) <|> do
    discard (optional (fraction bound))
    exponent bound

/-- Digits without the underscores between them. -/
def withoutUnderscores (s : List Char) : Bytes := Utf8.encodeAll (s.filter (· != '_'))

/-! ### Dates and times -/

/-- A number of two digits. -/
def twoDigits : Reader Nat := construct do return 10 * (← digit) + (← digit)

/-- A number of four digits. -/
def fourDigits : Reader Nat := construct do return 100 * (← twoDigits) + (← twoDigits)

/-- A date. -/
def date : Reader Date := construct do
  let year ← fourDigits
  discard (char '-')
  let month ← twoDigits
  discard (char '-')
  return ⟨year, month, ← twoDigits⟩

/-- A time of the day. -/
def time (bound : Nat) : Reader Time := construct do
  let hour ← twoDigits
  discard (char ':')
  let minute ← twoDigits
  discard (char ':')
  let second ← twoDigits
  discard <| optional <| construct do
    discard (char '.')
    discard (many1 bound digit)
  return ⟨hour, minute, second⟩

/-- The distance from Universal Time. -/
def clockOffset : Reader ClockOffset := construct <|
  (do
    discard (char 'Z')
    return ⟨0, 0⟩) <|> do
    discard (satisfy isSign)
    let hour ← twoDigits
    discard (char ':')
    return ⟨hour, ← twoDigits⟩

/-- A time of the day with its distance from Universal Time. -/
def clock (bound : Nat) : Reader (Time × ClockOffset) := construct do
  return (← time bound, ← clockOffset)

/-- A date, a time or both, still without its text. -/
def datetime (bound : Nat) : Reader Datetime := construct <|
  (do
    let d ← date
    let t ← optional do
      discard (char 'T')
      clock bound
    return ⟨[], d, t.map (·.1), t.map (·.2)⟩) <|> do
    return ⟨[], none, some (← time bound), none⟩

/-! ### Texts -/

/-- The character that an escape of one letter stands for. -/
def escaped? (c : Char) : Option Char :=
  if c = 'b' then some '\x08'
  else if c = 't' then some '\t'
  else if c = 'n' then some '\n'
  else if c = 'f' then some '\x0c'
  else if c = 'r' then some '\r'
  else if c = '"' || c = '\\' then some c
  else none

/-- The character of the given number, if there is one. -/
def charOf? (n : Nat) : Option Char := if n.isValidChar then some (Char.ofNat n) else none

/-- The value of a hexadecimal digit. -/
def hexValue (c : Char) : Nat :=
  if c.isDigit then c.toNat - '0'.toNat
  else if c.isUpper then c.toNat - 'A'.toNat + 10
  else c.toNat - 'a'.toNat + 10

/-- A hexadecimal digit. -/
def hexDigit : Reader Nat := construct do
  return hexValue (← satisfy fun c => c.isDigit || ('a' ≤ c && c ≤ 'f') || ('A' ≤ c && c ≤ 'F'))

/-- Four hexadecimal digits. -/
def hexQuad : Reader Nat := construct do
  let a ← hexDigit
  let b ← hexDigit
  let c ← hexDigit
  return ((a * 16 + b) * 16 + c) * 16 + (← hexDigit)

/-- The mark of an escape. -/
def escapeMark : Reader Unit := construct do discard (char '\\')

/-- What follows the mark of an escape.  The escape of a stroke is read, but it stands for no
character. -/
def escapeBody : Reader Glyph :=
  (do return .escape (escaped? (← satisfy (· ∈ ['b', 't', 'n', 'f', 'r', '"', '/', '\\'])))) <|>
  (do
    discard (char 'u')
    return .escape (charOf? (← hexQuad))) <|> do
    discard (char 'U')
    let high ← hexQuad
    return .escape (charOf? (high * 65536 + (← hexQuad)))

/-- A character between double quotes. -/
def glyph : Reader Glyph := construct <|
  (do return .plain (← satisfy fun c => ' ' ≤ c && c != '"' && c != '\\')) <|> do
    escapeMark
    escapeBody

/-- A text between double quotes. -/
def quotedText (bound : Nat) : Reader (Option Bytes) := construct do
  discard (char '"')
  let s ← many bound glyph
  discard (char '"')
  return textOf s

/-- A part of a text between threefold double quotes: a character, line breaks, or a mark at the
end of a line that joins it to the next word. -/
def longPart : Reader (List Glyph) :=
  (do return [← glyph]) <|>
  (do return (← newline).map .plain) <|> do
    escapeMark
    discard newline
    wideGap
    return []

/-- Is this a line break as it stands? -/
def isPlainBreak : Glyph → Bool
  | .plain c => isBreak c
  | .escape _ => false

/-- A text between threefold double quotes. -/
def longQuotedText (bound : Nat) : Reader (Option Bytes) := construct do
  discard (exactly "\"\"\"".toList)
  let parts ← construct (many bound (construct longPart))
  discard (exactly "\"\"\"".toList)
  return textOf (parts.flatten.dropWhile isPlainBreak)

/-- A text between single quotes, which has no escapes. -/
def rawText : Reader (Option Bytes) := construct do
  discard (char '\'')
  let s ← construct (takeWhile fun c => isVisible c && c != '\'')
  discard (char '\'')
  return some (Utf8.encodeAll s)

/-- A text between threefold single quotes. -/
def longRawText (bound : Nat) : Reader (Option Bytes) := construct do
  discard (exactly "'''".toList)
  let s ← construct <| many bound do
    notAt "'''".toList
    construct (satisfy fun c => isVisible c || isBreak c)
  discard (exactly "'''".toList)
  return some (Utf8.encodeAll (dropBreaks s))

/-- A text. -/
def text (bound : Nat) : Reader (Option Bytes) :=
  longRawText bound <|> rawText <|> longQuotedText bound <|> quotedText bound

/-- A truth value. -/
def boolean : Reader Bool := construct <|
  (do
    exactly "true".toList
    return true) <|> do
    exactly "false".toList
    return false

/-! ### Keys -/

/-- Can the character stand in a key without quotes? -/
def isKeyChar (c : Char) : Bool := c.isAlphanum || c = '-' || c = '_'

/-- The name that a key stands for. -/
def keyName (bound : Nat) : Reader (Option Bytes) := construct <|
  (do
    let c ← satisfy isKeyChar
    return some (Utf8.encodeAll (c :: (← takeWhile isKeyChar)))) <|> do
    discard (char '"')
    let s ← many1 bound glyph
    discard (char '"')
    return textOf s

/-- A key. -/
def key (bound : Nat) : Reader Key := do
  let name ← keyName bound
  return ⟨(← place).line, name⟩

/-- A key and its value; `value` reads values. -/
def entry (bound : Nat) (value : Reader Value) : Reader Entry := construct do
  let k ← key bound
  gap
  discard (char '=')
  gap
  let v ← value
  return ⟨k, v, (← place).line⟩

/-! ### Values -/

/-- A value that has no other values in it. -/
def simpleValue (bound : Nat) : Reader Value :=
  (do
    let (d, s) ← spelled (datetime bound)
    return .datetime { d with written := Utf8.encodeAll s }) <|>
  (do
    let (_, s) ← spelled (float bound)
    return .float (withoutUnderscores s)) <|>
  (do
    let (_, s) ← spelled (integer bound)
    return .integer (withoutUnderscores s)) <|>
  (do
    let s ← text bound
    return .text (← place).line s) <|> do
    return .boolean (← boolean)

/-- Blanks, line breaks and perhaps a remark. -/
def wideRemark : Reader Unit := do
  wideGap
  discard (optional remark)

/-- The mark between the values of an array. -/
def comma : Reader Unit := construct do discard (char ',')

/-- The values of an array. -/
def items (bound : Nat) (value : Reader Value) : Reader (List Value) := construct do
  let first ← value
  let rest ← many bound do
    wideRemark
    wideGap
    comma
    wideRemark
    wideGap
    value
  wideGap
  discard (optional comma)
  wideRemark
  return first :: rest

/-- An array. -/
def array (bound : Nat) (value : Reader Value) : Reader Value := construct do
  discard (char '[')
  wideGap
  let vs ← optional (items bound value)
  wideGap
  discard (char ']')
  return .array (vs.getD [])

/-- A table between braces.  A comma may stand after every entry. -/
def inlineTable (bound : Nat) (value : Reader Value) : Reader Value := construct do
  discard (char '{')
  let line := (← place).line
  gap
  let es ← construct <| many bound do
    let e ← entry bound value
    discard <| optional <| construct do
      gap
      discard (char ',')
      gap
    return e
  gap
  discard (char '}')
  return .table line es

/-- A value with at most `depth` values around each other. -/
def value (bound : Nat) : (depth : Nat) → Cursor → Reading Value
  | 0, c => fail c
  | depth + 1, c =>
      (simpleValue bound <|> array bound (value bound depth) <|>
        inlineTable bound (value bound depth)) c

/-! ### Statements -/

/-- Keys with dots between them. -/
def keyNames (bound : Nat) : Reader (List (Option Bytes)) := construct do
  let first ← keyName bound
  let rest ← many bound do
    construct do
      gap
      discard (char '.')
      gap
    keyName bound
  return first :: rest

/-- The path of a table. -/
def path (bound : Nat) : Reader (Option (List Bytes)) := do
  let (names, s) ← spelled (keyNames bound)
  return if names.all Option.isSome then some ((splitPath s).map Utf8.encodeAll) else none

/-- A header between the brackets `left` and `right`. -/
def headerBetween (bound : Nat) (left right : List Char) (again : Bool) : Reader Statement :=
  construct do
    exactly left
    gap
    let p ← path bound
    gap
    exactly right
    return .header (← place).line again p

/-- A header. -/
def header (bound : Nat) : Reader Statement :=
  headerBetween bound ['['] [']'] false <|> headerBetween bound ['[', '['] [']', ']'] true

/-- A header and the entries right after it, or one entry, or nothing. -/
def paragraph (bound : Nat) : Reader (List Statement) := construct <|
  (construct do
    gap
    let h ← header bound
    lineEnd
    let es ← many bound do
      wideGap
      let e ← entry bound (value bound bound)
      lineEnd
      return Statement.entry e
    return h :: es) <|>
  (do
    gap
    let e ← entry bound (value bound bound)
    lineEnd
    return [.entry e]) <|> do
    lineEnd
    return []

/-- A file. -/
def file (bound : Nat) : Reader (List Statement) := do
  let first ← paragraph bound
  let rest ← many bound do
    discard newline
    paragraph bound
  return first ++ rest.flatten

end Grammar

/-- What a text says, or the line in which reading stopped. -/
def statements (s : List Char) : Except Nat (List Statement) :=
  match Grammar.file s.length (.start s) with
  | ⟨some (found, c), reach⟩ => if c.rest.isEmpty then .ok found else .error (max 1 reach)
  | ⟨none, reach⟩ => .error (max 1 reach)

end MiniJava.Toml
