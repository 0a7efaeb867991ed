import MiniJava.Text.Blank
import MiniJava.Text.Integer
import MiniJava.Token

/-!
# Diagnostics

A message about a source, and how it is shown: its place, the line of the source, and a caret
under the column.  A message without a place is shown at the only place where the source text it
quotes occurs, if there is just one.

* **`Diagnostic`** — a message with a place, or with the source text it is about.
* **`Diagnostic.format`** — how it is shown.
* **`Diagnostic.locate`** — the place of a fragment that occurs only once.
* **`Diagnostic.ofTagged`** — a message whose place is written in front of it.
-/

namespace MiniJava

/-- A message with its place in front, if it has one. -/
def placed (line column : Int) (message : Bytes) : Bytes :=
  if 0 < line then Position.tag line column message else message

/-- A message followed by the source text it is about. -/
def quoting (message context : Bytes) : Bytes :=
  if context.isEmpty then message else message ++ " (at \x60" ++ context ++ "\x60)"

/-- A message about a source.  A line of 0 or less is no place. -/
structure Diagnostic where
  message : Bytes
  /-- The source text it is about, or nothing. -/
  context : Bytes
  line : Int
  column : Int
  deriving DecidableEq, Repr

namespace Diagnostic

/-! ### Finding a fragment -/

/-- The lines of a source. -/
def linesOf (source : Bytes) : List Bytes := source.splitOn '\n'

/-- A line without its blanks and tabs and without blank space at its ends. -/
def squeeze (s : Bytes) : Bytes := (s.trim.without ' ').without '\t'

/-- The lines that say the same as a fragment up to spacing, with their numbers from 0. -/
def equalLines (source fragment : Bytes) : List (Bytes × Nat) :=
  (linesOf source).zipIdx.filter fun (line, _) => squeeze line == squeeze fragment

/-- The column of a fragment in a line that says the same, from 0: where it stands as it is, or
else the first column that is not blank. -/
def columnIn (line fragment : Bytes) : Nat :=
  match Bytes.find? fragment.trim line with
  | some column => column
  | none => (line.takeWhile fun (c : UInt8) => c == ' ' || c == '\t').length

/-- The places in a source where one of the fragments first occurs in a line, from line 1 and
column 1. -/
def occurrences (source : Bytes) (fragments : List Bytes) : List (Nat × Nat) :=
  (linesOf source).zipIdx.flatMap fun (line, n) =>
    fragments.filterMap fun f =>
      if f.isEmpty then none else (Bytes.find? f line).map fun column => (n + 1, column + 1)

/-- The line and column of a fragment, if there is only one: the line that says the same, or else
the only place where it occurs.  Backquotes around a fragment may be left out. -/
def locate (source context : Bytes) : Option (Nat × Nat) :=
  let fragment := context.trim
  let bare := fragment.trimByte '\x60'
  if fragment.isEmpty then none
  else
    match equalLines source bare with
    | [(line, n)] => some (n + 1, columnIn line bare + 1)
    | _ =>
        match occurrences source (if bare == fragment then [fragment] else [fragment, bare]) with
        | [place] => some place
        | _ => none

/-! ### Showing a diagnostic -/

/-- The place of a diagnostic: its own, or that of the text it is about. -/
def place (source : Bytes) (d : Diagnostic) : Int × Int :=
  if 0 < d.line then (d.line, d.column)
  else
    match locate source d.context with
    | some (line, column) => (line, column)
    | none => (d.line, d.column)

/-- What stands in front of a caret under the given column: as much space as there is text, with
tabs where the text has them. -/
def padding (text : Bytes) (column : Int) : Bytes :=
  (text.take (column - 1).toNat).map fun (c : UInt8) => if c == '\t' then c else ' '

/-- How a diagnostic is shown. -/
def format (source : Bytes) (d : Diagnostic) : Bytes :=
  let (line, column) := d.place source
  if line ≤ 0 then quoting d.message d.context
  else
    let headline := Position.tag line column d.message
    match (linesOf source)[(line - 1).toNat]? with
    | none => headline
    | some text =>
        let text := text.dropEndWhile (· == '\r')
        headline ++ "\n    " ++ text ++ "\n    " ++ padding text column ++ "^"

/-! ### Reading a place -/

/-- The diagnostic of a text that starts with `line:column: `; any other text is a message without
a place. -/
def ofTagged (text : Bytes) : Diagnostic :=
  let whole : Diagnostic := ⟨text, [], 0, 0⟩
  match Bytes.find? ": " text with
  | none => whole
  | some n =>
      match Bytes.cut ':' (text.take n) with
      | none => whole
      | some (line, column) =>
          match Integer.plain? line, Integer.plain? column with
          | some line, some column => ⟨text.drop (n + 2), [], line, column⟩
          | _, _ => whole

end Diagnostic

end MiniJava
