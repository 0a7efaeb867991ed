import MiniJava.Text.Decimal
import MiniJava.Plain.Toml.Grammar

/-!
# Documents

What the statements of a file say together: which fields there are, each in its table, with the
line that it comes from.  No field is given twice, and none is both a value and a table.

* **`Document`** — fields in the order in which they were first mentioned.
* **`Document.openTable`**, **`Document.openFurther`** — the two kinds of header.
* **`Document.ofText`** — the document of a text, or the first thing that is wrong with it.
-/

namespace MiniJava.Toml

/-! ### Faults -/

/-- The kinds of thing that a name can stand for. -/
inductive Role where
  | entry
  | table
  /-- Several tables of one name. -/
  | tables
  /-- A table that is only passed through on the way to another. -/
  | passage
  deriving DecidableEq, Repr

/-- What can be wrong with a text. -/
inductive Fault where
  | malformed
  /-- An escape stands for no character. -/
  | badEscape
  /-- A name would be a `wanted`, but it was made an `already` in the given line. -/
  | conflict (wanted : Role) (name : Bytes) (already : Role) (line : Nat)
  deriving DecidableEq, Repr

/-- What a clash calls the thing that is there already.  Of two entries the first has its line in
hexadecimal, with a `d` after it. -/
def conflictTail (wanted already : Role) (line : Nat) : Bytes :=
  match already, wanted with
  | .entry, .entry => "line " ++ hex line ++ "d"
  | .entry, _ => "line " ++ natural line
  | .tables, _ => "array table in line " ++ natural line
  | _, _ => "table in line " ++ natural line

/-- What a clash calls the thing that is wanted. -/
def Role.label : Role → Bytes
  | entry | passage => "key"
  | table => "table"
  | tables => "array table"

/-- The text of a fault. -/
def Fault.text : Fault → Bytes
  | malformed => "invalid TOML syntax"
  | badEscape => "invalid syntax"
  | conflict .entry name .tables _ =>
      "BUG: key `" ++ name ++ "' is in conflict but it's unknown type `[]*ast.Table'"
  | conflict wanted name already line =>
      wanted.label ++ " `" ++ name ++ "' is in conflict with " ++ conflictTail wanted already line

/-! ### Fields -/

/-- A step into a table: its name, and which of the tables of that name. -/
structure Step where
  name : Bytes
  index : Nat
  deriving DecidableEq, Repr

/-- Where a field is: the way to its table, and its name there. -/
structure Place where
  table : List Step
  name : Bytes
  deriving DecidableEq, Repr

/-- What a field is. -/
inductive Node where
  | entry (v : Value)
  /-- A table; it is `settled` once a header has named it. -/
  | table (settled : Bool)
  | tables (count : Nat)

/-- What kind of thing a field is. -/
def Node.role : Node → Role
  | entry _ => .entry
  | table _ => .table
  | tables _ => .tables

/-- A field with the line that it comes from. -/
structure Field where
  place : Place
  line : Nat
  node : Node

/-- Fields in the order in which they were first mentioned. -/
abbrev Document := List Field

namespace Document

/-- The field at a place. -/
def field? (doc : Document) (p : Place) : Option Field := doc.find? (·.place = p)

/-- The document with a field in place of the one at the same place, or at the end. -/
def put : Document → Field → Document
  | [], f => [f]
  | g :: rest, f => if g.place = f.place then f :: rest else g :: put rest f

/-- The clash of what is wanted in a line with a field that is there. -/
def clash {α : Type} (line : Nat) (wanted : Role) (f : Field) : Except (Nat × Fault) α :=
  .error (line, .conflict wanted f.place.name f.node.role f.line)

/-- Go from a table to the one at the end of a path; tables that are missing on the way are
made. -/
def descend (doc : Document) (line : Nat) (t : List Step) :
    List Bytes → Except (Nat × Fault) (Document × List Step)
  | [] => .ok (doc, t)
  | name :: rest =>
      match doc.field? ⟨t, name⟩ with
      | none => descend (doc.put ⟨⟨t, name⟩, line, .table false⟩) line (t ++ [⟨name, 0⟩]) rest
      | some f =>
          match f.node with
          | .entry _ => clash line .passage f
          | .table _ => descend doc line (t ++ [⟨name, 0⟩]) rest
          | .tables count => descend doc line (t ++ [⟨name, count - 1⟩]) rest

/-- Make the table at the end of a path.  A table that no header has named may be made again. -/
def openTable (doc : Document) (line : Nat) (settled : Bool) (t : List Step) (path : List Bytes) :
    Except (Nat × Fault) (Document × List Step) := do
  let (doc, t) ← doc.descend line t path.dropLast
  let p : Place := ⟨t, path.getLastD []⟩
  let made := (doc.put ⟨p, line, .table settled⟩, t ++ [⟨p.name, 0⟩])
  match doc.field? p with
  | none => .ok made
  | some f =>
      match f.node with
      | .table false => .ok made
      | _ => clash line .table f

/-- Make one more of the tables at the end of a path. -/
def openFurther (doc : Document) (line : Nat) (t : List Step) (path : List Bytes) :
    Except (Nat × Fault) (Document × List Step) := do
  let (doc, t) ← doc.descend line t path.dropLast
  let p : Place := ⟨t, path.getLastD []⟩
  match doc.field? p with
  | none => .ok (doc.put ⟨p, line, .tables 1⟩, t ++ [⟨p.name, 0⟩])
  | some f =>
      match f.node with
      | .tables count => .ok (doc.put ⟨p, f.line, .tables (count + 1)⟩, t ++ [⟨p.name, count⟩])
      | _ => clash line .tables f

/-- Give a name in a table its value. -/
def addEntry (doc : Document) (line : Nat) (t : List Step) (name : Bytes) (v : Value) :
    Except (Nat × Fault) Document :=
  match doc.field? ⟨t, name⟩ with
  | none => .ok (doc.put ⟨⟨t, name⟩, line, .entry v⟩)
  | some f => clash line .entry f

/-! ### Values and statements -/

mutual

/-- Enter the tables that are in the value of a name; in an array they are tables of one name.
The answer says whether there are any. -/
def addValue (doc : Document) (t : List Step) (inArray : Bool) (name : Bytes) :
    Value → Except (Nat × Fault) (Document × Bool)
  | .text line none => .error (line, .badEscape)
  | .array items => addItems doc t name items
  | .table line entries => do
      let path := (splitPath (Utf8.decode name)).map Utf8.encodeAll
      let (doc, inner) ←
        if inArray then doc.openFurther line t path else doc.openTable line false t path
      return (← addEntries doc inner inArray entries, true)
  | _ => .ok (doc, false)

/-- Enter the tables that are in the items of an array. -/
def addItems (doc : Document) (t : List Step) (name : Bytes) :
    List Value → Except (Nat × Fault) (Document × Bool)
  | [] => .ok (doc, false)
  | v :: vs => do
      let (doc, found) ← addValue doc t true name v
      let (doc, more) ← addItems doc t name vs
      return (doc, found || more)

/-- Enter an entry of a table.  A value with tables in it is entered as these. -/
def addOne (doc : Document) (t : List Step) (inArray : Bool) : Entry → Except (Nat × Fault) Document
  | .mk key v line =>
      match key.name with
      | none => .error (key.line, .badEscape)
      | some name => do
          let (doc, found) ← addValue doc t inArray name v
          if found then return doc else doc.addEntry line t name v

/-- Enter the entries of a table. -/
def addEntries (doc : Document) (t : List Step) (inArray : Bool) :
    List Entry → Except (Nat × Fault) Document
  | [] => .ok doc
  | e :: es => do addEntries (← addOne doc t inArray e) t inArray es

end

/-- Enter a statement; `t` is the table it is in. -/
def addStatement (doc : Document) (t : List Step) :
    Statement → Except (Nat × Fault) (Document × List Step)
  | .header line _ none => .error (line, .badEscape)
  | .header line again (some path) =>
      if again then doc.openFurther line [] path else doc.openTable line true [] path
  | .entry e => do return (← doc.addOne t false e, t)

/-- Enter statements one after another. -/
def addAll (doc : Document) (t : List Step) : List Statement → Except (Nat × Fault) Document
  | [] => .ok doc
  | s :: rest => do
      let (doc, t) ← doc.addStatement t s
      addAll doc t rest

/-- The document of a text, or the first thing that is wrong with it and its line. -/
def ofText (source : Bytes) : Except (Nat × Fault) Document :=
  match statements (Utf8.decode source) with
  | .error line => .error (line, .malformed)
  | .ok found => addAll [] [] found

end Document

end MiniJava.Toml
