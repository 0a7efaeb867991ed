import MiniJava.CommandLine.Toolkit
import MiniJava.Plain.Toml.Document

/-!
# Files of settings

A file of settings is a TOML file with a table for each table of settings, in which the settings
have their keys.

* **`ConfigFault`** — what is wrong with a field of such a file.
* **`SettingsFile.decode`** — the settings under those of a file.
* **`SettingsFile.encode`** — settings as such a file.
-/

namespace MiniJava.Plain

open CommandLine
open Toml (Document Field Value)

/-! ### Errors -/

/-- The kinds of value that a file can have. -/
inductive GivenKind where
  | text
  | integer
  | float
  | boolean
  | datetime
  | array
  | table
  | tables
  deriving DecidableEq, Repr

/-- What can be wrong with a field of a file of settings. -/
inductive ConfigFault where
  /-- The file is no document. -/
  | unread (fault : Toml.Fault)
  /-- No setting, or no table, has this name, about which something is said. -/
  | unknownKey (text : Bytes)
  | wrongType (key owner : Bytes) (given : GivenKind) (wanted : Bytes)
  | outOfRange (key owner number : Bytes)
  | badDatetime (key owner written : Bytes) (part : Toml.DatetimeFault)
  deriving DecidableEq, Repr

/-- What the errors call a kind of value. -/
def GivenKind.name : GivenKind → Bytes
  | text => "string"
  | integer => "integer"
  | float => "float"
  | boolean => "boolean"
  | datetime => "datetime"
  | array => "array"
  | table => "table"
  | tables => "array table"

/-- What the errors say a kind of value would be good for. -/
def GivenKind.hint : GivenKind → Bytes
  | array | tables => " (need slice)"
  | table => " (need struct or map)"
  | _ => []

/-- A fault of the field of the given key, and the text of the fault. -/
def fieldText (key owner text : Bytes) : Bytes := "(main." ++ owner ++ "." ++ key ++ ") " ++ text

/-- The text of a fault.  That a table stands for a value is said without the name of the key. -/
def ConfigFault.text : ConfigFault → Bytes
  | unread fault => fault.text
  | unknownKey text => text
  | wrongType key owner given wanted =>
      let text : Bytes := "cannot unmarshal TOML " ++ given.name ++ " into " ++ wanted ++ given.hint
      if given = .table then text else fieldText key owner text
  | outOfRange key owner number =>
      fieldText key owner ("value " ++ number ++ " is out of range for int")
  | badDatetime key owner written part =>
      fieldText key owner ("parsing time \"" ++ written ++ "\": " ++ part.name ++ " out of range")

namespace SettingsFile

/-! ### Names -/

/-- What the errors call the type of a setting. -/
def wantedName : SettingValue → Bytes
  | .text _ => "string"
  | .int _ => "int"
  | .switch _ => "bool"

section

variable (keys : RecordKeys)

/-- The table with a key. -/
def table? (key : Bytes) : Option SettingTable :=
  let record := SettingTable.recordName none
  [SettingTable.build, SettingTable.run].find? fun t =>
    keys.normal record t.name == keys.normal record key

/-- The setting of a table with a key. -/
def setting? (t : SettingTable) (key : Bytes) : Option Setting :=
  let record := SettingTable.recordName (some t)
  Setting.all.find? fun x => x.table = t && keys.normal record x.key == keys.normal record key

/-! ### Settings from a file -/

/-- The kind of a value. -/
def kindOf : Value → GivenKind
  | .text .. => .text
  | .integer _ => .integer
  | .float _ => .float
  | .boolean _ => .boolean
  | .datetime _ => .datetime
  | .array _ => .array
  | .table .. => .table

/-- What is wrong with a value that is not of the type that is wanted.  A date or time that cannot
be is a fault of its own. -/
def mismatch (key owner : Bytes) (v : Value) (wanted : Bytes) : ConfigFault :=
  match v with
  | .datetime d =>
      match d.fault? with
      | some part => .badDatetime key owner d.written part
      | none => .wrongType key owner .datetime wanted
  | _ => .wrongType key owner (kindOf v) wanted

/-- The settings with one of them as a file says. -/
def assign (s : Settings) (x : Setting) (v : Value) : Except ConfigFault Settings :=
  let owner := SettingTable.recordName (some x.table)
  match s.get x, v with
  | .text _, .text _ (some b) => .ok (s.change (fun _ => b) id id x)
  | .switch _, .boolean b => .ok (s.change id id (fun _ => b) x)
  | .int _, .integer ds =>
      match Integer.plain? ds with
      | some n => .ok (s.change id (fun _ => n) id x)
      | none => .error (.outOfRange x.key owner ds)
  | old, v => .error (mismatch x.key owner v (wantedName old))

/-- What a field outside all tables does: it has to be a table of settings. -/
def applyTable (s : Settings) (f : Field) : Except ConfigFault Settings :=
  let key := f.place.name
  match table? keys key with
  | none => .error (.unknownKey (keys.missing (SettingTable.recordName none) key))
  | some t =>
      let wanted := "main." ++ SettingTable.recordName (some t)
      match f.node with
      | .entry v => .error (mismatch key (SettingTable.recordName none) v wanted)
      | .table _ => .ok s
      | .tables _ => .error (.wrongType key (SettingTable.recordName none) .tables wanted)

/-- What a field in a table does: it has to be a setting. -/
def applySetting (s : Settings) (t : SettingTable) (f : Field) : Except ConfigFault Settings :=
  let key := f.place.name
  let owner := SettingTable.recordName (some t)
  match setting? keys t key with
  | none => .error (.unknownKey (keys.missing owner key))
  | some x =>
      match f.node with
      | .entry v => assign s x v
      | .table _ => .error (.wrongType key owner .table (wantedName (s.get x)))
      | .tables _ => .error (.wrongType key owner .tables (wantedName (s.get x)))

/-- What a field does.  Fields of tables inside tables are passed over: a table inside a table is
wrong in itself, and comes before its fields. -/
def apply (s : Settings) (f : Field) : Except ConfigFault Settings :=
  match f.place.table with
  | [] => applyTable keys s f
  | [t] =>
      match table? keys t.name with
      | some t => applySetting keys s t f
      | none => .ok s
  | _ => .ok s

/-- What the fields of a document do one after another; or the first that is wrong. -/
def applyAll (s : Settings) : Document → Except (Nat × ConfigFault) Settings
  | [] => .ok s
  | f :: rest =>
      match apply keys s f with
      | .ok s => applyAll s rest
      | .error fault => .error (f.line, fault)

/-- The settings under those of a document. -/
def decode (content : Bytes) (s : Settings) : Except DecodeError Settings :=
  let inLine (n : Nat) (fault : ConfigFault) : DecodeError :=
    .inLine ("line " ++ natural n ++ ": " ++ fault.text)
  match Document.ofText content with
  | .error (n, fault) => .error (inLine n (.unread fault))
  | .ok doc => (applyAll keys s doc).mapError fun (n, fault) => inLine n fault

/-! ### Settings as a document -/

/-- A value as it is written. -/
def valueText : SettingValue → Bytes
  | .text s => Quoted.quote s
  | .int n => decimal n
  | .switch b => if b then "true" else "false"

/-- A table of settings as it is written. -/
def tableText (s : Settings) (t : SettingTable) : Bytes :=
  let record := SettingTable.recordName (some t)
  let lines := (Setting.all.filter (·.table = t)).flatMap fun x =>
    (keys.ofField record x.key ++ " = " ++ valueText (s.get x) ++ "\n" : Bytes)
  "[" ++ keys.ofField (SettingTable.recordName none) t.name ++ "]\n" ++ lines

/-- Settings as they are written. -/
def encode (s : Settings) : Except Bytes Bytes :=
  .ok (tableText keys s .build ++ "\n" ++ tableText keys s .run)

end

end SettingsFile

end MiniJava.Plain
