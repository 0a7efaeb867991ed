import MiniJava.CommandLine.Toolkit
import MiniJava.Text.Integer

/-!
# Flags among arguments

A flag starts with one or two dashes.  Its value is what follows an equals sign, or else the next
argument; a switch needs none.  Flags end at the first argument that is none, or after `--`.

* **`Form`** — a flag by all of its names and the values it takes.
* **`FlagError`** — what is wrong with the flags that were given.
* **`Given`** — the flags that were given, and the arguments after them.
* **`Given.read`** — the flags in front of the arguments.
* **`flagsFirst`** — arguments with the flags among them moved to the front.
-/

namespace MiniJava.Plain

open CommandLine

/-- The values that a form takes. -/
inductive FormKind where
  | text
  | int
  /-- Present or not. -/
  | switch
  deriving DecidableEq, Repr

/-- A value of a flag. -/
inductive FlagValue where
  | text (s : Bytes)
  | int (n : Int)
  | switch (b : Bool)
  deriving DecidableEq, Repr

/-- A flag in all of its forms. -/
structure Form where
  /-- The names by which it can be given. -/
  names : List Bytes
  kind : FormKind
  deriving DecidableEq, Repr

namespace Form

/-- The forms of a flag that is declared: one for each name between its commas. -/
def ofFlag (flag : Flag) : Form where
  names := (List.splitOn ','.toUInt8 flag.name).map (Bytes.trimByte ' ')
  kind :=
    match flag.kind with
    | .text => .text
    | .int => .int

/-- The flag that every command has. -/
def help : Form := ⟨["help", "h"], .switch⟩

end Form

/-- What is wrong with the flags that were given. -/
inductive FlagError where
  | badSyntax (argument : Bytes)
  | undefined (name : Bytes)
  | noValue (name : Bytes)
  | badInt (name value : Bytes) (fault : Integer.Fault)
  | badSwitch (name value : Bytes)
  /-- A flag was given by two of its names. -/
  | twoForms (name earlier : Bytes)
  deriving DecidableEq, Repr

/-- The text of an error. -/
def FlagError.message : FlagError → Bytes
  | badSyntax s => "bad flag syntax: " ++ s
  | undefined name => "flag provided but not defined: -" ++ name
  | noValue name => "flag needs an argument: -" ++ name
  | badInt name value fault =>
      "invalid value " ++ Quoted.quote value ++ " for flag -" ++ name ++ ": " ++
        (match fault with
          | .malformed => "parse error"
          | .outOfRange => "value out of range")
  | badSwitch name value =>
      "invalid boolean value " ++ Quoted.quote value ++ " for -" ++ name ++ ": parse error"
  | twoForms name earlier => "Cannot use two forms of the same flag: " ++ name ++ " " ++ earlier

/-! ### One argument -/

/-- The setting of a switch that is written out. -/
def switchValue? (s : Bytes) : Option Bool :=
  if ["1", "t", "T", "true", "TRUE", "True"].any (utf8 · == s) then some true
  else if ["0", "f", "F", "false", "FALSE", "False"].any (utf8 · == s) then some false
  else none

/-- The value of a flag that is written out. -/
def FormKind.read (kind : FormKind) (name value : Bytes) : Except FlagError FlagValue :=
  match kind with
  | .text => .ok (.text value)
  | .int =>
      match Integer.literal value with
      | .ok n => .ok (.int n)
      | .error fault => .error (.badInt name value fault)
  | .switch =>
      match switchValue? value with
      | some b => .ok (.switch b)
      | none => .error (.badSwitch name value)

/-- What an argument can be. -/
inductive Argument where
  /-- The end of the flags, which is no argument itself. -/
  | terminator
  /-- No flag. -/
  | plain
  | malformed
  /-- A flag, with its value if that is part of the argument. -/
  | flag (name : Bytes) (value : Option Bytes)
  deriving DecidableEq, Repr

/-- The name of a flag, and its value if it has one; `body` is what follows the dashes. -/
def Argument.ofBody (body : Bytes) : Argument :=
  match body with
  | [] => .malformed
  | c :: rest =>
      if c == '-' || c == '=' then .malformed
      else
        match Bytes.cut '=' rest with
        | some (name, value) => .flag (c :: name) (some value)
        | none => .flag body none

/-- What an argument is. -/
def Argument.of (s : Bytes) : Argument :=
  match s with
  | a :: b :: rest =>
      if a != '-' then .plain
      else if b != '-' then .ofBody (b :: rest)
      else if rest.isEmpty then .terminator
      else .ofBody rest
  | _ => .plain

/-! ### All arguments -/

/-- The flags that were given, in order and by the names that were used, and the arguments after
them. -/
structure Given where
  values : List (Bytes × FlagValue)
  rest : List Bytes
  deriving DecidableEq, Repr

namespace Given

/-- The flags in front of the arguments, after those of `values`, up to the first error. -/
def scan (forms : List Form) (values : List (Bytes × FlagValue)) :
    List Bytes → Given × Option FlagError
  | [] => (⟨values, []⟩, none)
  | s :: rest =>
      match Argument.of s with
      | .plain => (⟨values, s :: rest⟩, none)
      | .terminator => (⟨values, rest⟩, none)
      | .malformed => (⟨values, rest⟩, some (.badSyntax s))
      | .flag name given =>
          match forms.find? (·.names.contains name) with
          | none => (⟨values, rest⟩, some (.undefined name))
          | some form =>
              match form.kind, given with
              | .switch, none => scan forms (values ++ [(name, .switch true)]) rest
              | kind, some value =>
                  match kind.read name value with
                  | .ok v => scan forms (values ++ [(name, v)]) rest
                  | .error e => (⟨values, rest⟩, some e)
              | kind, none =>
                  match rest with
                  | [] => (⟨values, []⟩, some (.noValue name))
                  | value :: rest =>
                      match kind.read name value with
                      | .ok v => scan forms (values ++ [(name, v)]) rest
                      | .error e => (⟨values, rest⟩, some e)

/-- The first flag that was given by two of its names. -/
def twoForms? (forms : List Form) (g : Given) : Option FlagError :=
  forms.findSome? fun form =>
    match form.names.filter fun name => g.values.any (·.1 == name) with
    | earlier :: name :: _ => some (.twoForms name earlier)
    | _ => none

/-- The flags in front of the arguments.  That a flag was given by two names is noticed before
anything else. -/
def read (forms : List Form) (args : List Bytes) : Except FlagError Given :=
  let (g, error) := scan forms [] args
  match g.twoForms? forms <|> error with
  | some e => .error e
  | none => .ok g

/-- The value of a flag, the last one if it was given more than once. -/
def value? (g : Given) (form : Form) : Option FlagValue :=
  (g.values.reverse.find? fun (name, _) => form.names.contains name).map (·.2)

/-- The text of a flag. -/
def text? (g : Given) (form : Form) : Option Bytes :=
  match g.value? form with
  | some (.text s) => some s
  | _ => none

/-- The number of a flag. -/
def int? (g : Given) (form : Form) : Option Int :=
  match g.value? form with
  | some (.int n) => some n
  | _ => none

/-- Is the switch on? -/
def isOn (g : Given) (form : Form) : Bool := g.value? form == some (.switch true)

end Given

/-! ### The order of arguments -/

/-- Does an argument look like a flag? -/
def looksLikeFlag (s : Bytes) : Bool := s.head? == some '-' && s != "-" && s != "--"

/-- The arguments with the flags moved to the front: all from the first flag up to `--`, then
those in front of the first flag, then `--` and what follows it. -/
def flagsFirst (args : List Bytes) : List Bytes :=
  let before := args.takeWhile (· != utf8 "--")
  let after := args.dropWhile (· != utf8 "--")
  match before.dropWhile (!looksLikeFlag ·) with
  | [] => args
  | flags => flags ++ before.takeWhile (!looksLikeFlag ·) ++ after

end MiniJava.Plain
