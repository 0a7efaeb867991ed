import MiniJava.Plain.Flags
import MiniJava.Plain.Logfmt
import MiniJava.Plain.SettingsFile
import MiniJava.Plain.Variables

/-!
# A plain toolkit

The toolkit that the compiler is run with: flags among arguments, TOML files, and a log of fields
`key=value`.  The commands themselves know nothing of it, and what is proved of them holds with any
other toolkit.

* **`Plain.appUsage`**, **`Plain.commandUsage`** — how commands are used.
* **`Plain.invocation`** — what a command learns about flags.
* **`Plain.run`** — what arguments lead to.
* **`Toolkit.plain`** — all of it.
-/

namespace MiniJava.Plain

open CommandLine

/-! ### How commands are used -/

/-- The command that shows how the others are used. -/
def helpInfo : CommandInfo where
  name := "help"
  usage := "Show how commands are used"
  argsUsage := "[command]"
  category := []
  description := []
  flags := []

/-- Is it one of the names of the command that shows how the others are used? -/
def isHelp (name : Bytes) : Bool := name == helpInfo.name || name == "h"

/-- The command of a name. -/
def command? (info : AppInfo) (name : Bytes) : Option CommandInfo :=
  if isHelp name then some helpInfo else info.commands.find? (·.name == name)

/-- A line for each flag. -/
def flagLines (flags : List Flag) : Bytes :=
  flags.flatMap fun flag => ("   --" ++ flag.name ++ "  " ++ flag.usage ++ "\n" : Bytes)

/-- How an app is used. -/
def appUsage (info : AppInfo) : Bytes :=
  let lines := (info.commands ++ [helpInfo]).flatMap fun cmd =>
    ("   " ++ cmd.name ++ "  " ++ cmd.usage ++ "\n" : Bytes)
  "NAME:\n   " ++ info.name ++ " - " ++ info.usage ++ "\n\nCOMMANDS:\n" ++ lines ++
    "\nGLOBAL OPTIONS:\n" ++ flagLines info.flags

/-- How the command of a name is used. -/
def commandUsage (info : AppInfo) (name : Bytes) : Bytes :=
  match command? info name with
  | none => []
  | some cmd =>
      "NAME:\n   " ++ info.name ++ " " ++ cmd.name ++ " - " ++ cmd.usage ++ "\n\nUSAGE:\n   " ++
        info.name ++ " " ++ cmd.name ++ " " ++ cmd.argsUsage ++ "\n\nDESCRIPTION:\n" ++
        cmd.description ++ "\n\nOPTIONS:\n" ++ flagLines cmd.flags

/-! ### What arguments lead to -/

/-- The forms of flags, those of the flag for help among them. -/
def formsOf (flags : List Flag) : List Form := flags.map Form.ofFlag ++ [Form.help]

/-- The value of the flag of a name. -/
def Given.named? (g : Given) (flags : List Flag) (name : Bytes) : Option FlagValue :=
  ((formsOf flags).find? (·.names.contains name)).bind g.value?

/-- The text of a value; other values have none. -/
def FlagValue.textOf : Option FlagValue → Bytes
  | some (.text s) => s
  | _ => []

/-- The number of a value; other values have none. -/
def FlagValue.intOf : Option FlagValue → Int
  | some (.int n) => n
  | _ => 0

/-- What a command with these flags learns, when others were given in front of it. -/
def invocation (before : List Flag) (globals : Given) (flags : List Flag) (given : Given) :
    Invocation where
  args := given.rest
  isSet name := (given.named? flags name).isSome
  text name := FlagValue.textOf (given.named? flags name)
  int name := FlagValue.intOf (given.named? flags name)
  globalIsSet name := (globals.named? before name).isSome
  globalText name := FlagValue.textOf (globals.named? before name)

/-- Show how a command is used, or how all of them are if none is named or an empty one. -/
def showHelp (info : AppInfo) (given : Given) : Session Ended := do
  let topic := given.rest.head?.getD []
  if topic.isEmpty then
    Session.say (appUsage info)
    return .returned (.ok ())
  else
    match command? info topic with
    | some cmd =>
        Session.say (commandUsage info cmd.name)
        return .returned (.ok ())
    | none =>
        Session.complain ("No help topic for '" ++ topic ++ "'\n")
        return .exited 3

/-- Carry out a command with its arguments. -/
def runCommand (app : App) (globals : Given) (c : Context) (cmd : CommandInfo) (args : List Bytes) :
    Session Ended := do
  match Given.read (formsOf cmd.flags) (flagsFirst args) with
  | .error e =>
      Session.say (commandUsage app.info cmd.name)
      return .returned (.error (.toolkit e.message))
  | .ok given =>
      if given.isOn Form.help then
        Session.say (commandUsage app.info cmd.name)
        return .returned (.ok ())
      else if isHelp cmd.name then showHelp app.info given
      else
        let action := (app.actions.lookup cmd.name).getD app.action
        return .returned (← action c (invocation app.info.flags globals cmd.flags given))

/-- Carry out what the arguments after the flags in front say. -/
def perform (app : App) (globals : Given) (c : Context) : Session Ended := do
  let flags := app.info.flags
  match globals.rest with
  | [] => return .returned (← app.action c (invocation flags globals flags globals))
  | name :: args =>
      match command? app.info name with
      | some cmd => runCommand app globals c cmd args
      | none => return .returned (← app.action c (invocation flags globals flags globals))

/-- Read the arguments and carry out what they say. -/
def run (app : App) (args : List Bytes) : Session Ended := do
  let flags := app.info.flags
  match Given.read (formsOf flags) args with
  | .error e =>
      Session.say (appUsage app.info)
      return .returned (.error (.toolkit e.message))
  | .ok globals =>
      if globals.isOn Form.help then
        Session.say (appUsage app.info)
        return .returned (.ok ())
      else
        match ← app.before (invocation flags globals flags globals) with
        | .ok c => perform app globals c
        | .error e =>
            Session.say (appUsage app.info)
            return .returned (.error e)

end MiniJava.Plain

namespace MiniJava.CommandLine

/-- The toolkit that the compiler is run with. -/
def Toolkit.plain : Toolkit where
  run := Plain.run
  appUsage := Plain.appUsage
  commandUsage := Plain.commandUsage
  decode := Plain.SettingsFile.decode
  encode := Plain.SettingsFile.encode
  variableReader := Plain.Variables.reader
  levelOf := Plain.Logfmt.levelOf
  logText := Plain.Logfmt.text

end MiniJava.CommandLine
