import MiniJava.Text.Bytes

/-!
# Sessions

What a command does to its surroundings, as a tree: each node is one thing that it does or asks
for, and goes on as the answer says.  The same session can be acted out on a real machine or on
one that is kept in memory.

* **`Session`** — the tree; it is a monad, so that sessions can be put one after another.
* **`PathError`** — why something could not be done with a file.
* **`SimulatorError`** — why an external simulator gives no output.
-/

namespace MiniJava.CommandLine

/-! ### What can go wrong -/

/-- Why something could not be done with a file. -/
structure PathError where
  /-- What was to be done. -/
  action : Bytes
  path : Bytes
  reason : Bytes
  deriving DecidableEq, Repr

/-- The text of an error. -/
def PathError.message (e : PathError) : Bytes := e.action ++ " " ++ e.path ++ ": " ++ e.reason

/-- Why an external simulator gives no output. -/
inductive SimulatorError where
  /-- It cannot be started. -/
  | unavailable (path reason : Bytes)
  /-- It failed, and this is what it says. -/
  | failed (text : Bytes)
  deriving DecidableEq, Repr

/-- The text of an error. -/
def SimulatorError.message : SimulatorError → Bytes
  | unavailable path reason => path ++ ": " ++ reason ++ ": spim executable not available"
  | failed text => text

/-- The output of an external simulator without the line about the file that it loads first. -/
def stripBanner (output : Bytes) : Bytes :=
  if (utf8 "Loaded:").isPrefixOf output then
    match Bytes.cut '\n' output with
    | some (_, rest) => rest
    | none => []
  else output

/-! ### Sessions -/

/-- What a command does to its surroundings until it ends with a result. -/
inductive Session (α : Type) : Type where
  | done (result : α)
  /-- Write to standard output. -/
  | print (text : Bytes) (next : Session α)
  /-- Write to standard error. -/
  | printError (text : Bytes) (next : Session α)
  /-- Look up a variable of the environment. -/
  | getVariable (name : Bytes) (next : Option Bytes → Session α)
  /-- Read all of standard input; an error says why it cannot be read. -/
  | readInput (next : Except Bytes Bytes → Session α)
  | readPath (path : Bytes) (next : Except PathError Bytes → Session α)
  /-- Write a file, which replaces what was in it. -/
  | writePath (path text : Bytes) (next : Except PathError Unit → Session α)
  /-- Run assembly on the external simulator at a path. -/
  | simulate (path code : Bytes) (next : Except SimulatorError Bytes → Session α)

namespace Session

/-- Go on with another session when the first one ends. -/
def andThen {α β : Type} : Session α → (α → Session β) → Session β
  | done a, f => f a
  | print s k, f => print s (k.andThen f)
  | printError s k, f => printError s (k.andThen f)
  | getVariable x k, f => getVariable x fun v => (k v).andThen f
  | readInput k, f => readInput fun s => (k s).andThen f
  | readPath p k, f => readPath p fun r => (k r).andThen f
  | writePath p s k, f => writePath p s fun r => (k r).andThen f
  | simulate p s k, f => simulate p s fun r => (k r).andThen f

instance : Monad Session where
  pure := done
  bind := andThen

theorem andThen_done {α : Type} (x : Session α) : x.andThen done = x := by
  induction x with
  | done a => rfl
  | print s k ih => simp only [andThen, ih]
  | printError s k ih => simp only [andThen, ih]
  | getVariable x k ih => simp only [andThen, ih]
  | readInput k ih => simp only [andThen, ih]
  | readPath p k ih => simp only [andThen, ih]
  | writePath p s k ih => simp only [andThen, ih]
  | simulate p s k ih => simp only [andThen, ih]

/-- Sessions one after another can be put together in either order. -/
theorem andThen_assoc {α β γ : Type} (x : Session α) (f : α → Session β) (g : β → Session γ) :
    (x.andThen f).andThen g = x.andThen fun a => (f a).andThen g := by
  induction x with
  | done a => rfl
  | print s k ih => simp only [andThen, ih]
  | printError s k ih => simp only [andThen, ih]
  | getVariable x k ih => simp only [andThen, ih]
  | readInput k ih => simp only [andThen, ih]
  | readPath p k ih => simp only [andThen, ih]
  | writePath p s k ih => simp only [andThen, ih]
  | simulate p s k ih => simp only [andThen, ih]

instance : LawfulMonad Session :=
  LawfulMonad.mk' Session andThen_done (fun _ _ => rfl) andThen_assoc

/-- Write to standard output. -/
def say (text : Bytes) : Session Unit := print text (done ())

/-- Write to standard error. -/
def complain (text : Bytes) : Session Unit := printError text (done ())

/-- The value of a variable of the environment. -/
def variableOf (name : Bytes) : Session (Option Bytes) := getVariable name done

/-- All of standard input. -/
def input : Session (Except Bytes Bytes) := readInput done

/-- The content of a file. -/
def contentOf (path : Bytes) : Session (Except PathError Bytes) := readPath path done

/-- Write a file. -/
def store (path text : Bytes) : Session (Except PathError Unit) := writePath path text done

/-- The output of the external simulator at a path. -/
def outputOf (path code : Bytes) : Session (Except SimulatorError Bytes) := simulate path code done

end Session

end MiniJava.CommandLine
