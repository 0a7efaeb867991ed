import MiniJava.CommandLine.Session

/-!
# Worlds

The surroundings of a session, kept as a value: files, variables, standard input, and what was
printed.  What files are and where paths lead is left open.

* **`FileSystem`** — files of some kind; `FileSystem.WritesOnly`: what a write may do to them.
* **`World`** — the surroundings.
* **`Session.runIn`** — a session acted out in a world.
-/

namespace MiniJava.CommandLine

/-! ### Files -/

/-- Files of some kind. -/
structure FileSystem where
  /-- The states that all of the files can be in. -/
  State : Type
  /-- The files, whatever the paths are that lead to them. -/
  File : Type
  /-- The file that a path leads to. -/
  file? : State → Bytes → Option File
  /-- What is in a file, if there is such a file. -/
  content? : State → File → Option Bytes
  read : State → Bytes → Except PathError Bytes
  /-- Write a text to the file at a path. -/
  write : State → Bytes → Bytes → Except PathError Unit × State

/-- Writing to a path either fails without effect, or it replaces exactly the file that the path
leads to, which is made if there is none. -/
structure FileSystem.WritesOnly (F : FileSystem) (path : Bytes) : Prop where
  failed : ∀ s text e, (F.write s path text).1 = .error e →
    ∀ f, F.content? (F.write s path text).2 f = F.content? s f
  replaced : ∀ s text, (F.write s path text).1 = .ok () →
    ∃ f, (∀ g, F.file? s path = some g → g = f) ∧
      F.file? (F.write s path text).2 path = some f ∧
      F.content? (F.write s path text).2 f = some text ∧
      ∀ g, g ≠ f → F.content? (F.write s path text).2 g = F.content? s g

/-! ### Worlds -/

/-- A call of the external simulator. -/
structure SimulatorCall where
  path : Bytes
  code : Bytes
  deriving DecidableEq, Repr

/-- The surroundings of a session. -/
structure World (F : FileSystem) where
  files : F.State
  environment : Bytes → Option Bytes
  input : Except Bytes Bytes
  /-- What the external simulator at a path answers to assembly. -/
  simulator : Bytes → Bytes → Except SimulatorError Bytes
  output : Bytes
  errors : Bytes
  /-- The calls of the external simulator. -/
  calls : List SimulatorCall

/-- A world in which nothing happened yet. -/
def World.fresh {F : FileSystem} (files : F.State) (environment : Bytes → Option Bytes)
    (input : Bytes) (simulator : Bytes → Bytes → Except SimulatorError Bytes) : World F :=
  ⟨files, environment, .ok input, simulator, [], [], []⟩

/-- The result of a session in a world, and the world afterwards. -/
def Session.runIn {F : FileSystem} {α : Type} : Session α → World F → α × World F
  | done a, w => (a, w)
  | print s k, w => k.runIn { w with output := w.output ++ s }
  | printError s k, w => k.runIn { w with errors := w.errors ++ s }
  | getVariable x k, w => (k (w.environment x)).runIn w
  | readInput k, w => (k w.input).runIn { w with input := .ok [] }
  | readPath p k, w => (k (F.read w.files p)).runIn w
  | writePath p s k, w =>
      (k (F.write w.files p s).1).runIn { w with files := (F.write w.files p s).2 }
  | simulate p s k, w => (k (w.simulator p s)).runIn { w with calls := w.calls ++ [⟨p, s⟩] }

/-- A session after another runs in the world that the first one leaves. -/
theorem Session.runIn_andThen {F : FileSystem} {α β : Type} (x : Session α) (f : α → Session β)
    (w : World F) : (x.andThen f).runIn w = (f (x.runIn w).1).runIn (x.runIn w).2 := by
  induction x generalizing w with
  | done a => rfl
  | print s k ih => exact ih _
  | printError s k ih => exact ih _
  | getVariable x k ih => exact ih _ _
  | readInput k ih => exact ih _ _
  | readPath p k ih => exact ih _ _
  | writePath p s k ih => exact ih _ _
  | simulate p s k ih => exact ih _ _

end MiniJava.CommandLine
