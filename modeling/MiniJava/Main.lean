import MiniJava.CommandLine
import MiniJava.CommandLine.Tree
import MiniJava.Plain

/-!
# The program

Acts out a session of the command line on the real machine.
-/

namespace MiniJava.CommandLine

/-- What is said about an error of the real machine. -/
def reasonOf : IO.Error → Bytes
  | .noFileOrDirectory .. => Obstacle.notFound.text
  | .inappropriateType .. => Obstacle.isDirectory.text
  | .invalidArgument .. => Obstacle.invalid.text
  | .permissionDenied .. => "permission denied"
  | e => toString e

/-- The string with the given bytes, which are expected to be UTF-8. -/
def stringOf (s : Bytes) : String := (String.fromUTF8? s.toByteArray).getD ""

/-- Act out a session.  No external simulator can be started from here. -/
def Session.actOut {α : Type} : Session α → IO α
  | done a => return a
  | print s k => do
      (← IO.getStdout).write s.toByteArray
      k.actOut
  | printError s k => do
      (← IO.getStderr).write s.toByteArray
      k.actOut
  | getVariable x k => do
      let value ← IO.getEnv (stringOf x)
      (k (value.map utf8)).actOut
  | readInput k => do
      let content ← EIO.toIO' (do (← IO.getStdin).readBinToEnd)
      match content with
      | .ok b => (k (.ok b.data.toList)).actOut
      | .error e => (k (.error (reasonOf e))).actOut
  | readPath p k => do
      let content ← EIO.toIO' (IO.FS.readBinFile (stringOf p))
      match content with
      | .ok b => (k (.ok b.data.toList)).actOut
      | .error e => (k (.error ⟨"open", p, reasonOf e⟩)).actOut
  | writePath p s k => do
      let outcome ← EIO.toIO' (IO.FS.writeBinFile (stringOf p) s.toByteArray)
      match outcome with
      | .ok () => (k (.ok ())).actOut
      | .error e => (k (.error ⟨"open", p, reasonOf e⟩)).actOut
  | simulate p _ k => (k (.error (.unavailable p "no program can be started"))).actOut

end MiniJava.CommandLine

/-- Run the compiler on the given arguments. -/
def main (args : List String) : IO UInt32 := do
  let code ← (MiniJava.CommandLine.session .plain (args.map MiniJava.utf8)).actOut
  return code.toUInt32
