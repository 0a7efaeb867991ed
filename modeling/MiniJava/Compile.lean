import MiniJava.Compile.Program
import MiniJava.Parse.Program

/-!
# Compilation

From a source to its assembly.  There are three stages, and a source is rejected by the first
that finds something wrong: reading, the class table, and code generation.

* **`CompileError`** — why a source is rejected.
* **`analyze`** — the program and the class table of a source.
* **`compile`** — the assembly of a source; `Generator.compile` uses a given generator.
-/

namespace MiniJava

/-- Why a source is rejected. -/
inductive CompileError where
  | parse (errors : List ParseError)
  | decl (error : DeclError)
  | gen (error : GenError)
  deriving DecidableEq, Repr

/-- The program in a source and its class table. -/
def analyze (source : Bytes) : Except CompileError (Program × ClassTable) :=
  let r := Program.parse source
  if r.errors.isEmpty then
    match ClassTable.build r.program with
    | .ok t => .ok (r.program, t)
    | .error e => .error (.decl e)
  else .error (.parse r.errors)

/-- The assembly of a source, and the generator afterwards.  A source that is rejected before code
is generated leaves the generator alone. -/
def Generator.compile (g : Generator) (source : Bytes) : Except CompileError Bytes × Generator :=
  match analyze source with
  | .error e => (.error e, g)
  | .ok (p, t) =>
      match g.generate p t with
      | (.ok text, g) => (.ok text, g)
      | (.error e, g) => (.error (.gen e), g)

/-- The assembly of a source. -/
def compile (source : Bytes) : Except CompileError Bytes := (Generator.fresh.compile source).1

namespace CompileError

/-- The stage that rejected a source. -/
def stage : CompileError → Bytes
  | parse _ => "Parse"
  | decl _ => "Symbol"
  | gen _ => "Codegen"

/-- The diagnostics of an error, one for each thing that is wrong. -/
def diagnostics : CompileError → List Diagnostic
  | parse errors => errors.map fun e => Diagnostic.ofTagged e.text
  | decl e => [e.diagnostic]
  | gen e => [e.diagnostic]

/-- What is shown for a source of the given name that was rejected. -/
def report (e : CompileError) (name source : Bytes) : Bytes :=
  e.diagnostics.flatMap fun d =>
    (e.stage ++ " error: " ++ name ++ ": " ++ d.format source ++ "\n" : Bytes)

end CompileError

end MiniJava
