import MiniJava.Assembly.Line
import MiniJava.Compile.Error
import MiniJava.Compile.Frame

/-!
# Generators

A generator hands out labels and reports what it does.  It can be used for one program after
another: each use starts by resetting it.

* **`Generator`** — the state; `Generator.reset` is how a program finds it.
* **`Gen`** — what is done with a generator; a step that fails leaves the generator as it was
  at that moment.
* **`Scope`** — the method that code is generated for.
* **`Scope.resolve`** — what a name means in a method.
-/

namespace MiniJava

/-- What a generator reports. -/
inductive GenEvent where
  /-- The code of a method is begun. -/
  | method (className method label : Bytes) (params locals : Nat)
  /-- The program cannot be compiled. -/
  | failed (message : Bytes) (line column : Int)
  /-- The program is compiled. -/
  | finished (classes labels bytes : Nat)
  deriving DecidableEq, Repr

/-- The state of a generator. -/
structure Generator where
  /-- The number of the next label. -/
  nextLabel : Nat
  /-- What was reported so far. -/
  events : List GenEvent
  deriving DecidableEq, Repr

namespace Generator

/-- A generator that was never used. -/
def fresh : Generator := ⟨0, []⟩

/-- The generator as the next program finds it. -/
def reset (_ : Generator) : Generator := ⟨0, []⟩

end Generator

/-- A step that uses a generator and may fail. -/
def Gen (α : Type) : Type := Generator → Except GenError α × Generator

namespace Gen

/-- Do nothing. -/
def ret {α : Type} (a : α) : Gen α := fun g => (.ok a, g)

/-- Go on with `f` unless `x` failed. -/
def andThen {α β : Type} (x : Gen α) (f : α → Gen β) : Gen β := fun g =>
  match x g with
  | (.ok a, g) => f a g
  | (.error e, g) => (.error e, g)

instance : Monad Gen where
  pure := ret
  bind := andThen

instance : LawfulMonad Gen := LawfulMonad.mk' Gen
  (fun x => by
    funext g
    show (match x g with | (.ok a, g) => (.ok a, g) | (.error e, g) => (.error e, g)) = x g
    rcases x g with ⟨_ | a, g⟩ <;> rfl)
  (fun _ _ => rfl)
  (fun x f h => by
    funext g
    show andThen (andThen x f) h g = andThen x (fun a => andThen (f a) h) g
    simp only [andThen]
    rcases x g with ⟨_ | a, g⟩ <;> rfl)

/-- Report an event. -/
def report (e : GenEvent) : Gen Unit := fun g => (.ok (), { g with events := g.events ++ [e] })

/-- Fail with the given cause at an expression, and report it. -/
def failAt {α : Type} (cause : GenErrorCause) (site : Expr) : Gen α := fun g =>
  let e := GenError.atExpr cause site
  (.error e, { g with events := g.events ++ [.failed e.cause.message e.line e.column] })

/-- The `n`-th label.  No name of a source can be one, for it starts with a dollar sign. -/
def labelText (n : Nat) : Bytes := "$L" ++ natural n

/-- A label that was not handed out before. -/
def newLabel : Gen Bytes :=
  fun g => (.ok (labelText g.nextLabel), { g with nextLabel := g.nextLabel + 1 })

/-- The layout of the objects of a class, which must have room for the header. -/
def layout (t : ClassTable) (c : ClassInfo) (site : Expr) : Gen Layout :=
  let l := t.layout c
  if l.bytes < 4 * headerWords then failAt (.smallObject c.name l.bytes) site else return l

end Gen

/-- The method that code is generated for. -/
structure Scope where
  table : ClassTable
  cls : ClassInfo
  method : Method
  /-- Is it the `main` method, which has no receiver? -/
  isMain : Bool

namespace Scope

/-- What a name means: a parameter, else a local, else (if there is a receiver) a field. -/
def lookup? (sc : Scope) (name : Bytes) : Option Variable :=
  sc.method.param? name <|> sc.method.local? name <|>
    (if sc.isMain then none else sc.table.field? sc.cls name)

/-- What a name means, or the error that it means nothing. -/
def resolve (sc : Scope) (x : Ident) : Gen Variable :=
  match sc.lookup? x.name with
  | some v => return v
  | none => Gen.failAt (.unresolved x.name sc.cls.name sc.method.name) (.var x)

end Scope

end MiniJava
