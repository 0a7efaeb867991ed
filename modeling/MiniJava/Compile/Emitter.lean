import MiniJava.Compile

/-!
# Emitters

A generator that writes the assembly as it goes and is used for one program after another.  All
that it works with is kept in one state: the text so far, the next label, the method it is in, the
labels of the methods and the layouts it remembers.  A program that is given up leaves the state as
it was at that moment; the next program resets it.  What it writes is what `Gen.program` returns.

* **`LayoutStore`** — where layouts are remembered; `LayoutStore.lru` keeps those used last, in a
  `LayoutCache`.
* **`Emitter`** — the state; `Emitter.reset` is how a program finds it.
* **`Emit`** — what is done with an emitter; a step that fails leaves what it has written.
* **`Emitter.generate`**, **`Emitter.generateAll`** — the assembly of a program, and of programs one
  after another.
* **`Emitter.compileAll`** — the assemblies of sources one after another.
-/

namespace MiniJava

/-- A memory for layouts, by the names of their classes. -/
structure LayoutStore where
  /-- The states of the memory. -/
  Mem : Type
  /-- Nothing is remembered. -/
  new : Mem
  /-- Ask for a layout. -/
  get : Bytes → Mem → Option Layout × Mem
  /-- Remember a layout. -/
  add : Bytes → Layout → Mem → Mem
  /-- Forget everything. -/
  purge : Mem → Mem

/-- Layouts by the name of their class, those used last in front. -/
structure LayoutCache where
  entries : List (Bytes × Layout)
  deriving DecidableEq, Repr

namespace LayoutCache

/-- How many layouts are remembered. -/
def capacity : Nat := 256

/-- Nothing is remembered. -/
def empty : LayoutCache := ⟨[]⟩

/-- Remember a layout, and forget the one that was used longest ago if there are too many. -/
def insert (c : LayoutCache) (name : Bytes) (l : Layout) : LayoutCache :=
  ⟨((name, l) :: c.entries.filter (·.1 != name)).take capacity⟩

/-- The layout that is remembered for a class. -/
def get? (c : LayoutCache) (name : Bytes) : Option Layout := c.entries.lookup name

/-- Ask for a layout; if there is one, it is the one used last now. -/
def touch (c : LayoutCache) (name : Bytes) : Option Layout × LayoutCache :=
  match c.get? name with
  | some l => (some l, c.insert name l)
  | none => (none, c)

end LayoutCache

/-- The memory that forgets the layout used longest ago when there are too many. -/
def LayoutStore.lru : LayoutStore where
  Mem := LayoutCache
  new := .empty
  get name c := c.touch name
  add name l c := c.insert name l
  purge _ := .empty

/-- The scope outside of all methods, where nothing is declared. -/
def Scope.outside : Scope := ⟨.empty, ⟨[], 0, [], [], []⟩, ⟨[], [], [], [], .int⟩, false⟩

/-- The state of an emitter. -/
structure Emitter (S : LayoutStore) where
  /-- The assembly so far. -/
  output : ByteArray
  /-- The number of the next label. -/
  nextLabel : Nat
  /-- The class table, and the method that code is written for. -/
  scope : Scope
  /-- The labels of the methods, each with the method that has it. -/
  entryLabels : List (Bytes × Bytes)
  layouts : S.Mem
  /-- The layouts that were asked for, the last one first. -/
  answers : List (ClassInfo × Layout)
  /-- What was reported so far. -/
  events : List GenEvent

namespace Emitter

variable {S : LayoutStore}

/-- An emitter that was never used. -/
def new (S : LayoutStore) : Emitter S := ⟨.empty, 0, .outside, [], S.new, [], []⟩

/-- The emitter as the next program finds it. -/
def reset (e : Emitter S) : Emitter S :=
  { e with
    output := .empty
    nextLabel := 0
    scope := .outside
    entryLabels := []
    layouts := S.purge e.layouts
    answers := [] }

end Emitter

/-- A step that uses an emitter and may fail. -/
def Emit (S : LayoutStore) (α : Type) : Type := Emitter S → Except GenError α × Emitter S

namespace Emit

variable {S : LayoutStore}

/-- Do nothing. -/
def ret {α : Type} (a : α) : Emit S α := fun e => (.ok a, e)

/-- Go on with `f` unless `x` failed. -/
def andThen {α β : Type} (x : Emit S α) (f : α → Emit S β) : Emit S β := fun e =>
  match x e with
  | (.ok a, e) => f a e
  | (.error err, e) => (.error err, e)

instance : Monad (Emit S) where
  pure := ret
  bind := andThen

instance : LawfulMonad (Emit S) := LawfulMonad.mk' (Emit S)
  (fun x => by
    funext e
    show (match x e with | (.ok a, e) => (.ok a, e) | (.error err, e) => (.error err, e)) = x e
    rcases x e with ⟨_ | a, e⟩ <;> rfl)
  (fun _ _ => rfl)
  (fun x f h => by
    funext e
    show andThen (andThen x f) h e = andThen x (fun a => andThen (f a) h) e
    simp only [andThen]
    rcases x e with ⟨_ | a, e⟩ <;> rfl)

/-- What is done with a generator. -/
def lift {α : Type} (x : Gen α) : Emit S α := fun e =>
  let (result, g) := x ⟨e.nextLabel, e.events⟩
  (result, { e with nextLabel := g.nextLabel, events := g.events })

/-- Write lines. -/
def write (code : Code) : Emit S Unit := fun e =>
  (.ok (), { e with output := code.text.foldl ByteArray.push e.output })

/-- The class table, and the method that code is written for. -/
def scope : Emit S Scope := fun e => (.ok e.scope, e)

/-- Use a class table. -/
def setTable (t : ClassTable) : Emit S Unit := fun e =>
  (.ok (), { e with scope := { e.scope with table := t } })

/-- Be in a method for the time of a step, also if it fails. -/
def within {α : Type} (cls : ClassInfo) (m : Method) (isMain : Bool) (x : Emit S α) : Emit S α :=
  fun e =>
    let (result, e') := x { e with scope := ⟨e.scope.table, cls, m, isMain⟩ }
    (result, { e' with scope := e.scope })

/-- The layout of the objects of a class, which is computed and remembered if it is not remembered
yet.  It must have room for the header. -/
def layoutOf (cls : ClassInfo) (site : Expr) : Emit S Layout := fun e =>
  match S.get cls.name e.layouts with
  | (some l, layouts) => (.ok l, { e with layouts, answers := (cls, l) :: e.answers })
  | (none, layouts) =>
      let l := e.scope.table.layout cls
      if l.bytes < 4 * headerWords then
        lift (Gen.failAt (.smallObject cls.name l.bytes) site) { e with layouts }
      else
        (.ok l, { e with
          layouts := S.add cls.name l layouts
          answers := (cls, l) :: e.answers })

open Code Instr Reg

/-! ### Expressions and statements -/

mutual

/-- Write the code that computes an expression into `$a0`, and return the type of the expression. -/
@[simp] def expression : Expr → Emit S Ty
  | .int _ n => do
      write [one (li a0 n)]
      return .int
  | .bool _ b => do
      write (one (li a0 0) :: if b then [one (withRegs .nor a0 a0 a0)] else [])
      return .boolean
  | .this t => do
      let sc ← scope
      if sc.isMain then lift (Gen.failAt (.thisInMain sc.cls.name) (.this t))
      else do
        write [one (lw a0 (thisOffset sc.method.params.length) fp)]
        return .object sc.cls.name
  | .var x => do
      let sc ← scope
      let v ← lift (sc.resolve x)
      write (sc.load v)
      return v.type
  | .unary t (.other s) e => lift (Gen.failAt (.unknownUnary s) (.unary t (.other s) e))
  | .unary _ .not e => do
      let _ ← expression e
      write [one (withRegs .nor a0 a0 a0)]
      return .boolean
  | .binary t op l r => do
      let _ ← expression l
      write (push a0)
      let _ ← expression r
      write [one (lw t1 4 sp)]
      match Gen.combine op with
      | some (type, code) => do
          write (code ++ pop 1)
          return type
      | none => lift (Gen.failAt (.unknownBinary op.symbol) (.binary t op l r))
  | .index t a i => do
      let type ← expression a
      if type = .intArray then do
        write (push a0)
        let _ ← expression i
        write Gen.readElement
        return .int
      else lift (Gen.failAt (.notIndexable type) (.index t a i))
  | .length t a => do
      let type ← expression a
      if type = .intArray then do
        write [one (lw a0 0 a0)]
        return .int
      else lift (Gen.failAt (.noLength type) (.length t a))
  | .newArray _ n => do
      let _ ← expression n
      write [one (jump .jal Support.allocArray), one (move a0 v0)]
      return .intArray
  | .newObject t c => do
      let sc ← scope
      match sc.table.find? c.name with
      | none => lift (Gen.failAt (.notInstantiable c.name) (.var c))
      | some cls =>
          if sc.table.isEntry c.name then lift (Gen.failAt (.notInstantiable c.name) (.var c))
          else do
            let l ← layoutOf cls (.newObject t c)
            let top ← lift Gen.newLabel
            let done ← lift Gen.newLabel
            write (Gen.makeObject l top done)
            return .object cls.name
  | .call t recv m args => do
      let type ← expression recv
      let sc ← scope
      let target ← lift (Gen.callee sc (.call t recv m args) type m args.length)
      write (nullCheck a0 ++ push fp ++ push a0)
      pushArguments args
      write [one (jump .jal (entryLabel target.owner target.name)), one (move a0 v0)]
      return target.returns
  | .missing => lift (Gen.failAt .missingExpression .missing)

/-- Write the code that puts arguments on the stack, the last one first. -/
@[simp] def pushArguments : List Expr → Emit S Unit
  | [] => return ()
  | e :: es => do
      pushArguments es
      let _ ← expression e
      write (push a0)

end

mutual

/-- Write the code of a statement. -/
@[simp] def statement : Stmt → Emit S Unit
  | .block _ ss => statements ss
  | .cond _ c a b => do
      let otherwise ← lift Gen.newLabel
      let done ← lift Gen.newLabel
      let _ ← expression c
      write [one (branch .beq a0 Reg.zero otherwise)]
      statement a
      write [one (jump .j done), .label otherwise]
      statement b
      write [.label done]
  | .loop _ c b => do
      let top ← lift Gen.newLabel
      let done ← lift Gen.newLabel
      write [.label top]
      let _ ← expression c
      write [one (branch .beq a0 Reg.zero done)]
      statement b
      write [one (jump .j top), .label done]
  | .print _ e => do
      let _ ← expression e
      write [one (jump .jal Support.printInt)]
  | .assign _ x e => do
      let _ ← expression e
      let sc ← scope
      let v ← lift (sc.resolve x)
      write ((if v.type.isReference then nullCheck a0 else []) ++ sc.store v)
  | .assignElem _ x i e => do
      let sc ← scope
      let v ← lift (sc.resolve x)
      if v.type = .intArray then do
        let _ ← expression i
        write (push a0)
        let _ ← expression e
        write (push a0 ++ sc.load v ++ Gen.writeElement)
      else lift (Gen.failAt (.notArray v.name v.type) (.var x))
  | .missing => lift (Gen.failAt .missingStatement .missing)

/-- Write the code of statements in order. -/
@[simp] def statements : List Stmt → Emit S Unit
  | [] => return ()
  | s :: ss => do
      statement s
      statements ss

end

/-! ### Programs -/

/-- Write the code of a method of a class. -/
def method (cls : ClassInfo) (d : MethodDecl) : Emit S Unit :=
  match cls.ownMethod? d.name.name with
  | none => lift (Gen.failAt (.undeclaredMethod cls.name d.name.name) (.var d.name))
  | some m =>
      within cls m false do
        let label := entryLabel cls.name m.name
        lift (Gen.report (.method cls.name m.name label m.params.length m.locals.length))
        write ([.remark 0 (cls.name ++ "." ++ m.name), .label label] ++ Gen.prologue m)
        statements d.body
        let _ ← expression d.result
        write (Gen.epilogue m)

/-- Write the code of the methods of a class. -/
def methods (cls : ClassInfo) : List MethodDecl → Emit S Unit
  | [] => return ()
  | d :: ds => do
      method cls d
      methods cls ds

/-- Write the code of classes. -/
def classes : List ClassDecl → Emit S Unit
  | [] => return ()
  | c :: cs => do
      let sc ← scope
      match sc.table.find? c.name.name with
      | none => lift (Gen.failAt (.undeclaredClass c.name.name) (.var c.name))
      | some cls => do
          methods cls c.methods
          classes cs

/-- Write the code of `main`, which ends the program. -/
def main (entry : ClassInfo) (m : MainClass) : Emit S Unit :=
  match entry.ownMethod? ClassTable.mainName with
  | none => lift (Gen.failAt (.noMain m.name.name) (.var m.name))
  | some info => do
      within entry info true do
        write [.label "main", one (Instr.move fp sp),
          one (withImm .addiu sp sp (-4 * (info.locals.length + 1)))]
        statements m.body
      write ([.remark 4 "exit"] ++ Support.exit ++ [.blank])

/-- Give a label to a method, unless another method has it. -/
def assignLabel (className : Bytes) (m : Ident) : Emit S Unit := fun e =>
  let label := entryLabel className m.name
  let owner := className ++ "." ++ m.name
  match e.entryLabels.lookup label with
  | some first => lift (Gen.failAt (.duplicateLabel first owner label) (.var m)) e
  | none => (.ok (), { e with entryLabels := (label, owner) :: e.entryLabels })

/-- Give labels to methods. -/
def assignLabels : List (Bytes × Ident) → Emit S Unit
  | [] => return ()
  | (className, m) :: rest => do
      assignLabel className m
      assignLabels rest

/-- Write the assembly of a program with the given class table. -/
def program (p : Program) (t : ClassTable) : Emit S Unit :=
  match p.main, t.entry with
  | some m, some entry => do
      setTable t
      assignLabels (Gen.methodNames p)
      write Support.header
      main entry m
      classes p.classes
      write Support.routines
  | _, _ => lift (Gen.failAt .noEntryClass .missing)

end Emit

namespace Emitter

variable {S : LayoutStore}

/-- The assembly text of a program with the given class table, and the emitter afterwards. -/
def generate (e : Emitter S) (p : Program) (t : ClassTable) :
    Except GenError Bytes × Emitter S :=
  match Emit.program p t e.reset with
  | (.error err, e) => (.error err, e)
  | (.ok (), e) =>
      let text := e.output.data.toList
      let done : GenEvent := .finished p.classes.length e.nextLabel text.length
      (.ok text, { e with events := e.events ++ [done] })

/-- The assembly texts of programs that one emitter is given one after another, each with the emitter
after it. -/
def generateAll : Emitter S → List (Program × ClassTable) →
    List (Except GenError Bytes × Emitter S)
  | _, [] => []
  | e, (p, t) :: rest =>
      let (result, e) := e.generate p t
      (result, e) :: generateAll e rest

/-- The assembly of a source, and the emitter afterwards. -/
def compile (e : Emitter S) (source : Bytes) : Except CompileError Bytes × Emitter S :=
  match analyze source with
  | .error err => (.error err, e)
  | .ok (p, t) =>
      match e.generate p t with
      | (.ok text, e) => (.ok text, e)
      | (.error err, e) => (.error (.gen err), e)

/-- The assemblies of sources that one emitter is given one after another. -/
def compileAll : Emitter S → List Bytes → List (Except CompileError Bytes)
  | _, [] => []
  | e, source :: rest =>
      let (result, e) := e.compile source
      result :: compileAll e rest

end Emitter

end MiniJava
