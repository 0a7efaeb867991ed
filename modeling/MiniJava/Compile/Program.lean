import MiniJava.Compile.Body

/-!
# The code of programs

The assembly of a program: string data, the code of `main` and the end of the program, the code
of every method in source order, and the support routines.

* **`Gen.method`** — the code of a method, with the entry and exit that its callers rely on.
* **`Gen.program`** — the assembly of a program.
* **`Generator.generate`** — the same with a generator that may have been used before.
-/

namespace MiniJava

open Instr Reg

/-! ### What every program carries -/

namespace Support

open Code

/-- The label of the line feed. -/
def newline : Bytes := "newline"

/-- The label of the message about an index out of bounds. -/
def outOfBoundsText : Bytes := "msg_index_out_of_bound_exception"

/-- The label of the message about a null pointer. -/
def nullPointerText : Bytes := "msg_null_pointer_exception"

/-- The data segment and the start of the code segment. -/
def header : Code :=
  [.data,
   .string newline "\n",
   .string outOfBoundsText "Index out of bound exception\n",
   .string nullPointerText "Null pointer exception\n",
   .blank,
   .text,
   .global "main"]

/-- End the program. -/
def exit : Code := [one (li v0 10), one Instr.syscall]

/-- Print the string at a label. -/
def printString (label : Bytes) : Code :=
  [one (la a0 label), one (li v0 4), one Instr.syscall]

/-- Print `$a0` and a line feed. -/
def printIntRoutine : Code :=
  [.label printInt, one (li v0 1), one Instr.syscall] ++ printString newline ++
    [one (onReg .jr ra), .blank]

/-- Report a fault and end the program. -/
def faultRoutine (label message : Bytes) : Code :=
  .label label :: printString message ++ exit ++ [.blank]

/-- Make an array of `$a0` zeros, with its length in front, and return it in `$v0`. -/
def allocArrayRoutine : Code :=
  [.label allocArray,
   .instr (branchZero .bltz a0 outOfBounds) "   # negative size",
   one (move a2 a0),
   .instr (withImm .addi a0 a0 1) "     # one more word for the length",
   one (withImm .sll a0 a0 2),
   one (li v0 9),
   one Instr.syscall,
   one (sw a2 0 v0),
   one (li t0 1),
   one (move t1 v0),
   .label "_alloc_int_array_loop",
   one (branch .bgt t0 a2 "_alloc_int_array_end"),
   one (withImm .addi t1 t1 4),
   one (sw Reg.zero 0 t1),
   one (withImm .addi t0 t0 1),
   one (jump .j "_alloc_int_array_loop"),
   .label "_alloc_int_array_end",
   one (onReg .jr ra)]

/-- The routines that the code of a program calls. -/
def routines : Code :=
  printIntRoutine ++ faultRoutine nullPointer nullPointerText ++
    faultRoutine outOfBounds outOfBoundsText ++ allocArrayRoutine

end Support

namespace Gen

open Code

/-! ### Methods -/

/-- What a method does first: it saves the return address and makes room for its locals. -/
def prologue (m : Method) : Code :=
  [one (move fp sp), one (sw ra 0 sp), one (withImm .addiu sp sp (-4 * (m.locals.length + 2)))]

/-- What a method does last: it returns `$a0` and takes its frame off the stack, with the
arguments, the receiver and the caller's frame pointer. -/
def epilogue (m : Method) : Code :=
  [one (move v0 a0),
   one (withImm .addiu sp sp (4 * (m.locals.length + 1))),
   one (lw ra 4 sp),
   one (withImm .addiu sp sp (4 * m.params.length + 12)),
   one (lw fp 0 sp),
   one (onReg .jr ra),
   .blank]

/-- The code of a method of a class. -/
def method (t : ClassTable) (cls : ClassInfo) (d : MethodDecl) : Gen Code :=
  match cls.ownMethod? d.name.name with
  | none => failAt (.undeclaredMethod cls.name d.name.name) (.var d.name)
  | some m => do
      let sc : Scope := ⟨t, cls, m, false⟩
      let label := entryLabel cls.name m.name
      report (.method cls.name m.name label m.params.length m.locals.length)
      let body ← statements sc d.body
      let (_, result) ← expression sc d.result
      return [.remark 0 (cls.name ++ "." ++ m.name), .label label] ++ prologue m ++ body ++
        result ++ epilogue m

/-- The code of the methods of a class. -/
def methods (t : ClassTable) (cls : ClassInfo) : List MethodDecl → Gen Code
  | [] => return []
  | d :: ds => do
      let first ← method t cls d
      let rest ← methods t cls ds
      return first ++ rest

/-- The code of classes. -/
def classes (t : ClassTable) : List ClassDecl → Gen Code
  | [] => return []
  | c :: cs =>
      match t.find? c.name.name with
      | none => failAt (.undeclaredClass c.name.name) (.var c.name)
      | some cls => do
          let first ← methods t cls c.methods
          let rest ← classes t cs
          return first ++ rest

/-- The code of `main`, which ends the program. -/
def main (t : ClassTable) (entry : ClassInfo) (m : MainClass) : Gen Code :=
  match entry.ownMethod? ClassTable.mainName with
  | none => failAt (.noMain m.name.name) (.var m.name)
  | some info => do
      let body ← statements ⟨t, entry, info, true⟩ m.body
      return [.label "main", one (move fp sp),
          one (withImm .addiu sp sp (-4 * (info.locals.length + 1)))] ++ body ++
        [.remark 4 "exit"] ++ Support.exit ++ [.blank]

/-! ### Programs -/

/-- Does every method have a label of its own?  `seen` are the labels so far, each with the
method that has it. -/
def checkLabels (seen : List (Bytes × Bytes)) : List (Bytes × Ident) → Gen Unit
  | [] => return ()
  | (className, m) :: rest =>
      let label := entryLabel className m.name
      let owner := className ++ "." ++ m.name
      match seen.lookup label with
      | some first => failAt (.duplicateLabel first owner label) (.var m)
      | none => checkLabels ((label, owner) :: seen) rest

/-- The methods of a program, each with the name of its class. -/
def methodNames (p : Program) : List (Bytes × Ident) :=
  p.classes.flatMap fun c => c.methods.map fun m => (c.name.name, m.name)

/-- The assembly of a program with the given class table. -/
def program (p : Program) (t : ClassTable) : Gen Code :=
  match p.main, t.entry with
  | some m, some entry => do
      checkLabels [] (methodNames p)
      let start ← main t entry m
      let others ← classes t p.classes
      return Support.header ++ start ++ others ++ Support.routines
  | _, _ => failAt .noEntryClass .missing

end Gen

namespace Generator

/-- The assembly text of a program with the given class table, and the generator afterwards. -/
def generate (g : Generator) (p : Program) (t : ClassTable) : Except GenError Bytes × Generator :=
  match Gen.program p t g.reset with
  | (.error e, g) => (.error e, g)
  | (.ok code, g) =>
      let text := code.text
      let done : GenEvent := .finished p.classes.length g.nextLabel text.length
      (.ok text, { g with events := g.events ++ [done] })

end Generator

end MiniJava
