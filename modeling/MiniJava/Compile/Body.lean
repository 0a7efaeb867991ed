import MiniJava.Compile.Generator

/-!
# The code of expressions and statements

The code of an expression leaves its value in the accumulator `$a0` and the stack as deep as it
was; operands wait on the stack.  Integers are 32-bit words, `true` is the word of all ones and
`false` is zero, so that negation is the complement.  Together with its code an expression has a
type, by which the methods that are called on it are found.

* **`Gen.expression`** — the type and the code of an expression.
* **`Gen.statement`** — the code of a statement.

The word at `0($sp)` is free: a push stores there and then moves `$sp` down.
-/

namespace MiniJava

/-! ### Labels of the support routines -/

namespace Support

/-- Prints `$a0` and a line feed. -/
def printInt : Bytes := "_print_int"

/-- Reports a null pointer and ends the program. -/
def nullPointer : Bytes := "_null_pointer_exception"

/-- Reports an index out of bounds and ends the program. -/
def outOfBounds : Bytes := "_array_index_out_of_bound_exception"

/-- Makes an array of length `$a0` and returns it in `$v0`. -/
def allocArray : Bytes := "_alloc_int_array"

end Support

/-- The label of a method. -/
def entryLabel (className method : Bytes) : Bytes := className ++ "_" ++ method ++ "_entry"

open Instr Reg

namespace Code

/-- An instruction without a remark. -/
def one (i : Instr) : Line := .instr i []

/-- Put a register on the stack. -/
def push (r : Reg) : Code := [one (sw r 0 sp), one (withImm .addiu sp sp (-4))]

/-- Take `n` words off the stack. -/
def pop (n : Nat) : Code := [one (withImm .addiu sp sp (4 * n))]

/-- End the program if a register holds the null pointer. -/
def nullCheck (r : Reg) : Code := [one (branch .beq r Reg.zero Support.nullPointer)]

end Code

namespace Scope

/-- The code that makes a variable addressable, and its base register and offset.  The receiver
of a field is loaded into `$t1`. -/
def address (sc : Scope) (v : Variable) : Code × Reg × Int :=
  match v.role with
  | .parameter => ([], fp, paramOffset v.index)
  | .localVar => ([], fp, localOffset v.index)
  | .field =>
      ([Code.one (lw t1 (thisOffset sc.method.params.length) fp)], t1, fieldOffset v.index)

/-- Load a variable into `$a0`. -/
def load (sc : Scope) (v : Variable) : Code :=
  let (code, base, offset) := sc.address v
  code ++ [Code.one (lw a0 offset base)]

/-- Store `$a0` into a variable. -/
def store (sc : Scope) (v : Variable) : Code :=
  let (code, base, offset) := sc.address v
  code ++ [Code.one (sw a0 offset base)]

end Scope

namespace Gen

open Code Scope

/-- The code that combines `$t1` and `$a0` by an operator, and the type of the result. -/
def combine : BinaryOp → Option (Ty × Code)
  | .and => some (.boolean, [one (withRegs .and a0 t1 a0)])
  | .less =>
      some (.boolean, [one (withRegs .slt a0 t1 a0), one (withRegs .subu a0 Reg.zero a0)])
  | .plus => some (.int, [one (withRegs .addu a0 t1 a0)])
  | .minus => some (.int, [one (withRegs .subu a0 t1 a0)])
  | .times => some (.int, [one (onRegs .mult t1 a0), one (onReg .mflo a0)])
  | .other _ => none

/-- Read the element of the array on top of the stack whose index is in `$a0`. -/
def readElement : Code :=
  [.instr (lw t1 4 sp) "        # array"] ++ pop 1 ++ nullCheck t1 ++
  [.instr (lw t2 0 t1) "        # length",
   one (branch .bgeu a0 t2 Support.outOfBounds),
   one (withImm .sll a0 a0 2),
   one (withRegs .addu a0 a0 t1),
   one (lw a0 4 a0)]

/-- Write the value on top of the stack to the element, whose index lies below it, of the array
in `$a0`. -/
def writeElement : Code :=
  nullCheck a0 ++
  [.instr (lw t1 8 sp) "        # index",
   .instr (lw t2 0 a0) "        # length",
   one (branch .bgeu t1 t2 Support.outOfBounds),
   one (withImm .sll t1 t1 2),
   one (withRegs .addu t1 t1 a0),
   .instr (lw t2 4 sp) "        # value",
   one (sw t2 4 t1)] ++ pop 2

/-- Make an object: allocate it, write its header, and fill its fields with zeros in a loop
between the two labels. -/
def makeObject (l : Layout) (top done : Bytes) : Code :=
  [one (li a0 l.bytes),
   one (li v0 9),
   one Instr.syscall,
   one (move a0 v0),
   one (li t1 l.tag),
   .instr (sw t1 0 a0) "        # class tag",
   one (li t1 l.bytes),
   .instr (sw t1 4 a0) "        # object size",
   .instr (sw Reg.zero 8 a0) "      # dispatch word",
   one (withImm .addiu t1 a0 (4 * headerWords)),
   one (li t0 0),
   one (li t2 l.fields),
   .label top,
   one (branch .bge t0 t2 done),
   one (sw Reg.zero 0 t1),
   one (withImm .addiu t1 t1 4),
   one (withImm .addiu t0 t0 1),
   one (jump .j top),
   .label done]

/-- The method that a call on a receiver of the given type means. -/
def callee (sc : Scope) (site : Expr) (recv : Ty) (method : Ident) (argCount : Nat) :
    Gen Method :=
  match recv with
  | .object c =>
      match sc.table.find? c with
      | none => failAt (.unknownReceiver c) site
      | some cls =>
          match sc.table.method? cls method.name with
          | none => failAt (.noMethod cls.name method.name) (.var method)
          | some m =>
              if argCount = m.params.length then return m
              else failAt (.arity m.owner m.name m.params.length argCount) site
  | type => failAt (.notObject method.name type) site

mutual

/-- The type of an expression and the code that computes it into `$a0`. -/
@[simp] def expression (sc : Scope) : Expr → Gen (Ty × Code)
  | .int _ n => return (.int, [one (li a0 n)])
  | .bool _ b =>
      return (.boolean,
        one (li a0 0) :: if b then [one (withRegs .nor a0 a0 a0)] else [])
  | .this t =>
      if sc.isMain then failAt (.thisInMain sc.cls.name) (.this t)
      else return (.object sc.cls.name, [one (lw a0 (thisOffset sc.method.params.length) fp)])
  | .var x => do
      let v ← sc.resolve x
      return (v.type, sc.load v)
  | .unary t (.other s) e => failAt (.unknownUnary s) (.unary t (.other s) e)
  | .unary _ .not e => do
      let (_, code) ← expression sc e
      return (.boolean, code ++ [one (withRegs .nor a0 a0 a0)])
  | .binary t op l r => do
      let (_, left) ← expression sc l
      let (_, right) ← expression sc r
      match combine op with
      | some (type, code) =>
          return (type, left ++ push a0 ++ right ++ [one (lw t1 4 sp)] ++ code ++ pop 1)
      | none => failAt (.unknownBinary op.symbol) (.binary t op l r)
  | .index t a i => do
      let (type, array) ← expression sc a
      if type = .intArray then
        let (_, index) ← expression sc i
        return (.int, array ++ push a0 ++ index ++ readElement)
      else failAt (.notIndexable type) (.index t a i)
  | .length t a => do
      let (type, array) ← expression sc a
      if type = .intArray then return (.int, array ++ [one (lw a0 0 a0)])
      else failAt (.noLength type) (.length t a)
  | .newArray _ n => do
      let (_, size) ← expression sc n
      return (.intArray, size ++ [one (jump .jal Support.allocArray), one (move a0 v0)])
  | .newObject t c =>
      match sc.table.find? c.name with
      | none => failAt (.notInstantiable c.name) (.var c)
      | some cls =>
          if sc.table.isEntry c.name then failAt (.notInstantiable c.name) (.var c)
          else do
            let l ← layout sc.table cls (.newObject t c)
            let top ← newLabel
            let done ← newLabel
            return (.object cls.name, makeObject l top done)
  | .call t recv m args => do
      let (type, receiver) ← expression sc recv
      let target ← callee sc (.call t recv m args) type m args.length
      let arguments ← pushArguments sc args
      return (target.returns,
        receiver ++ nullCheck a0 ++ push fp ++ push a0 ++ arguments ++
          [one (jump .jal (entryLabel target.owner target.name)), one (move a0 v0)])
  | .missing => failAt .missingExpression .missing

/-- The code that puts arguments on the stack, the last one first. -/
@[simp] def pushArguments (sc : Scope) : List Expr → Gen Code
  | [] => return []
  | e :: es => do
      let others ← pushArguments sc es
      let (_, code) ← expression sc e
      return others ++ code ++ push a0

end

mutual

/-- The code of a statement. -/
@[simp] def statement (sc : Scope) : Stmt → Gen Code
  | .block _ ss => statements sc ss
  | .cond _ c a b => do
      let otherwise ← newLabel
      let done ← newLabel
      let (_, test) ← expression sc c
      let thenBranch ← statement sc a
      let elseBranch ← statement sc b
      return test ++ [one (branch .beq a0 Reg.zero otherwise)] ++ thenBranch ++
        [one (jump .j done), .label otherwise] ++ elseBranch ++ [.label done]
  | .loop _ c b => do
      let top ← newLabel
      let done ← newLabel
      let (_, test) ← expression sc c
      let body ← statement sc b
      return .label top :: test ++ [one (branch .beq a0 Reg.zero done)] ++ body ++
        [one (jump .j top), .label done]
  | .print _ e => do
      let (_, code) ← expression sc e
      return code ++ [one (jump .jal Support.printInt)]
  | .assign _ x e => do
      let (_, code) ← expression sc e
      let v ← sc.resolve x
      return code ++ (if v.type.isReference then nullCheck a0 else []) ++ sc.store v
  | .assignElem _ x i e => do
      let v ← sc.resolve x
      if v.type = .intArray then
        let (_, index) ← expression sc i
        let (_, value) ← expression sc e
        return index ++ push a0 ++ value ++ push a0 ++ sc.load v ++ writeElement
      else failAt (.notArray v.name v.type) (.var x)
  | .missing => failAt .missingStatement .missing

/-- The code of statements in order. -/
@[simp] def statements (sc : Scope) : List Stmt → Gen Code
  | [] => return []
  | s :: ss => do
      let first ← statement sc s
      let rest ← statements sc ss
      return first ++ rest

end

end Gen

end MiniJava
