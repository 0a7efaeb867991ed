import MiniJava.Text.Decimal
import MiniJava.Tree

/-!
# What programs mean

A big-step interpreter of program trees.  It knows nothing of registers, labels or addresses.

Operands are evaluated from left to right and arguments from the last to the first; `&&` evaluates
both sides.  A name means a parameter, else a local, else a field; a field belongs to the class
that declares it.  What a call runs is found in the static class of its receiver.  Locals have no
value before they are assigned, and everything else starts as zero, `false` or null.  Where a
number is called for, `true` is as good as minus one and `false` as zero.

A run that goes wrong halts for a `Cause`.  The budget of a run bounds the words of stack and heap
that it may use, and its fuel the calls that may be nested and the turns of each loop.

* **`Value`**, **`Cell`**, **`World`** — values, and what is allocated and printed.
* **`typeOf`** — the static type of an expression.
* **`eval`**, **`exec`** — expressions and statements, given what calls do.
* **`invokeWithin`** — what a call does.
* **`interpret`** — the output of a program.
-/

namespace MiniJava.Semantics

/-! ### Values -/

/-- A reference: the number of words that were allocated before what it refers to. -/
abbrev Ref := Fin 0x1C000000

/-- A value. -/
inductive Value where
  | int (n : Int32)
  | bool (b : Bool)
  | null
  | object (r : Ref)
  | array (r : Ref)
  deriving DecidableEq

/-- The value that a field of the given type starts with. -/
def initial : Ty → Value
  | .int => .int 0
  | .boolean => .bool false
  | _ => .null

/-- A value as a number.  The booleans are as good as minus one and zero; references are no
numbers. -/
def Value.number? : Value → Option Int32
  | .int n => some n
  | .bool b => some (if b then -1 else 0)
  | _ => none

/-- The negation of a value: its complement. -/
def Value.not? : Value → Option Value
  | .int n => some (.int (~~~n))
  | .bool b => some (.bool !b)
  | _ => none

/-- What an operator makes of two values. -/
def apply (op : BinaryOp) (x y : Value) : Option Value :=
  match op, x, y with
  | .and, .bool a, .bool b => some (.bool (a && b))
  | op, x, y => do
      let m ← x.number?
      let n ← y.number?
      match op with
      | .and => some (.int (m &&& n))
      | .less => some (.bool (m < n))
      | .plus => some (.int (m + n))
      | .minus => some (.int (m - n))
      | .times => some (.int (m * n))
      | .other _ => none

/-! ### Classes -/

/-- A field: the class that declares it, and its name. -/
abbrev Key := Bytes × Bytes

section Classes

variable (cs : List ClassDecl)

/-- A class and those it inherits from, nearest first; at most `n` of them. -/
def ancestry : (n : Nat) → (name : Bytes) → List ClassDecl
  | 0, _ => []
  | n + 1, name =>
      match cs.find? (·.name.name == name) with
      | none => []
      | some c =>
          c :: (match c.parent with
            | none => []
            | some p => ancestry n p.name)

/-- A class and those it inherits from, nearest first. -/
def family (name : Bytes) : List ClassDecl := ancestry cs cs.length name

/-- The method that a name means in a class, with the class that declares it. -/
def methodNamed? (className name : Bytes) : Option (ClassDecl × MethodDecl) :=
  (family cs className).findSome? fun c => (c.methods.find? (·.name.name == name)).map (c, ·)

/-- The field that a name means in a class, with its type. -/
def fieldNamed? (className name : Bytes) : Option (Key × Ty) :=
  (family cs className).findSome? fun c =>
    (c.fields.find? (·.name.name == name)).map fun d => ((c.name.name, name), d.type.type)

/-- The fields of an object of a class with their types, inherited ones first. -/
def fieldsOf (className : Bytes) : List (Key × Ty) :=
  (family cs className).reverse.flatMap fun c =>
    c.fields.map fun d => ((c.name.name, d.name.name), d.type.type)

end Classes

/-! ### What is allocated and printed -/

/-- What a reference refers to. -/
inductive Cell where
  | object (className : Bytes) (fields : Key → Value)
  | array (elements : List Int32)

/-- How many words a cell takes. -/
def Cell.words (cs : List ClassDecl) : Cell → Nat
  | .object c _ => 3 + (fieldsOf cs c).length
  | .array elements => 1 + elements.length

theorem Cell.words_pos (cs : List ClassDecl) (cell : Cell) : 0 < cell.words cs := by
  cases cell with
  | object c fields => exact Nat.add_pos_left (by decide) _
  | array elements => exact Nat.add_pos_left (by decide) _

/-- How many words cells take. -/
def wordsOf (cs : List ClassDecl) : List Cell → Nat
  | [] => 0
  | cell :: cells => cell.words cs + wordsOf cs cells

/-- The cell that starts after `r` words. -/
def cellAt? (cs : List ClassDecl) : List Cell → (r : Nat) → Option Cell
  | [], _ => none
  | cell :: cells, r =>
      if r = 0 then some cell
      else if cell.words cs ≤ r then cellAt? cs cells (r - cell.words cs)
      else none

/-- The cells with another one in the place of that which starts after `r` words. -/
def replaceAt (cs : List ClassDecl) (new : Cell) : List Cell → (r : Nat) → List Cell
  | [], _ => []
  | cell :: cells, r =>
      if r = 0 then new :: cells
      else if cell.words cs ≤ r then cell :: replaceAt cs new cells (r - cell.words cs)
      else cell :: cells

/-- What was allocated and printed so far. -/
structure World where
  heap : List Cell
  output : Bytes

/-! ### Halting -/

/-- Why a run ends before its time. -/
inductive Cause where
  /-- A null receiver or array, or null is assigned. -/
  | nullPointer
  /-- An index out of bounds, or a negative length. -/
  | outOfBounds
  /-- The length of null, which nothing guards. -/
  | nullLength
  /-- An operation on values of the wrong kind, or a variable without a value. -/
  | stuck
  /-- The budget is used up. -/
  | exhausted
  /-- The fuel is used up. -/
  | timeout
  deriving DecidableEq

/-- The end of a run before its time. -/
structure Halt where
  cause : Cause
  /-- What was printed by then. -/
  output : Bytes
  deriving DecidableEq

/-- The end of a run for the given cause. -/
def World.halt {α : Type} (w : World) (cause : Cause) : Except Halt α := .error ⟨cause, w.output⟩

/-- How many words of stack and heap a run may use. -/
structure Budget where
  stack : Nat
  heap : Nat
  heap_le : heap ≤ 0x1C000000

/-- Go on only if the stack has a word of the given number. -/
def World.reserve (w : World) (b : Budget) (n : Nat) : Except Halt Unit :=
  if n < b.stack then .ok () else w.halt .exhausted

/-- Allocate a cell. -/
def World.allocate (cs : List ClassDecl) (b : Budget) (w : World) (cell : Cell) :
    Except Halt (Ref × World) :=
  if h : wordsOf cs w.heap + cell.words cs ≤ b.heap then
    have hpos := cell.words_pos cs
    have hle := b.heap_le
    .ok (⟨wordsOf cs w.heap, by omega⟩, { w with heap := w.heap ++ [cell] })
  else w.halt .exhausted

/-! ### Variables -/

/-- The method that is run: its receiver's class, unless it is `main`, and its variables. -/
structure Routine where
  className : Option Bytes
  params : List VarDecl
  vars : List VarDecl

/-- What a name means. -/
inductive Binding where
  | param (index : Nat)
  | localVar (index : Nat)
  | field (key : Key)
  deriving DecidableEq

/-- The variable of the given name among declared ones, with its type. -/
def declared? (name : Bytes) : List VarDecl → Option (Nat × Ty)
  | [] => none
  | d :: ds =>
      if d.name.name == name then some (0, d.type.type)
      else (declared? name ds).map fun (i, type) => (i + 1, type)

/-- What a name means in a method, and its type: a parameter, else a local, else a field. -/
def resolve? (cs : List ClassDecl) (rt : Routine) (name : Bytes) : Option (Binding × Ty) :=
  match declared? name rt.params with
  | some (i, type) => some (.param i, type)
  | none =>
      match declared? name rt.vars with
      | some (i, type) => some (.localVar i, type)
      | none =>
          match rt.className with
          | some c => (fieldNamed? cs c name).map fun (key, type) => (.field key, type)
          | none => none

/-- A call under way: its receiver, and its variables. -/
structure Activation where
  receiver : Option Ref
  params : List Value
  locals : List (Option Value)

/-- The value of a variable, if it has one. -/
def read? (cs : List ClassDecl) (act : Activation) (w : World) : Binding → Option Value
  | .param i => act.params[i]?
  | .localVar i => act.locals[i]?.join
  | .field key => do
      let r ← act.receiver
      match cellAt? cs w.heap r with
      | some (.object c fields) =>
          if key ∈ (fieldsOf cs c).map (·.1) then some (fields key) else none
      | _ => none

/-- The call and the world with another value in a variable, if there is such a variable. -/
def write? (cs : List ClassDecl) (act : Activation) (w : World) (v : Value) :
    Binding → Option (Activation × World)
  | .param i =>
      if i < act.params.length then some ({ act with params := act.params.set i v }, w) else none
  | .localVar i =>
      if i < act.locals.length then some ({ act with locals := act.locals.set i (some v) }, w)
      else none
  | .field key => do
      let r ← act.receiver
      match cellAt? cs w.heap r with
      | some (.object c fields) =>
          if key ∈ (fieldsOf cs c).map (·.1) then
            let cell := Cell.object c fun k => if k = key then v else fields k
            some (act, { w with heap := replaceAt cs cell w.heap r })
          else none
      | _ => none

/-- The static type of an expression. -/
def typeOf (cs : List ClassDecl) (rt : Routine) : Expr → Option Ty
  | .int .. | .index .. | .length .. => some .int
  | .bool .. | .unary .. => some .boolean
  | .binary _ op _ _ =>
      match op with
      | .and | .less => some .boolean
      | _ => some .int
  | .this _ => rt.className.map .object
  | .var x => (resolve? cs rt x.name).map (·.2)
  | .newArray .. => some .intArray
  | .newObject _ c => some (.object c.name)
  | .call _ recv m _ =>
      match typeOf cs rt recv with
      | some (.object c) => (methodNamed? cs c m.name).map (·.2.returns.type)
      | _ => none
  | .missing => none

/-! ### Expressions -/

/-- What a call does: the class that declares the method, the method, the receiver, the arguments,
and how many words of stack are in use. -/
abbrev Invoke := ClassDecl → MethodDecl → Ref → List Value → (depth : Nat) → World →
  Except Halt (Value × World)

section Evaluation

variable (cs : List ClassDecl) (b : Budget) (rt : Routine) (invoke : Invoke)

/-- The element of an array. -/
def element (w : World) (array index : Value) : Except Halt Value :=
  match array, index.number? with
  | .null, _ => w.halt .nullPointer
  | .array r, some i =>
      match cellAt? cs w.heap r with
      | some (.array elements) =>
          if 0 ≤ i then
            match elements[i.toInt.toNat]? with
            | some n => .ok (.int n)
            | none => w.halt .outOfBounds
          else w.halt .outOfBounds
      | _ => w.halt .stuck
  | _, _ => w.halt .stuck

/-- The world after an assignment to the element of an array. -/
def setElement (w : World) (array index value : Value) : Except Halt World :=
  match array, index.number?, value.number? with
  | .null, _, _ => w.halt .nullPointer
  | .array r, some i, some n =>
      match cellAt? cs w.heap r with
      | some (.array elements) =>
          if 0 ≤ i ∧ i.toInt.toNat < elements.length then
            .ok { w with heap := replaceAt cs (.array (elements.set i.toInt.toNat n)) w.heap r }
          else w.halt .outOfBounds
      | _ => w.halt .stuck
  | _, _, _ => w.halt .stuck

/-- The value of an array's length. -/
def lengthOf (w : World) : (array : Value) → Except Halt Value
  | .null => w.halt .nullLength
  | .array r =>
      match cellAt? cs w.heap r with
      | some (.array elements) => .ok (.int (Int32.ofNat elements.length))
      | _ => w.halt .stuck
  | _ => w.halt .stuck

/-- A new array of zeros. -/
def newArray (w : World) (size : Value) : Except Halt (Value × World) :=
  match size.number? with
  | some n =>
      if n < 0 then w.halt .outOfBounds
      else do
        let (r, w) ← w.allocate cs b (.array (List.replicate n.toInt.toNat 0))
        return (.array r, w)
  | none => w.halt .stuck

/-- A new object of a class. -/
def newObject (w : World) (c : Bytes) : Except Halt (Value × World) := do
  let cell := Cell.object c fun key =>
    match (fieldsOf cs c).lookup key with
    | some type => initial type
    | none => .null
  let (r, w) ← w.allocate cs b cell
  return (.object r, w)

/-- What a call on a receiver of the given static type means. -/
def callee? (type : Option Ty) (m : Bytes) : Option (ClassDecl × MethodDecl) :=
  match type with
  | some (.object c) => methodNamed? cs c m
  | _ => none

mutual

/-- The value of an expression, in a call that has so many words of stack in use. -/
@[simp] def eval (act : Activation) : (depth : Nat) → Expr → World → Except Halt (Value × World)
  | _, .int _ n, w => .ok (.int (Int32.ofInt n), w)
  | _, .bool _ v, w => .ok (.bool v, w)
  | _, .this _, w =>
      match act.receiver with
      | some r => .ok (.object r, w)
      | none => w.halt .stuck
  | _, .var x, w =>
      match (resolve? cs rt x.name).bind fun (binding, _) => read? cs act w binding with
      | some v => .ok (v, w)
      | none => w.halt .stuck
  | depth, .unary _ op e, w => do
      let (v, w) ← eval act depth e w
      match op, v.not? with
      | .not, some v => .ok (v, w)
      | _, _ => w.halt .stuck
  | depth, .binary _ op l r, w => do
      let (x, w) ← eval act depth l w
      w.reserve b depth
      let (y, w) ← eval act (depth + 1) r w
      match apply op x y with
      | some v => .ok (v, w)
      | none => w.halt .stuck
  | depth, .index _ a i, w => do
      let (x, w) ← eval act depth a w
      w.reserve b depth
      let (y, w) ← eval act (depth + 1) i w
      let v ← element cs w x y
      return (v, w)
  | depth, .length _ a, w => do
      let (x, w) ← eval act depth a w
      let v ← lengthOf cs w x
      return (v, w)
  | depth, .newArray _ e, w => do
      let (n, w) ← eval act depth e w
      newArray cs b w n
  | _, .newObject _ c, w => newObject cs b w c.name
  | depth, .call _ recv m args, w => do
      let (x, w) ← eval act depth recv w
      match x, callee? cs (typeOf cs rt recv) m.name with
      | .null, _ => w.halt .nullPointer
      | .object r, some (c, d) =>
          w.reserve b (depth + 1)
          let (vs, w) ← evalArgs act (depth + 2) args w
          invoke c d r vs (depth + 2 + args.length) w
      | _, _ => w.halt .stuck
  | _, .missing, w => w.halt .stuck

/-- The values of arguments, the last of which is evaluated first. -/
@[simp] def evalArgs (act : Activation) :
    (depth : Nat) → List Expr → World → Except Halt (List Value × World)
  | _, [], w => .ok ([], w)
  | depth, e :: es, w => do
      let (vs, w) ← evalArgs act depth es w
      let (v, w) ← eval act (depth + es.length) e w
      w.reserve b (depth + es.length)
      return (v :: vs, w)

end

/-! ### Statements -/

/-- Null is not assigned to a variable whose values are references, nor is what is none. -/
def checkAssigned (w : World) (type : Ty) (v : Value) : Except Halt Unit :=
  if type.isReference then
    match v with
    | .null => w.halt .nullPointer
    | .object _ | .array _ => .ok ()
    | _ => w.halt .stuck
  else .ok ()

/-- Repeat a body while a test holds, at most `n` times. -/
def repeatWhile (test : Activation → World → Except Halt (Value × World))
    (body : Activation → World → Except Halt (Activation × World)) :
    (n : Nat) → Activation → World → Except Halt (Activation × World)
  | 0, _, w => w.halt .timeout
  | n + 1, act, w => do
      let (v, w) ← test act w
      match v.number? with
      | some n' =>
          if n' = 0 then .ok (act, w)
          else do
            let (act, w) ← body act w
            repeatWhile test body n act w
      | none => w.halt .stuck

variable (turns depth : Nat)

mutual

/-- The call and the world after a statement. -/
@[simp] def exec : Stmt → Activation → World → Except Halt (Activation × World)
  | .block _ ss, act, w => execAll ss act w
  | .cond _ c s t, act, w => do
      let (v, w) ← eval cs b rt invoke act depth c w
      match v.number? with
      | some n => if n = 0 then exec t act w else exec s act w
      | none => w.halt .stuck
  | .loop _ c s, act, w =>
      repeatWhile (fun act w => eval cs b rt invoke act depth c w) (fun act w => exec s act w)
        turns act w
  | .print _ e, act, w => do
      let (v, w) ← eval cs b rt invoke act depth e w
      match v.number? with
      | some n => .ok (act, { w with output := w.output ++ decimal n.toInt ++ "\n" })
      | none => w.halt .stuck
  | .assign _ x e, act, w => do
      let (v, w) ← eval cs b rt invoke act depth e w
      match resolve? cs rt x.name with
      | some (binding, type) =>
          checkAssigned w type v
          match write? cs act w v binding with
          | some (act, w) => .ok (act, w)
          | none => w.halt .stuck
      | none => w.halt .stuck
  | .assignElem _ x i e, act, w => do
      let (n, w) ← eval cs b rt invoke act depth i w
      w.reserve b depth
      let (v, w) ← eval cs b rt invoke act (depth + 1) e w
      w.reserve b (depth + 1)
      match (resolve? cs rt x.name).bind fun (binding, _) => read? cs act w binding with
      | some a => do
          let w ← setElement cs w a n v
          return (act, w)
      | none => w.halt .stuck
  | .missing, _, w => w.halt .stuck

/-- The call and the world after statements in order. -/
@[simp] def execAll : List Stmt → Activation → World → Except Halt (Activation × World)
  | [], act, w => .ok (act, w)
  | s :: ss, act, w => do
      let (act, w) ← exec s act w
      execAll ss act w

end

end Evaluation

/-! ### Calls and programs -/

/-- What calls do that are nested in at most `n` others. -/
def invokeWithin (cs : List ClassDecl) (b : Budget) : (n : Nat) → Invoke
  | 0, _, _, _, _, _, w => w.halt .timeout
  | n + 1, c, d, r, args, depth, w => do
      let rt : Routine := ⟨some c.name.name, d.params, d.vars⟩
      let inner := depth + d.vars.length + 2
      w.reserve b (depth + d.vars.length)
      let act : Activation := ⟨some r, args, d.vars.map fun _ => none⟩
      let (act, w) ← execAll cs b rt (invokeWithin cs b n) n inner d.body act w
      eval cs b rt (invokeWithin cs b n) act inner d.result w

/-- The output of a program, or the end of its run before its time. -/
def interpret (p : Program) (b : Budget) (fuel : Nat) : Except Halt Bytes :=
  let w : World := ⟨[], []⟩
  match p.main with
  | none => w.halt .stuck
  | some m => do
      let rt : Routine := ⟨none, [], m.vars⟩
      w.reserve b m.vars.length
      let act : Activation := ⟨none, [], m.vars.map fun _ => none⟩
      let (_, w) ← execAll p.classes b rt (invokeWithin p.classes b fuel) fuel (m.vars.length + 1)
        m.body act w
      return w.output

end MiniJava.Semantics
