import MiniJava.Token

/-!
# Program trees

The tree of a program: an entry class with its `main` method, and the declared classes in source
order.  Every node keeps the token it is reported at.  What a node means is kept beside that
token: the name of an identifier, the value of a literal, the operator of an expression.

A tree may have holes (`Expr.missing`, `Stmt.missing`), for trees that are put together by hand.

* **`Ty`** — the types of the language.
* **`Expr`**, **`Stmt`** — expressions and statements.
* **`MethodDecl`**, **`ClassDecl`**, **`MainClass`**, **`Program`** — declarations.
-/

namespace MiniJava

/-- The types: integers, booleans, integer arrays and the objects of a class. -/
inductive Ty where
  | int
  | boolean
  | intArray
  | object (className : Bytes)
  deriving DecidableEq, Repr

namespace Ty

/-- The type as it is written in a source. -/
def text : Ty → Bytes
  | int => "int"
  | boolean => "boolean"
  | intArray => "int[]"
  | object c => c

/-- Are the values of the type heap pointers, which may be null? -/
def isReference : Ty → Bool
  | intArray => true
  | object _ => true
  | _ => false

end Ty

/-- A name where it occurs. -/
structure Ident where
  token : Token
  name : Bytes
  deriving DecidableEq, Repr

/-- A type where it is written; the token is its first. -/
structure TypeRef where
  token : Token
  type : Ty
  deriving DecidableEq, Repr

/-- The declaration of a field, a parameter or a local variable. -/
structure VarDecl where
  token : Token
  type : TypeRef
  name : Ident
  deriving DecidableEq, Repr

/-- The operators with one operand. -/
inductive UnaryOp where
  | not
  /-- A symbol that is no operator of the language. -/
  | other (symbol : Bytes)
  deriving DecidableEq, Repr

/-- The operators with two operands. -/
inductive BinaryOp where
  | and
  | less
  | plus
  | minus
  | times
  /-- A symbol that is no operator of the language. -/
  | other (symbol : Bytes)
  deriving DecidableEq, Repr

namespace UnaryOp

/-- The operator as it is written. -/
def symbol : UnaryOp → Bytes
  | not => "!"
  | other s => s

/-- The operator that is written `s`. -/
def ofSymbol (s : Bytes) : UnaryOp := if s == "!" then not else other s

end UnaryOp

namespace BinaryOp

/-- The operator as it is written. -/
def symbol : BinaryOp → Bytes
  | and => "&&"
  | less => "<"
  | plus => "+"
  | minus => "-"
  | times => "*"
  | other s => s

/-- The operator that is written `s`. -/
def ofSymbol (s : Bytes) : BinaryOp :=
  if s == "&&" then and
  else if s == "<" then less
  else if s == "+" then plus
  else if s == "-" then minus
  else if s == "*" then times
  else other s

end BinaryOp

/-- Expressions. -/
inductive Expr where
  /-- The value of a variable. -/
  | var (name : Ident)
  /-- An integer literal. -/
  | int (token : Token) (value : Int)
  /-- `true` or `false`. -/
  | bool (token : Token) (value : Bool)
  /-- The receiver of the running method. -/
  | this (token : Token)
  | unary (token : Token) (op : UnaryOp) (operand : Expr)
  | binary (token : Token) (op : BinaryOp) (left right : Expr)
  /-- `array[index]` -/
  | index (token : Token) (array index : Expr)
  /-- `array.length` -/
  | length (token : Token) (array : Expr)
  /-- `receiver.method(args)` -/
  | call (token : Token) (receiver : Expr) (method : Ident) (args : List Expr)
  /-- `new int[size]` -/
  | newArray (token : Token) (size : Expr)
  /-- `new className()` -/
  | newObject (token : Token) (className : Ident)
  /-- No expression at all. -/
  | missing
  deriving Repr

instance : Inhabited Expr := ⟨.missing⟩

/-- Statements. -/
inductive Stmt where
  /-- `{ … }` -/
  | block (token : Token) (body : List Stmt)
  /-- `if (cond) thenBranch else elseBranch` -/
  | cond (token : Token) (cond : Expr) (thenBranch elseBranch : Stmt)
  /-- `while (cond) body` -/
  | loop (token : Token) (cond : Expr) (body : Stmt)
  /-- `System.out.println(value);` -/
  | print (token : Token) (value : Expr)
  /-- `name = value;` -/
  | assign (token : Token) (name : Ident) (value : Expr)
  /-- `name[index] = value;` -/
  | assignElem (token : Token) (name : Ident) (index value : Expr)
  /-- No statement at all. -/
  | missing
  deriving Repr

instance : Inhabited Stmt := ⟨.missing⟩

/-- A method: its body ends with the expression it returns. -/
structure MethodDecl where
  token : Token
  returns : TypeRef
  name : Ident
  params : List VarDecl
  vars : List VarDecl
  body : List Stmt
  result : Expr
  deriving Repr

/-- A class: its own fields and methods, and the class it extends. -/
structure ClassDecl where
  token : Token
  name : Ident
  parent : Option Ident
  fields : List VarDecl
  methods : List MethodDecl
  deriving Repr

/-- The entry class, with the variables and statements of its `main` method. -/
structure MainClass where
  token : Token
  name : Ident
  /-- The parameter of `main`, which no statement can refer to. -/
  arg : Option Ident
  vars : List VarDecl
  body : List Stmt
  deriving Repr

/-- A program. -/
structure Program where
  main : Option MainClass
  classes : List ClassDecl
  deriving Repr

/-! ### The token of a node -/

/-- The token an expression is reported at. -/
def Expr.token? : Expr → Option Token
  | .var x => some x.token
  | .int t _ => some t
  | .bool t _ => some t
  | .this t => some t
  | .unary t _ _ => some t
  | .binary t _ _ _ => some t
  | .index t _ _ => some t
  | .length t _ => some t
  | .call t _ _ _ => some t
  | .newArray t _ => some t
  | .newObject t _ => some t
  | .missing => none

/-- The token a statement is reported at. -/
def Stmt.token? : Stmt → Option Token
  | .block t _ => some t
  | .cond t _ _ _ => some t
  | .loop t _ _ => some t
  | .print t _ => some t
  | .assign t _ _ => some t
  | .assignElem t _ _ _ => some t
  | .missing => none

end MiniJava
