import MiniJava.ClassTable.Build
import MiniJava.Text.Blank
import MiniJava.Tree.Print

/-!
# Errors of compilation

What a program with a proper class table can still do wrong: names that mean nothing, calls that
fit no method, values used as what they are not.

* **`GenErrorCause`** — what is wrong, with everything its message names.
* **`GenError`** — a cause, the source text it was found in, and its place.
-/

namespace MiniJava

/-- The kinds of errors. -/
inductive GenErrorKind where
  | unresolvedIdentifier
  | unknownClass
  | unknownMethod
  | objectLayout
  | thisInMain
  | arity
  | notObject
  | notArray
  | duplicateLabel
  | unsupportedNode
  deriving DecidableEq, Repr

/-- The name of a kind of error. -/
def GenErrorKind.text : GenErrorKind → Bytes
  | unresolvedIdentifier => "unresolved identifier"
  | unknownClass => "unknown class"
  | unknownMethod => "unknown method"
  | objectLayout => "invalid object layout"
  | thisInMain => "this used in entry method"
  | arity => "argument count mismatch"
  | notObject => "receiver is not an object"
  | notArray => "not an int array"
  | duplicateLabel => "duplicate entry label"
  | unsupportedNode => "unsupported node"

/-- What is wrong. -/
inductive GenErrorCause where
  /-- A name is neither a parameter nor a local nor a field. -/
  | unresolved (name className method : Bytes)
  /-- A class that is no declared class cannot be instantiated. -/
  | notInstantiable (className : Bytes)
  /-- The class of a receiver is not in the table. -/
  | unknownReceiver (className : Bytes)
  /-- A class of the program is not in the table. -/
  | undeclaredClass (className : Bytes)
  /-- Neither the class nor an ancestor has the method. -/
  | noMethod (className method : Bytes)
  /-- A method of the program is not in the table. -/
  | undeclaredMethod (className method : Bytes)
  /-- The entry class has no `main`. -/
  | noMain (className : Bytes)
  /-- The objects of a class would have no room for their header. -/
  | smallObject (className : Bytes) (bytes : Nat)
  | thisInMain (className : Bytes)
  | arity (owner method : Bytes) (want got : Nat)
  /-- A method is called on something that is no object. -/
  | notObject (method : Bytes) (type : Ty)
  | notIndexable (type : Ty)
  | noLength (type : Ty)
  /-- A variable whose elements are assigned is no array. -/
  | notArray (name : Bytes) (type : Ty)
  /-- Two methods would have the same label. -/
  | duplicateLabel (first second label : Bytes)
  | noEntryClass
  | missingExpression
  | missingStatement
  | unknownUnary (symbol : Bytes)
  | unknownBinary (symbol : Bytes)
  deriving DecidableEq, Repr

namespace GenErrorCause

/-- The kind of a cause. -/
def kind : GenErrorCause → GenErrorKind
  | unresolved .. => .unresolvedIdentifier
  | notInstantiable _ | unknownReceiver _ | undeclaredClass _ => .unknownClass
  | noMethod .. | undeclaredMethod .. | noMain _ => .unknownMethod
  | smallObject .. => .objectLayout
  | thisInMain _ => .thisInMain
  | arity .. => .arity
  | notObject .. => .notObject
  | notIndexable _ | noLength _ | notArray .. => .notArray
  | duplicateLabel .. => .duplicateLabel
  | noEntryClass | missingExpression | missingStatement => .unsupportedNode
  | unknownUnary _ | unknownBinary _ => .unsupportedNode

/-- The circumstances of a cause in words. -/
def circumstances : GenErrorCause → Bytes
  | unresolved x c m => "cannot resolve " ++ x ++ " in " ++ c ++ "." ++ m
  | notInstantiable c => "cannot instantiate " ++ c
  | unknownReceiver c => "receiver class " ++ c
  | undeclaredClass c => "class " ++ c ++ " is not in the symbol table"
  | noMethod c m => c ++ " has no method " ++ m
  | undeclaredMethod c m => "method " ++ c ++ "." ++ m ++ " is not in the symbol table"
  | noMain c => "entry class " ++ c ++ " has no main method"
  | smallObject c n =>
      "class " ++ c ++ " is " ++ natural n ++ " bytes, smaller than the object header"
  | thisInMain c => "this has no receiver in " ++ c ++ ".main"
  | arity c m want got =>
      c ++ "." ++ m ++ " takes " ++ natural want ++ " arguments, got " ++ natural got
  | notObject m t => "cannot call " ++ m ++ " on a value of type " ++ t.text
  | notIndexable t => "cannot index a value of type " ++ t.text
  | noLength t => "length of a value of type " ++ t.text
  | notArray x t => x ++ " has type " ++ t.text
  | duplicateLabel a b l => a ++ " and " ++ b ++ " both map to label " ++ l
  | noEntryClass => "program has no entry class"
  | missingExpression => "cannot generate expression <nil>"
  | missingStatement => "cannot generate statement <nil>"
  | unknownUnary s => "unknown prefix operator " ++ s
  | unknownBinary s => "unknown infix operator " ++ s

/-- What is wrong, ending with the kind of error. -/
def message (c : GenErrorCause) : Bytes := c.circumstances ++ ": " ++ c.kind.text

end GenErrorCause

/-- An error, the source text it was found in, and the place of its token, if it has one. -/
structure GenError where
  cause : GenErrorCause
  context : Bytes
  line : Int
  column : Int
  deriving DecidableEq, Repr

namespace GenError

/-- The text of an error. -/
def message (e : GenError) : Bytes := placed e.line e.column (quoting e.cause.message e.context)

/-- An error as it is shown with the source. -/
def diagnostic (e : GenError) : Diagnostic := ⟨e.cause.message, e.context, e.line, e.column⟩

/-- The error with the given cause at an expression. -/
def atExpr (cause : GenErrorCause) (site : Expr) : GenError :=
  let context := site.text.trim
  let context := if context.isEmpty then site.literal.trim else context
  match site.token? with
  | some t =>
      if t.isPlaced then ⟨cause, context, t.line, t.column⟩ else ⟨cause, context, 0, 0⟩
  | none => ⟨cause, context, 0, 0⟩

end GenError

end MiniJava
