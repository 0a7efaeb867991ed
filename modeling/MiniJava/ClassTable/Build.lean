import MiniJava.ClassTable
import MiniJava.Diagnostic

/-!
# Class tables of programs

The table of a program, or the first thing that is wrong with its declarations.  They are looked
at in rounds: the names of classes, the classes they extend, cycles of inheritance, the fields
(those of a class after those of its ancestors), the variables of `main`, and the methods.

* **`DeclError`** — what is wrong, with the name that it is about.
* **`ClassTable.build`** — the table of a program.
-/

namespace MiniJava

/-- What can be wrong with a declaration. -/
inductive DeclErrorKind where
  | duplicateClass
  | duplicateField
  | duplicateMethod
  | duplicateParameter
  | duplicateLocal
  | unknownParent
  | inheritanceCycle
  | unknownType
  deriving DecidableEq, Repr

/-- The name of a kind of error. -/
def DeclErrorKind.text : DeclErrorKind → Bytes
  | duplicateClass => "duplicate class"
  | duplicateField => "duplicate field"
  | duplicateMethod => "duplicate method"
  | duplicateParameter => "duplicate parameter"
  | duplicateLocal => "duplicate local"
  | unknownParent => "unknown parent class"
  | inheritanceCycle => "inheritance cycle"
  | unknownType => "unknown class in type"

/-- A wrong declaration: the name it is about and the place where that name stands. -/
structure DeclError where
  kind : DeclErrorKind
  name : Bytes
  line : Int
  column : Int
  deriving DecidableEq, Repr

namespace DeclError

/-- The error at the place of a token. -/
def atToken (kind : DeclErrorKind) (name : Bytes) (t : Token) : DeclError :=
  ⟨kind, name, t.line, t.column⟩

/-- The error about an identifier. -/
def about (kind : DeclErrorKind) (x : Ident) : DeclError := .atToken kind x.name x.token

/-- What is wrong, and with which name. -/
def headline (kind name : Bytes) : Bytes := kind ++ ": " ++ name

end DeclError

/-- The text of an error. -/
def DeclError.message (e : DeclError) : Bytes :=
  placed e.line e.column (DeclError.headline e.kind.text e.name)

/-- An error as it is shown with the source. -/
def DeclError.diagnostic (e : DeclError) : Diagnostic :=
  ⟨DeclError.headline e.kind.text e.name, e.name, e.line, e.column⟩

namespace ClassTable

/-! ### Names and inheritance -/

/-- Are the classes' names new, given the names before them? -/
def checkNames : (seen : List Bytes) → List ClassDecl → Except DeclError Unit
  | _, [] => .ok ()
  | seen, c :: cs =>
      if seen.contains c.name.name then .error (.about .duplicateClass c.name)
      else checkNames (c.name.name :: seen) cs

/-- Does every class that is extended exist? -/
def checkParents (declared : List Bytes) : List ClassDecl → Except DeclError Unit
  | [] => .ok ()
  | c :: cs =>
      match c.parent with
      | none => checkParents declared cs
      | some p =>
          if declared.contains p.name then checkParents declared cs
          else .error (.about .unknownParent p)

/-- The class that the class of the given name extends. -/
def parentIn (cs : List ClassDecl) (name : Bytes) : Option Bytes := do
  let c ← cs.find? (·.name.name == name)
  let p ← c.parent
  return p.name

/-- The ancestors of a class, nearest first; `none` when there are more than `n`. -/
def ancestorsWithin (cs : List ClassDecl) : (n : Nat) → (name : Bytes) → Option (List Bytes)
  | 0, name =>
      match parentIn cs name with
      | none => some []
      | some _ => none
  | n + 1, name =>
      match parentIn cs name with
      | none => some []
      | some p => (ancestorsWithin cs n p).map (p :: ·)

/-- The ancestors of a class, nearest first; `none` when inheritance runs in a circle, for then
there are more ancestors than classes. -/
def ancestorsIn (cs : List ClassDecl) (name : Bytes) : Option (List Bytes) :=
  ancestorsWithin cs cs.length name

/-- The ancestors of each class, none of which may descend from itself. -/
def lineages (cs : List ClassDecl) : List ClassDecl → Except DeclError (List (ClassDecl × List Bytes))
  | [] => .ok []
  | c :: rest =>
      match ancestorsIn cs c.name.name with
      | none => .error (.about .inheritanceCycle c.name)
      | some ancestors => do
          let rest ← lineages cs rest
          return (c, ancestors) :: rest

/-! ### Variables -/

/-- The type that is written, if its class exists. -/
def resolve (declared : List Bytes) (t : TypeRef) : Except DeclError Ty :=
  match t.type with
  | .object c =>
      if declared.contains c then .ok (.object c) else .error (.atToken .unknownType c t.token)
  | type => .ok type

/-- The variables of one role that are declared one after another, with indices from `index` on.
A name that was seen before is an error of the given kind. -/
def declare (declared : List Bytes) (role : Role) (twice : DeclErrorKind) :
    (seen : List Bytes) → (index : Nat) → List VarDecl → Except DeclError (List Variable)
  | _, _, [] => .ok []
  | seen, index, d :: ds =>
      if seen.contains d.name.name then .error (.about twice d.name)
      else do
        let type ← resolve declared d.type
        let rest ← declare declared role twice (d.name.name :: seen) (index + 1) ds
        return ⟨d.name.name, type, role, index⟩ :: rest

/-- Local variables, which may not bear the name of a parameter. -/
def declareLocals (declared : List Bytes) (params : List Variable) (ds : List VarDecl) :
    Except DeclError (List Variable) :=
  declare declared .localVar .duplicateLocal (params.map (·.name)) 0 ds

/-! ### Fields -/

/-- The number of fields that the classes of the given names declare. -/
def declaredFields (cs : List ClassDecl) (names : List Bytes) : Nat :=
  (names.flatMap fun n => ((cs.find? (·.name.name == n)).map (·.fields)).getD []).length

/-- The order in which fields are laid out: source order, but ancestors first. -/
def layoutOrder (lines : List (ClassDecl × List Bytes)) : List Bytes :=
  (lines.flatMap fun (c, ancestors) => ancestors.reverse ++ [c.name.name]).eraseDups

/-- The field slots of the classes of the given names, in their order. -/
def layFields (cs : List ClassDecl) (lines : List (ClassDecl × List Bytes)) :
    List Bytes → Except DeclError (List (Bytes × List Variable))
  | [] => .ok []
  | name :: names =>
      match lines.find? (·.1.name.name == name) with
      | none => layFields cs lines names
      | some (c, ancestors) => do
          let fields ← declare (cs.map (·.name.name)) .field .duplicateField []
            (declaredFields cs ancestors) c.fields
          let rest ← layFields cs lines names
          return (name, fields) :: rest

/-! ### Methods -/

/-- The methods of a class, whose names must be new. -/
def declareMethods (declared : List Bytes) (owner : Bytes) :
    (seen : List Bytes) → List MethodDecl → Except DeclError (List Method)
  | _, [] => .ok []
  | seen, m :: ms =>
      if seen.contains m.name.name then .error (.about .duplicateMethod m.name)
      else do
        let returns ← resolve declared m.returns
        let params ← declare declared .parameter .duplicateParameter [] 0 m.params
        let locals ← declareLocals declared params m.vars
        let rest ← declareMethods declared owner (m.name.name :: seen) ms
        return ⟨m.name.name, owner, params, locals, returns⟩ :: rest

/-- The classes with their fields and methods; the first has the given tag. -/
def assembleClasses (declared : List Bytes) (fields : List (Bytes × List Variable)) :
    (tag : Nat) → List (ClassDecl × List Bytes) → Except DeclError (List ClassInfo)
  | _, [] => .ok []
  | tag, (c, ancestors) :: rest => do
      let methods ← declareMethods declared c.name.name [] c.methods
      let rest ← assembleClasses declared fields (tag + 1) rest
      return ⟨c.name.name, tag, ancestors, (fields.lookup c.name.name).getD [], methods⟩ :: rest

/-! ### The table -/

/-- The name of the entry method. -/
def mainName : Bytes := "main"

/-- The table of a program, or the first error in its declarations.  A program without an entry
class has an empty table. -/
def build (p : Program) : Except DeclError ClassTable :=
  match p.main with
  | none => .ok empty
  | some m => do
      let declared := p.classes.map (·.name.name)
      checkNames [m.name.name] p.classes
      checkParents declared p.classes
      let lines ← lineages p.classes p.classes
      let fields ← layFields p.classes lines (layoutOrder lines)
      let locals ← declareLocals declared [] m.vars
      let classes ← assembleClasses declared fields 1 lines
      let main : Method := ⟨mainName, m.name.name, [], locals, .int⟩
      return ⟨some ⟨m.name.name, 0, [], [], [main]⟩, classes⟩

end ClassTable

end MiniJava
