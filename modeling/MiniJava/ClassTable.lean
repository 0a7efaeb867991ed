import MiniJava.Tree

/-!
# Class tables

What the declarations of a program mean: for every class its ancestors, its field slots and its
methods, and for every method its parameters and locals.  A class knows its ancestors by name;
everything that is inherited is looked up in the table.

* **`Variable`** — a slot: a field, a parameter or a local, with its index among its like.
* **`Method`**, **`ClassInfo`**, **`ClassTable`** — what is declared.
* **`ClassTable.chain`** — a class and its ancestors, nearest first.
* **`ClassTable.field?`**, **`method?`** — look-up along the chain.
* **`ClassTable.allFields`** — the field slots of an object, inherited ones first.
-/

namespace MiniJava

/-- Where a variable lives. -/
inductive Role where
  | parameter
  | localVar
  | field
  deriving DecidableEq, Repr

/-- The name of a role. -/
def Role.text : Role → Bytes
  | parameter => "parameter"
  | localVar => "local"
  | field => "field"

/-- A variable.  Indices count from zero among the variables of one role; those of fields count
the inherited fields first. -/
structure Variable where
  name : Bytes
  type : Ty
  role : Role
  index : Nat
  deriving DecidableEq, Repr

/-- A method of the class `owner`. -/
structure Method where
  name : Bytes
  owner : Bytes
  params : List Variable
  locals : List Variable
  returns : Ty
  deriving DecidableEq, Repr

namespace Method

/-- The parameter of the given name. -/
def param? (m : Method) (name : Bytes) : Option Variable := m.params.find? (·.name == name)

/-- The local variable of the given name. -/
def local? (m : Method) (name : Bytes) : Option Variable := m.locals.find? (·.name == name)

end Method

/-- A class, with the fields and methods that it declares itself. -/
structure ClassInfo where
  name : Bytes
  /-- The entry class has tag 0, declared classes have 1, 2, … in source order. -/
  tag : Nat
  /-- The names of the classes it inherits from, nearest first. -/
  ancestors : List Bytes
  fields : List Variable
  methods : List Method
  deriving DecidableEq, Repr

namespace ClassInfo

/-- The class it extends. -/
def parent? (c : ClassInfo) : Option Bytes := c.ancestors.head?

/-- The field of the given name that the class itself declares. -/
def ownField? (c : ClassInfo) (name : Bytes) : Option Variable := c.fields.find? (·.name == name)

/-- The method of the given name that the class itself declares. -/
def ownMethod? (c : ClassInfo) (name : Bytes) : Option Method := c.methods.find? (·.name == name)

end ClassInfo

/-- The classes of a program. -/
structure ClassTable where
  /-- The class whose `main` method is run. -/
  entry : Option ClassInfo
  /-- The other classes, in source order. -/
  classes : List ClassInfo
  deriving DecidableEq, Repr

namespace ClassTable

/-- The table without classes. -/
def empty : ClassTable := ⟨none, []⟩

/-- The class of the given name; the entry class is one of them. -/
def find? (t : ClassTable) (name : Bytes) : Option ClassInfo :=
  (t.entry.toList ++ t.classes).find? (·.name == name)

/-- Is the name that of the entry class? -/
def isEntry (t : ClassTable) (name : Bytes) : Bool :=
  match t.entry with
  | some e => e.name == name
  | none => false

/-- A class and its ancestors, nearest first. -/
def chain (t : ClassTable) (c : ClassInfo) : List ClassInfo :=
  c :: c.ancestors.filterMap t.find?

/-- The field that a name means in a class: its own one, or the nearest inherited one. -/
def field? (t : ClassTable) (c : ClassInfo) (name : Bytes) : Option Variable :=
  (t.chain c).findSome? (·.ownField? name)

/-- The method that a name means in a class: its own one, or the nearest inherited one. -/
def method? (t : ClassTable) (c : ClassInfo) (name : Bytes) : Option Method :=
  (t.chain c).findSome? (·.ownMethod? name)

/-- The field slots of an object of a class in the order of their indices. -/
def allFields (t : ClassTable) (c : ClassInfo) : List Variable :=
  (t.chain c).reverse.flatMap (·.fields)

/-- The number of field slots of an object of a class. -/
def fieldCount (t : ClassTable) (c : ClassInfo) : Nat :=
  ((t.chain c).flatMap (·.fields)).length

end ClassTable

end MiniJava
