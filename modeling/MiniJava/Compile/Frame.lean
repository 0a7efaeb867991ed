import MiniJava.ClassTable

/-!
# Frames and objects

Where the compiled code keeps things.  A frame pointer points at the word that holds the return
address.  Above it lie the parameters, then the receiver, then the caller's frame pointer; below
it lie the locals.  An object starts with a header of three words (the tag of its class, its size
in bytes, and a zero), and its fields follow.

```
  4·(P + 2)($fp)   the caller's $fp
  4·(P + 1)($fp)   the receiver
  4·P($fp)         parameter P − 1
    ⋮
  4($fp)           parameter 0
  0($fp)           the return address
  −4($fp)          local 0
    ⋮
```

* **`paramOffset`**, **`localOffset`**, **`thisOffset`**, **`fieldOffset`** — byte offsets.
* **`Layout`** — the shape of the objects of a class; `ClassTable.layout` computes it.
-/

namespace MiniJava

/-- The number of words in the header of an object. -/
def headerWords : Nat := 3

/-- The offset of a parameter from the frame pointer. -/
def paramOffset (index : Int) : Int := 4 * (index + 1)

/-- The offset of a local from the frame pointer. -/
def localOffset (index : Int) : Int := -4 * (index + 1)

/-- The offset of the receiver from the frame pointer, in a method with so many parameters. -/
def thisOffset (paramCount : Int) : Int := 4 * (paramCount + 1)

/-- The offset of a field from the start of its object. -/
def fieldOffset (index : Int) : Int := 4 * (index + headerWords)

/-- The shape of the objects of a class. -/
structure Layout where
  tag : Nat
  fields : Nat
  deriving DecidableEq, Repr

/-- The size of an object in bytes. -/
def Layout.bytes (l : Layout) : Nat := 4 * (headerWords + l.fields)

/-- The shape of the objects of a class in a table. -/
def ClassTable.layout (t : ClassTable) (c : ClassInfo) : Layout := ⟨c.tag, t.fieldCount c⟩

end MiniJava
