import MiniJava.Assembly.Instr

/-!
# Assembled programs

The code and data of an assembled program, and the places that its labels stand for.  A label in
the code stands for the number of the instruction after it, a label in the data for an address.

* **`Image`** — an assembled program.
* **`Image.address?`** — the address that a label stands for.
-/

namespace MiniJava

/-- The address of the first instruction. -/
def textBase : UInt32 := 0x00400000

/-- The address of the first byte of data. -/
def dataBase : UInt32 := 0x10010000

/-- The address of the topmost word of the stack. -/
def stackTop : UInt32 := 0x7ffffffc

/-- An assembled program. -/
structure Image where
  text : Array Instr
  data : Bytes
  /-- The addresses of the labels in the data. -/
  dataLabels : List (Bytes × UInt32)
  /-- The numbers of the instructions that labels in the code stand for. -/
  textLabels : List (Bytes × Int)
  /-- The label at which the program starts. -/
  entry : Bytes
  deriving DecidableEq, Repr

namespace Image

/-- The address of the instruction of the given number. -/
def codeAddress (n : Int) : UInt32 := textBase + 4 * UInt32.ofInt n

/-- The address that a label stands for. -/
def address? (p : Image) (label : Bytes) : Option UInt32 :=
  p.dataLabels.lookup label <|> (p.textLabels.lookup label).map codeAddress

end Image

end MiniJava
