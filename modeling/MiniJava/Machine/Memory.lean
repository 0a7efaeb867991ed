import MiniJava.Assembly.Image

/-!
# Memory

The memory of the machine is in two segments.  The heap starts at `dataBase` with the data of
the program and grows upwards; the stack ends just above `stackTop` and has a fixed size.  Words
have four bytes, the lowest first, and are read and written at multiples of four.

* **`Memory`** — the two segments.
* **`Memory.place?`** — where the bytes at an address are kept.
* **`Memory.word`**, **`Memory.setWord`** — words of memory.
* **`Memory.string`** — the bytes up to a zero byte.
* **`Memory.grow`** — more heap.
-/

namespace MiniJava

/-- The first address above the stack. -/
def stackEnd : Nat := 0x80000000

/-- The word that fresh memory is filled with on request, so that a program that relies on fresh
memory being zero is found out. -/
def poisonBytes : Bytes := [0xEF, 0xBE, 0xAD, 0xDE]

namespace Block

/-- `n` copies of the bytes `s` after `b`. -/
def pushCopies (s : Bytes) : (n : Nat) → (b : ByteArray) → ByteArray
  | 0, b => b
  | n + 1, b => pushCopies s n (s.foldl ByteArray.push b)

/-- `size` bytes of fresh memory: zeros, or whole words of poison. -/
def fresh (poison : Bool) (size : Nat) : ByteArray :=
  if poison then pushCopies [0] (size % 4) (pushCopies poisonBytes (size / 4) .empty)
  else pushCopies [0] size .empty

/-- The word whose lowest byte is at the given offset. -/
def word (b : ByteArray) (offset : Nat) : UInt32 :=
  (b.get! offset).toUInt32 ||| (b.get! (offset + 1)).toUInt32 <<< 8 |||
    (b.get! (offset + 2)).toUInt32 <<< 16 ||| (b.get! (offset + 3)).toUInt32 <<< 24

/-- Write the word whose lowest byte is at the given offset. -/
def setWord (b : ByteArray) (offset : Nat) (w : UInt32) : ByteArray :=
  (((b.set! offset w.toUInt8).set! (offset + 1) (w >>> 8).toUInt8).set! (offset + 2)
    (w >>> 16).toUInt8).set! (offset + 3) (w >>> 24).toUInt8

end Block

/-- Why an access to memory fails. -/
inductive AccessFault where
  /-- No memory is there. -/
  | badAddress (address : UInt32)
  /-- A word must start at a multiple of four. -/
  | unaligned (address : UInt32)
  deriving DecidableEq, Repr

/-- The segments of memory. -/
inductive Segment where
  | heap
  | stack
  deriving DecidableEq, Repr

/-- Where bytes are kept: a segment, and the offset of the first of them in it. -/
structure Place where
  segment : Segment
  offset : Nat
  deriving DecidableEq, Repr

/-- The memory of the machine. -/
structure Memory where
  /-- The data of the program and what was allocated since, from `dataBase` up. -/
  heap : ByteArray
  /-- The stack, which ends at `stackEnd`. -/
  stack : ByteArray

namespace Memory

/-- The memory of a program with the given data: the data are filled up with zeros to whole
words. -/
def load (data : Bytes) (poison : Bool) (stackBytes : Nat) : Memory :=
  let padding := Bytes.replicate ((4 - data.length % 4) % 4) 0
  ⟨(data ++ padding).toByteArray, Block.fresh poison stackBytes⟩

/-- Where the `n` bytes at an address are kept, if they all lie in one segment.  A stack that would
start below address 0 cannot be used. -/
def place? (m : Memory) (address : UInt32) (n : Nat) : Option Place :=
  let a := address.toNat
  if dataBase.toNat ≤ a ∧ a + n ≤ dataBase.toNat + m.heap.size then
    some ⟨.heap, a - dataBase.toNat⟩
  else if m.stack.size ≤ stackEnd ∧ stackEnd ≤ a + m.stack.size ∧ a + n ≤ stackEnd then
    some ⟨.stack, a + m.stack.size - stackEnd⟩
  else none

/-- The bytes of a segment. -/
def block (m : Memory) : Segment → ByteArray
  | .heap => m.heap
  | .stack => m.stack

/-- Where the word at an address is kept. -/
def wordPlace (m : Memory) (address : UInt32) : Except AccessFault Place :=
  if address % 4 ≠ 0 then .error (.unaligned address)
  else
    match m.place? address 4 with
    | some p => .ok p
    | none => .error (.badAddress address)

/-- The word at a place. -/
def wordAt (m : Memory) (p : Place) : UInt32 := Block.word (m.block p.segment) p.offset

/-- The word at an address. -/
def word (m : Memory) (address : UInt32) : Except AccessFault UInt32 :=
  match m.wordPlace address with
  | .ok p => .ok (m.wordAt p)
  | .error f => .error f

/-- Write the word at a place. -/
def setWord (m : Memory) (p : Place) (w : UInt32) : Memory :=
  match p.segment with
  | .heap => { m with heap := Block.setWord m.heap p.offset w }
  | .stack => { m with stack := Block.setWord m.stack p.offset w }

/-- The byte at an address. -/
def byte? (m : Memory) (address : UInt32) : Option UInt8 :=
  (m.place? address 1).map fun p => (m.block p.segment).get! p.offset

/-- The bytes from an address up to the next zero byte, after the bytes of `read` in reverse; at
most `n` are looked at. -/
def stringWithin (m : Memory) : (n : Nat) → (read : Bytes) → UInt32 → Except AccessFault Bytes
  | 0, _, address => .error (.badAddress address)
  | n + 1, read, address =>
      match m.byte? address with
      | none => .error (.badAddress address)
      | some c => if c == 0 then .ok read.reverse else stringWithin m n (c :: read) (address + 1)

/-- The bytes from an address up to the next zero byte.  There are no more bytes to look at than
memory holds. -/
def string (m : Memory) (address : UInt32) : Except AccessFault Bytes :=
  m.stringWithin (m.heap.size + m.stack.size + 1) [] address

/-- The address just above the heap. -/
def heapEnd (m : Memory) : UInt32 := dataBase + UInt32.ofNat m.heap.size

/-- More heap: `size` fresh bytes. -/
def grow (m : Memory) (poison : Bool) (size : Nat) : Memory :=
  { m with heap := m.heap ++ Block.fresh poison size }

end Memory

end MiniJava
