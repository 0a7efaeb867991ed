import MiniJava.Machine.Memory

/-!
# Machine states

What the machine is in the middle of: registers, memory, the next instruction, and what was
printed so far.

* **`Config`** — the limits of a run.
* **`Console`** — what was printed, and how much may be.
* **`State`** — a state; `State.start` is the first one.
* **`Fault`** — why a step fails.
-/

namespace MiniJava.Machine

/-- The limits of a run. -/
structure Config where
  /-- How many instructions may be executed; 0 or less is no limit. -/
  maxSteps : Int
  /-- The size of the stack. -/
  stackBytes : Nat
  /-- The size that the heap may grow to, the data of the program included. -/
  heapBytes : Int
  /-- Is fresh memory filled with a pattern? -/
  poison : Bool
  deriving DecidableEq, Repr

/-- The usual limits. -/
def Config.default : Config := ⟨10000000, 0x100000, 0x1000000, false⟩

/-- What was printed, and how many bytes may be. -/
structure Console where
  text : ByteArray
  limit : Option Nat

namespace Console

/-- Nothing was printed. -/
def empty (limit : Option Nat) : Console := ⟨.empty, limit⟩

/-- Is there room for `n` more bytes? -/
def accepts (c : Console) (n : Nat) : Bool :=
  match c.limit with
  | none => true
  | some limit => c.text.size + n ≤ limit

/-- Print a text. -/
def print (c : Console) (s : Bytes) : Console := { c with text := s.foldl ByteArray.push c.text }

/-- Everything that was printed. -/
def output (c : Console) : Bytes := c.text.data.toList

end Console

/-- A block of memory that was allocated. -/
structure Allocation where
  address : UInt32
  size : Nat
  deriving DecidableEq, Repr

/-- A state of the machine. -/
structure State where
  regs : Vector UInt32 32
  hi : UInt32
  lo : UInt32
  /-- The number of the next instruction. -/
  pc : Int
  memory : Memory
  console : Console
  /-- The blocks that were allocated, the last one first. -/
  allocations : List Allocation
  /-- How many instructions were begun. -/
  steps : Nat
  /-- Did the program end itself? -/
  exited : Bool

namespace State

/-- The value of a register. -/
def reg (s : State) (r : Reg) : UInt32 := s.regs.get r

/-- The state with another value in a register; register 0 keeps its zero. -/
def setReg (s : State) (r : Reg) (w : UInt32) : State :=
  if r = Reg.zero then s else { s with regs := s.regs.set r.val w r.isLt }

theorem reg_setReg_ne {s : State} {r q : Reg} (w : UInt32) (h : q ≠ r) :
    (s.setReg r w).reg q = s.reg q := by
  unfold setReg
  split
  · rfl
  · exact Vector.getElem_set_ne r.isLt q.isLt fun e => h (Fin.ext e.symm)

theorem reg_setReg_self {s : State} {r : Reg} (w : UInt32) (h : r ≠ Reg.zero) :
    (s.setReg r w).reg r = w := by
  unfold setReg
  rw [if_neg h]
  exact Vector.getElem_set_self r.isLt

theorem setReg_zero (s : State) (w : UInt32) : s.setReg Reg.zero w = s := if_pos rfl

/-- The registers at the start of a program. -/
def startRegs : Vector UInt32 32 :=
  ((Vector.replicate 32 0).set Reg.sp.val stackTop Reg.sp.isLt).set Reg.gp.val 0x10008000 Reg.gp.isLt

/-- The state at the start of a program, which may print up to `limit` bytes. -/
def start (p : Image) (cfg : Config) (limit : Option Nat) : State where
  regs := startRegs
  hi := 0
  lo := 0
  pc := (p.textLabels.lookup p.entry).getD 0
  memory := .load p.data cfg.poison cfg.stackBytes
  console := .empty limit
  allocations := []
  steps := 0
  exited := false

end State

/-- Why a step fails. -/
inductive Fault where
  /-- There is no instruction of this number. -/
  | noInstruction (index : Int)
  /-- No instruction is at this address. -/
  | badJump (address : UInt32)
  /-- The operand of an instruction is no label that it could use. -/
  | unknownLabel (op : Opcode) (label : Bytes)
  | access (fault : AccessFault)
  | overflow
  /-- There is no system call of this number. -/
  | badSyscall (code : UInt32)
  | negativeGrowth (n : Int)
  /-- The heap is too small for `n` more bytes. -/
  | heapExhausted (n : Int) (used : Nat) (limit : Int)
  | unknownInstruction (op : Opcode)
  /-- A number could not be printed. -/
  | intRefused
  /-- A string could not be printed. -/
  | stringRefused
  deriving DecidableEq, Repr

/-- The kinds of faults. -/
inductive FaultKind where
  | malformed
  | unknownLabel
  | badAddress
  | unaligned
  | overflow
  | badSyscall
  | heapExhausted
  | stepLimit
  | pcOutOfRange
  | cancelled
  /-- Something outside the machine failed. -/
  | outside
  deriving DecidableEq, Repr

/-- The name of a kind of fault. -/
def FaultKind.text : FaultKind → Bytes
  | malformed => "syntax error"
  | unknownLabel => "unknown label"
  | badAddress => "address out of range"
  | unaligned => "unaligned word access"
  | overflow => "arithmetic overflow"
  | badSyscall => "unsupported syscall"
  | heapExhausted => "heap exhausted"
  | stepLimit => "step limit exceeded"
  | pcOutOfRange => "program counter out of range"
  | cancelled => "context canceled"
  | outside => "other"

/-- An address as messages show it. -/
def addressText (a : UInt32) : Bytes := "0x" ++ hex a.toNat

namespace Fault

/-- The kind of a fault. -/
def kind : Fault → FaultKind
  | noInstruction _ | badJump _ => .pcOutOfRange
  | unknownLabel .. => .unknownLabel
  | access (.badAddress _) => .badAddress
  | access (.unaligned _) => .unaligned
  | overflow => .overflow
  | badSyscall _ => .badSyscall
  | negativeGrowth _ | heapExhausted .. => .heapExhausted
  | unknownInstruction _ => .malformed
  | intRefused | stringRefused => .outside

/-- The text of a fault. -/
def message (f : Fault) : Bytes :=
  match f with
  | noInstruction n => "index " ++ decimal n ++ ": " ++ f.kind.text
  | badJump a => "jump to " ++ addressText a ++ ": " ++ f.kind.text
  | unknownLabel op l => op.text ++ " " ++ l ++ ": " ++ f.kind.text
  | access (.badAddress a) => addressText a ++ ": " ++ f.kind.text
  | access (.unaligned a) => addressText a ++ ": " ++ f.kind.text
  | overflow => f.kind.text
  | badSyscall code => "code " ++ natural code.toNat ++ ": " ++ f.kind.text
  | negativeGrowth n => "negative sbrk " ++ decimal n ++ ": " ++ f.kind.text
  | heapExhausted n used limit =>
      "sbrk " ++ decimal n ++ " with " ++ natural used ++ " of " ++ decimal limit ++
        " bytes in use: " ++ f.kind.text
  | unknownInstruction op => "unknown instruction " ++ op.text ++ ": " ++ f.kind.text
  | intRefused => "print int: output limit"
  | stringRefused => "print string: output limit"

end Fault

end MiniJava.Machine
