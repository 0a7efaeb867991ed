import MiniJava.Machine.State

/-!
# Steps of the machine

One instruction at a time.  A step that fails leaves everything as it was, but for the count of
instructions that were begun.

* **`signed`** — a word as a signed number.
* **`syscall`** — the system calls: print a number, print a string, grow the heap, exit.
* **`execute`** — what an instruction does.
* **`step`** — execute the next instruction.
-/

namespace MiniJava.Machine

/-- A word as a signed number. -/
def signed (w : UInt32) : Int := w.toInt32.toInt

/-- Is the number one of signed 32-bit arithmetic? -/
def fits (n : Int) : Bool := -0x80000000 ≤ n && n < 0x80000000

/-- The outcome of a step. -/
inductive Outcome where
  /-- The step was done. -/
  | done (s : State)
  /-- The step failed; `s` is the state it left. -/
  | fault (f : Fault) (s : State)

namespace Outcome

/-- The state after a step. -/
def state : Outcome → State
  | done s => s
  | fault _ s => s

end Outcome

namespace State

/-- Go on with the instruction of the given number. -/
def goto (s : State) (pc : Int) : Outcome := .done { s with pc }

/-- Go on with the next instruction. -/
def next (s : State) : Outcome := s.goto (s.pc + 1)

/-- The last operand of an instruction: a number, or the register `r`. -/
def operand (s : State) (i : Instr) (r : Reg) : UInt32 :=
  if i.useImm then UInt32.ofInt i.imm else s.reg r

/-- The address of an operand in memory. -/
def effective (s : State) (i : Instr) : UInt32 := s.reg i.rs + UInt32.ofInt i.imm

/-- Put a number into `rd` unless it overflows. -/
def setChecked (s : State) (i : Instr) (n : Int) : Outcome :=
  if fits n then (s.setReg i.rd (UInt32.ofInt n)).next else .fault .overflow s

end State

/-! ### System calls -/

/-- Grow the heap by `n` bytes, rounded up to whole words, and return its old end. -/
def sbrk (cfg : Config) (s : State) (n : Int) : Outcome :=
  if n < 0 then .fault (.negativeGrowth n) s
  else
    let size := (n.toNat + 3) / 4 * 4
    let used := s.memory.heap.size
    if cfg.heapBytes < used + size then .fault (.heapExhausted n used cfg.heapBytes) s
    else
      let address := s.memory.heapEnd
      let s := { s with
        memory := s.memory.grow cfg.poison size
        allocations := ⟨address, size⟩ :: s.allocations }
      (s.setReg Reg.v0 address).next

/-- Print a text, or fail if it is refused. -/
def print (s : State) (text : Bytes) (refused : Fault) : Outcome :=
  if s.console.accepts text.length then State.next { s with console := s.console.print text }
  else .fault refused s

/-- The system call whose number is in `$v0`. -/
def syscall (cfg : Config) (s : State) : Outcome :=
  let code := s.reg Reg.v0
  let arg := s.reg Reg.a0
  if code = 1 then print s (decimal (signed arg)) .intRefused
  else if code = 4 then
    match s.memory.string arg with
    | .ok text => print s text .stringRefused
    | .error f => .fault (.access f) s
  else if code = 9 then sbrk cfg s (signed arg)
  else if code = 10 then .done { s with exited := true }
  else .fault (.badSyscall code) s

/-! ### Instructions -/

/-- Go to the label of an instruction. -/
def jumpTo (p : Image) (s : State) (i : Instr) : Outcome :=
  match p.textLabels.lookup i.label with
  | some n => s.goto n
  | none => .fault (.unknownLabel i.op i.label) s

/-- Go to the label of an instruction if a condition holds. -/
def branchIf (p : Image) (s : State) (i : Instr) (taken : Bool) : Outcome :=
  if taken then jumpTo p s i else s.next

/-- What an instruction does. -/
def execute (p : Image) (cfg : Config) (i : Instr) (s : State) : Outcome :=
  match i.op with
  | .li => (s.setReg i.rd (UInt32.ofInt i.imm)).next
  | .la =>
      match p.address? i.label with
      | some a => (s.setReg i.rd a).next
      | none => .fault (.unknownLabel i.op i.label) s
  | .move => (s.setReg i.rd (s.reg i.rs)).next
  | .lw =>
      match s.memory.word (s.effective i) with
      | .ok w => (s.setReg i.rd w).next
      | .error f => .fault (.access f) s
  | .sw =>
      match s.memory.wordPlace (s.effective i) with
      | .ok place =>
          let w := s.reg i.rd
          State.next { s with memory := s.memory.setWord place w }
      | .error f => .fault (.access f) s
  | .add | .addi => s.setChecked i (signed (s.reg i.rs) + signed (s.operand i i.rt))
  | .sub => s.setChecked i (signed (s.reg i.rs) - signed (s.operand i i.rt))
  | .addu | .addiu => (s.setReg i.rd (s.reg i.rs + s.operand i i.rt)).next
  | .subu => (s.setReg i.rd (s.reg i.rs - s.operand i i.rt)).next
  | .and => (s.setReg i.rd (s.reg i.rs &&& s.operand i i.rt)).next
  | .or => (s.setReg i.rd (s.reg i.rs ||| s.operand i i.rt)).next
  | .nor => (s.setReg i.rd (~~~(s.reg i.rs ||| s.operand i i.rt))).next
  | .slt =>
      (s.setReg i.rd (if signed (s.reg i.rs) < signed (s.operand i i.rt) then 1 else 0)).next
  | .sll => (s.setReg i.rd (s.reg i.rs <<< (UInt32.ofInt i.imm &&& 31))).next
  | .mult =>
      let product := signed (s.reg i.rd) * signed (s.reg i.rs)
      State.next { s with lo := UInt32.ofInt product, hi := UInt32.ofInt (product / 0x100000000) }
  | .mflo => (s.setReg i.rd s.lo).next
  | .beq => branchIf p s i (s.reg i.rd == s.operand i i.rs)
  | .bne => branchIf p s i (s.reg i.rd != s.operand i i.rs)
  | .bgeu => branchIf p s i (s.operand i i.rs ≤ s.reg i.rd)
  | .bge => branchIf p s i (signed (s.operand i i.rs) ≤ signed (s.reg i.rd))
  | .bgt => branchIf p s i (signed (s.operand i i.rs) < signed (s.reg i.rd))
  | .blt => branchIf p s i (signed (s.reg i.rd) < signed (s.operand i i.rs))
  | .bltz => branchIf p s i (signed (s.reg i.rd) < 0)
  | .j => jumpTo p s i
  | .jal =>
      match p.textLabels.lookup i.label with
      | some n => (s.setReg Reg.ra (Image.codeAddress (s.pc + 1))).goto n
      | none => .fault (.unknownLabel i.op i.label) s
  | .jr =>
      let a := s.reg i.rd
      if a < textBase ∨ a % 4 ≠ 0 then .fault (.badJump a) s
      else s.goto ((a - textBase) / 4).toNat
  | .syscall => syscall cfg s
  | .other _ => .fault (.unknownInstruction i.op) s

/-- The instruction of the given number. -/
def fetch? (p : Image) (pc : Int) : Option Instr := if pc < 0 then none else p.text[pc.toNat]?

/-- Execute the next instruction. -/
def step (p : Image) (cfg : Config) (s : State) : Outcome :=
  match fetch? p s.pc with
  | none => .fault (.noInstruction s.pc) s
  | some i => execute p cfg i { s with steps := s.steps + 1 }

end MiniJava.Machine
