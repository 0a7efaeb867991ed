import MiniJava.Text.Decimal

/-!
# Instructions

The instructions of the target machine, with one record for all of them: which of its fields an
instruction reads is told by the operands that its opcode takes.

* **`Reg`** — the thirty-two registers, with the names of those that matter here.
* **`Opcode`**, **`Opcode.operands`** — the opcodes and the operands each of them takes.
* **`Instr`** — an instruction; `Instr.text` is how it is written.

The first register among the operands is `rd`, the second `rs`, the third `rt`; an operand in
memory is `rs` plus the offset `imm`.
-/

namespace MiniJava

/-- A register. -/
abbrev Reg := Fin 32

namespace Reg

/-- Always zero. -/
def zero : Reg := 0
/-- Results, and the number of a system call. -/
def v0 : Reg := 2
/-- The accumulator. -/
def a0 : Reg := 4
def a2 : Reg := 6
def t0 : Reg := 8
def t1 : Reg := 9
def t2 : Reg := 10
def gp : Reg := 28
/-- The stack pointer: the free word below the stack. -/
def sp : Reg := 29
/-- The frame pointer. -/
def fp : Reg := 30
/-- The return address. -/
def ra : Reg := 31

/-- The names of the registers; register 30 has two, of which the first is written. -/
def names : List (String × Reg) :=
  [("zero", 0), ("at", 1), ("v0", 2), ("v1", 3), ("a0", 4), ("a1", 5), ("a2", 6), ("a3", 7),
   ("t0", 8), ("t1", 9), ("t2", 10), ("t3", 11), ("t4", 12), ("t5", 13), ("t6", 14), ("t7", 15),
   ("s0", 16), ("s1", 17), ("s2", 18), ("s3", 19), ("s4", 20), ("s5", 21), ("s6", 22),
   ("s7", 23), ("t8", 24), ("t9", 25), ("k0", 26), ("k1", 27), ("gp", 28), ("sp", 29),
   ("fp", 30), ("s8", 30), ("ra", 31)]

/-- The register of the given name. -/
def named? (name : Bytes) : Option Reg := (names.find? (utf8 ·.1 == name)).map (·.2)

/-- A register as it is written in assembly. -/
def text (r : Reg) : Bytes :=
  match names.find? (·.2 == r) with
  | some (name, _) => "$" ++ utf8 name
  | none => "$" ++ natural r.val

end Reg

/-- The opcodes. -/
inductive Opcode where
  | li | la | move | lw | sw
  | addi | addiu | add | addu | sub | subu | and | or | nor | slt | sll | mult | mflo
  | beq | bne | bgeu | bge | bgt | blt | bltz
  | j | jal | jr | syscall
  /-- A word that is no opcode of the machine. -/
  | other (name : Bytes)
  deriving DecidableEq, Repr

/-- What can stand as an operand. -/
inductive OperandKind where
  | reg
  /-- A register, or a number in its place. -/
  | regOrImm
  | imm
  /-- An offset and a base register. -/
  | mem
  | label
  deriving DecidableEq, Repr

namespace Opcode

/-- The opcodes of the machine by name. -/
def names : List (String × Opcode) :=
  [("li", li), ("la", la), ("move", move), ("lw", lw), ("sw", sw), ("addi", addi),
   ("addiu", addiu), ("add", add), ("addu", addu), ("sub", sub), ("subu", subu), ("and", and),
   ("or", or), ("nor", nor), ("slt", slt), ("sll", sll), ("mult", mult), ("mflo", mflo),
   ("beq", beq), ("bne", bne), ("bgeu", bgeu), ("bge", bge), ("bgt", bgt), ("blt", blt),
   ("bltz", bltz), ("j", j), ("jal", jal), ("jr", jr), ("syscall", syscall)]

/-- The opcode of the given name. -/
def named? (name : Bytes) : Option Opcode := (names.find? (utf8 ·.1 == name)).map (·.2)

/-- The opcode that is written `name`, be it one of the machine or not. -/
def ofName (name : Bytes) : Opcode := (named? name).getD (other name)

/-- An opcode as it is written in assembly. -/
def text : Opcode → Bytes
  | other name => name
  | op =>
      match names.find? (·.2 == op) with
      | some (name, _) => name
      | none => []

/-- The operands that an opcode takes, in order. -/
def operands : Opcode → List OperandKind
  | li => [.reg, .imm]
  | la => [.reg, .label]
  | move => [.reg, .reg]
  | lw | sw => [.reg, .mem]
  | addi | addiu | sll => [.reg, .reg, .imm]
  | add | addu | sub | subu | and | or | nor | slt => [.reg, .reg, .regOrImm]
  | mult => [.reg, .reg]
  | mflo | jr => [.reg]
  | beq | bne | bgeu | bge | bgt | blt => [.reg, .regOrImm, .label]
  | bltz => [.reg, .label]
  | j | jal => [.label]
  | syscall => []
  | other _ => []

end Opcode

/-- An instruction. -/
structure Instr where
  op : Opcode
  rd : Reg := Reg.zero
  rs : Reg := Reg.zero
  rt : Reg := Reg.zero
  /-- The number among the operands, or the offset of an operand in memory. -/
  imm : Int := 0
  /-- Does a number stand in the place of the last register? -/
  useImm : Bool := false
  /-- The label among the operands, or nothing. -/
  label : Bytes := []
  /-- The line of the assembly it was read from. -/
  line : Int := 0
  deriving DecidableEq, Repr

namespace Instr

/-- The register that is the operand after `n` other registers. -/
def regAt (i : Instr) : Nat → Reg
  | 0 => i.rd
  | 1 => i.rs
  | _ => i.rt

/-- The operands as they are written; `n` registers were written before them. -/
def operandTexts (i : Instr) : (n : Nat) → List OperandKind → List Bytes
  | _, [] => []
  | n, .reg :: ks => (i.regAt n).text :: operandTexts i (n + 1) ks
  | n, .regOrImm :: ks =>
      if i.useImm then decimal i.imm :: operandTexts i n ks
      else (i.regAt n).text :: operandTexts i (n + 1) ks
  | n, .imm :: ks => decimal i.imm :: operandTexts i n ks
  | n, .mem :: ks => (decimal i.imm ++ "(" ++ i.rs.text ++ ")") :: operandTexts i n ks
  | n, .label :: ks => i.label :: operandTexts i n ks

/-- An instruction as it is written in assembly. -/
def text (i : Instr) : Bytes :=
  match i.operandTexts 0 i.op.operands with
  | [] => i.op.text
  | operands => i.op.text ++ " " ++ Bytes.join ", " operands

/-! ### The instructions by name -/

/-- `rd := n` -/
def li (rd : Reg) (n : Int) : Instr := { op := .li, rd, imm := n, useImm := true }

/-- `rd := the address of label` -/
def la (rd : Reg) (label : Bytes) : Instr := { op := .la, rd, label }

/-- `rd := rs` -/
def move (rd rs : Reg) : Instr := { op := .move, rd, rs }

/-- `rd := the word at base + offset` -/
def lw (rd : Reg) (offset : Int) (base : Reg) : Instr := { op := .lw, rd, rs := base, imm := offset }

/-- `the word at base + offset := rd` -/
def sw (rd : Reg) (offset : Int) (base : Reg) : Instr := { op := .sw, rd, rs := base, imm := offset }

/-- `rd := rs op n` -/
def withImm (op : Opcode) (rd rs : Reg) (n : Int) : Instr := { op, rd, rs, imm := n, useImm := true }

/-- `rd := rs op rt` -/
def withRegs (op : Opcode) (rd rs rt : Reg) : Instr := { op, rd, rs, rt }

/-- An instruction with one register and nothing else. -/
def onReg (op : Opcode) (rd : Reg) : Instr := { op, rd }

/-- An instruction with two registers and nothing else. -/
def onRegs (op : Opcode) (rd rs : Reg) : Instr := { op, rd, rs }

/-- Go to `label` if `rd` is as `op` says. -/
def branchZero (op : Opcode) (rd : Reg) (label : Bytes) : Instr := { op, rd, label }

/-- Go to `label` if `rd` and `rs` compare as `op` says. -/
def branch (op : Opcode) (rd rs : Reg) (label : Bytes) : Instr := { op, rd, rs, label }

/-- Go to `label`. -/
def jump (op : Opcode) (label : Bytes) : Instr := { op, label }

/-- Call the system. -/
def syscall : Instr := { op := .syscall }

end Instr

end MiniJava
