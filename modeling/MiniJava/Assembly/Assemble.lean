import MiniJava.Assembly.Image
import MiniJava.Assembly.Operand

/-!
# The assembler

An assembly text is read line by line: remarks are dropped, labels are taken off the front, and
what is left is a directive or an instruction.  Instructions are decoded when all labels are
known.

* **`AsmError`** — the first thing that is wrong with a text.
* **`Assembler.step`** — what a line does to the image so far.
* **`Assembler.decode`** — the instruction with the given operands.
* **`assemble`** — the image of a text.
-/

namespace MiniJava

/-! ### Errors -/

/-- What can be wrong with a line. -/
inductive AsmFault where
  | duplicateLabel (label : Bytes)
  | badLiteral (fault : Literal.Fault)
  | badWord (text : Bytes)
  | unknownDirective (name : Bytes)
  | instructionInData
  | unknownInstruction (name : Bytes)
  | operandCount (op : Opcode) (want got : Nat)
  | badRegister (op : Opcode) (text : Bytes)
  | badOperand (op : Opcode) (text : Bytes)
  | badImmediate (op : Opcode) (text : Bytes)
  | badMemory (op : Opcode) (text : Bytes)
  | badOffset (op : Opcode) (text : Bytes)
  | badBase (op : Opcode) (text : Bytes)
  | badLabel (op : Opcode) (text : Bytes)
  | unknownLabel (label : Bytes)
  deriving DecidableEq, Repr

/-- What is wrong with a text. -/
inductive AsmError where
  /-- Something is wrong with a line. -/
  | inLine (number : Nat) (fault : AsmFault)
  /-- The program has no start. -/
  | noEntry (label : Bytes)
  /-- A line is too long to be read. -/
  | lineTooLong
  deriving DecidableEq, Repr

/-- The kinds of errors. -/
inductive AsmErrorKind where
  | malformed
  | unknownLabel
  | duplicateLabel
  | unreadable
  deriving DecidableEq, Repr

/-- The name of a kind of error. -/
def AsmErrorKind.text : AsmErrorKind → Bytes
  | malformed => "syntax error"
  | unknownLabel => "unknown label"
  | duplicateLabel => "duplicate label"
  | unreadable => "other"

namespace AsmFault

/-- The kind of a fault. -/
def kind : AsmFault → AsmErrorKind
  | duplicateLabel _ => .duplicateLabel
  | unknownLabel _ => .unknownLabel
  | _ => .malformed

/-- The circumstances of a fault in words. -/
def circumstances : AsmFault → Bytes
  | duplicateLabel l => l
  | badLiteral f => f.message
  | badWord s => "bad word " ++ Quoted.quote s
  | unknownDirective d => "unknown directive " ++ d
  | instructionInData => "instruction in data segment"
  | unknownInstruction op => "unknown instruction " ++ op
  | operandCount op want got =>
      op.text ++ " expects " ++ natural want ++ " operands, got " ++ natural got
  | badRegister op s => op.text ++ ": bad register " ++ Quoted.quote s
  | badOperand op s => op.text ++ ": bad operand " ++ Quoted.quote s
  | badImmediate op s => op.text ++ ": bad immediate " ++ Quoted.quote s
  | badMemory op s => op.text ++ ": bad memory operand " ++ Quoted.quote s
  | badOffset op s => op.text ++ ": bad offset " ++ Quoted.quote s
  | badBase op s => op.text ++ ": bad base register in " ++ Quoted.quote s
  | badLabel op s => op.text ++ ": bad label " ++ Quoted.quote s
  | unknownLabel l => l

end AsmFault

namespace AsmError

/-- The kind of an error. -/
def kind : AsmError → AsmErrorKind
  | inLine _ f => f.kind
  | noEntry _ => .unknownLabel
  | lineTooLong => .unreadable

/-- The text of an error. -/
def message : AsmError → Bytes
  | inLine n f => "line " ++ natural n ++ ": " ++ f.circumstances ++ ": " ++ f.kind.text
  | noEntry l => "entry " ++ l ++ ": " ++ AsmErrorKind.unknownLabel.text
  | lineTooLong => "read source: bufio.Scanner: token too long"

end AsmError

namespace Assembler

/-! ### Lines -/

/-- The longest line that can be read, with its line feed. -/
def lineLimit : Nat := 0x100000

/-- The lines of a text up to the first that is too long, and whether there is such a line.  The
last line need not end with a line feed, but must then be shorter than the limit. -/
def readableLines : List Bytes → List Bytes × Bool
  | [] => ([], false)
  | [last] =>
      if last.isEmpty then ([], false)
      else if lineLimit ≤ last.length then ([], true)
      else ([last], false)
  | line :: rest =>
      if lineLimit ≤ line.length then ([], true)
      else
        let (lines, tooLong) := readableLines rest
        (line :: lines, tooLong)

/-- A line without the carriage return at its end. -/
def dropReturn (line : Bytes) : Bytes :=
  if line.getLast? == some '\r' then line.dropLast else line

/-- The length of the part of a line in front of a remark.  `quoted` says whether a string
literal is open; inside one a backslash hides the byte after it. -/
def remarkStart (quoted : Bool) (n : Nat) : Bytes → Nat
  | [] => n
  | c :: rest =>
      if c == '\\' && quoted then
        match rest with
        | [] => n + 1
        | _ :: rest => remarkStart quoted (n + 2) rest
      else if c == '"' then remarkStart (!quoted) (n + 1) rest
      else if c == '#' && !quoted then n
      else remarkStart quoted (n + 1) rest

/-- A line without its remark. -/
def stripRemark (line : Bytes) : Bytes := line.take (remarkStart false 0 line)

/-- The label at the front of a line, and what follows its colon. -/
def splitLabel? (line : Bytes) : Option (Bytes × Bytes) :=
  match Bytes.cut ':' line with
  | some (name, rest) => if isLabel name then some (name, rest.trim) else none
  | none => none

/-- The labels at the front of a line, at most `n`, and the rest of the line. -/
def takeLabels : (n : Nat) → Bytes → List Bytes × Bytes
  | 0, line => ([], line)
  | n + 1, line =>
      match splitLabel? line with
      | none => ([], line)
      | some (label, rest) =>
          let (labels, rest) := takeLabels n rest
          (label :: labels, rest)

/-- The first word of a line, and what follows it. -/
def splitWord (line : Bytes) : Bytes × Bytes :=
  let inWord (c : UInt8) : Bool := c != ' ' && c != '\t'
  (line.takeWhile inWord, Bytes.trim (line.dropWhile inWord).tail)

/-- The operands of a line, which commas separate. -/
def splitOperands (s : Bytes) : List Bytes :=
  let parts : List Bytes := s.splitOn ','
  if s.trim.isEmpty then [] else parts.map Bytes.trim

/-! ### Instructions -/

/-- The instruction in which the operand after `n` other registers is `r`. -/
def setReg (i : Instr) (n : Nat) (r : Reg) : Instr :=
  match n with
  | 0 => { i with rd := r }
  | 1 => { i with rs := r }
  | _ => { i with rt := r }

/-- Read an operand in memory. -/
def memory (i : Instr) (s : Bytes) : Except AsmFault Instr :=
  match Bytes.cut '(' s with
  | none => .error (.badMemory i.op s)
  | some (offset, base) =>
      if base.getLast? != some ')' then .error (.badMemory i.op s)
      else do
        let offset := offset.trim
        let n ←
          if offset.isEmpty then pure i.imm
          else
            match Immediate.read? offset with
            | some n => pure n
            | none => throw (.badOffset i.op offset)
        match Reg.read? (Bytes.trim base.dropLast) with
        | some r => return { i with rs := r, imm := n }
        | none => throw (.badBase i.op s)

/-- Read the operands of an instruction, `n` registers of which were read before. -/
def operands (i : Instr) : (n : Nat) → List OperandKind → List Bytes → Except AsmFault Instr
  | n, .reg :: ks, s :: ss =>
      match Reg.read? s with
      | some r => operands (setReg i n r) (n + 1) ks ss
      | none => .error (.badRegister i.op s)
  | n, .regOrImm :: ks, s :: ss =>
      match Reg.read? s with
      | some r => operands (setReg i n r) (n + 1) ks ss
      | none =>
          match Immediate.read? s with
          | some v => operands { i with imm := v, useImm := true } n ks ss
          | none => .error (.badOperand i.op s)
  | n, .imm :: ks, s :: ss =>
      match Immediate.read? s with
      | some v => operands { i with imm := v, useImm := true } n ks ss
      | none => .error (.badImmediate i.op s)
  | n, .mem :: ks, s :: ss =>
      match memory i s with
      | .ok i => operands i n ks ss
      | .error e => .error e
  | n, .label :: ks, s :: ss =>
      if isLabel s then operands { i with label := s } n ks ss else .error (.badLabel i.op s)
  | _, _, _ => .ok i

/-- The instruction of the given name with the given operands. -/
def decode (name : Bytes) (args : List Bytes) : Except AsmFault Instr :=
  match Opcode.named? name with
  | none => .error (.unknownInstruction name)
  | some op =>
      if args.length = op.operands.length then operands { op } 0 op.operands args
      else .error (.operandCount op op.operands.length args.length)

/-! ### The image line by line -/

/-- An instruction that is still to be decoded. -/
structure Pending where
  name : Bytes
  args : List Bytes
  line : Nat
  deriving DecidableEq, Repr

/-- The image so far. -/
structure State where
  /-- Do lines go to the data segment? -/
  inData : Bool
  data : Bytes
  dataLabels : List (Bytes × UInt32)
  textLabels : List (Bytes × Int)
  code : Array Pending
  deriving DecidableEq, Repr

namespace State

/-- Nothing was read. -/
def empty : State := ⟨false, [], [], [], #[]⟩

/-- The address of the next byte of data. -/
def here (s : State) : UInt32 := dataBase + UInt32.ofNat s.data.length

/-- Is the label defined? -/
def defines (s : State) (label : Bytes) : Bool :=
  (s.dataLabels.lookup label).isSome || (s.textLabels.lookup label).isSome

/-- Define a label for what follows. -/
def define (s : State) (label : Bytes) : Except AsmFault State :=
  if s.defines label then .error (.duplicateLabel label)
  else if s.inData then .ok { s with dataLabels := (label, s.here) :: s.dataLabels }
  else .ok { s with textLabels := (label, s.code.size) :: s.textLabels }

/-- Define labels in order. -/
def defineAll : State → List Bytes → Except AsmFault State
  | s, [] => .ok s
  | s, l :: ls => do defineAll (← s.define l) ls

/-- Fill the data up to a whole number of words; the given labels move along. -/
def align (s : State) (labels : List Bytes) : State :=
  let s := { s with data := s.data ++ Bytes.replicate ((4 - s.data.length % 4) % 4) 0 }
  { s with
    dataLabels := s.dataLabels.map fun (l, a) => if labels.contains l then (l, s.here) else (l, a) }

end State

/-- The four bytes of a word, the lowest first. -/
def wordBytes (w : UInt32) : Bytes :=
  [w.toUInt8, (w >>> 8).toUInt8, (w >>> 16).toUInt8, (w >>> 24).toUInt8]

/-- Read words of data. -/
def words : List Bytes → Except AsmFault Bytes
  | [] => .ok []
  | s :: ss =>
      match Immediate.read? s with
      | some v => return wordBytes (UInt32.ofInt v) ++ (← words ss)
      | none => .error (.badWord s)

/-- What a directive does; `labels` are the labels in the data on its line. -/
def directive (s : State) (labels : List Bytes) (name args : Bytes) : Except AsmFault State :=
  if name == ".data" then .ok { s with inData := true }
  else if name == ".text" then .ok { s with inData := false }
  else if name == ".globl" || name == ".align" then .ok s
  else if name == ".asciiz" then
    match Literal.read args with
    | .ok bytes => .ok { s with data := s.data ++ bytes ++ [0] }
    | .error f => .error (.badLiteral f)
  else if name == ".word" then do
    let s := s.align labels
    let bytes ← words (splitOperands args)
    return { s with data := s.data ++ bytes }
  else .error (.unknownDirective name)

/-- What a line without its remark does. -/
def content (s : State) (number : Nat) (line : Bytes) : Except AsmFault State := do
  let (labels, line) := takeLabels line.length line
  let s ← s.defineAll labels
  if line.isEmpty then return s
  let (name, args) := splitWord line
  if name.head? == some '.' then directive s (if s.inData then labels else []) name args
  else if s.inData then throw .instructionInData
  else return { s with code := s.code.push ⟨name, splitOperands args, number⟩ }

/-- What the line of the given number does. -/
def step (s : State) (number : Nat) (line : Bytes) : Except AsmError State :=
  match content s number (stripRemark (dropReturn line)).trim with
  | .ok s => .ok s
  | .error f => .error (.inLine number f)

/-- What lines do, the first of which has the given number. -/
def steps : State → (number : Nat) → List Bytes → Except AsmError State
  | s, _, [] => .ok s
  | s, n, line :: lines => do steps (← step s n line) (n + 1) lines

/-! ### The image -/

/-- Decode an instruction, whose label must be defined. -/
def finishInstr (s : State) (p : Pending) : Except AsmError Instr :=
  match decode p.name p.args with
  | .error f => .error (.inLine p.line f)
  | .ok i =>
      if i.label.isEmpty || s.defines i.label then .ok { i with line := p.line }
      else .error (.inLine p.line (.unknownLabel i.label))

/-- Decode instructions in order. -/
def finishCode (s : State) : List Pending → Except AsmError (List Instr)
  | [] => .ok []
  | p :: ps => return (← finishInstr s p) :: (← finishCode s ps)

/-- The label at which programs start. -/
def entryName : Bytes := "main"

/-- The image when all lines were read. -/
def finish (s : State) : Except AsmError Image := do
  let code ← finishCode s s.code.toList
  if (s.textLabels.lookup entryName).isNone then throw (.noEntry entryName)
  return ⟨code.toArray, s.data, s.dataLabels, s.textLabels, entryName⟩

end Assembler

/-- The image of an assembly text. -/
def assemble (source : Bytes) : Except AsmError Image := do
  let (lines, tooLong) := Assembler.readableLines (source.splitOn '\n')
  let s ← Assembler.steps .empty 1 lines
  if tooLong then throw .lineTooLong
  Assembler.finish s

end MiniJava
