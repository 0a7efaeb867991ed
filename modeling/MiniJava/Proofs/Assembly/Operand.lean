import MiniJava.Assembly.Assemble
import MiniJava.Proofs.Text.Byte
import MiniJava.Proofs.Text.Numeral

/-!
# Operands that are written and read back

The operands of an instruction are written without blanks and commas; what is written is what is
read.

* **`isFirm`** — visible bytes of ASCII, which are not trimmed.
* **`isInner`** — bytes that occur inside an operand.
* **`Instr.Legible`** — instructions that hold nothing but what their operands show, with proper
  labels.
* **`Instr.Writable`** — such instructions with numbers of 32 bits.
* **`decode_operandTexts`** — a writable instruction is read as what it is.
-/

namespace MiniJava

/-! ### Trimming -/

/-- Is the byte a visible one of ASCII? -/
def isFirm (c : UInt8) : Bool := 33 ≤ c && c ≤ 126

theorem width?_eq_none {wides : List Bytes} (hwides : ∀ w ∈ wides, ∃ d ∈ w.head?, 127 ≤ d)
    {c : UInt8} (hc : isFirm c) (rest : Bytes) : Blank.width? wides (c :: rest) = none := by
  simp only [isFirm, Bool.and_eq_true, decide_eq_true_eq] at hc
  have hblank : Blank.isBlankByte c = false := by
    simp only [Blank.isBlankByte, Bool.or_eq_false_iff, Bool.and_eq_false_iff,
      decide_eq_false_iff_not, beq_eq_false_iff_ne, ne_eq]
    grind
  rw [Blank.width?, hblank, if_neg (by decide)]
  rw [Option.map_eq_none_iff, List.find?_eq_none]
  intro w hw hpre
  obtain ⟨d, hd, hle⟩ := hwides w hw
  obtain ⟨w, rfl⟩ := List.head?_eq_some_iff.mp hd
  simp only [List.isPrefixOf_cons_cons, Bool.and_eq_true, beq_iff_eq] at hpre
  grind

/-- Blanks in front of a firm byte are dropped, and nothing else is. -/
theorem dropBlanks_replicate {wides : List Bytes} (hwides : ∀ w ∈ wides, ∃ d ∈ w.head?, 127 ≤ d)
    (n : Nat) {s : Bytes} (hs : ∀ c ∈ s.head?, isFirm c) :
    Blank.dropBlanks wides 0 (List.replicate n ' '.toUInt8 ++ s) = s := by
  induction n with
  | zero =>
    cases s with
    | nil => rfl
    | cons c s =>
      rw [List.replicate_zero, List.nil_append, Blank.dropBlanks,
        width?_eq_none hwides (hs c rfl) s]
  | succ n ih => exact ih

theorem wide_heads : ∀ w ∈ Blank.wide, ∃ d ∈ w.head?, 127 ≤ d := by decide

theorem wide_lasts : ∀ w ∈ Blank.wide.map List.reverse, ∃ d ∈ w.head?, 127 ≤ d := by decide

/-- Blanks around a text with firm ends are trimmed, and nothing else is. -/
theorem trim_replicate (m n : Nat) {s : Bytes} (hhead : ∀ c ∈ s.head?, isFirm c)
    (hlast : ∀ c ∈ s.getLast?, isFirm c) :
    Bytes.trim (List.replicate m ' '.toUInt8 ++ s ++ List.replicate n ' '.toUInt8) = s := by
  cases s with
  | nil =>
    have hblank := dropBlanks_replicate wide_heads (m + n) (s := []) (by simp)
    rw [List.append_nil] at hblank
    rw [List.append_nil, List.replicate_append_replicate, Bytes.trim, Bytes.trimStart, hblank]
    rfl
  | cons c s =>
    have hstart : Bytes.trimStart (List.replicate m ' '.toUInt8 ++ c :: s ++
        List.replicate n ' '.toUInt8) = c :: s ++ List.replicate n ' '.toUInt8 := by
      rw [Bytes.trimStart, List.append_assoc]
      exact dropBlanks_replicate wide_heads m (by simpa using hhead)
    rw [Bytes.trim, hstart, Bytes.trimEnd, List.reverse_append, List.reverse_replicate,
      dropBlanks_replicate wide_lasts n (by rwa [List.head?_reverse]), List.reverse_reverse]

theorem trim_eq_self {s : Bytes} (hhead : ∀ c ∈ s.head?, isFirm c)
    (hlast : ∀ c ∈ s.getLast?, isFirm c) : s.trim = s := by
  simpa using trim_replicate 0 0 hhead hlast

theorem trim_eq_self_of_isFirm {s : Bytes} (h : ∀ c ∈ s, isFirm c) : s.trim = s :=
  trim_eq_self (fun c hc => h c (List.mem_of_mem_head? hc))
    (fun c hc => h c (List.mem_of_getLast? hc))

/-! ### The bytes of operands -/

/-- Bytes that occur inside an operand: those of labels, a minus sign, parentheses. -/
def isInner (c : UInt8) : Bool := isLabelByte c || c == '-' || c == '(' || c == ')'

/-- What the assembler looks for in a line is not found inside an operand. -/
theorem isInner_spec : ∀ c : UInt8, isInner c → isFirm c ∧ c ≠ ','.toUInt8 ∧ c ≠ ':'.toUInt8 ∧
    c ≠ '#'.toUInt8 ∧ c ≠ '"'.toUInt8 ∧ c ≠ '\\'.toUInt8 := by
  refine forall_byte ?_
  decide +kernel

theorem isInner_of_isLabelByte {c : UInt8} (h : isLabelByte c) : isInner c := by
  simp [isInner, h]

theorem isInner_of_isDigit {c : UInt8} (h : isDigit c) : isInner c := by
  simp [isInner, isLabelByte, h]

/-- The texts of registers are short and without anything that is looked for in a line, and they
are read back. -/
theorem Reg.text_spec (r : Reg) :
    r.text.length ≤ 5 ∧ r.text.all isInner ∧ Reg.read? r.text = some r := by
  revert r
  decide +kernel

theorem isInner_text (r : Reg) : ∀ c ∈ r.text, isInner c :=
  List.all_eq_true.mp r.text_spec.2.1

theorem Reg.read?_text (r : Reg) : Reg.read? r.text = some r := r.text_spec.2.2

theorem text_ne_nil (r : Reg) : r.text ≠ [] := by
  intro hnil
  have hread := Reg.read?_text r
  rw [hnil] at hread
  cases hread

/-- The same for the texts of opcodes, which do not start like directives. -/
theorem Opcode.text_spec : ∀ op ∈ Opcode.names.map (·.2), op.text ≠ [] ∧ op.text.length ≤ 7 ∧
    op.text.all isInner ∧ op.text.head? ≠ some '.'.toUInt8 ∧ Opcode.named? op.text = some op := by
  decide +kernel

theorem isInner_decimal (n : Int) : ∀ c ∈ decimal n, isInner c := by
  intro c hc
  cases n with
  | ofNat n => exact isInner_of_isDigit (isDigit_of_mem_natural hc)
  | negSucc n =>
    rcases List.mem_cons.mp hc with rfl | hc
    · decide
    · exact isInner_of_isDigit (isDigit_of_mem_natural hc)

theorem decimal_ne_nil (n : Int) : decimal n ≠ [] := by
  cases n with
  | ofNat n => exact natural_ne_nil n
  | negSucc n => exact List.cons_ne_nil _ _

theorem isInner_of_isLabel {l : Bytes} (h : isLabel l) : ∀ c ∈ l, isInner c := by
  cases l with
  | nil => simp
  | cons c l =>
    simp only [isLabel, Bool.and_eq_true, List.all_eq_true] at h
    exact fun d hd => isInner_of_isLabelByte (h.1.2 d hd)

theorem ne_nil_of_isLabel {l : Bytes} (h : isLabel l) : l ≠ [] := by
  rintro rfl
  cases h

/-! ### Reading one operand -/

/-- A number is no register. -/
theorem Reg.read?_decimal (n : Int) : Reg.read? (decimal n) = none := by
  have hfront : ∀ c ∈ (decimal n).head?, c ≠ '$'.toUInt8 := by
    rintro c hc rfl
    cases n with
    | ofNat n =>
      have hdigit := isDigit_of_mem_natural (List.mem_of_mem_head? hc)
      exact absurd hdigit (by decide)
    | negSucc n => exact absurd (Option.some.inj hc) (by decide)
  rcases hdecimal : decimal n with _ | ⟨c, rest⟩
  · rfl
  · rw [hdecimal] at hfront
    simp [Reg.read?, hfront c rfl]

/-- An operand in memory, as it is written. -/
def memoryText (i : Instr) : Bytes := decimal i.imm ++ "(" ++ i.rs.text ++ ")"

theorem not_mem_decimal (n : Int) : '('.toUInt8 ∉ decimal n := by
  intro hmem
  cases n with
  | ofNat n => exact absurd (isDigit_of_mem_natural hmem) (by decide)
  | negSucc n =>
    rcases List.mem_cons.mp hmem with heq | hmem
    · exact absurd heq (by decide)
    · exact absurd (isDigit_of_mem_natural hmem) (by decide)

theorem Assembler.memory_memoryText {i j : Instr} (hlow : -0x80000000 ≤ i.imm)
    (hhigh : i.imm < 0x80000000) :
    Assembler.memory j (memoryText i) = .ok { j with rs := i.rs, imm := i.imm } := by
  have hcut : Bytes.cut '(' (memoryText i) = some (decimal i.imm, i.rs.text ++ utf8 ")") :=
    Bytes.cut_eq_some_iff.mpr ⟨by simp [memoryText]; rfl, not_mem_decimal i.imm⟩
  have hlast : (i.rs.text ++ utf8 ")").getLast? = some ')'.toUInt8 := by
    rw [List.getLast?_append]
    rfl
  have hdrop : (i.rs.text ++ utf8 ")").dropLast = i.rs.text := List.dropLast_concat
  have hoffset : (decimal i.imm).trim = decimal i.imm :=
    trim_eq_self_of_isFirm fun c hc => (isInner_spec c (isInner_decimal _ c hc)).1
  have hbase : (i.rs.text).trim = i.rs.text :=
    trim_eq_self_of_isFirm fun c hc => (isInner_spec c (isInner_text _ c hc)).1
  have hempty : (decimal i.imm).isEmpty = false := by simp [decimal_ne_nil]
  simp only [memory, hcut, hlast, hoffset, hempty, hdrop, hbase, Reg.read?_text,
    Immediate.read?_decimal hlow hhigh]
  rfl

/-! ### Instructions -/

/-- The instruction `j` with the operands of `i` of the given kinds, `n` registers of which were
taken before. -/
def Instr.absorb (i : Instr) : (j : Instr) → (n : Nat) → List OperandKind → Instr
  | j, _, [] => j
  | j, n, .reg :: ks => absorb i (Assembler.setReg j n (i.regAt n)) (n + 1) ks
  | j, n, .regOrImm :: ks =>
      if i.useImm then absorb i { j with imm := i.imm, useImm := true } n ks
      else absorb i (Assembler.setReg j n (i.regAt n)) (n + 1) ks
  | j, n, .imm :: ks => absorb i { j with imm := i.imm, useImm := true } n ks
  | j, n, .mem :: ks => absorb i { j with rs := i.rs, imm := i.imm } n ks
  | j, n, .label :: ks => absorb i { j with label := i.label } n ks

/-- An instruction that says what it is: one of the machine that holds nothing but what its operands
show, with a proper label.  Its number may be too wide. -/
structure Instr.Legible (i : Instr) : Prop where
  known : i.op ∈ Opcode.names.map (·.2)
  label : .label ∈ i.op.operands → isLabel i.label
  whole : i.absorb { op := i.op } 0 i.op.operands = i

/-- An instruction that can be written: one of the machine that holds nothing but what its operands
show, with a number of 32 bits and a proper label. -/
structure Instr.Writable (i : Instr) : Prop where
  known : i.op ∈ Opcode.names.map (·.2)
  low : -0x80000000 ≤ i.imm
  high : i.imm < 0x80000000
  label : .label ∈ i.op.operands → isLabel i.label
  whole : i.absorb { op := i.op } 0 i.op.operands = i

theorem Instr.Writable.legible {i : Instr} (h : i.Writable) : i.Legible :=
  ⟨h.known, h.label, h.whole⟩

theorem Instr.length_operandTexts (i : Instr) (n : Nat) (ks : List OperandKind) :
    (i.operandTexts n ks).length = ks.length := by
  induction ks generalizing n with
  | nil => rfl
  | cons k ks ih =>
    cases k with
    | regOrImm =>
      simp only [operandTexts]
      split <;> simp [ih]
    | _ => simp [operandTexts, ih]

/-- Every operand is written in bytes of operands, and in at least one. -/
theorem Instr.operandTexts_spec {i : Instr} {n : Nat} {ks : List OperandKind}
    (hlabel : .label ∈ ks → isLabel i.label) :
    ∀ s ∈ i.operandTexts n ks, s ≠ [] ∧ ∀ c ∈ s, isInner c := by
  induction ks generalizing n with
  | nil => simp [operandTexts]
  | cons k ks ih =>
    have hrest := fun n => ih (n := n) fun h => hlabel (List.mem_cons_of_mem _ h)
    cases k with
    | reg =>
      exact List.forall_mem_cons.mpr ⟨⟨text_ne_nil _, isInner_text _⟩, hrest _⟩
    | regOrImm =>
      simp only [operandTexts]
      split
      · exact List.forall_mem_cons.mpr ⟨⟨decimal_ne_nil _, isInner_decimal _⟩, hrest _⟩
      · exact List.forall_mem_cons.mpr ⟨⟨text_ne_nil _, isInner_text _⟩, hrest _⟩
    | imm => exact List.forall_mem_cons.mpr ⟨⟨decimal_ne_nil _, isInner_decimal _⟩, hrest _⟩
    | mem =>
      refine List.forall_mem_cons.mpr ⟨⟨by simp [decimal_ne_nil], ?_⟩, hrest _⟩
      simp only [List.forall_mem_append]
      exact ⟨⟨⟨isInner_decimal _, List.all_eq_true.mp (by decide)⟩, isInner_text _⟩,
        List.all_eq_true.mp (by decide)⟩
    | label =>
      have hl := hlabel (List.mem_cons_self ..)
      exact List.forall_mem_cons.mpr ⟨⟨ne_nil_of_isLabel hl, isInner_of_isLabel hl⟩, hrest _⟩

/-- Operands are read as they were written. -/
theorem Assembler.operands_operandTexts {i : Instr} (hlow : -0x80000000 ≤ i.imm)
    (hhigh : i.imm < 0x80000000) {ks : List OperandKind} (hlabel : .label ∈ ks → isLabel i.label)
    (j : Instr) (n : Nat) :
    Assembler.operands j n ks (i.operandTexts n ks) = .ok (i.absorb j n ks) := by
  induction ks generalizing j n with
  | nil => rfl
  | cons k ks ih =>
    have hrest := ih fun h => hlabel (List.mem_cons_of_mem _ h)
    cases k with
    | reg => simp only [Instr.operandTexts, operands, Reg.read?_text, Instr.absorb, hrest]
    | regOrImm =>
      simp only [Instr.operandTexts, Instr.absorb]
      split
      · simp only [operands, Reg.read?_decimal, Immediate.read?_decimal hlow hhigh, hrest]
      · simp only [operands, Reg.read?_text, hrest]
    | imm =>
      simp only [Instr.operandTexts, operands, Immediate.read?_decimal hlow hhigh, Instr.absorb,
        hrest]
    | mem =>
      have hmemory := memory_memoryText (j := j) hlow hhigh
      simp only [memoryText] at hmemory
      simp only [Instr.operandTexts, operands, hmemory, Instr.absorb, hrest]
    | label =>
      have hl := hlabel (List.mem_cons_self ..)
      simp only [Instr.operandTexts, operands, hl, if_true, Instr.absorb, hrest]

theorem Opcode.named?_text {op : Opcode} (h : op ∈ Opcode.names.map (·.2)) :
    Opcode.named? op.text = some op :=
  (Opcode.text_spec op h).2.2.2.2

/-- A writable instruction is read as what it is. -/
theorem Assembler.decode_operandTexts {i : Instr} (h : i.Writable) :
    Assembler.decode i.op.text (i.operandTexts 0 i.op.operands) = .ok i := by
  simp only [decode, Opcode.named?_text h.known, i.length_operandTexts, if_true]
  rw [operands_operandTexts h.low h.high h.label, h.whole]

end MiniJava
