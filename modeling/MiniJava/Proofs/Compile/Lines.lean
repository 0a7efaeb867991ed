import MiniJava.Compile.Program
import MiniJava.Proofs.Assembly.Line

/-!
# Lines that code is made of

The lines of compiled code can be written: their numbers fit in a word, their labels are labels,
and they are short.

* **`length_text_le`** — how long an instruction is.
* **`Line.writable_instr`** — an instruction with a label that is not too long can be written.
* **`writable_li`**, **`writable_lw`**, … — the same for each kind of instruction.
-/

namespace MiniJava

open Instr Reg Code

/-! ### The length of a line -/

theorem length_decimal_le {n : Int} (hlow : -0x80000000 ≤ n) (hhigh : n < 0x80000000) :
    (decimal n).length ≤ 11 := by
  cases n with
  | ofNat n =>
    have hn : n < 0x80000000 := Int.ofNat_lt.mp hhigh
    have hlength := length_natural_le (k := 9) (n := n) (hn.trans (by decide))
    exact Nat.le_succ_of_le hlength
  | negSucc n =>
    have hn : n + 1 ≤ 0x80000000 := by omega
    have hlength := length_natural_le (k := 9) (n := n + 1) (hn.trans_lt (by decide))
    exact Nat.succ_le_succ hlength

theorem length_join_cons_le (s : Bytes) (ss : List Bytes) :
    (Bytes.join ", " (s :: ss)).length ≤ s.length + 2 + (Bytes.join ", " ss).length := by
  cases ss with
  | nil =>
    show s.length ≤ _
    omega
  | cons s' ss =>
    have hcomma : (utf8 ", ").length = 2 := by decide
    simp only [Bytes.join, List.length_append]
    omega

/-- Apart from labels, an operand has at most 18 bytes. -/
theorem length_join_operandTexts_le {i : Instr} (hlow : -0x80000000 ≤ i.imm)
    (hhigh : i.imm < 0x80000000) (n : Nat) (ks : List OperandKind) :
    (Bytes.join ", " (i.operandTexts n ks)).length ≤
      20 * ks.length + ks.count .label * i.label.length := by
  have himm := length_decimal_le hlow hhigh
  induction ks generalizing n with
  | nil => exact Nat.zero_le _
  | cons k ks ih =>
    cases k with
    | reg =>
      have hreg := (i.regAt n).text_spec.1
      have hrest := ih (n + 1)
      have hcons := length_join_cons_le (i.regAt n).text (i.operandTexts (n + 1) ks)
      simp only [operandTexts, List.length_cons,
        List.count_cons_of_ne (show OperandKind.reg ≠ .label by decide)]
      omega
    | regOrImm =>
      have hreg := (i.regAt n).text_spec.1
      simp only [operandTexts, List.length_cons,
        List.count_cons_of_ne (show OperandKind.regOrImm ≠ .label by decide)]
      split
      · have hrest := ih n
        have hcons := length_join_cons_le (decimal i.imm) (i.operandTexts n ks)
        omega
      · have hrest := ih (n + 1)
        have hcons := length_join_cons_le (i.regAt n).text (i.operandTexts (n + 1) ks)
        omega
    | imm =>
      have hrest := ih n
      have hcons := length_join_cons_le (decimal i.imm) (i.operandTexts n ks)
      simp only [operandTexts, List.length_cons,
        List.count_cons_of_ne (show OperandKind.imm ≠ .label by decide)]
      omega
    | mem =>
      have hreg := i.rs.text_spec.1
      have hrest := ih n
      have hmem : (decimal i.imm ++ utf8 "(" ++ i.rs.text ++ utf8 ")").length ≤ 18 := by
        have hparen : (utf8 "(").length = 1 ∧ (utf8 ")").length = 1 := by decide
        simp only [List.length_append]
        omega
      have hcons := length_join_cons_le (decimal i.imm ++ utf8 "(" ++ i.rs.text ++ utf8 ")")
        (i.operandTexts n ks)
      simp only [operandTexts, List.length_cons,
        List.count_cons_of_ne (show OperandKind.mem ≠ .label by decide)]
      omega
    | label =>
      have hrest := ih n
      have hcons := length_join_cons_le i.label (i.operandTexts n ks)
      simp only [operandTexts, List.length_cons, List.count_cons_self, Nat.add_mul, Nat.one_mul]
      omega

theorem operands_bounds (op : Opcode) : op.operands.length ≤ 3 ∧ op.operands.count .label ≤ 1 := by
  cases op with
  | other name => exact ⟨Nat.zero_le _, Nat.zero_le _⟩
  | _ => decide

/-- An instruction is hardly longer than its label. -/
theorem length_text_le {i : Instr} (h : i.Writable) : i.text.length ≤ i.label.length + 80 := by
  obtain ⟨-, hop, -⟩ := Opcode.text_spec i.op h.known
  obtain ⟨hcount, hlabels⟩ := operands_bounds i.op
  have hjoin := length_join_operandTexts_le h.low h.high 0 i.op.operands
  have hlabel : i.op.operands.count .label * i.label.length ≤ i.label.length := by
    calc i.op.operands.count .label * i.label.length
        ≤ 1 * i.label.length := Nat.mul_le_mul_right _ hlabels
      _ = i.label.length := Nat.one_mul _
  unfold Instr.text
  split
  · omega
  · have hspace : (utf8 " ").length = 1 := by decide
    simp only [List.length_append]
    omega

/-! ### Lines -/

/-- Labels are short if they leave room on their line. -/
def Short (l : Bytes) : Prop := l.length ≤ 1000000

theorem Line.writable_instr {i : Instr} (h : i.Writable) (hlabel : Short i.label) {r : Bytes}
    (hr : isRemark r) (hlength : r.length ≤ 100) : (Line.instr i r).Writable := by
  refine ⟨h, hr, ?_⟩
  have htext := length_text_le h
  have hindent : (utf8 "    ").length = 4 := by decide
  unfold Short at hlabel
  simp only [Line.write, List.length_append, Assembler.lineLimit]
  omega

theorem Line.writable_one {i : Instr} (h : i.Writable) (hlabel : Short i.label) :
    (one i).Writable :=
  Line.writable_instr h hlabel (by decide) (by decide)

theorem Line.writable_label {l : Bytes} (h : isLabel l) (hshort : Short l) :
    (Line.label l).Writable := by
  refine ⟨h, ?_⟩
  have hcolon : (utf8 ":").length = 1 := by decide
  unfold Short at hshort
  simp only [Line.write, List.length_append, Assembler.lineLimit]
  omega

instance (i : Instr) : Decidable i.Writable :=
  decidable_of_iff (i.op ∈ Opcode.names.map (·.2) ∧ -0x80000000 ≤ i.imm ∧ i.imm < 0x80000000 ∧
      (.label ∈ i.op.operands → isLabel i.label) ∧ i.absorb { op := i.op } 0 i.op.operands = i)
    ⟨fun ⟨a, b, c, d, e⟩ => ⟨a, b, c, d, e⟩, fun ⟨a, b, c, d, e⟩ => ⟨a, b, c, d, e⟩⟩

instance : DecidablePred Line.Writable
  | .label l => inferInstanceAs (Decidable (isLabel l ∧ (Line.label l).write.length < _))
  | .instr i r => inferInstanceAs
      (Decidable (i.Writable ∧ isRemark r ∧ (Line.instr i r).write.length < _))
  | .remark n s => decidable_of_iff
      (s.all isLineByte ∧ (Line.remark n s).write.length < Assembler.lineLimit)
      (and_congr_left' List.all_eq_true)
  | .blank => isTrue trivial
  | .data => isFalse id
  | .text => isFalse id
  | .global _ => isFalse id
  | .string _ _ => isFalse id

/-! ### Instructions -/

theorem short_nil : Short [] := by
  unfold Short
  decide

/-- An instruction without a label can be written if its number fits in a word. -/
theorem writable_of_number (op : Opcode)
    (hop : op ∈ Opcode.names.map (·.2) ∧ .label ∉ op.operands) {i : Instr} (hi : i.op = op)
    (hlabel : i.label = []) (hlow : -0x80000000 ≤ i.imm) (hhigh : i.imm < 0x80000000)
    (hwhole : i.absorb { op := i.op } 0 i.op.operands = i) : (one i).Writable := by
  subst hi
  refine Line.writable_one ⟨hop.1, hlow, hhigh, fun h => absurd h hop.2, hwhole⟩ ?_
  rw [hlabel]
  exact short_nil

/-- An instruction with a label and no number can be written. -/
theorem writable_of_label (op : Opcode) (hop : op ∈ Opcode.names.map (·.2)) {i : Instr}
    (hi : i.op = op) (hl : isLabel i.label) (hshort : Short i.label) (himm : i.imm = 0)
    (hwhole : i.absorb { op := i.op } 0 i.op.operands = i) : (one i).Writable := by
  subst hi
  refine Line.writable_one ⟨hop, ?_, ?_, fun _ => hl, hwhole⟩ hshort
  · rw [himm]
    decide
  · rw [himm]
    decide

section Numbers

variable {n : Int} (hlow : -0x80000000 ≤ n) (hhigh : n < 0x80000000)

include hlow hhigh

theorem writable_li (r : Reg) : (one (li r n)).Writable :=
  writable_of_number .li (by decide) rfl rfl hlow hhigh rfl

theorem writable_lw (r base : Reg) : (one (lw r n base)).Writable :=
  writable_of_number .lw (by decide) rfl rfl hlow hhigh rfl

theorem writable_sw (r base : Reg) : (one (sw r n base)).Writable :=
  writable_of_number .sw (by decide) rfl rfl hlow hhigh rfl

theorem writable_addiu (r r' : Reg) : (one (withImm .addiu r r' n)).Writable :=
  writable_of_number .addiu (by decide) rfl rfl hlow hhigh rfl

end Numbers

section Plain

/-- An instruction without a label and without a number can be written. -/
theorem writable_of_regs (op : Opcode)
    (hop : op ∈ Opcode.names.map (·.2) ∧ .label ∉ op.operands) {i : Instr} (hi : i.op = op)
    (hlabel : i.label = []) (himm : i.imm = 0)
    (hwhole : i.absorb { op := i.op } 0 i.op.operands = i) : (one i).Writable := by
  refine writable_of_number op hop hi hlabel ?_ ?_ hwhole
  · rw [himm]
    decide
  · rw [himm]
    decide

theorem writable_move (r r' : Reg) : (one (move r r')).Writable :=
  writable_of_regs .move (by decide) rfl rfl rfl rfl

theorem writable_jr (r : Reg) : (one (onReg .jr r)).Writable :=
  writable_of_regs .jr (by decide) rfl rfl rfl rfl

theorem writable_syscall : (one Instr.syscall).Writable :=
  writable_of_regs .syscall (by decide) rfl rfl rfl rfl

/-- A store may have a remark. -/
theorem writable_sw_remark {n : Int} (hlow : -0x80000000 ≤ n) (hhigh : n < 0x80000000)
    (r base : Reg) {remark : Bytes} (hremark : isRemark remark) (hlength : remark.length ≤ 100) :
    (Line.instr (sw r n base) remark).Writable :=
  Line.writable_instr (writable_sw hlow hhigh r base).1 short_nil hremark hlength

end Plain

section Targets

variable {l : Bytes} (hl : isLabel l) (hshort : Short l)

include hl hshort

theorem writable_beq (r r' : Reg) : (one (branch .beq r r' l)).Writable :=
  writable_of_label .beq (by decide) rfl hl hshort rfl rfl

theorem writable_bge (r r' : Reg) : (one (branch .bge r r' l)).Writable :=
  writable_of_label .bge (by decide) rfl hl hshort rfl rfl

theorem writable_j : (one (jump .j l)).Writable :=
  writable_of_label .j (by decide) rfl hl hshort rfl rfl

theorem writable_jal : (one (jump .jal l)).Writable :=
  writable_of_label .jal (by decide) rfl hl hshort rfl rfl

end Targets

end MiniJava
