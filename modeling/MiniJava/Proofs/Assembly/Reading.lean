import MiniJava.Proofs.Assembly.Image

/-!
# Code as it is read

Numbers in assembly may be written signed or unsigned; the assembler keeps the signed number of
their 32 bits, or refuses them.  Apart from that, code whose text it accepts is read as what was
written, however large it is: what assembles has no label twice, and its image is known.

* **`Instr.wrapped`**, **`Code.wrapped`** — instructions and code with the numbers that are kept.
* **`decode_eq_ok`** — an instruction that is accepted is kept so.
* **`of_assemble_text`** — the same for the whole text of a program.

Numbers outside of `Immediate.InRange` are refused.
-/

namespace MiniJava

/-! ### Numbers that are kept -/

theorem ofInt_toSigned (n : Int) : UInt32.ofInt (Immediate.toSigned n) = UInt32.ofInt n := by
  unfold Immediate.toSigned
  split
  · show UInt32.ofNat ((n - 0x100000000) % 0x100000000).toNat =
      UInt32.ofNat (n % 0x100000000).toNat
    rw [Int.sub_emod_right]
  · rfl

/-- A number of 32 bits, signed or unsigned. -/
def Immediate.InRange (n : Int) : Prop := -0x80000000 ≤ n ∧ n < 0x100000000

/-- The instruction with the number that the assembler keeps for it. -/
def Instr.wrapped (i : Instr) : Instr := { i with imm := Immediate.toSigned i.imm }

/-- The line with the number that the assembler keeps for its instruction. -/
def Line.wrapped : Line → Line
  | .instr i r => .instr i.wrapped r
  | l => l

/-- The code with the numbers that the assembler keeps. -/
def Code.wrapped (c : Code) : Code := c.map Line.wrapped

namespace Code

@[simp] theorem wrapped_append (a b : Code) : wrapped (a ++ b) = wrapped a ++ wrapped b :=
  List.map_append

@[simp] theorem labels_wrapped (c : Code) : labels (wrapped c) = labels c := by
  induction c with
  | nil => rfl
  | cons l c ih =>
    cases l with
    | label l => exact congrArg (l :: ·) ih
    | _ => exact ih

@[simp] theorem instrs_wrapped (c : Code) : instrs (wrapped c) = (instrs c).map Instr.wrapped := by
  induction c with
  | nil => rfl
  | cons l c ih =>
    cases l with
    | instr i r => exact congrArg (i.wrapped :: ·) ih
    | _ => exact ih

theorem placed_wrapped (k : Nat) (c : Code) : placed k (wrapped c) = placed k c := by
  induction c generalizing k with
  | nil => rfl
  | cons l c ih =>
    cases l with
    | label l => exact congrArg ((l, (k : Int)) :: ·) (ih k)
    | _ => exact ih _

end Code

/-! ### Instructions -/

namespace Assembler

theorem setReg_imm (i : Instr) (n : Nat) (r : Reg) : (setReg i n r).imm = i.imm := by
  match n with
  | 0 => rfl
  | 1 => rfl
  | n + 2 => rfl

theorem of_memory_memoryText {i j j' : Instr} (h : memory j (memoryText i) = .ok j') :
    Immediate.InRange i.imm ∧ j' = { j with rs := i.rs, imm := Immediate.toSigned i.imm } := by
  have hcut : Bytes.cut '(' (memoryText i) = some (decimal i.imm, i.rs.text ++ utf8 ")") :=
    Bytes.cut_eq_some_iff.mpr ⟨by simp [memoryText]; rfl, not_mem_decimal i.imm⟩
  have hlast : (i.rs.text ++ utf8 ")").getLast? = some ')'.toUInt8 := by
    rw [List.getLast?_append]
    rfl
  have hdrop : (i.rs.text ++ utf8 ")").dropLast = i.rs.text := List.dropLast_concat
  have hoffset : (decimal i.imm).trim = decimal i.imm :=
    trim_eq_self_of_isFirm fun c hc => (isInner_spec c (isInner_decimal _ c hc)).1
  have hbase : (i.rs.text).trim = i.rs.text :=
    trim_eq_self_of_isFirm fun c hc => (isInner_spec c (isInner_text _ c hc)).1
  have hempty : (decimal i.imm).isEmpty = false := by simp [decimal_ne_nil]
  simp only [memory, hcut, hlast, hoffset, hempty, hdrop, hbase, Reg.read?_text, Bool.false_eq_true,
    if_false] at h
  cases hread : Immediate.read? (decimal i.imm) with
  | none =>
    rw [hread] at h
    cases h
  | some v =>
    rw [hread] at h
    obtain ⟨hrange, rfl⟩ := Immediate.of_read?_decimal hread
    exact ⟨hrange, (Except.ok.inj h).symm⟩

/-- Operands that are accepted are read as they were written, and their number has 32 bits. -/
theorem of_operands_operandTexts {i : Instr} {ks : List OperandKind}
    (hlabel : .label ∈ ks → isLabel i.label) {j j' o : Instr} {n : Nat}
    (ho : Immediate.InRange o.imm) (h : operands j n ks (i.operandTexts n ks) = .ok j') :
    j' = i.wrapped.absorb j n ks ∧ Immediate.InRange (i.absorb o n ks).imm := by
  induction ks generalizing j o n with
  | nil => exact ⟨(Except.ok.inj h).symm, ho⟩
  | cons k ks ih =>
    have hrest := @ih fun h => hlabel (List.mem_cons_of_mem _ h)
    cases k with
    | reg =>
      simp only [Instr.operandTexts, operands, Reg.read?_text] at h
      exact hrest (setReg_imm o n _ ▸ ho) h
    | regOrImm =>
      simp only [Instr.operandTexts] at h
      by_cases huse : i.useImm
      · rw [if_pos huse] at h
        simp only [operands, Reg.read?_decimal] at h
        rw [Instr.absorb, Instr.absorb, if_pos huse,
          if_pos (show i.wrapped.useImm = true from huse)]
        cases hread : Immediate.read? (decimal i.imm) with
        | none =>
          rw [hread] at h
          cases h
        | some v =>
          obtain ⟨hrange, rfl⟩ := Immediate.of_read?_decimal hread
          rw [hread] at h
          exact hrest hrange h
      · rw [if_neg huse] at h
        simp only [operands, Reg.read?_text] at h
        rw [Instr.absorb, Instr.absorb, if_neg huse,
          if_neg (show ¬ i.wrapped.useImm = true from huse)]
        exact hrest (setReg_imm o n _ ▸ ho) h
    | imm =>
      simp only [Instr.operandTexts, operands] at h
      cases hread : Immediate.read? (decimal i.imm) with
      | none =>
        rw [hread] at h
        cases h
      | some v =>
        obtain ⟨hrange, rfl⟩ := Immediate.of_read?_decimal hread
        rw [hread] at h
        exact hrest hrange h
    | mem =>
      simp only [Instr.operandTexts, operands] at h
      cases hread : memory j (decimal i.imm ++ utf8 "(" ++ i.rs.text ++ utf8 ")") with
      | error e =>
        rw [hread] at h
        cases h
      | ok j₁ =>
        obtain ⟨hrange, rfl⟩ := of_memory_memoryText hread
        rw [hread] at h
        exact hrest hrange h
    | label =>
      simp only [Instr.operandTexts, operands, hlabel (List.mem_cons_self ..), if_true] at h
      exact hrest (o := { o with label := i.label }) ho h

end Assembler

theorem Instr.wrapped_setReg (i : Instr) (n : Nat) (r : Reg) :
    (Assembler.setReg i n r).wrapped = Assembler.setReg i.wrapped n r := by
  match n with
  | 0 => rfl
  | 1 => rfl
  | n + 2 => rfl

theorem Instr.regAt_wrapped (i : Instr) (n : Nat) : i.wrapped.regAt n = i.regAt n := by
  match n with
  | 0 => rfl
  | 1 => rfl
  | n + 2 => rfl

/-- Taking operands over keeps what the assembler does to numbers. -/
theorem Instr.wrapped_absorb (i j : Instr) (n : Nat) (ks : List OperandKind) :
    i.wrapped.absorb j.wrapped n ks = (i.absorb j n ks).wrapped := by
  induction ks generalizing j n with
  | nil => rfl
  | cons k ks ih =>
    cases k with
    | reg =>
      rw [absorb, absorb, regAt_wrapped, ← wrapped_setReg]
      exact ih _ _
    | regOrImm =>
      rw [absorb, absorb]
      by_cases huse : i.useImm
      · rw [if_pos huse, if_pos (show i.wrapped.useImm = true from huse)]
        exact ih { j with imm := i.imm, useImm := true } n
      · rw [if_neg huse, if_neg (show ¬ i.wrapped.useImm = true from huse), regAt_wrapped,
          ← wrapped_setReg]
        exact ih _ _
    | imm => exact ih { j with imm := i.imm, useImm := true } n
    | mem => exact ih { j with rs := i.rs, imm := i.imm } n
    | label => exact ih { j with label := i.label } n

theorem Instr.Legible.absorb_wrapped {i : Instr} (h : i.Legible) :
    i.wrapped.absorb { op := i.op } 0 i.op.operands = i.wrapped := by
  calc i.wrapped.absorb { op := i.op } 0 i.op.operands
      = (i.absorb { op := i.op } 0 i.op.operands).wrapped := wrapped_absorb i { op := i.op } 0 _
    _ = i.wrapped := by rw [h.whole]

namespace Assembler

/-- An instruction that is accepted is kept as it was written, with the number of its 32 bits. -/
theorem decode_eq_ok {i j : Instr} (hi : i.Legible)
    (h : decode i.op.text (i.operandTexts 0 i.op.operands) = .ok j) :
    j = i.wrapped ∧ Immediate.InRange i.imm := by
  simp only [decode, Opcode.named?_text hi.known, i.length_operandTexts, if_true] at h
  have hzero : Immediate.InRange 0 := by
    unfold Immediate.InRange
    decide
  obtain ⟨hj, hrange⟩ := of_operands_operandTexts (o := { op := i.op }) hi.label hzero h
  rw [hi.absorb_wrapped] at hj
  rw [hi.whole] at hrange
  exact ⟨hj, hrange⟩

/-- The same for instructions in order. -/
theorem finishCode_eq_ok {c : Code} (hc : ∀ l ∈ c, l.Legible) {s : State} {n : Nat}
    {is : List Instr} (h : finishCode s (c.pending n) = .ok is) :
    is = c.wrapped.numbered n ∧ ∀ i ∈ c.instrs, Immediate.InRange i.imm := by
  induction c generalizing n is with
  | nil => exact ⟨(Except.ok.inj h).symm, by simp⟩
  | cons l c ih =>
    rw [List.forall_mem_cons] at hc
    cases l with
    | instr i r =>
      simp only [Code.pending, finishCode] at h
      cases hfirst : finishInstr s ⟨i.op.text, i.operandTexts 0 i.op.operands, n⟩ with
      | error e =>
        rw [hfirst] at h
        cases h
      | ok j =>
        rw [hfirst] at h
        cases hrest : finishCode s (Code.pending (n + 1) c) with
        | error e =>
          rw [hrest] at h
          cases h
        | ok js =>
          rw [hrest] at h
          obtain rfl : j :: js = is := Except.ok.inj h
          have hj : j = { i.wrapped with line := n } ∧ Immediate.InRange i.imm := by
            unfold finishInstr at hfirst
            cases hdecode : decode i.op.text (i.operandTexts 0 i.op.operands) with
            | error e =>
              simp only [hdecode] at hfirst
              cases hfirst
            | ok j' =>
              obtain ⟨rfl, hrange⟩ := decode_eq_ok hc.1.1 hdecode
              simp only [hdecode] at hfirst
              split at hfirst
              · exact ⟨(Except.ok.inj hfirst).symm, hrange⟩
              · cases hfirst
          obtain ⟨rfl, hranges⟩ := ih hc.2 hrest
          rw [hj.1, Code.instrs_instr, List.forall_mem_cons]
          exact ⟨rfl, hj.2, hranges⟩
    | _ => exact ih hc.2 h

/-! ### Lines -/

theorem content_label_defined {s : State} {l : Bytes} (hlabel : isLabel l)
    (hold : s.defines l) (number : Nat) :
    content s number (l ++ ":") = .error (.duplicateLabel l) := by
  have hlength : (l ++ utf8 ":").length = l.length + 1 := by simp [utf8]; rfl
  simp [content, hlength, takeLabels_label hlabel, State.defineAll, State.define, hold, bind,
    Except.bind]

/-- A line defines no label that was defined before. -/
theorem defines_of_step {s s' : State} {name : Bytes} (hname : isLabel name) {number : Nat}
    (h : step s number (Line.label name).write = .ok s') : s.defines name = false := by
  by_contra hold
  rw [Bool.not_eq_false] at hold
  have hline : (Line.label name).Legible := hname
  rw [step, dropReturn_eq_self hline.isLineByte, trim_label hname,
    content_label_defined hname hold] at h
  cases h

/-- Lines that are accepted define no label twice, and none that was defined before. -/
theorem nodup_of_steps {c : Code} (hc : ∀ l ∈ c, l.Legible) {s s' : State}
    (hdata : s.inData = false) {n : Nat} (h : steps s n (c.map Line.write) = .ok s') :
    c.labels.Nodup ∧ ∀ l ∈ c.labels, s.defines l = false := by
  induction c generalizing s n with
  | nil => exact ⟨List.nodup_nil, by simp⟩
  | cons l c ih =>
    rw [List.forall_mem_cons] at hc
    rw [List.map_cons, steps] at h
    cases hfirst : step s n l.write with
    | error e =>
      rw [hfirst] at h
      cases h
    | ok s₁ =>
      rw [hfirst] at h
      have hnew : ∀ name, l = .label name → s.defines name = false := by
        intro name hname
        subst hname
        exact defines_of_step hc.1 hfirst
      rw [step_write hc.1 hdata hnew] at hfirst
      obtain rfl := Except.ok.inj hfirst
      have hdata' : (l.after s n).inData = false := by cases l <;> exact hdata
      obtain ⟨hnodup, hfresh⟩ := ih hc.2 hdata' h
      cases l with
      | label name =>
        -- the label of this line is defined from here on
        have hdefined : ((Line.label name).after s n).defines name := by
          simp [Line.after, State.defines]
        constructor
        · rw [Code.labels_label, List.nodup_cons]
          refine ⟨?_, hnodup⟩
          intro hmem
          rw [hfresh name hmem] at hdefined
          cases hdefined
        · rw [Code.labels_label, List.forall_mem_cons]
          refine ⟨hnew name rfl, ?_⟩
          intro l hl
          have hne : Line.label name ≠ .label l := by
            intro heq
            obtain rfl := Line.label.inj heq
            rw [hfresh name hl] at hdefined
            cases hdefined
          rw [← defines_after n hne]
          exact hfresh l hl
      | _ => exact ⟨hnodup, hfresh⟩

theorem readableLines_append_nil_cases (lines : List Bytes) :
    readableLines (lines ++ [[]]) = (lines, false) ∨ (readableLines (lines ++ [[]])).2 = true := by
  induction lines with
  | nil => exact .inl rfl
  | cons l lines ih =>
    have hne : lines ++ [[]] ≠ [] := by simp
    obtain ⟨first, rest, hcons⟩ := List.exists_cons_of_ne_nil hne
    rw [List.cons_append, hcons, readableLines, ← hcons]
    · split
      · exact .inr rfl
      · rcases ih with heq | htrue
        · rw [heq]
          exact .inl rfl
        · exact .inr htrue
    · simp

theorem finish_eq_ok {s : State} {p : Image} (h : finish s = .ok p) :
    ∃ code, finishCode s s.code.toList = .ok code ∧
      p = ⟨code.toArray, s.data, s.dataLabels, s.textLabels, entryName⟩ := by
  unfold finish at h
  cases hcode : finishCode s s.code.toList with
  | error e =>
    rw [hcode] at h
    cases h
  | ok code =>
    simp only [hcode, bind, Except.bind] at h
    split at h
    · cases h
    · exact ⟨code, rfl, (Except.ok.inj h).symm⟩

end Assembler

/-! ### Programs -/

theorem assemble_eq_ok {source : Bytes} {p : Image} (h : assemble source = .ok p) :
    ∃ lines s, Assembler.readableLines (source.splitOn '\n') = (lines, false) ∧
      Assembler.steps .empty 1 lines = .ok s ∧ Assembler.finish s = .ok p := by
  unfold assemble at h
  generalize Assembler.readableLines (source.splitOn '\n') = read at h
  obtain ⟨lines, tooLong⟩ := read
  simp only [bind, Except.bind] at h
  cases hsteps : Assembler.steps .empty 1 lines with
  | error e =>
    rw [hsteps] at h
    cases h
  | ok s =>
    rw [hsteps] at h
    simp only at h
    split at h
    · cases h
    · rename_i hshort
      exact ⟨lines, s, by rw [eq_false_of_ne_true hshort], hsteps, h⟩

/-- What assembles has no label twice, this is its image, and its numbers have 32 bits. -/
theorem of_assemble_text {c : Code} (hc : ∀ l ∈ c, l.Legible) {p : Image}
    (h : assemble (Code.text (Support.header ++ c)) = .ok p) :
    c.labels.Nodup ∧ p = c.wrapped.image ∧ ∀ i ∈ c.instrs, Immediate.InRange i.imm := by
  have hnewline : ∀ l ∈ Support.header ++ c, '\n'.toUInt8 ∉ l.write := by
    intro l hl hmem
    rcases List.mem_append.mp hl with hl | hl
    · exact (Support.header_spec l hl).1 hmem
    · exact (isLineByte_spec _ ((hc l hl).isLineByte _ hmem)).1 rfl
  obtain ⟨lines, s, hlines, hsteps, hfinish⟩ := assemble_eq_ok h
  rw [Code.splitOn_text hnewline] at hlines
  have hall : lines = (Support.header ++ c).map Line.write := by
    rcases Assembler.readableLines_append_nil_cases ((Support.header ++ c).map Line.write) with
      heq | hlong
    · rw [heq] at hlines
      exact (Prod.mk.inj hlines).1.symm
    · rw [hlines] at hlong
      cases hlong
  rw [hall, List.map_append, Assembler.steps_append, Support.steps_header] at hsteps
  change Assembler.steps Support.loaded (Support.header.length + 1) (c.map Line.write) = .ok s
    at hsteps
  obtain ⟨hnodup, hnew⟩ := Assembler.nodup_of_steps hc rfl hsteps
  rw [Assembler.steps_write hc rfl hnodup hnew] at hsteps
  obtain rfl := Except.ok.inj hsteps
  obtain ⟨code, hcode, rfl⟩ := Assembler.finish_eq_ok hfinish
  have hpending : (Assembler.afterCode Support.loaded (Support.header.length + 1) c).code.toList =
      c.pending (Support.header.length + 1) := by
    simp [Assembler.afterCode, Support.loaded]
  have hplaced : (Assembler.afterCode Support.loaded (Support.header.length + 1) c).textLabels =
      (c.wrapped.placed 0).reverse := by
    rw [Code.placed_wrapped]
    simp [Assembler.afterCode, Support.loaded]
  rw [hpending] at hcode
  obtain ⟨rfl, hranges⟩ := Assembler.finishCode_eq_ok hc hcode
  refine ⟨hnodup, ?_, hranges⟩
  rw [hplaced]
  rfl

end MiniJava
