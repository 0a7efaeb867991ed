import MiniJava.Proofs.Assembly.Reading
import MiniJava.Proofs.Machine.History
import MiniJava.Proofs.Machine.Moves

/-!
# Single instructions

What a step does to a state, instruction by instruction, on any memory.

* **`Performs`** — the instruction of the given number, whatever became of its number.
* **`State.put`**, **`State.write`**, **`State.jumped`** — the states that steps lead to.
* **`step_li`**, **`step_lw`**, **`step_sw`**, … — the steps; `steps_printString`: those that print
  a string.
* **`Kept`**, **`Steps.kept`** — what holds of every state that is reached.
* **`Ends`**, **`Fails`** — how a run without a limit on steps goes on from a state.
-/

namespace MiniJava.Machine

/-- The instruction of the given number does what `i` does. -/
def Performs (p : Image) (k : Nat) (i : Instr) : Prop := Fetches p k i.wrapped

/-! ### States after a step -/

namespace State

/-- The state after an instruction that puts a word into a register. -/
def put (s : State) (r : Reg) (w : UInt32) : State :=
  { s.setReg r w with pc := s.pc + 1, steps := s.steps + 1 }

/-- The state after an instruction that changes memory. -/
def write (s : State) (m : Memory) : State :=
  { s with memory := m, pc := s.pc + 1, steps := s.steps + 1 }

/-- The state after an instruction that goes somewhere else. -/
def jumped (s : State) (pc : Int) : State := { s with pc, steps := s.steps + 1 }

/-- The state after a call from the instruction before `back`. -/
def called (s : State) (pc : Int) (back : UInt32) : State :=
  { s.setReg Reg.ra back with pc, steps := s.steps + 1 }

variable (s : State) (r q : Reg) (w : UInt32) (m : Memory) (pc : Int)

theorem setReg_steps (n : Nat) :
    ({ s with steps := n } : State).setReg r w = { s.setReg r w with steps := n } := by
  unfold setReg
  split
  · rfl
  · rfl

@[simp] theorem pc_setReg : (s.setReg r w).pc = s.pc := by
  unfold setReg
  split
  · rfl
  · rfl

@[simp] theorem exited_setReg : (s.setReg r w).exited = s.exited := by
  unfold setReg
  split
  · rfl
  · rfl

@[simp] theorem console_setReg : (s.setReg r w).console = s.console := by
  unfold setReg
  split
  · rfl
  · rfl

@[simp] theorem pc_put : (s.put r w).pc = s.pc + 1 := rfl

@[simp] theorem memory_put : (s.put r w).memory = s.memory := memory_setReg s r w

@[simp] theorem exited_put : (s.put r w).exited = s.exited := exited_setReg s r w

@[simp] theorem console_put : (s.put r w).console = s.console := console_setReg s r w

theorem reg_put_self (h : r ≠ Reg.zero) : (s.put r w).reg r = w := reg_setReg_self w h

theorem reg_put_ne (h : q ≠ r) : (s.put r w).reg q = s.reg q := reg_setReg_ne w h

@[simp] theorem pc_write : (s.write m).pc = s.pc + 1 := rfl

@[simp] theorem memory_write : (s.write m).memory = m := rfl

@[simp] theorem exited_write : (s.write m).exited = s.exited := rfl

@[simp] theorem console_write : (s.write m).console = s.console := rfl

@[simp] theorem reg_write : (s.write m).reg r = s.reg r := rfl

@[simp] theorem pc_jumped : (s.jumped pc).pc = pc := rfl

@[simp] theorem memory_jumped : (s.jumped pc).memory = s.memory := rfl

@[simp] theorem exited_jumped : (s.jumped pc).exited = s.exited := rfl

@[simp] theorem console_jumped : (s.jumped pc).console = s.console := rfl

@[simp] theorem reg_jumped : (s.jumped pc).reg r = s.reg r := rfl

@[simp] theorem pc_called : (s.called pc w).pc = pc := rfl

@[simp] theorem memory_called : (s.called pc w).memory = s.memory := memory_setReg s Reg.ra w

@[simp] theorem exited_called : (s.called pc w).exited = s.exited := exited_setReg s Reg.ra w

@[simp] theorem reg_called_ra : (s.called pc w).reg Reg.ra = w := reg_setReg_self w (by decide)

theorem reg_called_ne (h : q ≠ Reg.ra) : (s.called pc w).reg q = s.reg q := reg_setReg_ne w h

end State

/-! ### Steps -/

section Steps

variable {p : Image} {cfg : Config} {k : Nat} {s : State} {i : Instr}

/-- An instruction does the same with the signed number of its 32 bits. -/
theorem execute_wrapped (line : Int) :
    execute p cfg { i.wrapped with line } s = execute p cfg i s := by
  obtain ⟨op, rd, rs, rt, imm, useImm, label, line'⟩ := i
  have himm := ofInt_toSigned imm
  cases op
  case bltz => rfl
  case jr => rfl
  all_goals
    simp only [execute, Instr.wrapped, State.operand, State.effective, State.setChecked, branchIf,
      jumpTo, himm]

theorem Performs.lt_size (hi : Performs p k i) : k < p.text.size := by
  obtain ⟨line, hline⟩ := hi
  exact (Array.getElem?_eq_some_iff.mp hline).1

/-- There is one instruction of each number. -/
theorem Performs.op_eq {j : Instr} (hi : Performs p k i) (hj : Performs p k j) :
    i.op = j.op ∧ i.rd = j.rd := by
  obtain ⟨line, hi⟩ := hi
  obtain ⟨line', hj⟩ := hj
  rw [hi] at hj
  have hsame := Option.some.inj hj
  exact ⟨congrArg (·.op) hsame, congrArg (·.rd) hsame⟩

theorem fetch?_of_performs (hi : Performs p k i) (hpc : s.pc = k) :
    ∃ line, fetch? p s.pc = some { i.wrapped with line } := by
  obtain ⟨line, hline⟩ := hi
  refine ⟨line, ?_⟩
  rw [fetch?, hpc, if_neg (by omega), Int.toNat_natCast]
  exact hline

/-- A step executes the next instruction. -/
theorem step_of_performs (hi : Performs p k i) (hpc : s.pc = k) :
    step p cfg s = execute p cfg i { s with steps := s.steps + 1 } := by
  obtain ⟨line, hfetch⟩ := fetch?_of_performs hi hpc
  rw [step, hfetch]
  exact execute_wrapped line

theorem next_setReg (r : Reg) (w : UInt32) :
    (({ s with steps := s.steps + 1 } : State).setReg r w).next = .done (s.put r w) := by
  rw [State.setReg_steps, State.next, State.goto]
  simp only [State.pc_setReg]
  rfl

/-- What an instruction that only computes puts into its first register. -/
def State.result (s : State) (i : Instr) : Option UInt32 :=
  match i.op with
  | .li => some (UInt32.ofInt i.imm)
  | .move => some (s.reg i.rs)
  | .addu | .addiu => some (s.reg i.rs + s.operand i i.rt)
  | .subu => some (s.reg i.rs - s.operand i i.rt)
  | .and => some (s.reg i.rs &&& s.operand i i.rt)
  | .or => some (s.reg i.rs ||| s.operand i i.rt)
  | .nor => some (~~~(s.reg i.rs ||| s.operand i i.rt))
  | .slt => some (if signed (s.reg i.rs) < signed (s.operand i i.rt) then 1 else 0)
  | .sll => some (s.reg i.rs <<< (UInt32.ofInt i.imm &&& 31))
  | .mflo => some s.lo
  | _ => none

/-- An instruction computes. -/
theorem step_result {w : UInt32} (hi : Performs p k i) (hpc : s.pc = k)
    (hw : s.result i = some w) : step p cfg s = .done (s.put i.rd w) := by
  rw [step_of_performs hi hpc, ← next_setReg]
  unfold State.result at hw
  unfold execute
  split at hw
  case h_12 => cases hw
  all_goals
    rename_i hop
    rw [← Option.some.inj hw]
    simp only [hop]
  all_goals rfl

theorem step_li {r : Reg} {n : Int} (hi : Performs p k (.li r n)) (hpc : s.pc = k) :
    step p cfg s = .done (s.put r (UInt32.ofInt n)) := step_result hi hpc rfl

theorem step_move {rd rs : Reg} (hi : Performs p k (.move rd rs)) (hpc : s.pc = k) :
    step p cfg s = .done (s.put rd (s.reg rs)) := step_result hi hpc rfl

theorem step_addiu {rd rs : Reg} {n : Int} (hi : Performs p k (.withImm .addiu rd rs n))
    (hpc : s.pc = k) : step p cfg s = .done (s.put rd (s.reg rs + UInt32.ofInt n)) :=
  step_result hi hpc rfl

theorem step_sll {rd rs : Reg} {n : Int} (hi : Performs p k (.withImm .sll rd rs n))
    (hpc : s.pc = k) :
    step p cfg s = .done (s.put rd (s.reg rs <<< (UInt32.ofInt n &&& 31))) :=
  step_result hi hpc rfl

/-- An addition that does not overflow. -/
theorem step_addi {rd rs : Reg} {n : Int} (hi : Performs p k (.withImm .addi rd rs n))
    (hpc : s.pc = k) (hfits : fits (signed (s.reg rs) + signed (UInt32.ofInt n))) :
    step p cfg s =
      .done (s.put rd (UInt32.ofInt (signed (s.reg rs) + signed (UInt32.ofInt n)))) := by
  rw [step_of_performs hi hpc, ← next_setReg]
  exact if_pos hfits

/-- An addition that overflows. -/
theorem step_addi_overflow {rd rs : Reg} {n : Int} (hi : Performs p k (.withImm .addi rd rs n))
    (hpc : s.pc = k) (hfits : ¬ fits (signed (s.reg rs) + signed (UInt32.ofInt n))) :
    step p cfg s = .fault .overflow { s with steps := s.steps + 1 } := by
  rw [step_of_performs hi hpc]
  exact if_neg hfits

theorem step_la {rd : Reg} {l : Bytes} {a : UInt32} (hi : Performs p k (.la rd l))
    (hpc : s.pc = k) (ha : p.address? l = some a) : step p cfg s = .done (s.put rd a) := by
  rw [step_of_performs hi hpc, ← next_setReg]
  simp only [execute, Instr.la, ha]

theorem step_lw {r base : Reg} {o : Int} {w : UInt32} (hi : Performs p k (.lw r o base))
    (hpc : s.pc = k) (hw : s.memory.word (s.reg base + UInt32.ofInt o) = .ok w) :
    step p cfg s = .done (s.put r w) := by
  have hword : s.memory.word (({ s with steps := s.steps + 1 } : State).effective (.lw r o base)) =
      .ok w := hw
  rw [step_of_performs hi hpc, ← next_setReg]
  simp only [execute, Instr.lw] at hword ⊢
  rw [hword]

theorem step_sw {r base : Reg} {o : Int} {place : Place} (hi : Performs p k (.sw r o base))
    (hpc : s.pc = k) (hplace : s.memory.wordPlace (s.reg base + UInt32.ofInt o) = .ok place) :
    step p cfg s = .done (s.write (s.memory.setWord place (s.reg r))) := by
  have hword : s.memory.wordPlace
      (({ s with steps := s.steps + 1 } : State).effective (.sw r o base)) = .ok place := hplace
  rw [step_of_performs hi hpc]
  simp only [execute, Instr.sw] at hword ⊢
  rw [hword]
  rfl

/-- A store to a place where there is no memory. -/
theorem step_sw_fault {r base : Reg} {o : Int} {f : AccessFault}
    (hi : Performs p k (.sw r o base)) (hpc : s.pc = k)
    (hplace : s.memory.wordPlace (s.reg base + UInt32.ofInt o) = .error f) :
    step p cfg s = .fault (.access f) { s with steps := s.steps + 1 } := by
  have hword : s.memory.wordPlace
      (({ s with steps := s.steps + 1 } : State).effective (.sw r o base)) = .error f := hplace
  rw [step_of_performs hi hpc]
  simp only [execute, Instr.sw] at hword ⊢
  rw [hword]

/-! ### Branches, calls and returns -/

/-- Does a branch go to its label? -/
def State.taken (s : State) (i : Instr) : Option Bool :=
  match i.op with
  | .beq => some (s.reg i.rd == s.operand i i.rs)
  | .bgeu => some (s.operand i i.rs ≤ s.reg i.rd)
  | .bge => some (signed (s.operand i i.rs) ≤ signed (s.reg i.rd))
  | .bgt => some (signed (s.operand i i.rs) < signed (s.reg i.rd))
  | .bltz => some (signed (s.reg i.rd) < 0)
  | .j => some true
  | _ => none

theorem step_of_taken {taken : Bool} (hi : Performs p k i) (hpc : s.pc = k)
    (ht : s.taken i = some taken) :
    step p cfg s = branchIf p { s with steps := s.steps + 1 } i taken := by
  rw [step_of_performs hi hpc]
  unfold State.taken at ht
  unfold execute
  split at ht
  case h_7 => cases ht
  all_goals
    rename_i hop
    rw [← Option.some.inj ht]
    simp only [hop]
  all_goals rfl

/-- A branch goes to its label. -/
theorem step_taken {target : Int} (hi : Performs p k i) (hpc : s.pc = k)
    (ht : s.taken i = some true) (hlabel : p.textLabels.lookup i.label = some target) :
    step p cfg s = .done (s.jumped target) := by
  rw [step_of_taken hi hpc ht, branchIf, if_pos rfl, jumpTo, hlabel]
  rfl

/-- A branch does not go to its label. -/
theorem step_onward (hi : Performs p k i) (hpc : s.pc = k) (ht : s.taken i = some false) :
    step p cfg s = .done (s.jumped (s.pc + 1)) := by
  rw [step_of_taken hi hpc ht, branchIf, if_neg Bool.false_ne_true]
  rfl

theorem step_jal {l : Bytes} {target : Int} (hi : Performs p k (.jump .jal l)) (hpc : s.pc = k)
    (hlabel : p.textLabels.lookup l = some target) :
    step p cfg s = .done (s.called target (Image.codeAddress (k + 1 : Nat))) := by
  have hback : s.pc + 1 = ((k + 1 : Nat) : Int) := by omega
  rw [step_of_performs hi hpc, ← hback]
  simp only [execute, Instr.jump, hlabel]
  rw [State.setReg_steps]
  rfl

theorem step_jr {r : Reg} (hi : Performs p k (.onReg .jr r)) (hpc : s.pc = k)
    (hr : ValidReturn (s.reg r)) : step p cfg s = .done (s.jumped (instrAt (s.reg r))) := by
  have hbad : ¬ (s.reg r < textBase ∨ s.reg r % 4 ≠ 0) := by
    rw [not_or, UInt32.not_lt, not_not]
    exact hr
  rw [step_of_performs hi hpc]
  exact if_neg hbad

/-! ### System calls -/

theorem step_syscall (hi : Performs p k .syscall) (hpc : s.pc = k) :
    step p cfg s = syscall cfg { s with steps := s.steps + 1 } := step_of_performs hi hpc

/-- A string is printed. -/
theorem step_printString {text : Bytes} (hi : Performs p k .syscall) (hpc : s.pc = k)
    (hv : s.reg Reg.v0 = 4) (ha : s.memory.string (s.reg Reg.a0) = .ok text)
    (hconsole : s.console.accepts text.length) :
    step p cfg s = .done { s.jumped (s.pc + 1) with console := s.console.print text } := by
  have hcode : ({ s with steps := s.steps + 1 } : State).reg Reg.v0 = 4 := hv
  have hstring : s.memory.string (({ s with steps := s.steps + 1 } : State).reg Reg.a0) =
      .ok text := ha
  rw [step_syscall hi hpc, syscall, hcode, if_neg (by decide), if_pos rfl, hstring]
  exact if_pos hconsole

/-- The instructions that print the string at a label print it, and go on behind them. -/
theorem steps_printString {label text : Bytes} {a : UInt32} (h₀ : Performs p k (.la Reg.a0 label))
    (h₁ : Performs p (k + 1) (.li Reg.v0 4)) (h₂ : Performs p (k + 1 + 1) .syscall)
    (ha : p.address? label = some a) (htext : s.memory.string a = .ok text)
    (hconsole : s.console.accepts text.length) (hpc : s.pc = k) (hrunning : s.exited = false) :
    ∃ s', Steps p cfg 3 s s' ∧ s'.pc = (k + 3 : Nat) ∧ s'.exited = false ∧ s'.memory = s.memory ∧
      s'.console = s.console.print text := by
  let s₂ := (s.put Reg.a0 a).put Reg.v0 (UInt32.ofInt 4)
  have hpc₁ : (s.put Reg.a0 a).pc = (k + 1 : Nat) := congrArg (· + 1) hpc
  have hpc₂ : s₂.pc = (k + 1 + 1 : Nat) := congrArg (· + 1) hpc₁
  have hmessage : s₂.memory.string (s₂.reg Reg.a0) = .ok text := by
    simp (disch := decide) only [s₂, State.memory_put, State.reg_put_ne, State.reg_put_self]
    exact htext
  have hprint : step p cfg s₂ =
      .done { s₂.jumped (s₂.pc + 1) with console := s₂.console.print text } :=
    step_printString h₂ hpc₂ (State.reg_put_self _ _ _ (by decide)) hmessage
      (by simpa only [s₂, State.console_put] using hconsole)
  have hrunning₂ : s₂.exited = false := by
    simpa [s₂] using hrunning
  refine ⟨_, .head hrunning (step_la h₀ hpc ha) (.head (by simpa) (step_li h₁ hpc₁)
    (.head hrunning₂ hprint (.refl _))), congrArg (· + 1) hpc₂, hrunning₂, ?_, ?_⟩
  · simp [s₂]
  · simp [s₂]

/-- The program ends. -/
theorem step_exit_of (hi : Performs p k .syscall) (hpc : s.pc = k) (hv : s.reg Reg.v0 = 10) :
    step p cfg s = .done { s with steps := s.steps + 1, exited := true } := by
  have hcode : ({ s with steps := s.steps + 1 } : State).reg Reg.v0 = 10 := hv
  rw [step_syscall hi hpc, syscall, hcode, if_neg (by decide), if_neg (by decide),
    if_neg (by decide), if_pos rfl]

/-- The heap grows or does not, as `sbrk` says. -/
theorem step_sbrk (hi : Performs p k .syscall) (hpc : s.pc = k) (hv : s.reg Reg.v0 = 9) :
    step p cfg s = sbrk cfg { s with steps := s.steps + 1 } (signed (s.reg Reg.a0)) := by
  have hcode : ({ s with steps := s.steps + 1 } : State).reg Reg.v0 = 9 := hv
  rw [step_syscall hi hpc, syscall, hcode, if_neg (by decide), if_neg (by decide), if_pos rfl]
  rfl

/-- The state after the heap has grown by `size` bytes. -/
def State.grown (s : State) (cfg : Config) (size : Nat) : State :=
  State.put { s with
    memory := s.memory.grow cfg.poison size
    allocations := ⟨s.memory.heapEnd, size⟩ :: s.allocations } Reg.v0 s.memory.heapEnd

@[simp] theorem State.pc_grown (size : Nat) : (s.grown cfg size).pc = s.pc + 1 := rfl

@[simp] theorem State.memory_grown (size : Nat) :
    (s.grown cfg size).memory = s.memory.grow cfg.poison size := State.memory_put ..

@[simp] theorem State.exited_grown (size : Nat) : (s.grown cfg size).exited = s.exited :=
  State.exited_put ..

@[simp] theorem State.reg_grown_v0 (size : Nat) :
    (s.grown cfg size).reg Reg.v0 = s.memory.heapEnd := State.reg_put_self _ _ _ (by decide)

theorem State.reg_grown_ne {q : Reg} (size : Nat) (h : q ≠ Reg.v0) :
    (s.grown cfg size).reg q = s.reg q := State.reg_put_ne _ _ _ _ h

/-- The heap grows by `n` words if there is room for them. -/
theorem step_grow {n : Nat} (hi : Performs p k .syscall) (hpc : s.pc = k)
    (hv : s.reg Reg.v0 = 9) (ha : signed (s.reg Reg.a0) = 4 * n)
    (hroom : (s.memory.heap.size + 4 * n : Int) ≤ cfg.heapBytes) :
    step p cfg s = .done (s.grown cfg (4 * n)) := by
  have hround : ((4 * n : Int).toNat + 3) / 4 * 4 = 4 * n := by omega
  rw [step_sbrk hi hpc hv, ha, sbrk, if_neg (by omega)]
  simp only [hround]
  rw [if_neg (by omega)]
  exact next_setReg (s := { s with
    memory := s.memory.grow cfg.poison (4 * n)
    allocations := ⟨s.memory.heapEnd, 4 * n⟩ :: s.allocations }) _ _

/-- The heap has no room for `n` more words. -/
theorem step_exhausted {n : Nat} (hi : Performs p k .syscall) (hpc : s.pc = k)
    (hv : s.reg Reg.v0 = 9) (ha : signed (s.reg Reg.a0) = 4 * n)
    (hroom : cfg.heapBytes < (s.memory.heap.size + 4 * n : Int)) :
    step p cfg s = .fault (.heapExhausted (4 * n) s.memory.heap.size cfg.heapBytes)
      { s with steps := s.steps + 1 } := by
  have hround : ((4 * n : Int).toNat + 3) / 4 * 4 = 4 * n := by omega
  rw [step_sbrk hi hpc hv, ha, sbrk, if_neg (by omega)]
  simp only [hround]
  rw [if_pos (by omega)]

/-- The heap does not shrink. -/
theorem step_negativeGrowth (hi : Performs p k .syscall) (hpc : s.pc = k)
    (hv : s.reg Reg.v0 = 9) (ha : signed (s.reg Reg.a0) < 0) :
    step p cfg s = .fault (.negativeGrowth (signed (s.reg Reg.a0)))
      { s with steps := s.steps + 1 } := by
  rw [step_sbrk hi hpc hv, sbrk, if_pos ha]

end Steps

/-! ### What is kept -/

section Kept

variable {p : Image} {cfg : Config}

theorem zero_setReg {s : State} (r : Reg) (w : UInt32) :
    (s.setReg r w).reg Reg.zero = s.reg Reg.zero := by
  by_cases hr : r = Reg.zero
  · rw [hr, State.setReg_zero]
  · exact State.reg_setReg_ne w (Ne.symm hr)

theorem zero_setChecked (s : State) (i : Instr) (n : Int) :
    (s.setChecked i n).state.reg Reg.zero = s.reg Reg.zero := by
  unfold State.setChecked
  split
  · exact zero_setReg _ _
  · rfl

theorem zero_jumpTo (s : State) (i : Instr) :
    (jumpTo p s i).state.reg Reg.zero = s.reg Reg.zero := by
  unfold jumpTo
  split
  · rfl
  · rfl

theorem zero_branchIf (s : State) (i : Instr) (taken : Bool) :
    (branchIf p s i taken).state.reg Reg.zero = s.reg Reg.zero := by
  unfold branchIf
  split
  · exact zero_jumpTo s i
  · rfl

theorem zero_print (s : State) (text : Bytes) (refused : Fault) :
    (print s text refused).state.reg Reg.zero = s.reg Reg.zero := by
  unfold print
  split
  · rfl
  · rfl

theorem zero_syscall (s : State) : (syscall cfg s).state.reg Reg.zero = s.reg Reg.zero := by
  unfold syscall
  simp only
  split
  · exact zero_print _ _ _
  split
  · split
    · exact zero_print _ _ _
    · rfl
  split
  · unfold sbrk
    split
    · rfl
    · simp only
      split
      · rfl
      · exact zero_setReg _ _
  split
  · rfl
  · rfl

/-- No instruction changes register 0. -/
theorem zero_execute (i : Instr) (s : State) :
    (execute p cfg i s).state.reg Reg.zero = s.reg Reg.zero := by
  obtain ⟨op, rd, rs, rt, imm, useImm, label, line⟩ := i
  cases op
  case li | move | addu | addiu | subu | and | or | nor | slt | sll | mflo =>
    exact zero_setReg _ _
  case add | addi | sub => exact zero_setChecked _ _ _
  case beq | bne | bgeu | bge | bgt | blt | bltz => exact zero_branchIf _ _ _
  case j => exact zero_jumpTo _ _
  case mult | other => rfl
  case syscall => exact zero_syscall s
  case la =>
    simp only [execute]
    split
    · exact zero_setReg _ _
    · rfl
  case lw =>
    simp only [execute]
    split
    · exact zero_setReg _ _
    · rfl
  case sw =>
    simp only [execute]
    split
    · rfl
    · rfl
  case jal =>
    simp only [execute]
    split
    · exact zero_setReg _ _
    · rfl
  case jr =>
    simp only [execute]
    split
    · rfl
    · rfl

/-- What holds of every state that a program reaches. -/
structure Kept (p : Image) (cfg : Config) (s : State) : Prop where
  zero : s.reg Reg.zero = 0
  stackSize : s.memory.stack.size = cfg.stackBytes
  heapWhole : s.memory.heap.size % 4 = 0
  heapLimit : (s.memory.heap.size : Int) ≤ max cfg.heapBytes p.dataSize

theorem kept_start (limit : Option Nat) : Kept p cfg (State.start p cfg limit) where
  zero := rfl
  stackSize := Block.size_fresh _ _
  heapWhole := by
    show (Memory.load p.data cfg.poison cfg.stackBytes).heap.size % 4 = 0
    rw [Memory.size_heap_load, Image.dataSize]
    omega
  heapLimit := by
    show ((Memory.load p.data cfg.poison cfg.stackBytes).heap.size : Int) ≤ _
    rw [Memory.size_heap_load]
    exact Int.le_max_right _ _

theorem Kept.step {s s' : State} (h : Kept p cfg s) (hstep : Machine.step p cfg s = .done s') :
    Kept p cfg s' := by
  have hzero : s'.reg Reg.zero = 0 := by
    have hbefore := h.zero
    unfold Machine.step at hstep
    cases hfetch : fetch? p s.pc with
    | none =>
      rw [hfetch] at hstep
      cases hstep
    | some i =>
      rw [hfetch] at hstep
      have hsame := @zero_execute p cfg i { s with steps := s.steps + 1 }
      simp only at hstep
      rw [hstep] at hsame
      exact hsame.trans hbefore
  have heffect := memoryEffect_of_step hstep
  have hstack := h.stackSize
  have hwhole := h.heapWhole
  have hlimit := h.heapLimit
  have hmax : cfg.heapBytes ≤ max cfg.heapBytes p.dataSize := Int.le_max_left _ _
  refine ⟨hzero, ?_, ?_, ?_⟩
  all_goals
    generalize s'.memory = m at heffect
    cases heffect with
    | keep => assumption
    | store => simpa only [Memory.size_stack_setWord, Memory.size_heap_setWord]
    | grow =>
      first
        | exact hstack
        | (rw [Memory.size_heap_grow]; omega)

/-- A run keeps it. -/
theorem Steps.kept {n : Nat} {s s' : State} (h : Steps p cfg n s s') (hs : Kept p cfg s) :
    Kept p cfg s' := by
  induction h with
  | refl s => exact hs
  | head _ hstep _ ih => exact ih (hs.step hstep)

theorem MemoryEffect.size_stack {s : State} {m : Memory} (h : MemoryEffect p cfg s m) :
    m.stack.size = s.memory.stack.size := by
  cases h with
  | keep => rfl
  | store => exact Memory.size_stack_setWord _ _
  | grow => rfl

/-- The stack keeps its size. -/
theorem Steps.size_stack {n : Nat} {s s' : State} (h : Steps p cfg n s s') :
    s'.memory.stack.size = s.memory.stack.size := by
  induction h with
  | refl s => rfl
  | head _ hstep _ ih => exact ih.trans (memoryEffect_of_step hstep).size_stack

/-- The state after `n` steps. -/
def after (p : Image) (cfg : Config) : (n : Nat) → State → Option State
  | 0, s => some s
  | n + 1, s =>
      if s.exited then none
      else
        match step p cfg s with
        | .done s => after p cfg n s
        | .fault _ _ => none

theorem steps_of_after {n : Nat} {s s' : State} (h : after p cfg n s = some s') :
    Steps p cfg n s s' := by
  induction n generalizing s with
  | zero =>
    obtain rfl := Option.some.inj h
    exact .refl s
  | succ n ih =>
    unfold after at h
    split at h
    · cases h
    · rename_i hrunning
      split at h
      · rename_i s₁ hstep
        exact .head (Bool.eq_false_iff.mpr hrunning) hstep (ih h)
      · cases h

end Kept

/-! ### How runs end -/

section Ends

variable {p : Image} {cfg : Config} {s s₁ s' : State} {status : Status}

/-- A run that goes on from `s` ends with the status, in the state `s'`. -/
def Ends (p : Image) (cfg : Config) (s : State) (status : Status) (s' : State) : Prop :=
  ∃ n, ∀ m, runWithin p cfg false (m + n) s = (status, s')

/-- A run that goes on from `s` fails, and the error is of the given kind. -/
def Fails (p : Image) (cfg : Config) (s : State) (kind : FaultKind) : Prop :=
  ∃ e s', Ends p cfg s (.failed e) s' ∧ e.kind = kind

theorem ends_of_exited (h : s.exited = true) : Ends p cfg s .exited s := by
  refine ⟨1, ?_⟩
  intro m
  rw [runWithin, if_pos h]

theorem Steps.ends {n : Nat} (hlimit : cfg.maxSteps ≤ 0) (h : Steps p cfg n s s₁)
    (h' : Ends p cfg s₁ status s') : Ends p cfg s status s' := by
  obtain ⟨n', h'⟩ := h'
  refine ⟨n' + n, ?_⟩
  intro m
  rw [← Nat.add_assoc]
  exact (runWithin_of_steps h (.inl hlimit) (m + n')).trans (h' m)

theorem kind_faultAt (pc : Int) (f : Fault) : (faultAt p pc f).kind = f.kind := by
  unfold faultAt
  split
  · rfl
  · rfl

theorem fails_of_fault {f : Fault} (hlimit : cfg.maxSteps ≤ 0) (hrunning : s.exited = false)
    (hstep : step p cfg s = .fault f s') : Fails p cfg s f.kind := by
  refine ⟨faultAt p s'.pc f, s', ⟨1, ?_⟩, kind_faultAt _ _⟩
  intro m
  have hgo : ¬ (0 < cfg.maxSteps ∧ cfg.maxSteps ≤ s.steps) := by omega
  rw [runWithin, hrunning, hstep]
  simp only [hgo, if_false, Bool.false_and, Bool.false_eq_true]

/-- The kind of the error that a step ends with, if any. -/
def Outcome.kind? : Outcome → Option FaultKind
  | .done _ => none
  | .fault f _ => some f.kind

theorem fails_of_kind? {kind : FaultKind} (hlimit : cfg.maxSteps ≤ 0) (hrunning : s.exited = false)
    (h : (step p cfg s).kind? = some kind) : Fails p cfg s kind := by
  cases hstep : step p cfg s with
  | done s₁ =>
    rw [hstep] at h
    cases h
  | fault f s₁ =>
    rw [hstep] at h
    obtain rfl := Option.some.inj h
    exact fails_of_fault hlimit hrunning hstep

/-- A run ends in one way only. -/
theorem Ends.unique {status' : Status} (h : Ends p cfg s status s')
    (h' : Ends p cfg s status' s₁) : status = status' := by
  obtain ⟨n, h⟩ := h
  obtain ⟨n', h'⟩ := h'
  have hsame := h' n
  rw [Nat.add_comm, h n'] at hsame
  exact congrArg Prod.fst hsame

theorem Fails.unique {kind kind' : FaultKind} (h : Fails p cfg s kind)
    (h' : Fails p cfg s kind') : kind = kind' := by
  obtain ⟨e, s', hends, rfl⟩ := h
  obtain ⟨e', s'', hends', rfl⟩ := h'
  have hsame := hends.unique hends'
  rw [Status.failed.inj hsame]

theorem Steps.fails {n : Nat} {kind : FaultKind} (hlimit : cfg.maxSteps ≤ 0)
    (h : Steps p cfg n s s₁) (h' : Fails p cfg s₁ kind) : Fails p cfg s kind := by
  obtain ⟨e, s', hends, hkind⟩ := h'
  exact ⟨e, s', h.ends hlimit hends, hkind⟩

end Ends

end MiniJava.Machine
