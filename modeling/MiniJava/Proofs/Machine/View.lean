import MiniJava.Machine.Run
import MiniJava.Proofs.Machine.Memory

/-!
# Views of the machine

A state of the machine as the code of a program sees it: registers, the words of stack and heap,
and the output.

* **`Steps`** — so many steps of the machine; `runWithin_of_steps`: a run starts with them.
* **`View`**, **`At`** — what is seen of a state, and that a state is seen so.
* **`At.step`** — the step from a state that is seen.
* **`at_start`** — what is seen at the start of a program.
-/

namespace MiniJava.Machine

/-! ### Steps -/

/-- The machine makes `n` steps.  None of them fails, and the program does not end before the last
one. -/
inductive Steps (p : Image) (cfg : Config) : (n : Nat) → State → State → Prop
  | refl (s : State) : Steps p cfg 0 s s
  | head {n : Nat} {s s₁ s₂ : State} : s.exited = false → step p cfg s = .done s₁ →
      Steps p cfg n s₁ s₂ → Steps p cfg (n + 1) s s₂

theorem Steps.trans {p : Image} {cfg : Config} {m n : Nat} {s s₁ s₂ : State}
    (h : Steps p cfg m s s₁) (h' : Steps p cfg n s₁ s₂) : Steps p cfg (n + m) s s₂ := by
  induction h with
  | refl s => exact h'
  | head hrunning hstep _ ih => exact .head hrunning hstep (ih h')

/-! ### The count of steps -/

@[simp] theorem State.steps_setReg (s : State) (r : Reg) (w : UInt32) :
    (s.setReg r w).steps = s.steps := by
  unfold State.setReg
  split
  · rfl
  · rfl

@[simp] theorem State.steps_next (s : State) : s.next.state.steps = s.steps := rfl

@[simp] theorem State.steps_goto (s : State) (pc : Int) : (s.goto pc).state.steps = s.steps := rfl

theorem State.steps_setChecked (s : State) (i : Instr) (n : Int) :
    (s.setChecked i n).state.steps = s.steps := by
  unfold State.setChecked
  split
  · rw [State.steps_next, State.steps_setReg]
  · rfl

theorem steps_jumpTo (p : Image) (s : State) (i : Instr) :
    (jumpTo p s i).state.steps = s.steps := by
  unfold jumpTo
  split
  · rfl
  · rfl

theorem steps_branchIf (p : Image) (s : State) (i : Instr) (taken : Bool) :
    (branchIf p s i taken).state.steps = s.steps := by
  unfold branchIf
  split
  · exact steps_jumpTo p s i
  · rfl

theorem steps_print (s : State) (text : Bytes) (refused : Fault) :
    (print s text refused).state.steps = s.steps := by
  unfold print
  split
  · rfl
  · rfl

theorem steps_syscall (cfg : Config) (s : State) : (syscall cfg s).state.steps = s.steps := by
  unfold syscall
  simp only
  split
  · exact steps_print _ _ _
  split
  · split
    · exact steps_print _ _ _
    · rfl
  split
  · unfold sbrk
    split
    · rfl
    · simp only
      split
      · rfl
      · rw [State.steps_next, State.steps_setReg]
  split
  · rfl
  · rfl

/-- No instruction counts steps. -/
theorem steps_execute (p : Image) (cfg : Config) (i : Instr) (s : State) :
    (execute p cfg i s).state.steps = s.steps := by
  obtain ⟨op, rd, rs, rt, imm, useImm, label, line⟩ := i
  cases op
  case li | move | addu | addiu | subu | and | or | nor | slt | sll | mflo =>
    simp only [execute, State.steps_next, State.steps_setReg]
  case mult => rfl
  case add | addi | sub => exact State.steps_setChecked s _ _
  case beq | bne | bgeu | bge | bgt | blt | bltz => exact steps_branchIf p s _ _
  case j => exact steps_jumpTo p s _
  case syscall => exact steps_syscall cfg s
  case other => rfl
  -- the rest looks up one thing first: a label, a place in memory, or an address
  all_goals
    simp only [execute]
    split <;> simp [Outcome.state, State.next, State.goto]

theorem steps_of_step {p : Image} {cfg : Config} {s s' : State} (h : step p cfg s = .done s') :
    s'.steps = s.steps + 1 := by
  unfold step at h
  split at h
  · cases h
  · rename_i i _
    have hcount := steps_execute p cfg i { s with steps := s.steps + 1 }
    rw [h] at hcount
    exact hcount

theorem Steps.count {p : Image} {cfg : Config} {n : Nat} {s s' : State}
    (h : Steps p cfg n s s') : s'.steps = s.steps + n := by
  induction h with
  | refl s => rfl
  | head _ hstep _ ih =>
    rw [ih, steps_of_step hstep]
    omega

/-! ### Runs -/

/-- A run within a limit starts with the steps that the machine makes. -/
theorem runWithin_of_steps {p : Image} {cfg : Config} {n : Nat} {s s' : State}
    (h : Steps p cfg n s s') {limit : Int} (hlimit : limit ≤ 0 ∨ (s.steps + n : Int) ≤ limit)
    (m : Nat) :
    runWithin p { cfg with maxSteps := limit } false (m + n) s =
      runWithin p { cfg with maxSteps := limit } false m s' := by
  induction h with
  | refl s => rfl
  | @head n s s₁ s₂ hrunning hstep _ ih =>
    have hcount := steps_of_step hstep
    have hsame : step p { cfg with maxSteps := limit } s = .done s₁ := hstep
    have hgo : ¬ (0 < limit ∧ limit ≤ s.steps) := by omega
    rw [← Nat.add_assoc, runWithin, hrunning, hsame]
    simp only [hgo, if_false, Bool.false_and, Bool.false_eq_true]
    refine ih ?_
    omega

/-! ### Views -/

/-- What is seen of a state: its registers, the words of its stack and its heap, and its output. -/
structure View where
  reg : Reg → UInt32
  lo : UInt32
  stack : Nat → UInt32
  heap : List UInt32
  out : Bytes

namespace View

/-- The view with another value in a register. -/
def set (V : View) (r : Reg) (w : UInt32) : View :=
  { V with reg := fun q => if q = r then w else V.reg q }

/-- The view with another word of the stack. -/
def setStack (V : View) (j : Nat) (w : UInt32) : View :=
  { V with stack := fun i => if i = j then w else V.stack i }

/-- The view with another word of the heap. -/
def setHeap (V : View) (k : Nat) (w : UInt32) : View := { V with heap := V.heap.set k w }

end View

/-- The state is seen as `V`, and its next instruction is that of the given number. -/
structure At (cfg : Config) (s : State) (pc : Nat) (V : View) : Prop where
  next : s.pc = pc
  running : s.exited = false
  regs : ∀ r, s.reg r = V.reg r
  zero : V.reg Reg.zero = 0
  low : s.lo = V.lo
  memory : s.memory.Keeps cfg.stackBytes V.stack V.heap
  unlimited : s.console.limit = none
  printed : s.console.output = V.out

/-- The instruction of the given number, whatever its line. -/
def Fetches (p : Image) (pc : Nat) (i : Instr) : Prop :=
  ∃ line, p.text[pc]? = some { i with line }

namespace At

variable {p : Image} {cfg : Config} {s : State} {pc : Nat} {V : View} (h : At cfg s pc V)

include h

/-- A step executes the next instruction; that it is counted is not seen. -/
theorem step {i : Instr} (hi : Fetches p pc i) :
    ∃ line t, At cfg t pc V ∧ Machine.step p cfg s = execute p cfg { i with line } t := by
  obtain ⟨line, hline⟩ := hi
  refine ⟨line, { s with steps := s.steps + 1 }, ?_, ?_⟩
  · exact ⟨h.next, h.running, h.regs, h.zero, h.low, h.memory, h.unlimited, h.printed⟩
  · have hfetch : fetch? p s.pc = some { i with line } := by
      rw [fetch?, h.next, if_neg (by omega), Int.toNat_natCast]
      exact hline
    rw [Machine.step, hfetch]

theorem goto (pc' : Nat) : At cfg { s with pc := pc' } pc' V :=
  ⟨rfl, h.running, h.regs, h.zero, h.low, h.memory, h.unlimited, h.printed⟩

theorem setReg {r : Reg} (hr : r ≠ Reg.zero) (w : UInt32) :
    At cfg (s.setReg r w) pc (V.set r w) := by
  have hregs : ∀ q, (s.setReg r w).reg q = (V.set r w).reg q := by
    intro q
    by_cases hq : q = r
    · subst hq
      rw [State.reg_setReg_self w hr]
      exact (if_pos rfl).symm
    · rw [State.reg_setReg_ne w hq, h.regs q]
      exact (if_neg hq).symm
  have hzero : (V.set r w).reg Reg.zero = 0 := by
    rw [← h.zero]
    exact if_neg (Ne.symm hr)
  unfold State.setReg at hregs ⊢
  rw [if_neg hr] at hregs ⊢
  exact ⟨h.next, h.running, hregs, hzero, h.low, h.memory, h.unlimited, h.printed⟩

/-- The next instruction is the one that follows. -/
theorem done : ∃ t, s.next = .done t ∧ At cfg t (pc + 1) V := by
  refine ⟨{ s with pc := s.pc + 1 }, rfl, ?_⟩
  rw [h.next]
  exact h.goto (pc + 1)

/-- Other words are kept. -/
theorem withMemory {m : Memory} {stack : Nat → UInt32} {heap : List UInt32}
    (hm : m.Keeps cfg.stackBytes stack heap) :
    At cfg { s with memory := m } pc { V with stack := stack, heap := heap } :=
  ⟨h.next, h.running, h.regs, h.zero, h.low, hm, h.unlimited, h.printed⟩

/-- The stack and the heap do not meet. -/
theorem heap_le : 56 + 4 * V.heap.length + cfg.stackBytes ≤ 0x6fff0000 := h.memory.apart

end At

/-! ### The start -/

theorem output_print (c : Console) (text : Bytes) : (c.print text).output = c.output ++ text :=
  Block.toList_foldl_push text c.text

theorem heap_load (poison : Bool) (size : Nat) :
    (Memory.load Support.messages poison size).heap = Support.messages.toByteArray := by
  have hpadded : (Support.messages ++
      Bytes.replicate ((4 - Support.messages.length % 4) % 4) 0 : Bytes) = Support.messages := by
    decide +kernel
  exact congrArg List.toByteArray hpadded

theorem keeps_load (poison : Bool) {size : Nat} (hsize : 56 + size ≤ 0x6fff0000) :
    (Memory.load Support.messages poison size).Keeps size
      (fun j => Block.word (Block.fresh poison size) (size - 4 * (j + 1))) [] where
  stackSize := Block.size_fresh poison size
  stackWords _ _ := rfl
  heapSize := by
    rw [heap_load]
    decide +kernel
  heapWords _ _ h := by cases h
  data := by
    have hbytes : ∀ i < 56, Support.messages.toByteArray.get! i = Support.messages.getD i 0 := by
      decide +kernel
    rw [heap_load]
    exact hbytes
  apart := hsize

/-- What is seen at the start of a program with the usual data. -/
theorem at_start {p : Image} {cfg : Config} {pc : Nat} (hdata : p.data = Support.messages)
    (hentry : p.textLabels.lookup p.entry = some (pc : Int))
    (hsize : 56 + cfg.stackBytes ≤ 0x6fff0000) :
    ∃ V, At cfg (State.start p cfg none) pc V ∧ V.reg Reg.sp = stackAddress 0 ∧ V.heap = [] ∧
      V.out = [] := by
  let fresh := Block.fresh cfg.poison cfg.stackBytes
  let V : View :=
    ⟨State.startRegs.get, 0, fun j => Block.word fresh (cfg.stackBytes - 4 * (j + 1)), [], []⟩
  refine ⟨V, ⟨?_, rfl, fun _ => rfl, rfl, rfl, ?_, rfl, rfl⟩, rfl, rfl, rfl⟩
  · show (p.textLabels.lookup p.entry).getD 0 = pc
    rw [hentry]
    rfl
  · show (Memory.load p.data cfg.poison cfg.stackBytes).Keeps _ _ _
    rw [hdata]
    exact keeps_load cfg.poison hsize

end MiniJava.Machine
