import MiniJava.Machine.Run

/-!
# What steps do to memory

Most instructions neither read nor write memory: they do the same whatever it holds.  Of the others
a store writes one word, the system call that allocates adds fresh words to the heap, and nothing
else changes memory.

* **`Opcode.sparesMemory`**, **`execute_withMemory`** — instructions that do the same on every
  memory.
* **`store?`** — the word that the next instruction stores, and where.
* **`MemoryEffect`**, **`memoryEffect_of_step`** — what a step may do to memory.
-/

namespace MiniJava

/-- Does an instruction leave memory out of it? -/
def Opcode.sparesMemory : Opcode → Bool
  | .lw | .sw | .syscall => false
  | _ => true

namespace Machine

/-! ### Another memory -/

/-- The outcome with another memory in its state. -/
def Outcome.withMemory (m : Memory) : Outcome → Outcome
  | .done s => .done { s with memory := m }
  | .fault f s => .fault f { s with memory := m }

section WithMemory

variable (m : Memory) (s : State)

theorem setReg_withMemory (r : Reg) (w : UInt32) :
    ({ s with memory := m } : State).setReg r w = { s.setReg r w with memory := m } := by
  unfold State.setReg
  split
  · rfl
  · rfl

theorem setChecked_withMemory (i : Instr) (n : Int) :
    ({ s with memory := m } : State).setChecked i n = (s.setChecked i n).withMemory m := by
  unfold State.setChecked
  split
  · rw [setReg_withMemory]
    rfl
  · rfl

theorem jumpTo_withMemory (p : Image) (i : Instr) :
    jumpTo p { s with memory := m } i = (jumpTo p s i).withMemory m := by
  unfold jumpTo
  split
  · rfl
  · rfl

theorem branchIf_withMemory (p : Image) (i : Instr) (taken : Bool) :
    branchIf p { s with memory := m } i taken = (branchIf p s i taken).withMemory m := by
  unfold branchIf
  split
  · exact jumpTo_withMemory m s p i
  · rfl

theorem print_withMemory (text : Bytes) (refused : Fault) :
    print { s with memory := m } text refused = (print s text refused).withMemory m := by
  unfold print
  simp only
  split
  · rfl
  · rfl

/-- What an instruction puts into a register it puts there on every memory. -/
theorem next_setReg_withMemory (r : Reg) (w : UInt32) :
    (({ s with memory := m } : State).setReg r w).next = ((s.setReg r w).next).withMemory m := by
  rw [setReg_withMemory]
  rfl

/-- An instruction that leaves memory out of it does the same on every memory and under all
limits. -/
theorem execute_withMemory (p : Image) (cfg cfg' : Config) {i : Instr} (h : i.op.sparesMemory) :
    execute p cfg' i { s with memory := m } = (execute p cfg i s).withMemory m := by
  obtain ⟨op, rd, rs, rt, imm, useImm, label, line⟩ := i
  cases op
  case lw => cases h
  case sw => cases h
  case syscall => cases h
  case la =>
    simp only [execute]
    split
    · exact next_setReg_withMemory m s _ _
    · rfl
  case jal =>
    simp only [execute]
    split
    · rw [setReg_withMemory]
      rfl
    · rfl
  case jr =>
    show (if s.reg rd < textBase ∨ s.reg rd % 4 ≠ 0 then _ else _) =
      Outcome.withMemory m (if s.reg rd < textBase ∨ s.reg rd % 4 ≠ 0 then _ else _)
    by_cases hbad : s.reg rd < textBase ∨ s.reg rd % 4 ≠ 0
    · rw [if_pos hbad, if_pos hbad]
      rfl
    · rw [if_neg hbad, if_neg hbad]
      rfl
  case mult => rfl
  case other => rfl
  -- the rest branches, jumps, or computes a register
  all_goals
    first
      | exact branchIf_withMemory m s p _ _
      | exact jumpTo_withMemory m s p _
      | exact setChecked_withMemory m s _ _
      | exact next_setReg_withMemory m s _ _

end WithMemory

/-! ### Effects -/

/-- The address that the next instruction stores to, and the word that it stores. -/
def store? (p : Image) (s : State) : Option (UInt32 × UInt32) :=
  match fetch? p s.pc with
  | some i => if i.op = .sw then some (s.effective i, s.reg i.rd) else none
  | none => none

/-- What a step from a state may make of its memory. -/
inductive MemoryEffect (p : Image) (cfg : Config) (s : State) : Memory → Prop
  /-- It leaves memory as it is. -/
  | keep : store? p s = none → MemoryEffect p cfg s s.memory
  /-- It stores a word. -/
  | store {a w : UInt32} {place : Place} : store? p s = some (a, w) →
      s.memory.wordPlace a = .ok place → MemoryEffect p cfg s (s.memory.setWord place w)
  /-- It adds `n` fresh words to the heap. -/
  | grow {n : Nat} : store? p s = none → (s.memory.heap.size + 4 * n : Int) ≤ cfg.heapBytes →
      MemoryEffect p cfg s (s.memory.grow cfg.poison (4 * n))

variable {p : Image} {cfg : Config} {s s' : State} {i : Instr}

theorem store?_eq_none (hi : fetch? p s.pc = some i) (hop : i.op ≠ .sw) : store? p s = none := by
  unfold store?
  rw [hi]
  exact if_neg hop

@[simp] theorem memory_setReg (s : State) (r : Reg) (w : UInt32) :
    (s.setReg r w).memory = s.memory := by
  unfold State.setReg
  split
  · rfl
  · rfl

theorem memory_of_execute (hspares : i.op.sparesMemory) (h : execute p cfg i s = .done s') :
    s'.memory = s.memory := by
  have hsame := execute_withMemory s.memory s p cfg cfg hspares
  rw [h] at hsame
  exact congrArg (fun o => o.state.memory) hsame

theorem memory_of_print {text : Bytes} {refused : Fault} (h : print s text refused = .done s') :
    s'.memory = s.memory := by
  unfold print at h
  split at h
  · obtain rfl := Outcome.done.inj h
    rfl
  · cases h

/-- A system call that succeeds leaves memory alone or adds words to the heap. -/
theorem memory_of_syscall (h : syscall cfg s = .done s') :
    s'.memory = s.memory ∨ ∃ n : Nat, (s.memory.heap.size + 4 * n : Int) ≤ cfg.heapBytes ∧
      s'.memory = s.memory.grow cfg.poison (4 * n) := by
  unfold syscall at h
  simp only at h
  split at h
  · exact .inl (memory_of_print h)
  split at h
  · split at h
    · exact .inl (memory_of_print h)
    · cases h
  split at h
  · unfold sbrk at h
    split at h
    · cases h
    simp only at h
    split at h
    · cases h
    · rename_i hroom
      obtain rfl := Outcome.done.inj h
      refine .inr ⟨((signed (s.reg Reg.a0)).toNat + 3) / 4, by omega, ?_⟩
      show (State.setReg _ _ _).memory = _
      rw [memory_setReg, Nat.mul_comm 4]
  split at h
  · obtain rfl := Outcome.done.inj h
    exact .inl rfl
  · cases h

/-- A step stores a word, adds words to the heap, or leaves memory as it is. -/
theorem memoryEffect_of_step (h : step p cfg s = .done s') : MemoryEffect p cfg s s'.memory := by
  unfold step at h
  cases hi : fetch? p s.pc with
  | none =>
    rw [hi] at h
    cases h
  | some i =>
    rw [hi] at h
    simp only at h
    by_cases hspares : i.op.sparesMemory
    · have hmemory : s'.memory = s.memory :=
        memory_of_execute (s := { s with steps := s.steps + 1 }) hspares h
      rw [hmemory]
      refine .keep (store?_eq_none hi ?_)
      rintro hop
      rw [hop] at hspares
      cases hspares
    · cases hop : i.op with
      | lw =>
        simp only [execute, hop] at h
        split at h
        · obtain rfl := Outcome.done.inj h
          have hkeep : MemoryEffect p cfg s s.memory :=
            .keep (store?_eq_none hi (by rw [hop]; exact Opcode.noConfusion))
          simpa only [memory_setReg] using hkeep
        · cases h
      | sw =>
        simp only [execute, hop] at h
        split at h
        · rename_i place hplace
          obtain rfl := Outcome.done.inj h
          have hstore : store? p s = some (s.effective i, s.reg i.rd) := by
            unfold store?
            rw [hi]
            exact if_pos hop
          exact .store hstore hplace
        · cases h
      | syscall =>
        simp only [execute, hop] at h
        have hnone : store? p s = none :=
          store?_eq_none hi (by rw [hop]; exact Opcode.noConfusion)
        rcases memory_of_syscall h with hsame | ⟨n, hroom, hgrown⟩
        · rw [hsame]
          exact .keep hnone
        · rw [hgrown]
          exact .grow hnone hroom
      | _ =>
        rw [hop] at hspares
        exact absurd rfl hspares

end Machine

end MiniJava
