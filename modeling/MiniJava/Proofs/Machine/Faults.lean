import MiniJava.Proofs.Machine.Execution

/-!
# Steps that fail

A step that fails does nothing but count its instruction: every instruction looks for what could be
wrong before it changes anything.  So the state that a failing run leaves is the one in front of
the instruction that failed, and the error names the line of that instruction.

* **`Outcome.LeavesOnFault`**, **`execute_leavesOnFault`** — a fault comes before any change.
* **`fault_of_step`** — all that a step that fails leaves.
* **`Failure`**, **`exists_failure`** — why a run fails, and in which state.
* **`steps_are_atomic`** — what holds of every state of a run, and of every step that fails there.
-/

namespace MiniJava.Machine

variable {p : Image} {cfg : Config}

/-! ### Instructions that fail -/

/-- If the outcome is a fault, then it leaves the state `s`. -/
def Outcome.LeavesOnFault (s : State) (o : Outcome) : Prop := ∀ f s', o = .fault f s' → s' = s

section Instructions

variable (s : State)

theorem done_leavesOnFault (s' : State) : (Outcome.done s').LeavesOnFault s := by
  rintro _ _ h
  cases h

theorem fault_leavesOnFault (f : Fault) : (Outcome.fault f s).LeavesOnFault s := by
  rintro _ _ h
  exact (Outcome.fault.inj h).2.symm

theorem setChecked_leavesOnFault (i : Instr) (n : Int) : (s.setChecked i n).LeavesOnFault s := by
  unfold State.setChecked
  split
  · exact done_leavesOnFault s _
  · exact fault_leavesOnFault s _

theorem jumpTo_leavesOnFault (i : Instr) : (jumpTo p s i).LeavesOnFault s := by
  unfold jumpTo
  split
  · exact done_leavesOnFault s _
  · exact fault_leavesOnFault s _

theorem branchIf_leavesOnFault (i : Instr) (taken : Bool) :
    (branchIf p s i taken).LeavesOnFault s := by
  unfold branchIf
  split
  · exact jumpTo_leavesOnFault s i
  · exact done_leavesOnFault s _

theorem print_leavesOnFault (text : Bytes) (refused : Fault) :
    (print s text refused).LeavesOnFault s := by
  unfold print
  split
  · exact done_leavesOnFault s _
  · exact fault_leavesOnFault s _

theorem sbrk_leavesOnFault (n : Int) : (sbrk cfg s n).LeavesOnFault s := by
  unfold sbrk
  split
  · exact fault_leavesOnFault s _
  · simp only
    split
    · exact fault_leavesOnFault s _
    · exact done_leavesOnFault s _

theorem syscall_leavesOnFault : (syscall cfg s).LeavesOnFault s := by
  unfold syscall
  simp only
  split
  · exact print_leavesOnFault s _ _
  split
  · split
    · exact print_leavesOnFault s _ _
    · exact fault_leavesOnFault s _
  split
  · exact sbrk_leavesOnFault s _
  split
  · exact done_leavesOnFault s _
  · exact fault_leavesOnFault s _

/-- Every instruction fails before it changes anything. -/
theorem execute_leavesOnFault (i : Instr) : (execute p cfg i s).LeavesOnFault s := by
  obtain ⟨op, rd, rs, rt, imm, useImm, label, line⟩ := i
  cases op
  case li | move | addu | addiu | subu | and | or | nor | slt | sll | mult | mflo =>
    exact done_leavesOnFault s _
  case add | addi | sub => exact setChecked_leavesOnFault s _ _
  case beq | bne | bgeu | bge | bgt | blt | bltz => exact branchIf_leavesOnFault s _ _
  case j => exact jumpTo_leavesOnFault s _
  case syscall => exact syscall_leavesOnFault s
  case other => exact fault_leavesOnFault s _
  -- the rest looks up one thing first: a label, a place in memory, or an address
  all_goals
    simp only [execute]
    split
    · first
        | exact done_leavesOnFault s _
        | exact fault_leavesOnFault s _
    · first
        | exact done_leavesOnFault s _
        | exact fault_leavesOnFault s _

end Instructions

/-- A step that fails leaves everything as it was, and counts the instruction if there is one. -/
theorem fault_of_step {s s' : State} {f : Fault} (h : step p cfg s = .fault f s') :
    (fetch? p s.pc = none ∧ s' = s) ∨
      ∃ i, fetch? p s.pc = some i ∧ s' = { s with steps := s.steps + 1 } := by
  unfold step at h
  cases hfetch : fetch? p s.pc with
  | none =>
    rw [hfetch] at h
    exact .inl ⟨rfl, (Outcome.fault.inj h).2.symm⟩
  | some i =>
    rw [hfetch] at h
    exact .inr ⟨i, rfl, execute_leavesOnFault _ i f s' h⟩

/-! ### Runs that fail -/

/-- Why a run fails in the state `s`, and the state that it leaves. -/
inductive Failure (p : Image) (cfg : Config) (s : State) : RunError → State → Prop
  /-- The instruction that is next fails. -/
  | instruction {i : Instr} {f : Fault} : fetch? p s.pc = some i →
      step p cfg s = .fault f { s with steps := s.steps + 1 } →
      Failure p cfg s (.atLine i.line i.op f) { s with steps := s.steps + 1 }
  /-- There is no instruction. -/
  | nowhere {f : Fault} : fetch? p s.pc = none → step p cfg s = .fault f s →
      Failure p cfg s (.nowhere f) s
  /-- The limit on steps is reached. -/
  | stepLimit : 0 < cfg.maxSteps → cfg.maxSteps ≤ s.steps →
      Failure p cfg s (.stepLimit s.steps) s
  /-- The run is called off. -/
  | cancelled : Failure p cfg s .cancelled s

/-- A step that fails ends the run with an error that names its instruction. -/
theorem failure_of_fault {s s' : State} {f : Fault} (h : step p cfg s = .fault f s') :
    Failure p cfg s (faultAt p s'.pc f) s' := by
  rcases fault_of_step h with ⟨hfetch, rfl⟩ | ⟨i, hfetch, rfl⟩
  · rw [faultAt, hfetch]
    exact .nowhere hfetch h
  · rw [show faultAt p ({ s with steps := s.steps + 1 } : State).pc f = .atLine i.line i.op f by
      rw [faultAt, hfetch]]
    exact .instruction hfetch h

theorem Reached.head {s s₁ s₂ : State} {stores : List (UInt32 × UInt32)}
    (hstep : Machine.step p cfg s = .done s₁) (h : Reached p cfg s₁ stores s₂) :
    Reached p cfg s (stores ++ (store? p s).toList) s₂ := by
  induction h with
  | start => simpa using Reached.step .start hstep
  | step _ hnext ih => simpa using Reached.step ih hnext

/-- A run that fails comes to a state in which something stops it. -/
theorem exists_failure {cancelled : Bool} {n : Nat} {s s' : State} {e : RunError}
    (h : runWithin p cfg cancelled n s = (.failed e, s')) :
    ∃ stores s₁, Reached p cfg s stores s₁ ∧ s₁.exited = false ∧ Failure p cfg s₁ e s' := by
  induction n generalizing s with
  | zero =>
    unfold runWithin at h
    split at h <;> cases h
  | succ n ih =>
    unfold runWithin at h
    split at h
    · cases h
    rename_i hrunning
    replace hrunning : s.exited = false := Bool.eq_false_iff.mpr hrunning
    split at h
    · rename_i hlimit
      obtain ⟨herror, rfl⟩ := Prod.mk.inj h
      obtain rfl := Status.failed.inj herror
      exact ⟨[], s, .start, hrunning, .stepLimit hlimit.1 hlimit.2⟩
    split at h
    · obtain ⟨herror, rfl⟩ := Prod.mk.inj h
      obtain rfl := Status.failed.inj herror
      exact ⟨[], s, .start, hrunning, .cancelled⟩
    split at h
    · rename_i s₁ hstep
      obtain ⟨stores, s₂, hreached, hlast, hfailure⟩ := ih h
      exact ⟨_, s₂, hreached.head hstep, hlast, hfailure⟩
    · rename_i f s₁ hstep
      obtain ⟨herror, rfl⟩ := Prod.mk.inj h
      obtain rfl := Status.failed.inj herror
      exact ⟨[], s, .start, hrunning, failure_of_fault hstep⟩

/-! ### Every state of a run -/

theorem Reached.kept {s s' : State} {stores : List (UInt32 × UInt32)}
    (h : Reached p cfg s stores s') (hs : Kept p cfg s) : Kept p cfg s' := by
  induction h with
  | start => exact hs
  | step _ hstep ih => exact ih.step hstep

theorem MemoryEffect.size_heap_le {s : State} {m : Memory} (h : MemoryEffect p cfg s m) :
    s.memory.heap.size ≤ m.heap.size := by
  cases h with
  | keep => exact Nat.le_refl _
  | store => rw [Memory.size_heap_setWord]
  | grow =>
    rw [Memory.size_heap_grow]
    exact Nat.le_add_right _ _

/-- The heap never shrinks. -/
theorem Reached.size_heap_le {s s' : State} {stores : List (UInt32 × UInt32)}
    (h : Reached p cfg s stores s') : s.memory.heap.size ≤ s'.memory.heap.size := by
  induction h with
  | start => exact Nat.le_refl _
  | step _ hstep ih => exact Nat.le_trans ih (memoryEffect_of_step hstep).size_heap_le

/-- In every state that a program comes to, register 0 is zero, the stack has its size, and the heap
is whole words, within its limit or the data it started with, and will not shrink.  If the next
step fails then everything is as it was before, but for the count of instructions; and a run that
goes on from there and fails names the instruction that failed. -/
theorem steps_are_atomic {limit : Option Nat} {stores : List (UInt32 × UInt32)} {s : State}
    (h : Reached p cfg (State.start p cfg limit) stores s) :
    s.reg Reg.zero = 0 ∧ s.memory.stack.size = cfg.stackBytes ∧ s.memory.heap.size % 4 = 0 ∧
    (s.memory.heap.size : Int) ≤ max cfg.heapBytes p.dataSize ∧
    (∀ later s', Reached p cfg s later s' → s.memory.heap.size ≤ s'.memory.heap.size) ∧
    (∀ f s', step p cfg s = .fault f s' → s' = { s with steps := s'.steps }) ∧
    ∀ cancelled n e s', runWithin p cfg cancelled n s = (.failed e, s') →
      ∃ later s₁, Reached p cfg s later s₁ ∧ s₁.exited = false ∧ Failure p cfg s₁ e s' := by
  have hkept := h.kept (kept_start limit)
  refine ⟨hkept.zero, hkept.stackSize, hkept.heapWhole, hkept.heapLimit,
    fun _ _ hlater => hlater.size_heap_le, fun f s' hfault => ?_,
    fun _ _ _ _ hrun => exists_failure hrun⟩
  rcases fault_of_step hfault with ⟨-, rfl⟩ | ⟨i, -, rfl⟩
  · rfl
  · rfl

/-- A program that allocates all that there is left and then calls its data. -/
def callingData : Bytes :=
  ".data\nx: .word 1\n.text\nmain: li $a0, 8\nli $v0, 9\nsyscall\njal x\n"

theorem steps_are_atomic_calling_data :
    ∃ p stores s s', assemble callingData = .ok p ∧
      Reached p .tight (State.start p .tight none) stores s ∧ s.memory.heap.size = 12 ∧
      s.memory.stack.size = 8 ∧ step p .tight s = .fault (.unknownLabel .jal "x") s' ∧
      s' = { s with steps := s'.steps } := by
  have hrun : (assemble callingData).toOption.any fun p =>
      (historyWithin p .tight 3 [] (State.start p .tight none)).any fun (_, s) =>
        s.memory.heap.size == 12 &&
        match step p .tight s with
        | .fault f _ => f = .unknownLabel .jal "x"
        | .done _ => false := by
    decide +kernel
  cases hasm : assemble callingData with
  | error e =>
    rw [hasm] at hrun
    cases hrun
  | ok p =>
    rw [hasm] at hrun
    replace hrun : (historyWithin p .tight 3 [] (State.start p .tight none)).any _ = true := hrun
    cases hhistory : historyWithin p .tight 3 [] (State.start p .tight none) with
    | none =>
      rw [hhistory] at hrun
      cases hrun
    | some last =>
      obtain ⟨stores, s⟩ := last
      rw [hhistory] at hrun
      obtain ⟨hsize, hfault⟩ := Bool.and_eq_true_iff.mp hrun
      have hreached := Reached.of_historyWithin 3 .start hhistory
      obtain ⟨-, hstack, -, -, -, hatomic, -⟩ := steps_are_atomic hreached
      cases hstep : step p .tight s with
      | done s' =>
        rw [hstep] at hfault
        cases hfault
      | fault f s' =>
        rw [hstep] at hfault
        obtain rfl := of_decide_eq_true hfault
        exact ⟨p, stores, s, s', rfl, hreached, beq_iff_eq.mp hsize, hstack, hstep,
          hatomic _ s' hstep⟩

end MiniJava.Machine
