import MiniJava.Proofs.Machine.Execution

/-!
# Runs up to a point

A run may fail, end or go on for ever, so that a point of the code need not be reached.  What can
be said of it is what holds if the point is reached, and what holds up to then.  A run is followed
for as long as the stack pointer stays inside the stack and nothing is stored there by way of an
object or an array.

* **`Inside`**, **`StoresApart`** — for how long a run is followed.
* **`Until`** — something holds up to a point; `Until.bind`: and from there to a later one.
* **`Steps.of_until`** — what that says about a run.
* **`Instr.Tame`**, **`Instr.Branches`** — instructions that leave a frame alone.
* **`Quiet`**, **`quiet_of_tame`**, **`quiet_of_branches`** — what such instructions keep.
* **`Memory.stackWord`** — a word of the stack.
-/

namespace MiniJava

/-! ### Words of the stack -/

namespace Memory

/-- The address is one of the stack. -/
def OnStack (m : Memory) (a : UInt32) : Prop :=
  stackEnd ≤ a.toNat + m.stack.size ∧ a.toNat < stackEnd

instance (m : Memory) (a : UInt32) : Decidable (m.OnStack a) := inferInstanceAs (Decidable (_ ∧ _))

/-- The segments do not overlap. -/
def Apart (m : Memory) : Prop := dataBase.toNat + m.heap.size + m.stack.size ≤ stackEnd

instance (m : Memory) : Decidable m.Apart := inferInstanceAs (Decidable (_ ≤ _))

/-- The word of the stack at an address. -/
def stackWord (m : Memory) (a : Int) : UInt32 :=
  Block.word m.stack (a + m.stack.size - stackEnd).toNat

variable {m : Memory} {a : UInt32} {place : Place}

theorem place_of_onStack (h : m.wordPlace a = .ok place) (hapart : m.Apart) (ha : m.OnStack a) :
    a.toNat % 4 = 0 ∧ ∃ o, a.toNat + m.stack.size = stackEnd + o ∧ o + 4 ≤ m.stack.size ∧
      place = ⟨.stack, o⟩ := by
  obtain ⟨haligned, hplace⟩ := wordPlace_eq_ok h
  refine ⟨haligned, ?_⟩
  unfold Apart at hapart
  unfold OnStack at ha
  rcases place?_cases hplace with ⟨o, hheap, hsize, -⟩ | hstack
  · omega
  · exact hstack

theorem stack_setWord_of_apart (h : m.wordPlace a = .ok place) (ha : ¬ m.OnStack a) (w : UInt32) :
    (m.setWord place w).stack = m.stack := by
  obtain ⟨-, hplace⟩ := wordPlace_eq_ok h
  rcases place?_cases hplace with ⟨o, -, -, rfl⟩ | ⟨o, hplace, hsize, rfl⟩
  · rfl
  · unfold OnStack at ha
    omega

/-- What is read from the stack. -/
theorem eq_stackWord {w : UInt32} (h : m.word a = .ok w) (hapart : m.Apart) (ha : m.OnStack a) :
    w = m.stackWord a.toNat := by
  unfold word at h
  split at h
  · rename_i place hplace
    obtain ⟨-, o, ho, -, rfl⟩ := place_of_onStack hplace hapart ha
    rw [← Except.ok.inj h, stackWord]
    show Block.word m.stack o = _
    congr
    omega
  · cases h

theorem word_eq_stackWord (hapart : m.Apart) (ha : m.OnStack a) (haligned : a.toNat % 4 = 0) :
    m.word a = .ok (m.stackWord a.toNat) := by
  have hplace : m.wordPlace a = .ok ⟨.stack, a.toNat + m.stack.size - stackEnd⟩ := by
    have hend : stackEnd = 0x80000000 := rfl
    unfold Apart at hapart
    unfold OnStack at ha
    refine wordPlace_of_place? haligned ?_
    rw [place?, if_neg (by omega), if_pos (by omega)]
  cases hword : m.word a with
  | ok w => rw [eq_stackWord hword hapart ha]
  | error f =>
    rw [word, hplace] at hword
    cases hword

theorem stackWord_setWord_self (h : m.wordPlace a = .ok place) (hapart : m.Apart)
    (ha : m.OnStack a) (w : UInt32) : (m.setWord place w).stackWord a.toNat = w := by
  obtain ⟨-, o, ho, hsize, rfl⟩ := place_of_onStack h hapart ha
  have hoffset : ((a.toNat : Int) + m.stack.size - stackEnd).toNat = o := by omega
  rw [stackWord, size_stack_setWord, hoffset]
  exact Block.word_setWord_self hsize w

theorem stackWord_setWord_ne (h : m.wordPlace a = .ok place) (hapart : m.Apart)
    (ha : m.OnStack a) (w : UInt32) {b : Int} (hb : b % 4 = 0) (hlow : stackEnd ≤ b + m.stack.size)
    (hne : b ≠ a.toNat) : (m.setWord place w).stackWord b = m.stackWord b := by
  obtain ⟨haligned, o, ho, hsize, rfl⟩ := place_of_onStack h hapart ha
  rw [stackWord, size_stack_setWord, stackWord]
  refine Block.word_setWord_ne (o := o) ?_ w
  omega

end Memory

namespace Machine

/-! ### Following a run -/

/-- The segments of memory do not overlap, and the stack pointer is inside the stack. -/
structure Inside (s : State) : Prop where
  apart : s.memory.Apart
  stack : s.memory.OnStack (s.reg Reg.sp)

/-- The next instruction does not store anything on the stack, unless it is one that stores relative
to the stack pointer or to the frame pointer. -/
def StoresApart (p : Image) (s : State) : Prop :=
  ∀ i, fetch? p s.pc = some i → i.op = .sw → i.rs ≠ Reg.sp → i.rs ≠ Reg.fp →
    ¬ s.memory.OnStack (s.effective i)

instance (s : State) : Decidable (Inside s) :=
  decidable_of_iff (s.memory.Apart ∧ s.memory.OnStack (s.reg Reg.sp))
    ⟨fun h => ⟨h.1, h.2⟩, fun h => ⟨h.apart, h.stack⟩⟩

instance (p : Image) (s : State) : Decidable (StoresApart p s) :=
  decidable_of_iff (∀ i ∈ fetch? p s.pc, i.op = .sw → i.rs ≠ Reg.sp → i.rs ≠ Reg.fp →
    ¬ s.memory.OnStack (s.effective i)) Iff.rfl

/-- For the next `n` steps, `A` holds up to the first state in which `Q` holds, if there is one. -/
def Until (p : Image) (cfg : Config) (A Q : State → Prop) : (n : Nat) → State → Prop
  | 0, s => Inside s → Q s ∨ A s
  | n + 1, s => Inside s → Q s ∨ A s ∧ (StoresApart p s → s.exited = false →
      ∀ s', step p cfg s = .done s' → Until p cfg A Q n s')

section Until

variable {p : Image} {cfg : Config} {A Q R : State → Prop} {n : Nat} {s s' : State}

theorem Until.now (h : Q s) : Until p cfg A Q n s := by
  cases n with
  | zero => exact fun _ => .inl h
  | succ n => exact fun _ => .inl h

theorem Until.inside (h : Inside s → Until p cfg A Q n s) : Until p cfg A Q n s := by
  cases n with
  | zero => exact fun hs => h hs hs
  | succ n => exact fun hs => h hs hs

/-- One step. -/
theorem Until.step (hA : A s)
    (h : ∀ m < n, Inside s → StoresApart p s → s.exited = false →
      ∀ s', Machine.step p cfg s = .done s' → Until p cfg A Q m s') : Until p cfg A Q n s := by
  cases n with
  | zero => exact fun _ => .inr hA
  | succ n =>
    intro hs
    exact .inr ⟨hA, fun hstores hrunning => h n (Nat.lt_succ_self n) hs hstores hrunning⟩

/-- Nothing happens after the end. -/
theorem Until.ended (hA : A s) (h : s.exited = true) : Until p cfg A Q n s := by
  refine .step hA ?_
  intro m _ _ _ hrunning
  rw [h] at hrunning
  cases hrunning

/-- One point after another. -/
theorem Until.bind (h : Until p cfg A R n s)
    (h' : ∀ m ≤ n, ∀ s', R s' → Until p cfg A Q m s') : Until p cfg A Q n s := by
  induction n generalizing s with
  | zero =>
    intro hs
    rcases h hs with hR | hA
    · exact h' 0 (Nat.le_refl 0) s hR hs
    · exact .inr hA
  | succ n ih =>
    intro hs
    rcases h hs with hR | ⟨hA, hnext⟩
    · exact h' (n + 1) (Nat.le_refl _) s hR hs
    · refine .inr ⟨hA, ?_⟩
      intro hstores hrunning s' hstep
      exact ih (hnext hstores hrunning s' hstep) fun m hm => h' m (Nat.le_succ_of_le hm)

theorem Until.imp (h : Until p cfg A R n s) (h' : ∀ s', R s' → Q s') : Until p cfg A Q n s :=
  h.bind fun _ _ s' hR => .now (h' s' hR)

/-- A step that is known. -/
theorem Until.next {s₁ : State} (hA : A s) (hstep : Machine.step p cfg s = .done s₁)
    (h : ∀ m < n, Until p cfg A Q m s₁) : Until p cfg A Q n s := by
  refine .step hA ?_
  intro m hm _ _ _ s' hstep'
  rw [hstep] at hstep'
  obtain rfl := Outcome.done.inj hstep'
  exact h m hm

/-- If `A` does not hold in the last state of a run and holds in all others, then `Q` holds in the
last state, provided that `A` and `Q` exclude each other. -/
theorem Steps.of_until (h : Steps p cfg n s s') (hexcl : ∀ u, Q u → ¬ A u)
    (huntil : Until p cfg A Q n s) (hlast : ¬ A s') (hfirst : ∀ m < n, ∀ u, Steps p cfg m s u → A u)
    (hinside : ∀ m ≤ n, ∀ u, Steps p cfg m s u → Inside u)
    (hstores : ∀ m < n, ∀ u, Steps p cfg m s u → StoresApart p u) : Q s' := by
  induction h with
  | refl s =>
    rcases huntil (hinside 0 (Nat.le_refl 0) s (.refl s)) with hQ | hA
    · exact hQ
    · exact absurd hA hlast
  | @head n s s₁ s' hrunning hstep _ ih =>
    rcases huntil (hinside 0 (Nat.zero_le _) s (.refl s)) with hQ | ⟨-, hnext⟩
    · exact absurd (hfirst 0 (Nat.zero_lt_succ n) s (.refl s)) (hexcl s hQ)
    · have hapart := hstores 0 (Nat.zero_lt_succ n) s (.refl s)
      refine ih (hnext hapart hrunning s₁ hstep) hlast ?_ ?_ ?_
      · intro m hm u hu
        exact hfirst (m + 1) (Nat.succ_lt_succ hm) u (.head hrunning hstep hu)
      · intro m hm u hu
        exact hinside (m + 1) (Nat.succ_le_succ hm) u (.head hrunning hstep hu)
      · intro m hm u hu
        exact hstores (m + 1) (Nat.succ_lt_succ hm) u (.head hrunning hstep hu)

/-- Something holds in all states of the next `n` steps. -/
def throughout (p : Image) (cfg : Config) (P : State → Bool) : (n : Nat) → State → Bool
  | 0, s => P s
  | n + 1, s => P s &&
      match Machine.step p cfg s with
      | .done s => throughout p cfg P n s
      | .fault _ _ => true

theorem of_throughout {P : State → Bool} (h : throughout p cfg P n s) :
    ∀ m ≤ n, ∀ u, Steps p cfg m s u → P u := by
  induction n generalizing s with
  | zero =>
    intro m hm u hu
    obtain rfl : m = 0 := Nat.le_zero.mp hm
    cases hu
    exact h
  | succ n ih =>
    obtain ⟨hfirst, hrest⟩ := Bool.and_eq_true_iff.mp h
    intro m hm u hu
    cases hu with
    | refl => exact hfirst
    | @head m _ s₁ _ _ hstep hsteps =>
      rw [hstep] at hrest
      exact ih hrest m (Nat.le_of_succ_le_succ hm) u hsteps

end Until

/-! ### Instructions that leave a frame alone -/

/-- The registers that a frame depends on. -/
def frameRegs : List Reg := [Reg.sp, Reg.fp, Reg.ra]

end Machine

/-- The instruction goes on with the next one, if it does not end the program, and leaves the
registers alone that a frame depends on. -/
def Instr.Tame (i : Instr) : Bool :=
  match i.op with
  | .sw => i.rs ≠ Reg.sp ∧ i.rs ≠ Reg.fp
  | .mult | .syscall => true
  | .beq | .bne | .bgeu | .bge | .bgt | .blt | .bltz | .j | .jal | .jr | .other _ => false
  | _ => i.rd ∉ Machine.frameRegs

/-- The instruction goes to its label or to the next instruction. -/
def Instr.Branches (i : Instr) : Bool :=
  match i.op with
  | .beq | .bne | .bgeu | .bge | .bgt | .blt | .bltz | .j => true
  | _ => false

namespace Machine

/-- What a frame depends on is as it was. -/
structure Quiet (s s' : State) : Prop where
  regs : ∀ r ∈ frameRegs, s'.reg r = s.reg r
  words : s'.memory.stack = s.memory.stack

theorem Quiet.refl (s : State) : Quiet s s := ⟨fun _ _ => rfl, rfl⟩

theorem Quiet.trans {s s₁ s₂ : State} (h : Quiet s s₁) (h' : Quiet s₁ s₂) : Quiet s s₂ :=
  ⟨fun r hr => (h'.regs r hr).trans (h.regs r hr), h'.words.trans h.words⟩

/-- The machine goes on with the next instruction, or it has ended. -/
structure Onward (s s' : State) : Prop where
  next : s'.pc = s.pc + 1 ∧ s'.exited = s.exited ∨ s'.pc = s.pc ∧ s'.exited = true
  regs : ∀ r ∈ frameRegs, s'.reg r = s.reg r

section Instructions

variable {p : Image} {cfg : Config} {k : Nat} {i : Instr} {s s' : State}

theorem onward_of_setReg {r : Reg} {w : UInt32} (hr : r ∉ frameRegs)
    (h : (s.setReg r w).next = .done s') : Onward s s' := by
  obtain rfl := Outcome.done.inj h
  refine ⟨.inl ⟨?_, State.exited_setReg _ _ _⟩, ?_⟩
  · show (s.setReg r w).pc + 1 = s.pc + 1
    rw [State.pc_setReg]
  · intro q hq
    exact State.reg_setReg_ne w fun e => hr (e ▸ hq)

theorem onward_of_setChecked {n : Int} (hr : i.rd ∉ frameRegs)
    (h : s.setChecked i n = .done s') : Onward s s' := by
  unfold State.setChecked at h
  split at h
  · exact onward_of_setReg hr h
  · cases h

theorem onward_of_print {text : Bytes} {refused : Fault} (h : print s text refused = .done s') :
    Onward s s' := by
  unfold print at h
  split at h
  · obtain rfl := Outcome.done.inj h
    exact ⟨.inl ⟨rfl, rfl⟩, fun _ _ => rfl⟩
  · cases h

theorem onward_of_syscall (h : syscall cfg s = .done s') : Onward s s' := by
  unfold syscall at h
  simp only at h
  split at h
  · exact onward_of_print h
  split at h
  · split at h
    · exact onward_of_print h
    · cases h
  split at h
  · unfold sbrk at h
    split at h
    · cases h
    simp only at h
    split at h
    · cases h
    · obtain ⟨hnext, hregs⟩ := onward_of_setReg (r := Reg.v0) (by decide) h
      exact ⟨hnext, hregs⟩
  split at h
  · obtain rfl := Outcome.done.inj h
    exact ⟨.inr ⟨rfl, rfl⟩, fun _ _ => rfl⟩
  · cases h

theorem onward_of_tame (hi : i.Tame) (h : execute p cfg i s = .done s') : Onward s s' := by
  obtain ⟨op, rd, rs, rt, imm, useImm, label, line⟩ := i
  cases op
  case li | move | addu | addiu | subu | and | or | nor | slt | sll | mflo =>
    exact onward_of_setReg (of_decide_eq_true hi) h
  case add | addi | sub => exact onward_of_setChecked (of_decide_eq_true hi) h
  case mult =>
    obtain rfl := Outcome.done.inj h
    exact ⟨.inl ⟨rfl, rfl⟩, fun _ _ => rfl⟩
  case syscall => exact onward_of_syscall h
  case la | lw =>
    simp only [execute] at h
    split at h
    · exact onward_of_setReg (of_decide_eq_true hi) h
    · cases h
  case sw =>
    simp only [execute] at h
    split at h
    · obtain rfl := Outcome.done.inj h
      exact ⟨.inl ⟨rfl, rfl⟩, fun _ _ => rfl⟩
    · cases h
  all_goals cases hi

/-- What is stored by way of an object or an array is not stored on the stack. -/
theorem stack_of_step (hstep : step p cfg s = .done s') (hstores : StoresApart p s)
    (hi : ∀ j, fetch? p s.pc = some j → j.op = .sw → j.rs ≠ Reg.sp ∧ j.rs ≠ Reg.fp) :
    s'.memory.stack = s.memory.stack := by
  have heffect := memoryEffect_of_step hstep
  generalize s'.memory = m at heffect
  cases heffect with
  | keep => rfl
  | grow => rfl
  | store hstore hplace =>
    unfold store? at hstore
    split at hstore
    · rename_i j hfetch
      split at hstore
      · rename_i hop
        obtain ⟨rfl, rfl⟩ := Prod.mk.inj (Option.some.inj hstore)
        obtain ⟨hsp, hfp⟩ := hi j hfetch hop
        exact Memory.stack_setWord_of_apart hplace (hstores j hfetch hop hsp hfp) _
      · cases hstore
    · cases hstore

theorem tame_of_sw (hi : i.Tame) (hop : i.op = .sw) : i.rs ≠ Reg.sp ∧ i.rs ≠ Reg.fp := by
  unfold Instr.Tame at hi
  rw [hop] at hi
  exact of_decide_eq_true hi

theorem eq_wrapped_of_fetch? (hi : Performs p k i) (hpc : s.pc = k) {j : Instr}
    (hj : fetch? p s.pc = some j) : ∃ line, j = { i.wrapped with line } := by
  obtain ⟨line, hfetch⟩ := fetch?_of_performs hi hpc
  rw [hfetch] at hj
  exact ⟨line, (Option.some.inj hj).symm⟩

/-- A tame instruction. -/
theorem quiet_of_tame (hi : Performs p k i) (hpc : s.pc = k) (htame : i.Tame)
    (hstores : StoresApart p s) (hstep : step p cfg s = .done s') :
    Quiet s s' ∧ (s'.pc = (k + 1 : Nat) ∧ s'.exited = s.exited ∨ s'.pc = k ∧ s'.exited = true) := by
  have hexecute := hstep
  rw [step_of_performs hi hpc] at hexecute
  obtain ⟨hnext, hregs⟩ := onward_of_tame htame hexecute
  refine ⟨⟨hregs, stack_of_step hstep hstores ?_⟩, ?_⟩
  · intro j hj hop
    obtain ⟨line, rfl⟩ := eq_wrapped_of_fetch? hi hpc hj
    exact tame_of_sw htame hop
  · rcases hnext with ⟨hpc', hrunning⟩ | ⟨hpc', hended⟩
    · exact .inl ⟨hpc'.trans (congrArg (· + 1) hpc), hrunning⟩
    · exact .inr ⟨hpc'.trans hpc, hended⟩

theorem goes_of_branchIf {taken : Bool} (h : branchIf p s i taken = .done s') :
    (s' = { s with pc := s.pc + 1 } ∧ taken = false) ∨
      ∃ target, p.textLabels.lookup i.label = some target ∧ s' = { s with pc := target } := by
  unfold branchIf at h
  split at h
  · unfold jumpTo at h
    split at h
    · rename_i target hlabel
      exact .inr ⟨target, hlabel, (Outcome.done.inj h).symm⟩
    · cases h
  · rename_i htaken
    exact .inl ⟨(Outcome.done.inj h).symm, Bool.eq_false_iff.mpr htaken⟩

theorem branchIf_of_branches (hi : i.Branches) :
    ∃ taken, execute p cfg i s = branchIf p s i taken ∧ (i.op = .j → taken = true) := by
  obtain ⟨op, rd, rs, rt, imm, useImm, label, line⟩ := i
  cases op
  case beq | bne | bgeu | bge | bgt | blt | bltz => exact ⟨_, rfl, nofun⟩
  case j => exact ⟨true, rfl, fun _ => rfl⟩
  all_goals cases hi

/-- A branch. -/
theorem quiet_of_branches {target : Nat} (hi : Performs p k i) (hpc : s.pc = k)
    (hbranch : i.Branches) (hlabel : p.textLabels.lookup i.label = some (target : Int))
    (hstep : step p cfg s = .done s') :
    Quiet s s' ∧ s'.exited = s.exited ∧
      (s'.pc = (k + 1 : Nat) ∧ i.op ≠ .j ∨ s'.pc = target) := by
  obtain ⟨taken, hexecute, hj⟩ :
      ∃ taken, execute p cfg i { s with steps := s.steps + 1 } = branchIf p _ i taken ∧ _ :=
    branchIf_of_branches hbranch
  rw [step_of_performs hi hpc, hexecute] at hstep
  rcases goes_of_branchIf hstep with ⟨rfl, htaken⟩ | ⟨target', hlabel', rfl⟩
  · refine ⟨⟨fun _ _ => rfl, rfl⟩, rfl, .inl ⟨congrArg (· + 1) hpc, ?_⟩⟩
    intro hop
    rw [hj hop] at htaken
    cases htaken
  · rw [hlabel] at hlabel'
    exact ⟨⟨fun _ _ => rfl, rfl⟩, rfl, .inr (Option.some.inj hlabel').symm⟩

/-- A store that succeeds. -/
theorem write_of_sw {r base : Reg} {o : Int} (hi : Performs p k (.sw r o base)) (hpc : s.pc = k)
    (hstep : step p cfg s = .done s') :
    ∃ place, s.memory.wordPlace (s.reg base + UInt32.ofInt o) = .ok place ∧
      s' = s.write (s.memory.setWord place (s.reg r)) := by
  cases hplace : s.memory.wordPlace (s.reg base + UInt32.ofInt o) with
  | ok place =>
    rw [step_sw hi hpc hplace] at hstep
    exact ⟨place, rfl, (Outcome.done.inj hstep).symm⟩
  | error f =>
    rw [step_sw_fault hi hpc hplace] at hstep
    cases hstep

/-- A load that succeeds. -/
theorem put_of_lw {r base : Reg} {o : Int} (hi : Performs p k (.lw r o base)) (hpc : s.pc = k)
    (hstep : step p cfg s = .done s') :
    ∃ w, s.memory.word (s.reg base + UInt32.ofInt o) = .ok w ∧ s' = s.put r w := by
  cases hword : s.memory.word (s.reg base + UInt32.ofInt o) with
  | ok w =>
    rw [step_lw hi hpc hword] at hstep
    exact ⟨w, rfl, (Outcome.done.inj hstep).symm⟩
  | error f =>
    have hfault : s.memory.word
        (({ s with steps := s.steps + 1 } : State).effective (.lw r o base)) = .error f := hword
    rw [step_of_performs hi hpc] at hstep
    simp only [execute, Instr.lw] at hfault hstep
    rw [hfault] at hstep
    cases hstep

end Instructions

end Machine

end MiniJava
