import MiniJava.Proofs.Compile.Accepted
import MiniJava.Proofs.Execution.Strings
import MiniJava.Proofs.Machine.Allocation

/-!
# Making arrays

The routine that allocates an array asks for one word more than the array is long.  It adds with a
trap and shifts without one, so that it asks for the size modulo `2 ^ 32`: lengths from `2 ^ 30 - 1`
on are not treated as lengths that are too large for the heap.

* **`Sized`** — the heap is about to be asked for the array.
* **`Zeroing`**, **`Zeroing.round`**, **`Zeroing.run`** — the loop that fills the array.
* **`Stranded`**, **`Stranded.fails`** — the loop in a block that is too small.
* **`array_allocation`** — what the routine does with every length;
  `negative_length_message` says what is printed as long as the messages are as they were loaded.
-/

namespace MiniJava

open Machine Instr Reg Simulation

/-! ### Faults -/

theorem access_ne_heapExhausted (f : AccessFault) : (Fault.access f).kind ≠ .heapExhausted := by
  cases f with
  | badAddress a =>
    intro h
    cases h
  | unaligned a =>
    intro h
    cases h

/-- A fault is reported, and the program ends. -/
theorem fault_reported {p : Image} (cfg : Config) {k : Nat} {label message text : Bytes}
    {a : UInt32} {s : State} (hlaid : Laid p k (Support.faultRoutine label message))
    (ha : p.address? message = some a) (htext : s.memory.string a = .ok text)
    (hwriter : s.console.accepts text.length) (hpc : s.pc = k) (hrunning : s.exited = false) :
    ∃ s', Steps p cfg 5 s s' ∧ s'.exited = true ∧ s'.console = s.console.print text := by
  obtain ⟨-, h₀, h₁, h₂, h₃, h₄, -⟩ := hlaid
  obtain ⟨s₃, hsteps, hpc₃, hrunning₃, -, hconsole₃⟩ :=
    steps_printString h₀ h₁ h₂ ha htext hwriter hpc hrunning
  have hexit : step p cfg (s₃.put v0 (UInt32.ofInt 10)) = _ := step_exit_of h₄
    (congrArg (· + 1) hpc₃) (State.reg_put_self _ _ _ (by decide))
  refine ⟨{ s₃.put v0 (UInt32.ofInt 10) with
    steps := (s₃.put v0 (UInt32.ofInt 10)).steps + 1, exited := true }, ?_, rfl, ?_⟩
  · exact hsteps.trans (.head hrunning₃ (step_li h₃ hpc₃) (.head (by simpa) hexit (.refl _)))
  · simp only [State.console_put, hconsole₃]

/-! ### The routine -/

/-- The heap is about to be asked for an array of length `n`, by the routine that starts with
instruction `k` and was entered in `s₀`. -/
structure Sized (s₀ : State) (k n : Nat) (s : State) : Prop where
  next : s.pc = (k + 5 : Nat)
  running : s.exited = false
  length : s.reg a2 = UInt32.ofInt n
  size : s.reg a0 = UInt32.ofInt (4 * (n + 1))
  call : s.reg v0 = 9
  memory : s.memory = s₀.memory
  others : ∀ r, r ≠ a0 → r ≠ a2 → r ≠ v0 → s.reg r = s₀.reg r

/-- A block of `q` words was allocated for an array of length `n`. -/
structure Granted (s₀ : State) (k n q : Nat) (s : State) : Prop where
  next : s.pc = (k + 6 : Nat)
  running : s.exited = false
  length : s.reg a2 = UInt32.ofInt n
  array : s.reg v0 = s₀.memory.heapEnd
  block : s₀.memory.Extends q [] s.memory
  others : ∀ r, r ≠ a0 → r ≠ a2 → r ≠ v0 → s.reg r = s₀.reg r

/-- At the top of the loop: the first `i` elements of the array are zero. -/
structure Zeroing (s₀ : State) (k n i : Nat) (s : State) : Prop where
  next : s.pc = (k + 9 : Nat)
  running : s.exited = false
  zero : s.reg Reg.zero = 0
  length : s.reg a2 = UInt32.ofInt n
  array : s.reg v0 = s₀.memory.heapEnd
  cursor : s.reg t1 = s₀.memory.blockAddress i
  count : s.reg t0 = UInt32.ofInt (i + 1)
  block : s₀.memory.Extends (n + 1) (UInt32.ofInt n :: List.replicate i 0) s.memory
  back : s.reg ra = s₀.reg ra
  stack : s.reg sp = s₀.reg sp
  frame : s.reg fp = s₀.reg fp

/-- At the top of the loop, in a block that is too small: the addresses end before the `i`-th of the
`n` elements. -/
structure Stranded (k n i : Nat) (s : State) : Prop where
  next : s.pc = (k + 9 : Nat)
  running : s.exited = false
  length : s.reg a2 = UInt32.ofInt n
  count : s.reg t0 = UInt32.ofInt i
  low : (s.reg t1).toNat < 0x80000000
  far : 0x80000000 + 4 * i ≤ (s.reg t1).toNat + 4 * (n + 1)

/-- What the machine is asked for: the size modulo `2 ^ 32`, as a signed number. -/
theorem Sized.asked {s₀ s : State} {k n q : Nat} (h : Sized s₀ k n s)
    (hq : 4 * q = 4 * (n + 1) % 0x100000000) (hlow : 4 * q < 0x80000000) :
    signed (s.reg a0) = 4 * q := by
  have hcongr : s.reg a0 = UInt32.ofInt (4 * q : Nat) := by
    rw [h.size]
    apply ofInt_congr
    omega
  rw [hcongr, signed_ofInt (by omega) (by omega)]
  rfl

section Routine

variable {p : Image} (cfg : Config) {k n : Nat} {s₀ s : State}
  (hlaid : Laid p k Support.allocArrayRoutine)

include hlaid

/-- The size of the array is computed. -/
theorem array_sized (hpc : s₀.pc = k) (hrunning : s₀.exited = false) (hn : signed (s₀.reg a0) = n)
    (hmax : n < 0x7fffffff) : ∃ s, Steps p cfg 5 s₀ s ∧ Sized s₀ k n s := by
  obtain ⟨-, h₀, h₁, h₂, h₃, h₄, -⟩ := hlaid
  have hlength : s₀.reg a0 = UInt32.ofInt n := by rw [← hn, ofInt_signed]
  have honward : s₀.taken (branchZero .bltz a0 Support.outOfBounds) = some false := by
    show some (decide (signed (s₀.reg a0) < 0)) = _
    rw [hn]
    simp
  let s₂ := (s₀.jumped (s₀.pc + 1)).put a2 (s₀.reg a0)
  have hpc₂ : s₂.pc = (k + 1 + 1 : Nat) := by
    simp only [s₂, State.pc_put, State.pc_jumped, hpc]
    rfl
  have ha0 : s₂.reg a0 = UInt32.ofInt n := by
    simp (disch := decide) only [s₂, State.reg_put_ne, State.reg_jumped, hlength]
  have hsum : signed (s₂.reg a0) + signed (UInt32.ofInt 1) = (n + 1 : Int) := by
    rw [ha0, signed_ofInt (by omega) (by omega), signed_ofInt (by omega) (by omega)]
  have e₃ : step p cfg s₂ = _ := step_addi h₂ hpc₂ (by
    rw [hsum]
    simp only [fits, Bool.and_eq_true, decide_eq_true_eq]
    omega)
  rw [hsum] at e₃
  let s₃ := s₂.put a0 (UInt32.ofInt (n + 1))
  have e₄ : step p cfg s₃ = _ := step_sll h₃ (congrArg (· + 1) hpc₂)
  have hshift : s₃.reg a0 <<< (UInt32.ofInt 2 &&& 31) = UInt32.ofInt (4 * (n + 1)) := by
    rw [State.reg_put_self _ _ _ (by decide)]
    exact shiftLeft_two _
  rw [hshift] at e₄
  refine ⟨(s₃.put a0 (UInt32.ofInt (4 * (n + 1)))).put v0 (UInt32.ofInt 9), ?_, ?_⟩
  · refine .head hrunning (step_onward h₀ hpc honward) ?_
    refine .head (by simpa) (step_move h₁ (congrArg (· + 1) hpc)) ?_
    refine .head (by simpa [s₂]) e₃ (.head (by simpa [s₂]) e₄ ?_)
    exact .head (by simpa [s₃, s₂]) (step_li h₄ (congrArg (· + 1 + 1) hpc₂)) (.refl _)
  · refine ⟨?_, by simpa [s₃, s₂] using hrunning, ?_, ?_, ?_, ?_, ?_⟩
    · simp only [State.pc_put, s₃, hpc₂]
      rfl
    · simp (disch := decide) only [s₃, s₂, State.reg_put_ne, State.reg_put_self, hlength]
    · simp (disch := decide) only [State.reg_put_ne, State.reg_put_self]
    · simp (disch := decide) only [State.reg_put_self]
      rfl
    · simp only [s₃, s₂, State.memory_put, State.memory_jumped]
    · intro r ha ha' hv
      rw [State.reg_put_ne _ _ _ _ hv, State.reg_put_ne _ _ _ _ ha, State.reg_put_ne _ _ _ _ ha,
        State.reg_put_ne _ _ _ _ ha', State.reg_jumped]

/-- One more than the largest number is no number. -/
theorem array_overflow (hlimit : cfg.maxSteps ≤ 0) (hpc : s₀.pc = k)
    (hrunning : s₀.exited = false) (hn : signed (s₀.reg a0) = 0x7fffffff) :
    Fails p cfg s₀ .overflow := by
  obtain ⟨-, h₀, h₁, h₂, -⟩ := hlaid
  have honward : s₀.taken (branchZero .bltz a0 Support.outOfBounds) = some false := by
    show some (decide (signed (s₀.reg a0) < 0)) = _
    rw [hn]
    decide
  let s₂ := (s₀.jumped (s₀.pc + 1)).put a2 (s₀.reg a0)
  have hpc₂ : s₂.pc = (k + 1 + 1 : Nat) := by
    simp only [s₂, State.pc_put, State.pc_jumped, hpc]
    rfl
  have hsum : signed (s₂.reg a0) = 0x7fffffff := by
    simpa (disch := decide) only [s₂, State.reg_put_ne, State.reg_jumped] using hn
  have hsteps : Steps p cfg 2 s₀ s₂ :=
    .head hrunning (step_onward h₀ hpc honward) (.head (by simpa)
      (step_move h₁ (congrArg (· + 1) hpc)) (.refl _))
  refine hsteps.fails hlimit (fails_of_fault hlimit (by simpa [s₂])
    (step_addi_overflow h₂ hpc₂ ?_))
  rw [hsum]
  decide

/-- The heap has no room for the array. -/
theorem Sized.refused (h : Sized s₀ k n s) (hlimit : cfg.maxSteps ≤ 0)
    (hfull : cfg.heapBytes < s₀.memory.heap.size + 4 * (n + 1) % 0x100000000) :
    Fails p cfg s .heapExhausted := by
  obtain ⟨-, -, -, -, -, -, h₅, -⟩ := hlaid
  by_cases hlow : 4 * (n + 1) % 0x100000000 < 0x80000000
  · obtain ⟨q, hq⟩ : ∃ q, 4 * q = 4 * (n + 1) % 0x100000000 :=
      ⟨4 * (n + 1) % 0x100000000 / 4, by omega⟩
    have hasked := h.asked hq (by omega)
    exact fails_of_fault hlimit h.running
      (step_exhausted h₅ h.next h.call hasked (by rw [h.memory]; omega))
  · have hnegative : signed (s.reg a0) = 4 * (n + 1) % 0x100000000 - 0x100000000 := by
      have hcongr : s.reg a0 = UInt32.ofInt (4 * (n + 1) % 0x100000000 - 0x100000000) := by
        rw [h.size]
        apply ofInt_congr
        omega
      rw [hcongr, signed_ofInt (by omega) (by omega)]
    exact fails_of_fault hlimit h.running
      (step_negativeGrowth h₅ h.next h.call (by rw [hnegative]; omega))

/-- The heap has room for what it is asked for. -/
theorem Sized.granted (h : Sized s₀ k n s) {q : Nat} (hq : 4 * q = 4 * (n + 1) % 0x100000000)
    (hlow : 4 * q < 0x80000000)
    (hroom : (s₀.memory.heap.size + 4 * q : Int) ≤ cfg.heapBytes) :
    ∃ s', Steps p cfg 1 s s' ∧ Granted s₀ k n q s' := by
  obtain ⟨-, -, -, -, -, -, h₅, -⟩ := hlaid
  have hasked := h.asked hq hlow
  refine ⟨s.grown cfg (4 * q), .head h.running ?_ (.refl _), ?_⟩
  · exact step_grow h₅ h.next h.call hasked (by rw [h.memory]; omega)
  · refine ⟨?_, by simpa using h.running, ?_, ?_, ?_, ?_⟩
    · simp only [State.pc_grown, h.next]
      rfl
    · exact (State.reg_grown_ne _ (by decide)).trans h.length
    · rw [State.reg_grown_v0, h.memory]
    · rw [State.memory_grown, h.memory]
      exact Memory.extends_grow _ _ _
    · intro r ha ha' hv
      exact (State.reg_grown_ne _ hv).trans (h.others r ha ha' hv)

/-! ### Blocks that are large enough -/

/-- The length is written, and the loop is entered. -/
theorem Granted.zeroing (h : Granted s₀ k n (n + 1) s) (hzero : s₀.reg Reg.zero = 0)
    (hwhole : s₀.memory.heap.size % 4 = 0)
    (hsmall : s₀.memory.heap.size + 4 * (n + 1) ≤ 0x6fff0000) :
    ∃ s', Steps p cfg 3 s s' ∧ Zeroing s₀ k n 0 s' := by
  obtain ⟨-, -, -, -, -, -, -, h₆, h₇, h₈, -⟩ := hlaid
  obtain ⟨m, e₆, hblock⟩ := step_push cfg h.block hwhole hsmall (by simp) h₆ h.next (by
    rw [h.array, List.length_nil, Memory.blockAddress_zero]
    exact UInt32.add_zero _)
  have hpc₇ : (s.write m).pc = (k + 7 : Nat) := congrArg (· + 1) h.next
  let s' := ((s.write m).put t0 (UInt32.ofInt 1)).put t1 (s.reg v0)
  have hother (r : Reg) (h₀ : r ≠ t0) (h₁ : r ≠ t1) : s'.reg r = s.reg r := by
    rw [State.reg_put_ne _ _ _ _ h₁, State.reg_put_ne _ _ _ _ h₀, State.reg_write]
  have hkept (r : Reg) (h₀ : r ≠ t0) (h₁ : r ≠ t1) (ha : r ≠ a0) (ha' : r ≠ a2) (hv : r ≠ v0) :
      s'.reg r = s₀.reg r := (hother r h₀ h₁).trans (h.others r ha ha' hv)
  refine ⟨s', ?_, ?_⟩
  · refine .head h.running e₆ (.head h.running (step_li h₇ hpc₇) ?_)
    have e₈ : step p cfg ((s.write m).put t0 (UInt32.ofInt 1)) = _ := step_move h₈
      (congrArg (· + 1) hpc₇)
    rw [State.reg_put_ne _ _ _ _ (by decide), State.reg_write] at e₈
    exact .head (by simpa using h.running) e₈ (.refl _)
  · refine ⟨?_, by simpa [s'] using h.running, ?_, ?_, ?_, ?_, ?_, ?_, ?_, ?_, ?_⟩
    · simp only [s', State.pc_put, State.pc_write, h.next]
      rfl
    · exact (hkept _ (by decide) (by decide) (by decide) (by decide) (by decide)).trans hzero
    · exact (hother _ (by decide) (by decide)).trans h.length
    · exact (hother _ (by decide) (by decide)).trans h.array
    · rw [State.reg_put_self _ _ _ (by decide), h.array, Memory.blockAddress_zero]
    · simp (disch := decide) only [s', State.reg_put_ne, State.reg_put_self]
      rfl
    · simpa [s', h.length] using hblock
    · exact hkept _ (by decide) (by decide) (by decide) (by decide) (by decide)
    · exact hkept _ (by decide) (by decide) (by decide) (by decide) (by decide)
    · exact hkept _ (by decide) (by decide) (by decide) (by decide) (by decide)

/-- One round of the loop fills one element. -/
theorem Zeroing.round {i : Nat} (h : Zeroing s₀ k n i s) (hi : i < n)
    (hwhole : s₀.memory.heap.size % 4 = 0)
    (hsmall : s₀.memory.heap.size + 4 * (n + 1) ≤ 0x6fff0000) :
    ∃ s', Steps p cfg 5 s s' ∧ Zeroing s₀ k n (i + 1) s' := by
  obtain ⟨-, -, -, -, -, -, -, -, -, -, htop, h₉, h₁₀, h₁₁, h₁₂, h₁₃, -⟩ := hlaid
  have hwithin : s.taken (branch .bgt t0 a2 "_alloc_int_array_end") = some false := by
    show some (decide (signed (s.reg a2) < signed (s.reg t0))) = _
    rw [h.count, h.length, signed_ofInt (by omega) (by omega), signed_ofInt (by omega) (by omega)]
    simp only [Option.some.injEq, decide_eq_false_iff_not]
    omega
  have hbase : dataBase.toNat = 0x10010000 := rfl
  have hcursor : signed (s.reg t1) + signed (UInt32.ofInt 4) =
      (dataBase.toNat + (s₀.memory.heap.size + 4 * (i + 1)) : Nat) := by
    have haddress := Memory.toNat_blockAddress (m := s₀.memory) (j := i) (by omega)
    rw [h.cursor, signed_of_toNat haddress (by omega), signed_ofInt (by omega) (by omega)]
    omega
  have hnext : UInt32.ofInt (dataBase.toNat + (s₀.memory.heap.size + 4 * (i + 1)) : Nat) =
      s₀.memory.blockAddress (i + 1) := by
    rw [← ofNat_eq_ofInt, ← Memory.toNat_blockAddress (by omega), UInt32.ofNat_toNat]
  let s₁ := s.jumped (s.pc + 1)
  have hpc₁ : s₁.pc = (k + 10 : Nat) := congrArg (· + 1) h.next
  have e₂ : step p cfg s₁ = _ := step_addi h₁₀ hpc₁ (by
    show fits (signed (s.reg t1) + signed (UInt32.ofInt 4))
    rw [hcursor]
    simp only [fits, Bool.and_eq_true, decide_eq_true_eq]
    omega)
  have hsum : signed (s₁.reg t1) + signed (UInt32.ofInt 4) = _ := hcursor
  rw [hsum, hnext] at e₂
  let s₂ := s₁.put t1 (s₀.memory.blockAddress (i + 1))
  have hpc₂ : s₂.pc = (k + 11 : Nat) := congrArg (· + 1) hpc₁
  have hblock₂ : s₀.memory.Extends (n + 1) (UInt32.ofInt n :: List.replicate i 0) s₂.memory := by
    simpa [s₂, s₁] using h.block
  have hwords : (UInt32.ofInt n :: List.replicate i 0).length = i + 1 := by
    rw [List.length_cons, List.length_replicate]
  obtain ⟨m, e₃, hblock⟩ := step_push cfg hblock₂ hwhole hsmall (by omega) h₁₁ hpc₂ (by
    rw [hwords, State.reg_put_self _ _ _ (by decide)]
    exact UInt32.add_zero _)
  let s₃ := s₂.write m
  have hpc₃ : s₃.pc = (k + 12 : Nat) := congrArg (· + 1) hpc₂
  have hsame (r : Reg) (hr : r ≠ t1) : s₃.reg r = s.reg r := State.reg_put_ne _ _ _ _ hr
  have hcount : signed (s₃.reg t0) + signed (UInt32.ofInt 1) = (i + 1 + 1 : Int) := by
    rw [hsame _ (by decide), h.count, signed_ofInt (by omega) (by omega),
      signed_ofInt (by omega) (by omega)]
  have e₄ : step p cfg s₃ = _ := step_addi h₁₂ hpc₃ (by
    rw [hcount]
    simp only [fits, Bool.and_eq_true, decide_eq_true_eq]
    omega)
  rw [hcount] at e₄
  let s₄ := s₃.put t0 (UInt32.ofInt (i + 1 + 1))
  have hrunning : s₄.exited = false := by simpa [s₄, s₃, s₂, s₁] using h.running
  refine ⟨s₄.jumped (k + 9 : Nat), ?_, ?_⟩
  · refine .head h.running (step_onward h₉ h.next hwithin) (.head h.running e₂ ?_)
    refine .head (by simpa [s₂, s₁] using h.running) e₃ ?_
    refine .head (by simpa [s₂, s₁] using h.running) e₄ ?_
    exact .head hrunning (step_taken h₁₃ (congrArg (· + 1) hpc₃) rfl htop) (.refl _)
  · refine ⟨rfl, hrunning, ?_, ?_, ?_, ?_, ?_, ?_, ?_, ?_, ?_⟩
    · simpa (disch := decide) only [State.reg_jumped, s₄, State.reg_put_ne, hsame] using h.zero
    · simpa (disch := decide) only [State.reg_jumped, s₄, State.reg_put_ne, hsame] using h.length
    · simpa (disch := decide) only [State.reg_jumped, s₄, State.reg_put_ne, hsame] using h.array
    · simp (disch := decide) only [State.reg_jumped, s₄, s₃, s₂, State.reg_write, State.reg_put_ne,
        State.reg_put_self]
    · simp (disch := decide) only [State.reg_jumped, s₄, State.reg_put_self]
      rfl
    · have hzero : s₂.reg Reg.zero = 0 := (State.reg_put_ne _ _ _ _ (by decide)).trans h.zero
      rw [hzero, List.cons_append, ← List.replicate_succ'] at hblock
      simpa [s₄, s₃] using hblock
    · simpa (disch := decide) only [State.reg_jumped, s₄, State.reg_put_ne, hsame] using h.back
    · simpa (disch := decide) only [State.reg_jumped, s₄, State.reg_put_ne, hsame] using h.stack
    · simpa (disch := decide) only [State.reg_jumped, s₄, State.reg_put_ne, hsame] using h.frame

/-- The loop fills the elements that are left. -/
theorem Zeroing.run {d i : Nat} (h : Zeroing s₀ k n i s) (hd : i + d = n)
    (hwhole : s₀.memory.heap.size % 4 = 0)
    (hsmall : s₀.memory.heap.size + 4 * (n + 1) ≤ 0x6fff0000) :
    ∃ m s', Steps p cfg m s s' ∧ Zeroing s₀ k n n s' := by
  induction d generalizing i s with
  | zero =>
    obtain rfl : i = n := hd
    exact ⟨0, s, .refl s, h⟩
  | succ d ih =>
    obtain ⟨s₁, hround, h₁⟩ := h.round cfg hlaid (by omega) hwhole hsmall
    obtain ⟨m, s₂, hrest, h₂⟩ := ih h₁ (by omega)
    exact ⟨m + 5, s₂, hround.trans hrest, h₂⟩

/-- The routine returns when no element is left. -/
theorem Zeroing.leave (h : Zeroing s₀ k n n s) (hn : n < 0x7fffffff)
    (hback : ValidReturn (s₀.reg ra)) :
    Steps p cfg 2 s ((s.jumped (k + 14 : Nat)).jumped (instrAt (s₀.reg ra))) := by
  obtain ⟨-, -, -, -, -, -, -, -, -, -, -, h₉, -, -, -, -, hend, h₁₄, -⟩ := hlaid
  have hbeyond : s.taken (branch .bgt t0 a2 "_alloc_int_array_end") = some true := by
    show some (decide (signed (s.reg a2) < signed (s.reg t0))) = _
    rw [h.count, h.length, signed_ofInt (by omega) (by omega), signed_ofInt (by omega) (by omega)]
    simp only [Option.some.injEq, decide_eq_true_eq]
    omega
  have hreturn : step p cfg (s.jumped (k + 14 : Nat)) = _ := step_jr h₁₄ rfl (by
    rw [State.reg_jumped, h.back]
    exact hback)
  rw [State.reg_jumped, h.back] at hreturn
  exact .head h.running (step_taken h₉ h.next hbeyond hend) (.head h.running hreturn (.refl _))

/-! ### Blocks that are too small -/

/-- A store at the cursor of the loop fails, or the loop goes on. -/
theorem Stranded.round {i : Nat} (h : Stranded k n i s) (hlimit : cfg.maxSteps ≤ 0)
    (hn : n < 0x7fffffff) : (∃ kind, kind ≠ .heapExhausted ∧ Fails p cfg s kind) ∨
      ∃ s', Steps p cfg 5 s s' ∧ Stranded k n (i + 1) s' ∧
        (s'.reg t1).toNat = (s.reg t1).toNat + 4 := by
  obtain ⟨-, -, -, -, -, -, -, -, -, -, htop, h₉, h₁₀, h₁₁, h₁₂, h₁₃, -⟩ := hlaid
  have hlow := h.low
  have hfar := h.far
  have hwithin : s.taken (branch .bgt t0 a2 "_alloc_int_array_end") = some false := by
    show some (decide (signed (s.reg a2) < signed (s.reg t0))) = _
    rw [h.count, h.length, signed_ofInt (by omega) (by omega), signed_ofInt (by omega) (by omega)]
    simp only [Option.some.injEq, decide_eq_false_iff_not]
    omega
  let s₁ := s.jumped (s.pc + 1)
  have hpc₁ : s₁.pc = (k + 10 : Nat) := congrArg (· + 1) h.next
  have e₁ : Steps p cfg 1 s s₁ := .head h.running (step_onward h₉ h.next hwithin) (.refl _)
  have hsum : signed (s₁.reg t1) + signed (UInt32.ofInt 4) = ((s.reg t1).toNat + 4 : Nat) := by
    rw [State.reg_jumped, signed_of_toNat rfl hlow, signed_ofInt (by omega) (by omega)]
    rfl
  by_cases hfits : (s.reg t1).toNat + 4 < 0x80000000
  case neg =>
    have hrunning₁ : s₁.exited = false := h.running
    refine .inl ⟨.overflow, by decide, e₁.fails hlimit (fails_of_fault hlimit hrunning₁
      (step_addi_overflow h₁₀ hpc₁ ?_))⟩
    rw [hsum]
    simp only [fits, Bool.and_eq_true, decide_eq_true_eq]
    omega
  have e₂ : step p cfg s₁ = _ := step_addi h₁₀ hpc₁ (by
    rw [hsum]
    simp only [fits, Bool.and_eq_true, decide_eq_true_eq]
    omega)
  rw [hsum, ← ofNat_eq_ofInt] at e₂
  let s₂ := s₁.put t1 (UInt32.ofNat ((s.reg t1).toNat + 4))
  have hpc₂ : s₂.pc = (k + 11 : Nat) := congrArg (· + 1) hpc₁
  have hrunning₂ : s₂.exited = false := by simpa [s₂, s₁] using h.running
  have hsteps₂ : Steps p cfg 2 s s₂ := e₁.trans (.head h.running e₂ (.refl _))
  cases hplace : s₂.memory.wordPlace (s₂.reg t1 + UInt32.ofInt 0) with
  | error f =>
    exact .inl ⟨_, access_ne_heapExhausted f, hsteps₂.fails hlimit
      (fails_of_fault hlimit hrunning₂ (step_sw_fault h₁₁ hpc₂ hplace))⟩
  | ok place =>
    let s₃ := s₂.write (s₂.memory.setWord place (s₂.reg Reg.zero))
    have hpc₃ : s₃.pc = (k + 12 : Nat) := congrArg (· + 1) hpc₂
    have hsame (r : Reg) (hr : r ≠ t1) : s₃.reg r = s.reg r := State.reg_put_ne _ _ _ _ hr
    have hcount : signed (s₃.reg t0) + signed (UInt32.ofInt 1) = (i + 1 : Int) := by
      rw [hsame _ (by decide), h.count, signed_ofInt (by omega) (by omega),
        signed_ofInt (by omega) (by omega)]
    have e₄ : step p cfg s₃ = _ := step_addi h₁₂ hpc₃ (by
      rw [hcount]
      simp only [fits, Bool.and_eq_true, decide_eq_true_eq]
      omega)
    rw [hcount] at e₄
    let s₄ := s₃.put t0 (UInt32.ofInt (i + 1))
    have hrunning₄ : s₄.exited = false := by simpa [s₄, s₃] using hrunning₂
    have hcursor : (s₄.reg t1).toNat = (s.reg t1).toNat + 4 := by
      simp (disch := decide) only [s₄, s₃, s₂, State.reg_write, State.reg_put_ne,
        State.reg_put_self]
      exact UInt32.toNat_ofNat_of_lt' (by show _ < 4294967296; omega)
    refine .inr ⟨s₄.jumped (k + 9 : Nat), ?_, ⟨rfl, hrunning₄, ?_, ?_, ?_, ?_⟩, hcursor⟩
    · refine hsteps₂.trans (.head hrunning₂ (step_sw h₁₁ hpc₂ hplace) ?_)
      refine .head hrunning₂ e₄ ?_
      exact .head hrunning₄ (step_taken h₁₃ (congrArg (· + 1) hpc₃) rfl htop) (.refl _)
    · simpa (disch := decide) only [State.reg_jumped, s₄, State.reg_put_ne, hsame] using h.length
    · simp (disch := decide) only [State.reg_jumped, s₄, State.reg_put_self]
      rfl
    · rw [State.reg_jumped, hcursor]
      exact hfits
    · rw [State.reg_jumped, hcursor]
      omega

/-- The loop runs out of addresses at the latest. -/
theorem Stranded.fails {d i : Nat} (h : Stranded k n i s) (hlimit : cfg.maxSteps ≤ 0)
    (hn : n < 0x7fffffff) (hd : 0x80000000 ≤ (s.reg t1).toNat + 4 * d) :
    ∃ kind, kind ≠ .heapExhausted ∧ Fails p cfg s kind := by
  induction d generalizing i s with
  | zero =>
    have hlow := h.low
    omega
  | succ d ih =>
    rcases h.round cfg hlaid hlimit hn with hfails | ⟨s', hround, h', hcursor⟩
    · exact hfails
    · obtain ⟨kind, hkind, hrest⟩ := ih h' (by omega)
      exact ⟨kind, hkind, hround.fails hlimit hrest⟩

/-- In a block that is too small the routine fails, and not for lack of room in the heap. -/
theorem Granted.fails {q : Nat} (h : Granted s₀ k n q s) (hlimit : cfg.maxSteps ≤ 0)
    (hn : n < 0x7fffffff) (hlarge : 0x3fffffff ≤ n)
    (hsmall : s₀.memory.heap.size + 4 * q ≤ 0x6fff0000) :
    ∃ kind, kind ≠ .heapExhausted ∧ Fails p cfg s kind := by
  obtain ⟨-, -, -, -, -, -, -, h₆, h₇, h₈, -⟩ := id hlaid
  cases hplace : s.memory.wordPlace (s.reg v0 + UInt32.ofInt 0) with
  | error f =>
    exact ⟨_, access_ne_heapExhausted f, fails_of_fault hlimit h.running
      (step_sw_fault h₆ h.next hplace)⟩
  | ok place =>
    let s₁ := s.write (s.memory.setWord place (s.reg a2))
    have hpc₁ : s₁.pc = (k + 7 : Nat) := congrArg (· + 1) h.next
    let s₃ := (s₁.put t0 (UInt32.ofInt 1)).put t1 (s.reg v0)
    have hsteps : Steps p cfg 3 s s₃ := by
      refine .head h.running (step_sw h₆ h.next hplace) (.head h.running (step_li h₇ hpc₁) ?_)
      have e₃ : step p cfg (s₁.put t0 (UInt32.ofInt 1)) = _ := step_move h₈
        (congrArg (· + 1) hpc₁)
      rw [State.reg_put_ne _ _ _ _ (by decide)] at e₃
      exact .head (by simpa [s₁] using h.running) e₃ (.refl _)
    have hcursor : (s₃.reg t1).toNat = 0x10010000 + s₀.memory.heap.size := by
      have haddress := Memory.toNat_blockAddress (m := s₀.memory) (j := 0) (by omega)
      rw [State.reg_put_self _ _ _ (by decide), h.array, ← Memory.blockAddress_zero, haddress]
      rfl
    have hlow : 0x10010000 + s₀.memory.heap.size < 0x80000000 := by
      have haddress : (s.reg v0 + UInt32.ofInt 0).toNat = 0x10010000 + s₀.memory.heap.size := by
        rw [← hcursor, State.reg_put_self _ _ _ (by decide)]
        exact congrArg UInt32.toNat (UInt32.add_zero _)
      have hgrown := h.block.size
      have hbase : dataBase.toNat = 0x10010000 := rfl
      have hend : stackEnd = 0x80000000 := rfl
      rcases Memory.place?_cases (Memory.wordPlace_eq_ok hplace).2 with ⟨o, ho⟩ | ⟨o, ho⟩
      · omega
      · omega
    have hstranded : Stranded k n 1 s₃ := by
      refine ⟨?_, by simpa [s₃, s₁] using h.running, ?_, ?_, ?_, ?_⟩
      · simp only [s₃, State.pc_put, hpc₁]
        rfl
      · simpa (disch := decide) only [s₃, s₁, State.reg_put_ne, State.reg_write] using h.length
      · simp (disch := decide) only [s₃, State.reg_put_ne, State.reg_put_self]
        rfl
      · omega
      · omega
    obtain ⟨kind, hkind, hfails⟩ := hstranded.fails cfg (d := n) hlaid hlimit hn (by omega)
    exact ⟨kind, hkind, hsteps.fails hlimit hfails⟩

/-! ### The whole routine -/

/-- The heap has room for the array: the routine returns it. -/
theorem array_made (hkept : Kept p cfg s₀) (hpc : s₀.pc = k) (hrunning : s₀.exited = false)
    (hback : ValidReturn (s₀.reg ra)) (hn : signed (s₀.reg a0) = n)
    (hsmall : s₀.memory.heap.size + 4 * (n + 1) ≤ 0x6fff0000)
    (hroom : (s₀.memory.heap.size + 4 * (n + 1) : Int) ≤ cfg.heapBytes) :
    ∃ m s, Steps p cfg m s₀ s ∧ s.exited = false ∧ s.pc = instrAt (s₀.reg ra) ∧
      s.reg v0 = s₀.memory.heapEnd ∧
      s₀.memory.Extends (n + 1) (UInt32.ofInt n :: List.replicate n 0) s.memory ∧
      s.reg sp = s₀.reg sp ∧ s.reg fp = s₀.reg fp := by
  have hwhole := hkept.heapWhole
  obtain ⟨s₁, hsteps₁, hsized⟩ := array_sized cfg hlaid hpc hrunning hn (by omega)
  obtain ⟨s₂, hsteps₂, hgranted⟩ :=
    hsized.granted cfg (q := n + 1) hlaid (by omega) (by omega) (by omega)
  obtain ⟨s₃, hsteps₃, hzeroing⟩ := hgranted.zeroing cfg hlaid hkept.zero hwhole hsmall
  obtain ⟨m, s₄, hsteps₄, hfilled⟩ :=
    hzeroing.run cfg hlaid (Nat.zero_add n) hwhole hsmall
  have hsteps₅ := hfilled.leave cfg hlaid (by omega) hback
  exact ⟨_, _, (hsteps₁.trans (hsteps₂.trans hsteps₃)).trans (hsteps₄.trans hsteps₅),
    hfilled.running, rfl, hfilled.array, hfilled.block, hfilled.stack, hfilled.frame⟩

/-- The heap has no room for the array: the run fails. -/
theorem array_fails (hlimit : cfg.maxSteps ≤ 0) (hheap : cfg.heapBytes ≤ 0x6fff0000)
    (hpc : s₀.pc = k) (hrunning : s₀.exited = false) (hn : signed (s₀.reg a0) = n)
    (hfull : cfg.heapBytes < s₀.memory.heap.size + 4 * (n + 1)) :
    ∃ kind, Fails p cfg s₀ kind ∧ (kind = .heapExhausted ↔ n < 0x7fffffff ∧
      cfg.heapBytes < s₀.memory.heap.size + 4 * (n + 1) % 0x100000000) := by
  have hmax : (n : Int) ≤ 0x7fffffff := by
    rw [← hn]
    exact signed_le _
  by_cases hlast : n = 0x7fffffff
  · refine ⟨.overflow, array_overflow cfg hlaid hlimit hpc hrunning (hn.trans (by omega)), ?_⟩
    simp [hlast]
  obtain ⟨s₁, hsteps₁, hsized⟩ := array_sized cfg hlaid hpc hrunning hn (by omega)
  by_cases hwrapped : cfg.heapBytes < s₀.memory.heap.size + 4 * (n + 1) % 0x100000000
  · refine ⟨.heapExhausted, hsteps₁.fails hlimit (hsized.refused cfg hlaid hlimit hwrapped), ?_⟩
    exact iff_of_true rfl ⟨by omega, hwrapped⟩
  · obtain ⟨q, hq⟩ : ∃ q, 4 * q = 4 * (n + 1) % 0x100000000 :=
      ⟨4 * (n + 1) % 0x100000000 / 4, by omega⟩
    obtain ⟨s₂, hsteps₂, hgranted⟩ := hsized.granted cfg hlaid hq (by omega) (by omega)
    obtain ⟨kind, hkind, hfails⟩ :=
      hgranted.fails cfg hlaid hlimit (by omega) (by omega) (by omega)
    exact ⟨kind, (hsteps₁.trans hsteps₂).fails hlimit hfails,
      iff_of_false hkind fun hboth => hwrapped hboth.2⟩

end Routine

/-! ### Accepted programs -/

section Accepted

variable {source : Bytes} {p : Program} {t : ClassTable} {whole : Code} {image : Image}
  (h : Accepted source p t whole image)

include h

/-- Where the routine lies, and where the report of an index out of bounds does. -/
theorem Accepted.allocArray_laid {entry : Int}
    (hentry : image.textLabels.lookup Support.allocArray = some entry) :
    ∃ j k : Nat, entry = k ∧ Laid image k Support.allocArrayRoutine ∧
      Laid image j (Support.faultRoutine Support.outOfBounds Support.outOfBoundsText) := by
  obtain ⟨front, -, hroutines⟩ := h.routines_laid
  rw [Support.routines, laid_append, laid_append, laid_append] at hroutines
  obtain ⟨⟨-, hbounds⟩, hlaid⟩ := hroutines
  rw [hlaid.1] at hentry
  exact ⟨_, _, (Option.some.inj hentry).symm, hlaid, hbounds⟩

/-- The messages stand at the front of the data. -/
theorem Accepted.data_eq : image.data = Support.messages := by
  obtain ⟨c, -, -, rfl, -⟩ := h.image_spec
  rfl

variable {cfg : Config} (hlimit : cfg.maxSteps ≤ 0) {s : State} (hrunning : s.exited = false)
  (hwriter : ∀ size, s.console.accepts size) {entry : Int}
  (hentry : image.textLabels.lookup Support.allocArray = some entry) (hpc : s.pc = entry)
  (hnegative : signed (s.reg a0) < 0)

include hlimit hrunning hwriter hentry hpc hnegative

/-- For a negative length the text at the label of the message is printed, and the program ends. -/
theorem negative_reported {text : Bytes}
    (htext : s.memory.string (dataBase + UInt32.ofNat 2) = .ok text) :
    ∃ s', Ends image cfg s .exited s' ∧ s'.console = s.console.print text := by
  obtain ⟨j, k, rfl, hlaid, hbounds⟩ := h.allocArray_laid hentry
  have haddress := h.address? (l := Support.outOfBoundsText) (a := dataBase + UInt32.ofNat 2)
    (by decide +kernel)
  have htaken : s.taken (branchZero .bltz a0 Support.outOfBounds) = some true := by
    show some (decide (signed (s.reg a0) < 0)) = _
    simpa using hnegative
  have e₁ : step image cfg s = _ := step_taken hlaid.2.1 hpc htaken hbounds.1
  obtain ⟨s', hsteps, hexited, hconsole⟩ := fault_reported cfg (s := s.jumped _) hbounds
    haddress htext (hwriter _) rfl hrunning
  exact ⟨s', (Steps.head hrunning e₁ hsteps).ends hlimit (ends_of_exited hexited), hconsole⟩

/-- As long as the program has not written over the messages, which it can because a number is
accepted where an array is meant, a negative length is reported by the message about bounds. -/
theorem negative_length_message (hdata : s.memory.Begins image.data) :
    ∃ s', Ends image cfg s .exited s' ∧
      s'.console = s.console.print "Index out of bound exception\n" := by
  have hsplit : image.data = (utf8 "\n" ++ [0]) ++ (utf8 "Index out of bound exception\n" ++ [0]) ++
      (utf8 "Null pointer exception\n" ++ [0]) := by
    rw [h.data_eq, Support.messages]
    simp only [List.append_assoc]
  rw [hsplit] at hdata
  have htext := Memory.string_of_begins hdata (by decide +kernel) (by decide +kernel)
  exact negative_reported h hlimit hrunning hwriter hentry hpc hnegative htext

end Accepted

/-- The routine, entered in a state that a program reaches, with the length `n` in `$a0`.

* For a negative length the program prints the message about bounds, as it is in memory, and ends.
* If the heap has room for the length and the elements, the routine returns the old end of the heap
  in `$v0`; the heap has grown by just the array, which is its length and zeros; and all else that
  could be read, the stack pointer and the frame pointer are as they were.
* Else the run fails.  The heap is said to be exhausted only if it has no room for the size
  modulo `2 ^ 32`, and if the number of words is no overflow. -/
theorem array_allocation {source : Bytes} {p : Program} {t : ClassTable} {whole : Code}
    {image : Image} (h : Accepted source p t whole image) {cfg : Config}
    (hmemory : (cfg.stackBytes + cfg.heapBytes : Int) ≤ 0x6fff0000) (hlimit : cfg.maxSteps ≤ 0)
    {limit : Option Nat} {k : Nat} {s : State}
    (hreached : Steps image cfg k (State.start image cfg limit) s) (hrunning : s.exited = false)
    (hwriter : ∀ size, s.console.accepts size) {entry : Int}
    (hentry : image.textLabels.lookup Support.allocArray = some entry) (hpc : s.pc = entry)
    (hback : ValidReturn (s.reg ra)) {n : Int} (hn : signed (s.reg a0) = n) :
    (n < 0 → ∃ a, image.address? Support.outOfBoundsText = some a ∧
      ∀ text, s.memory.string a = .ok text →
        ∃ s', Ends image cfg s .exited s' ∧ s'.console = s.console.print text) ∧
    (0 ≤ n → s.memory.heap.size + 4 * (n + 1) ≤ cfg.heapBytes →
      ∃ m s', Steps image cfg m s s' ∧ s'.exited = false ∧ s'.pc = instrAt (s.reg ra) ∧
        s'.reg v0 = s.memory.heapEnd ∧ s'.memory.heap.size = s.memory.heap.size + 4 * (n + 1) ∧
        s'.memory.word s.memory.heapEnd = .ok (s.reg a0) ∧
        (∀ j : Nat, 1 ≤ j → j ≤ n →
          s'.memory.word (s.memory.heapEnd + 4 * UInt32.ofNat j) = .ok 0) ∧
        (∀ a w, s.memory.word a = .ok w → s'.memory.word a = .ok w) ∧
        s'.reg sp = s.reg sp ∧ s'.reg fp = s.reg fp) ∧
    (0 ≤ n → cfg.heapBytes < s.memory.heap.size + 4 * (n + 1) →
      ∃ kind, Fails image cfg s kind ∧ (kind = .heapExhausted ↔
        n < 0x7fffffff ∧ cfg.heapBytes < s.memory.heap.size + 4 * (n + 1) % 0x100000000)) := by
  have hkept := hreached.kept (kept_start limit)
  have hstack := hkept.stackSize
  have hwhole := hkept.heapWhole
  obtain ⟨-, start, hstart, hlaid, -⟩ := h.allocArray_laid hentry
  replace hstart := hpc.trans hstart
  refine ⟨?_, ?_, ?_⟩
  · intro hnegative
    have haddress := h.address? (l := Support.outOfBoundsText) (a := dataBase + UInt32.ofNat 2)
      (by decide +kernel)
    exact ⟨_, haddress, fun _ htext =>
      negative_reported h hlimit hrunning hwriter hentry hpc (hn ▸ hnegative) htext⟩
  · intro hpositive hroom
    obtain ⟨n, rfl⟩ := Int.eq_ofNat_of_zero_le hpositive
    obtain ⟨m, s', hsteps, hrunning', hpc', harray, hblock, hsp, hfp⟩ :=
      array_made cfg hlaid hkept hstart hrunning hback hn (by omega) (by omega)
    have hwords (j : Nat) (w : UInt32) (hj : j < n + 1)
        (hw : (UInt32.ofInt n :: List.replicate n 0)[j]? = some w) :
        s'.memory.word (s.memory.blockAddress j) = .ok w :=
      hblock.word_new hwhole (by omega) hj hw
    refine ⟨m, s', hsteps, hrunning', hpc', harray, ?_, ?_, ?_, ?_, hsp, hfp⟩
    · rw [hblock.size]
      omega
    · have hlength := hwords 0 _ (by omega) rfl
      rwa [Memory.blockAddress_zero, ← hn, ofInt_signed] at hlength
    · intro j hj hjn
      obtain ⟨i, rfl⟩ : ∃ i, j = i + 1 := ⟨j - 1, by omega⟩
      rw [Memory.heapEnd_add]
      refine hwords _ _ (by omega) ?_
      rw [List.getElem?_cons_succ, List.getElem?_replicate]
      exact if_pos (by omega)
    · intro a w hw
      refine hblock.word_old ?_ hw
      have hbase : dataBase.toNat = 0x10010000 := rfl
      have hend : stackEnd = 0x80000000 := rfl
      omega
  · intro hpositive hfull
    obtain ⟨n, rfl⟩ := Int.eq_ofNat_of_zero_le hpositive
    obtain ⟨kind, hfails, hkind⟩ :=
      array_fails cfg hlaid hlimit (by omega) hstart hrunning hn (by omega)
    refine ⟨kind, hfails, hkind.trans ?_⟩
    omega

/-- A program that makes an array of two numbers. -/
def pairing : Bytes :=
  "class A\x7bpublic static void main(String[] a)\x7bSystem.out.println(new int[2].length);\x7d\x7d"

/-- A program that makes an array of `2 ^ 30` numbers. -/
def oversized : Bytes :=
  "class A\x7bpublic static void main(String[] a)\x7b" ++
    "System.out.println(new int[1073741824].length);\x7d\x7d"

/-- Little memory, filled with poison, and no limit on steps. -/
def Machine.Config.sparse : Config := ⟨0, 64, 68, true⟩

/-- The machine is about to allocate an array in a state that the program has reached. -/
def Allocating (image : Image) (s : State) (n : Int) : Prop :=
  image.textLabels.lookup Support.allocArray = some s.pc ∧ s.exited = false ∧
    ValidReturn (s.reg ra) ∧ s.console.limit = none ∧ signed (s.reg a0) = n

theorem array_allocation_pairing :
    ∃ p t whole image s m s', Accepted pairing p t whole image ∧
      Steps image .sparse 4 (.start image .sparse none) s ∧ Allocating image s 2 ∧
      Steps image .sparse m s s' ∧ s'.pc = instrAt (s.reg ra) ∧
      s'.reg v0 = s.memory.heapEnd ∧ s'.memory.heap.size = s.memory.heap.size + 12 ∧
      s'.memory.word s.memory.heapEnd = .ok (s.reg a0) ∧
      s'.memory.word (s.memory.heapEnd + 8) = .ok 0 := by
  have hcheck : ∃ r ∈ accept? pairing,
      ∃ s ∈ after r.2.2.2 .sparse 4 (.start r.2.2.2 .sparse none),
      Allocating r.2.2.2 s 2 ∧ s.memory.heap.size = 56 := by
    unfold Allocating ValidReturn
    decide +kernel
  obtain ⟨⟨p, t, whole, image⟩, haccept, s, hs, hentry, hheap⟩ := hcheck
  have haccepted := accepted_of_accept? haccept
  have hsteps := steps_of_after hs
  have hready := hentry
  obtain ⟨hlabel, hrunning, hback, hconsole, hn⟩ := hentry
  have hwriter : ∀ size, s.console.accepts size := by
    intro size
    simp only [Console.accepts, hconsole]
  obtain ⟨-, hmade, -⟩ := array_allocation haccepted (by decide) (by decide) hsteps hrunning
    hwriter hlabel rfl hback hn
  obtain ⟨m, s', hrun, -, hpc, harray, hsize, hlength, hzeros, -⟩ :=
    hmade (by decide) (by rw [hheap]; decide)
  exact ⟨p, t, whole, image, s, m, s', haccepted, hsteps, hready, hrun, hpc, harray,
    by omega, hlength, hzeros 2 (by decide) (by decide)⟩

theorem array_allocation_oversized :
    ∃ p t whole image s, Accepted oversized p t whole image ∧
      Steps image .sparse 4 (.start image .sparse none) s ∧ Allocating image s 0x40000000 ∧
      Config.sparse.heapBytes < s.memory.heap.size + 4 * (0x40000000 + 1) ∧
      Fails image .sparse s .badAddress ∧ ¬ Fails image .sparse s .heapExhausted := by
  have hcheck : ∃ r ∈ accept? oversized,
      ∃ s ∈ after r.2.2.2 .sparse 4 (.start r.2.2.2 .sparse none),
      ∃ s₁ ∈ after r.2.2.2 .sparse 11 s, Allocating r.2.2.2 s 0x40000000 ∧
      s.memory.heap.size = 56 ∧ s₁.exited = false ∧
      (step r.2.2.2 .sparse s₁).kind? = some .badAddress := by
    unfold Allocating ValidReturn
    decide +kernel
  obtain ⟨⟨p, t, whole, image⟩, haccept, s, hs, s₁, hs₁, hentry, hheap, hrunning, hfault⟩ := hcheck
  have hfails : Fails image .sparse s .badAddress :=
    (steps_of_after hs₁).fails (by decide) (fails_of_kind? (by decide) hrunning hfault)
  refine ⟨p, t, whole, image, s, accepted_of_accept? haccept, steps_of_after hs, hentry, ?_, hfails,
    ?_⟩
  · rw [hheap]
    decide
  · intro hexhausted
    cases hfails.unique hexhausted

end MiniJava
