import MiniJava.Proofs.Machine.View

/-!
# Moves of the machine

What each instruction does to what is seen of a state.

* **`Moves`** — a step leads from one view to another.
* **`View.result`**, **`moves_result`** — instructions that compute a register from others.
* **`moves_lw_stack`**, **`moves_sw_stack`**, … — loads and stores.
* **`View.taken`**, **`moves_taken`**, **`moves_onward`** — branches.
* **`moves_jal`**, **`moves_jr`** — calls and returns.
* **`moves_printInt`**, **`moves_printString`**, **`at_sbrk`**, **`step_exit`** — system calls.
-/

namespace MiniJava.Machine

/-- The step from a state that is seen as `V` leads to one that is seen as `V'`. -/
def Moves (p : Image) (cfg : Config) (pc : Nat) (V : View) (pc' : Nat) (V' : View) : Prop :=
  ∀ s, At cfg s pc V → ∃ s', step p cfg s = .done s' ∧ At cfg s' pc' V'

variable {p : Image} {cfg : Config} {pc pc' : Nat} {V V' : View} {i : Instr}

theorem Moves.of_execute (hi : Fetches p pc i)
    (h : ∀ line s, At cfg s pc V →
      ∃ s', execute p cfg { i with line } s = .done s' ∧ At cfg s' pc' V') :
    Moves p cfg pc V pc' V' := by
  intro s hs
  obtain ⟨line, t, ht, hstep⟩ := hs.step hi
  rw [hstep]
  exact h line t ht

/-! ### Computing -/

/-- The last operand of an instruction: a number, or the register `r`. -/
def View.operand (V : View) (i : Instr) (r : Reg) : UInt32 :=
  if i.useImm then UInt32.ofInt i.imm else V.reg r

/-- What an instruction that only computes puts into its first register. -/
def View.result (V : View) (i : Instr) : Option UInt32 :=
  match i.op with
  | .li => some (UInt32.ofInt i.imm)
  | .move => some (V.reg i.rs)
  | .addu | .addiu => some (V.reg i.rs + V.operand i i.rt)
  | .subu => some (V.reg i.rs - V.operand i i.rt)
  | .and => some (V.reg i.rs &&& V.operand i i.rt)
  | .nor => some (~~~(V.reg i.rs ||| V.operand i i.rt))
  | .slt => some (if signed (V.reg i.rs) < signed (V.operand i i.rt) then 1 else 0)
  | .sll => some (V.reg i.rs <<< (UInt32.ofInt i.imm &&& 31))
  | .mflo => some V.lo
  | _ => none

theorem At.operand {s : State} (h : At cfg s pc V) (i : Instr) (r : Reg) :
    s.operand i r = V.operand i r := by
  unfold State.operand View.operand
  rw [h.regs r]

theorem execute_result {line : Int} {s : State} (h : At cfg s pc V) {u : UInt32}
    (hu : V.result i = some u) :
    execute p cfg { i with line } s = (s.setReg i.rd u).next := by
  unfold View.result at hu
  unfold execute
  split at hu
  case h_11 => cases hu
  all_goals
    rename_i hop
    rw [← Option.some.inj hu]
    simp only [hop, h.regs, h.low, h.operand]
  all_goals rfl

/-- An instruction computes. -/
theorem moves_result {u : UInt32} (hi : Fetches p pc i) (hrd : i.rd ≠ Reg.zero)
    (hu : V.result i = some u) : Moves p cfg pc V (pc + 1) (V.set i.rd u) := by
  refine Moves.of_execute hi ?_
  intro line s hs
  rw [execute_result hs hu]
  exact (hs.setReg hrd u).done

/-- An addition with a check that it does not overflow. -/
theorem moves_addi {rd rs : Reg} {imm : Int} (hi : Fetches p pc (.withImm .addi rd rs imm))
    (hrd : rd ≠ Reg.zero) (hfits : fits (signed (V.reg rs) + signed (UInt32.ofInt imm))) :
    Moves p cfg pc V (pc + 1)
      (V.set rd (UInt32.ofInt (signed (V.reg rs) + signed (UInt32.ofInt imm)))) := by
  refine Moves.of_execute hi ?_
  intro line s hs
  show ∃ s', s.setChecked _ (signed (s.reg rs) + signed (UInt32.ofInt imm)) = .done s' ∧ _
  rw [hs.regs, State.setChecked, if_pos hfits]
  exact (hs.setReg hrd _).done

theorem moves_mult {rd rs : Reg} (hi : Fetches p pc (.onRegs .mult rd rs)) :
    Moves p cfg pc V (pc + 1)
      { V with lo := UInt32.ofInt (signed (V.reg rd) * signed (V.reg rs)) } := by
  refine Moves.of_execute hi ?_
  intro line s hs
  refine ⟨_, rfl, ?_⟩
  refine ⟨?_, hs.running, hs.regs, hs.zero, ?_, hs.memory, hs.unlimited, hs.printed⟩
  · show s.pc + 1 = _
    rw [hs.next]
    rfl
  · show UInt32.ofInt (signed (s.reg rd) * signed (s.reg rs)) = _
    rw [hs.regs, hs.regs]

theorem moves_la {rd : Reg} {l : Bytes} {a : UInt32} (hi : Fetches p pc (.la rd l))
    (hrd : rd ≠ Reg.zero) (ha : p.address? l = some a) :
    Moves p cfg pc V (pc + 1) (V.set rd a) := by
  refine Moves.of_execute hi ?_
  intro line s hs
  have hexec : execute p cfg { Instr.la rd l with line } s = (s.setReg rd a).next := by
    simp only [execute, Instr.la, ha]
  rw [hexec]
  exact (hs.setReg hrd a).done

/-! ### Loads and stores -/

section Memory

variable {r base : Reg} {offset : Int}

theorem execute_lw {line : Int} {s : State} {address w : UInt32} (h : At cfg s pc V)
    (ha : V.reg base + UInt32.ofInt offset = address) (hw : s.memory.word address = .ok w) :
    execute p cfg { Instr.lw r offset base with line } s = (s.setReg r w).next := by
  simp only [execute, Instr.lw, State.effective, h.regs, ha, hw]

/-- A word of the stack is loaded. -/
theorem moves_lw_stack {j : Nat} (hi : Fetches p pc (.lw r offset base)) (hr : r ≠ Reg.zero)
    (ha : V.reg base + UInt32.ofInt offset = stackAddress j) (hj : 4 * (j + 1) ≤ cfg.stackBytes) :
    Moves p cfg pc V (pc + 1) (V.set r (V.stack j)) := by
  refine Moves.of_execute hi ?_
  intro line s hs
  rw [execute_lw hs ha (hs.memory.word_stack hj)]
  exact (hs.setReg hr _).done

/-- A word of the heap is loaded. -/
theorem moves_lw_heap {k : Nat} {w : UInt32} (hi : Fetches p pc (.lw r offset base))
    (hr : r ≠ Reg.zero) (ha : V.reg base + UInt32.ofInt offset = heapAddress k)
    (hw : V.heap[k]? = some w) : Moves p cfg pc V (pc + 1) (V.set r w) := by
  refine Moves.of_execute hi ?_
  intro line s hs
  rw [execute_lw hs ha (hs.memory.word_heap hw)]
  exact (hs.setReg hr _).done

theorem execute_sw {line : Int} {s : State} {address : UInt32} {place : Place}
    (h : At cfg s pc V) (ha : V.reg base + UInt32.ofInt offset = address)
    (hplace : s.memory.wordPlace address = .ok place) :
    execute p cfg { Instr.sw r offset base with line } s =
      State.next { s with memory := s.memory.setWord place (V.reg r) } := by
  simp only [execute, Instr.sw, State.effective, h.regs, ha, hplace]

/-- A word of the stack is stored. -/
theorem moves_sw_stack {j : Nat} (hi : Fetches p pc (.sw r offset base))
    (ha : V.reg base + UInt32.ofInt offset = stackAddress j) (hj : 4 * (j + 1) ≤ cfg.stackBytes) :
    Moves p cfg pc V (pc + 1) (V.setStack j (V.reg r)) := by
  refine Moves.of_execute hi ?_
  intro line s hs
  rw [execute_sw hs ha (hs.memory.wordPlace_stack hj)]
  exact (hs.withMemory (hs.memory.setWord_stack hj (V.reg r))).done

/-- A word of the heap is stored. -/
theorem moves_sw_heap {k : Nat} (hi : Fetches p pc (.sw r offset base))
    (ha : V.reg base + UInt32.ofInt offset = heapAddress k) (hk : k < V.heap.length) :
    Moves p cfg pc V (pc + 1) (V.setHeap k (V.reg r)) := by
  refine Moves.of_execute hi ?_
  intro line s hs
  rw [execute_sw hs ha (hs.memory.wordPlace_heap hk)]
  exact (hs.withMemory (hs.memory.setWord_heap hk (V.reg r))).done

/-- There is nothing at the null pointer. -/
theorem step_lw_null {s : State} (hs : At cfg s pc V) (hi : Fetches p pc (.lw r offset base))
    (ha : V.reg base + UInt32.ofInt offset = 0) :
    ∃ line s', step p cfg s = .fault (.access (.badAddress 0)) s' ∧ At cfg s' pc V ∧
      fetch? p s'.pc = some { Instr.lw r offset base with line } := by
  obtain ⟨line, hline⟩ := hi
  obtain ⟨line', t, ht, hstep⟩ := hs.step ⟨line, hline⟩
  refine ⟨line, t, ?_, ht, ?_⟩
  · have hstack := ht.memory.stackSize
    have hapart := ht.memory.apart
    have hplace : t.memory.place? 0 4 = none := by
      have hbase : dataBase.toNat = 0x10010000 := rfl
      have hend : stackEnd = 0x80000000 := rfl
      have hzero : (0 : UInt32).toNat = 0 := rfl
      rw [Memory.place?, if_neg (by omega), if_neg (by omega)]
    have hword : t.memory.word 0 = .error (.badAddress 0) := by
      rw [Memory.word, Memory.wordPlace, if_neg (by decide), hplace]
    rw [hstep]
    simp only [execute, Instr.lw, State.effective, ht.regs, ha, hword]
  · rw [fetch?, ht.next, if_neg (by omega), Int.toNat_natCast]
    exact hline

end Memory

/-! ### Branches, calls and returns -/

/-- Does a branch go to its label? -/
def View.taken (V : View) (i : Instr) : Option Bool :=
  match i.op with
  | .beq => some (V.reg i.rd == V.operand i i.rs)
  | .bgeu => some (V.operand i i.rs ≤ V.reg i.rd)
  | .bge => some (signed (V.operand i i.rs) ≤ signed (V.reg i.rd))
  | .bgt => some (signed (V.operand i i.rs) < signed (V.reg i.rd))
  | .bltz => some (signed (V.reg i.rd) < 0)
  | .j => some true
  | _ => none

theorem execute_taken {line : Int} {s : State} (h : At cfg s pc V) {taken : Bool}
    (ht : V.taken i = some taken) :
    execute p cfg { i with line } s = branchIf p s { i with line } taken := by
  unfold View.taken at ht
  unfold execute
  split at ht
  case h_7 => cases ht
  all_goals
    rename_i hop
    rw [← Option.some.inj ht]
    simp only [hop, h.regs, h.operand]
  all_goals rfl

/-- A branch goes to its label. -/
theorem moves_taken {target : Nat} (hi : Fetches p pc i) (ht : V.taken i = some true)
    (hlabel : p.textLabels.lookup i.label = some (target : Int)) :
    Moves p cfg pc V target V := by
  refine Moves.of_execute hi ?_
  intro line s hs
  rw [execute_taken hs ht, branchIf, if_pos rfl, jumpTo, hlabel]
  exact ⟨_, rfl, hs.goto target⟩

/-- A branch does not go to its label. -/
theorem moves_onward (hi : Fetches p pc i) (ht : V.taken i = some false) :
    Moves p cfg pc V (pc + 1) V := by
  refine Moves.of_execute hi ?_
  intro line s hs
  rw [execute_taken hs ht, branchIf, if_neg Bool.false_ne_true]
  exact hs.done

theorem moves_jal {target : Nat} {l : Bytes} (hi : Fetches p pc (.jump .jal l))
    (hlabel : p.textLabels.lookup l = some (target : Int)) :
    Moves p cfg pc V target (V.set Reg.ra (Image.codeAddress (pc + 1 : Nat))) := by
  refine Moves.of_execute hi ?_
  intro line s hs
  have hexec : execute p cfg { Instr.jump .jal l with line } s =
      (s.setReg Reg.ra (Image.codeAddress (s.pc + 1))).goto target := by
    simp only [execute, Instr.jump, hlabel]
  rw [hexec, hs.next]
  exact ⟨_, rfl, (hs.setReg (by decide) _).goto target⟩

/-! ### Return addresses -/

/-- The word is the address of an instruction. -/
def ValidReturn (a : UInt32) : Prop := textBase ≤ a ∧ a % 4 = 0

/-- The number of the instruction at an address. -/
def instrAt (a : UInt32) : Int := ((a - textBase) / 4).toNat

theorem toNat_codeAddress {n : Nat} (hn : n < 0x3ff00000) :
    (Image.codeAddress n).toNat = 0x400000 + 4 * n := by
  have hint := toNat_ofInt (n := n) (by omega) (by omega)
  have hbase : textBase.toNat = 0x400000 := rfl
  have hfour : (4 : UInt32).toNat = 4 := rfl
  rw [Image.codeAddress, UInt32.toNat_add, UInt32.toNat_mul, hbase, hfour]
  omega

theorem validReturn_codeAddress {n : Nat} (hn : n < 0x3ff00000) :
    ValidReturn (Image.codeAddress n) := by
  have hnat := toNat_codeAddress hn
  have hbase : textBase.toNat = 0x400000 := rfl
  constructor
  · rw [UInt32.le_iff_toNat_le]
    omega
  · apply UInt32.toNat.inj
    rw [UInt32.toNat_mod, hnat]
    show (0x400000 + 4 * n) % 4 = 0
    omega

theorem instrAt_codeAddress {n : Nat} (hn : n < 0x3ff00000) :
    instrAt (Image.codeAddress n) = n := by
  have hnat := toNat_codeAddress hn
  have hbase : textBase.toNat = 0x400000 := rfl
  show (((Image.codeAddress n - textBase) / 4).toNat : Int) = n
  rw [UInt32.toNat_div, UInt32.toNat_sub_of_le _ _ (validReturn_codeAddress hn).1, hnat, hbase]
  show (((0x400000 + 4 * n - 0x400000) / 4 : Nat) : Int) = n
  omega

/-- A return goes to where the call was made. -/
theorem moves_jr {r : Reg} {n : Nat} (hi : Fetches p pc (.onReg .jr r))
    (hr : V.reg r = Image.codeAddress n) (hn : n < 0x30000000) : Moves p cfg pc V n V := by
  refine Moves.of_execute hi ?_
  intro line s hs
  have hvalid := validReturn_codeAddress (n := n) (by omega)
  have hplace : ¬ (Image.codeAddress n < textBase ∨ Image.codeAddress n % 4 ≠ 0) := by
    rw [not_or, UInt32.not_lt, not_not]
    exact hvalid
  have htarget : instrAt (Image.codeAddress n) = n := instrAt_codeAddress (by omega)
  show ∃ s', (if s.reg r < textBase ∨ s.reg r % 4 ≠ 0 then Outcome.fault (.badJump (s.reg r)) s
    else s.goto (instrAt (s.reg r))) = .done s' ∧ _
  rw [hs.regs, hr, if_neg hplace, htarget]
  exact ⟨_, rfl, hs.goto n⟩

/-! ### System calls -/

theorem execute_syscall {line : Int} {s : State} :
    execute p cfg { Instr.syscall with line } s = syscall cfg s := rfl

/-- A text is printed. -/
theorem At.print {s : State} (h : At cfg s pc V) (text : Bytes) (refused : Fault) :
    ∃ s', Machine.print s text refused = .done s' ∧
      At cfg s' (pc + 1) { V with out := V.out ++ text } := by
  have haccepts : s.console.accepts text.length = true := by
    rw [Console.accepts, h.unlimited]
  rw [Machine.print, if_pos haccepts]
  refine At.done ⟨h.next, h.running, h.regs, h.zero, h.low, h.memory, h.unlimited, ?_⟩
  rw [output_print, h.printed]

theorem moves_printInt (hi : Fetches p pc .syscall) (hv : V.reg Reg.v0 = 1) :
    Moves p cfg pc V (pc + 1) { V with out := V.out ++ decimal (signed (V.reg Reg.a0)) } := by
  refine Moves.of_execute hi ?_
  intro line s hs
  rw [execute_syscall, syscall, hs.regs, hs.regs, hv, if_pos rfl]
  exact hs.print _ _

theorem moves_printString {text : Bytes} {o : Nat} (hi : Fetches p pc .syscall)
    (hv : V.reg Reg.v0 = 4) (ha : V.reg Reg.a0 = dataBase + UInt32.ofNat o)
    (ht : Support.Message text o) :
    Moves p cfg pc V (pc + 1) { V with out := V.out ++ text } := by
  refine Moves.of_execute hi ?_
  intro line s hs
  rw [execute_syscall, syscall, hs.regs, hs.regs, hv, if_neg (by decide), if_pos rfl, ha,
    hs.memory.string ht]
  exact hs.print _ _

/-- The heap grows by `n` words. -/
theorem at_sbrk {n : Nat} {s : State} (hs : At cfg s pc V) (hi : Fetches p pc .syscall)
    (hv : V.reg Reg.v0 = 9) (ha : signed (V.reg Reg.a0) = 4 * n)
    (hheap : (56 + 4 * (V.heap.length + n) : Int) ≤ cfg.heapBytes)
    (hapart : 56 + 4 * (V.heap.length + n) + cfg.stackBytes ≤ 0x6fff0000) :
    ∃ fresh s', fresh.length = n ∧ step p cfg s = .done s' ∧ At cfg s' (pc + 1)
      (View.set { V with heap := V.heap ++ fresh } Reg.v0 (heapAddress V.heap.length)) := by
  obtain ⟨line, t, ht, hstep⟩ := hs.step hi
  have hsize := ht.memory.heapSize
  obtain ⟨fresh, hlength, hgrown⟩ := ht.memory.grow cfg.poison hapart
  have hround : ((4 * n : Int).toNat + 3) / 4 * 4 = 4 * n := by omega
  have hend : t.memory.heapEnd = heapAddress V.heap.length := by
    rw [Memory.heapEnd, hsize, heapAddress]
    apply UInt32.toNat.inj
    have hbase : dataBase.toNat = 0x10010000 := rfl
    have hlt : 56 + 4 * V.heap.length < UInt32.size := by
      show _ < 4294967296
      omega
    have hint := toNat_ofInt (n := 0x10010038 + 4 * V.heap.length) (by omega) (by omega)
    rw [UInt32.toNat_add, UInt32.toNat_ofNat_of_lt' hlt, hbase]
    omega
  rw [hstep, execute_syscall, syscall, ht.regs, ht.regs, hv, if_neg (by decide),
    if_neg (by decide), if_pos rfl, ha, sbrk, if_neg (by omega)]
  simp only [hround, hend, hsize]
  rw [if_neg (by omega)]
  have hnew := At.setReg (s := { t with
    memory := t.memory.grow cfg.poison (4 * n)
    allocations := ⟨heapAddress V.heap.length, 4 * n⟩ :: t.allocations })
    (V := { V with heap := V.heap ++ fresh })
    ⟨ht.next, ht.running, ht.regs, ht.zero, ht.low, hgrown, ht.unlimited, ht.printed⟩
    (r := Reg.v0) (by decide) (heapAddress V.heap.length)
  obtain ⟨s', hs', hat⟩ := hnew.done
  exact ⟨fresh, s', hlength, hs', hat⟩

/-- The program ends. -/
theorem step_exit {s : State} (hs : At cfg s pc V) (hi : Fetches p pc .syscall)
    (hv : V.reg Reg.v0 = 10) :
    ∃ s', step p cfg s = .done s' ∧ s'.exited = true ∧ s'.console.output = V.out := by
  obtain ⟨line, t, ht, hstep⟩ := hs.step hi
  refine ⟨{ t with exited := true }, ?_, rfl, ht.printed⟩
  rw [hstep, execute_syscall, syscall, ht.regs, hv, if_neg (by decide), if_neg (by decide),
    if_neg (by decide), if_pos rfl]

end MiniJava.Machine
