import MiniJava.Assembly.Assemble
import MiniJava.Proofs.Machine.History

/-!
# Higher limits

A run that ends itself does the same under higher limits: with more stack, a larger heap or more
steps allowed it executes the same instructions, prints the same and leaves the same registers and
heap.  The two machines differ in their stacks only, and there the larger one holds the smaller one
at the same addresses.

* **`Memory.Widens`** — one memory is another one with more stack below.
* **`Widens.word`**, **`Widens.setWord`**, **`Widens.string`**, **`Widens.grow`** — memories like
  that are used alike.
* **`execute_widens`**, **`runWithin_widens`** — instructions and runs do the same on both.
* **`raised_limits_keep_run`** — the statement for whole runs.
-/

namespace MiniJava

/-- The place of the same bytes when the stack has `d` more bytes below. -/
def Place.raised (d : Nat) : Place → Place
  | ⟨.heap, o⟩ => ⟨.heap, o⟩
  | ⟨.stack, o⟩ => ⟨.stack, o + d⟩

namespace Memory

/-- The memory `m'` is `m` with `d` more bytes of stack below: the heaps are equal, and the larger
stack holds the smaller one at the same addresses. -/
structure Widens (d : Nat) (m m' : Memory) : Prop where
  heap : m'.heap = m.heap
  wider : m'.stack.size = m.stack.size + d
  fits : m'.stack.size ≤ stackEnd
  bytes : ∀ i < m.stack.size, m'.stack.get! (i + d) = m.stack.get! i

namespace Widens

variable {d : Nat} {m m' : Memory} {a : UInt32} {place : Place} (h : m.Widens d m')

include h

/-! ### Places -/

theorem place? {n : Nat} (hplace : m.place? a n = some place) :
    m'.place? a n = some (place.raised d) := by
  have hwider := h.wider
  have hfits := h.fits
  unfold Memory.place? at hplace ⊢
  simp only [h.heap] at hplace ⊢
  split at hplace
  · rename_i hheap
    obtain rfl := Option.some.inj hplace
    exact if_pos hheap
  split at hplace
  · rename_i hheap hstack
    obtain rfl := Option.some.inj hplace
    have hoffset : a.toNat + m'.stack.size - stackEnd = a.toNat + m.stack.size - stackEnd + d := by
      omega
    rw [if_neg hheap, if_pos (by omega), hoffset]
    rfl
  · cases hplace

theorem wordPlace (hplace : m.wordPlace a = .ok place) :
    m'.wordPlace a = .ok (place.raised d) := by
  obtain ⟨ha, hplace⟩ := wordPlace_eq_ok hplace
  exact wordPlace_of_place? ha (h.place? hplace)

/-- The bytes at an address are the same. -/
theorem get! {n k : Nat} (hplace : m.place? a n = some place) (hk : k < n) :
    (m'.block (place.raised d).segment).get! ((place.raised d).offset + k) =
      (m.block place.segment).get! (place.offset + k) := by
  rcases place?_cases hplace with ⟨o, -, -, rfl⟩ | ⟨o, -, hfits, rfl⟩
  · exact congrArg (fun b : ByteArray => b.get! (o + k)) h.heap
  · show m'.stack.get! (o + d + k) = m.stack.get! (o + k)
    rw [Nat.add_right_comm]
    exact h.bytes (o + k) (by omega)

/-! ### Reading -/

theorem word {w : UInt32} (hw : m.word a = .ok w) : m'.word a = .ok w := by
  obtain ⟨place, hplace, rfl⟩ := word_eq_ok hw
  obtain ⟨-, hbytes⟩ := wordPlace_eq_ok hplace
  have hbyte := fun k hk => h.get! (k := k) hbytes hk
  have hlow := hbyte 0 (by omega)
  rw [Nat.add_zero, Nat.add_zero] at hlow
  rw [Memory.word, h.wordPlace hplace]
  refine congrArg Except.ok ?_
  rw [wordAt, wordAt, Block.word, Block.word, hlow, hbyte 1 (by omega), hbyte 2 (by omega),
    hbyte 3 (by omega)]

theorem byte? {c : UInt8} (hc : m.byte? a = some c) : m'.byte? a = some c := by
  unfold Memory.byte? at hc ⊢
  obtain ⟨place, hplace, rfl⟩ := Option.map_eq_some_iff.mp hc
  rw [h.place? hplace]
  exact congrArg some (h.get! (k := 0) hplace (by omega))

theorem stringWithin {n n' : Nat} (hn : n ≤ n') {read text : Bytes}
    (htext : m.stringWithin n read a = .ok text) : m'.stringWithin n' read a = .ok text := by
  induction n generalizing n' read a with
  | zero => cases htext
  | succ n ih =>
    obtain ⟨n', rfl⟩ := Nat.exists_eq_add_of_le' (Nat.le_trans (Nat.le_add_left 1 n) hn)
    unfold Memory.stringWithin at htext ⊢
    cases hc : m.byte? a with
    | none =>
      rw [hc] at htext
      cases htext
    | some c =>
      rw [hc] at htext
      rw [h.byte? hc]
      simp only at htext ⊢
      split at htext
      · rename_i hzero
        rw [if_pos hzero]
        exact htext
      · rename_i hzero
        rw [if_neg hzero]
        exact ih (by omega) htext

theorem string {text : Bytes} (htext : m.string a = .ok text) : m'.string a = .ok text := by
  have hwider := h.wider
  refine h.stringWithin ?_ htext
  rw [h.heap]
  omega

theorem heapEnd : m'.heapEnd = m.heapEnd := by
  unfold Memory.heapEnd
  rw [h.heap]

/-! ### Writing -/

theorem setWord (hplace : m.wordPlace a = .ok place) (w : UInt32) :
    (m.setWord place w).Widens d (m'.setWord (place.raised d) w) := by
  have hwider := h.wider
  have hfits := h.fits
  obtain ⟨-, hplace⟩ := wordPlace_eq_ok hplace
  rcases place?_cases hplace with ⟨o, -, -, rfl⟩ | ⟨o, -, hroom, rfl⟩
  · show Widens d ⟨Block.setWord m.heap o w, m.stack⟩ ⟨Block.setWord m'.heap o w, m'.stack⟩
    exact ⟨congrArg (fun b => Block.setWord b o w) h.heap, hwider, hfits, h.bytes⟩
  · show Widens d ⟨m.heap, Block.setWord m.stack o w⟩ ⟨m'.heap, Block.setWord m'.stack (o + d) w⟩
    refine ⟨h.heap, ?_, ?_, ?_⟩
    · rw [Block.size_setWord, Block.size_setWord, hwider]
    · rw [Block.size_setWord]
      exact hfits
    · intro i hi
      rw [Block.size_setWord] at hi
      by_cases hout : i < o ∨ o + 4 ≤ i
      · rw [Block.get!_setWord_ne (by omega), Block.get!_setWord_ne hout, h.bytes i hi]
      · obtain ⟨k, rfl⟩ : ∃ k, i = o + k := ⟨i - o, by omega⟩
        rw [Nat.add_right_comm, Block.get!_setWord_self (by omega) w (by omega),
          Block.get!_setWord_self hroom w (by omega)]

theorem grow (poison : Bool) (n : Nat) : (m.grow poison n).Widens d (m'.grow poison n) :=
  ⟨congrArg (· ++ Block.fresh poison n) h.heap, h.wider, h.fits, h.bytes⟩

end Widens

/-- Memory with a larger stack at the start of a program. -/
theorem load_widens (data : Bytes) (poison : Bool) {size d : Nat} (hfits : size + d ≤ stackEnd)
    (hwhole : poison → d % 4 = 0) :
    (load data poison size).Widens d (load data poison (size + d)) := by
  have hsize : ∀ n, (load data poison n).stack.size = n := Block.size_fresh poison
  refine ⟨rfl, ?_, ?_, ?_⟩
  · rw [hsize, hsize]
  · rw [hsize]
    exact hfits
  · intro i hi
    rw [hsize] at hi
    show (Block.fresh poison (size + d)).get! (i + d) = (Block.fresh poison size).get! i
    rw [Block.get!_fresh, Block.get!_fresh]
    cases poison with
    | false => rfl
    | true =>
      -- the words of poison start at the bottom, so the added bytes must be whole words
      have hd : d % 4 = 0 := hwhole rfl
      rw [show (i + d) % 4 = i % 4 by omega]
      refine if_congr (and_congr_right fun _ => ?_) rfl rfl
      omega

end Memory

namespace Machine

variable {p : Image} {cfg cfg' : Config} {d : Nat} {s t : State} {m' : Memory}

/-! ### Steps -/

/-- The configuration `cfg'` allows all that `cfg` allows, and fills fresh memory alike. -/
structure Config.Raises (cfg cfg' : Config) : Prop where
  poison : cfg'.poison = cfg.poison
  heap : cfg.heapBytes ≤ cfg'.heapBytes
  steps : cfg'.maxSteps ≤ 0 ∨ 0 < cfg.maxSteps ∧ cfg.maxSteps ≤ cfg'.maxSteps

/-- On a memory with more stack the outcome is done as well, and the memories stay like that. -/
def Outcome.DoneWider (d : Nat) (t : State) (o : Outcome) : Prop :=
  ∃ m', o = .done { t with memory := m' } ∧ t.memory.Widens d m'

/-- What leaves memory out of it does the same on a memory with more stack. -/
theorem Outcome.DoneWider.of_withMemory {o : Outcome} (h : s.memory.Widens d m')
    (ho : o = (Outcome.done t).withMemory m') (hmemory : t.memory = s.memory) :
    o.DoneWider d t :=
  ⟨m', ho, by rw [hmemory]; exact h⟩

theorem print_widens (h : s.memory.Widens d m') {text : Bytes} {refused : Fault}
    (hprint : print s text refused = .done t) :
    (print { s with memory := m' } text refused).DoneWider d t := by
  exact .of_withMemory h (by rw [print_withMemory, hprint]) (memory_of_print hprint)

theorem sbrk_widens (hcfg : cfg.Raises cfg') (h : s.memory.Widens d m') {n : Int}
    (hsbrk : sbrk cfg s n = .done t) : (sbrk cfg' { s with memory := m' } n).DoneWider d t := by
  unfold sbrk at hsbrk ⊢
  split at hsbrk
  · cases hsbrk
  rename_i hpositive
  rw [if_neg hpositive]
  simp only at hsbrk ⊢
  split at hsbrk
  · cases hsbrk
  rename_i hroom
  have hheap := hcfg.heap
  obtain rfl := Outcome.done.inj hsbrk
  rw [if_neg (by rw [h.heap]; omega), hcfg.poison, h.heapEnd]
  let grown : State := { s with
    memory := s.memory.grow cfg.poison ((n.toNat + 3) / 4 * 4)
    allocations := ⟨s.memory.heapEnd, (n.toNat + 3) / 4 * 4⟩ :: s.allocations }
  exact .of_withMemory (s := grown) (h.grow _ _) (next_setReg_withMemory _ grown _ _)
    (memory_setReg _ _ _)

theorem syscall_widens (hcfg : cfg.Raises cfg') (h : s.memory.Widens d m')
    (hcall : syscall cfg s = .done t) : (syscall cfg' { s with memory := m' }).DoneWider d t := by
  have hreg : ∀ r, ({ s with memory := m' } : State).reg r = s.reg r := fun _ => rfl
  unfold syscall at hcall ⊢
  simp only [hreg] at hcall ⊢
  split at hcall
  · rename_i hcode
    rw [if_pos hcode]
    exact print_widens h hcall
  rename_i hcode
  rw [if_neg hcode]
  split at hcall
  · rename_i hcode
    rw [if_pos hcode]
    cases htext : s.memory.string (s.reg Reg.a0) with
    | error f =>
      rw [htext] at hcall
      cases hcall
    | ok text =>
      rw [htext] at hcall
      rw [h.string htext]
      exact print_widens h hcall
  rename_i hcode
  rw [if_neg hcode]
  split at hcall
  · rename_i hcode
    rw [if_pos hcode]
    exact sbrk_widens hcfg h hcall
  rename_i hcode
  rw [if_neg hcode]
  split at hcall
  · rename_i hcode
    rw [if_pos hcode]
    obtain rfl := Outcome.done.inj hcall
    exact ⟨m', rfl, h⟩
  · cases hcall

theorem execute_widens (hcfg : cfg.Raises cfg') (h : s.memory.Widens d m') {i : Instr}
    (hexec : execute p cfg i s = .done t) :
    (execute p cfg' i { s with memory := m' }).DoneWider d t := by
  by_cases hspares : i.op.sparesMemory
  · exact .of_withMemory h (by rw [execute_withMemory m' s p cfg cfg' hspares, hexec])
      (memory_of_execute hspares hexec)
  have heffective : ({ s with memory := m' } : State).effective i = s.effective i := rfl
  cases hop : i.op with
  | lw =>
    simp only [execute, hop, heffective] at hexec ⊢
    split at hexec
    · rename_i w hw
      obtain rfl := Outcome.done.inj hexec
      rw [h.word hw]
      exact .of_withMemory h (next_setReg_withMemory m' s _ _) (memory_setReg _ _ _)
    · cases hexec
  | sw =>
    simp only [execute, hop, heffective] at hexec ⊢
    split at hexec
    · rename_i place hplace
      obtain rfl := Outcome.done.inj hexec
      rw [h.wordPlace hplace]
      exact ⟨m'.setWord (place.raised d) (s.reg i.rd), rfl, h.setWord hplace _⟩
    · cases hexec
  | syscall =>
    simp only [execute, hop] at hexec ⊢
    exact syscall_widens hcfg h hexec
  | _ =>
    rw [hop] at hspares
    exact absurd rfl hspares

theorem step_widens (hcfg : cfg.Raises cfg') (h : s.memory.Widens d m')
    (hstep : step p cfg s = .done t) : (step p cfg' { s with memory := m' }).DoneWider d t := by
  unfold step at hstep ⊢
  split at hstep
  · cases hstep
  · rename_i i hi
    simp only [hi]
    exact execute_widens (s := { s with steps := s.steps + 1 }) hcfg h hstep

/-! ### Runs -/

/-- A run that ends the program ends it under higher limits as well, however many more steps it is
given. -/
theorem runWithin_widens (hcfg : cfg.Raises cfg') {n : Nat} (h : s.memory.Widens d m')
    (hrun : runWithin p cfg false n s = (.exited, t)) :
    ∃ m'', t.memory.Widens d m'' ∧ ∀ k,
      runWithin p cfg' false (n + k) { s with memory := m' } =
        (.exited, { t with memory := m'' }) := by
  induction n generalizing s m' with
  | zero =>
    unfold runWithin at hrun
    split at hrun
    · rename_i hexited
      obtain ⟨-, rfl⟩ := Prod.mk.inj hrun
      refine ⟨m', h, ?_⟩
      rintro (_ | k)
      · exact if_pos hexited
      · exact if_pos hexited
    · cases hrun
  | succ n ih =>
    simp only [Nat.add_right_comm n 1]
    unfold runWithin at hrun ⊢
    split at hrun
    · rename_i hexited
      obtain ⟨-, rfl⟩ := Prod.mk.inj hrun
      exact ⟨m', h, fun k => if_pos hexited⟩
    rename_i hrunning
    split at hrun
    · cases hrun
    rename_i hsteps
    have hsteps' : ¬ (0 < cfg'.maxSteps ∧ cfg'.maxSteps ≤ s.steps) := by
      rcases hcfg.steps with hnone | ⟨hsome, hraised⟩
      · omega
      · omega
    simp only [Bool.false_and, Bool.false_eq_true, if_false, if_neg hrunning,
      if_neg hsteps'] at hrun ⊢
    cases hstep : step p cfg s with
    | fault f s₁ =>
      rw [hstep] at hrun
      cases hrun
    | done s₁ =>
      rw [hstep] at hrun
      obtain ⟨m₁, hstep', h₁⟩ := step_widens hcfg h hstep
      rw [hstep']
      exact ih h₁ hrun

/-- A program that ends itself under some limits does so under higher ones, if it is given as many
steps or more: it prints the same, takes as many steps, and leaves the same registers, next
instruction and heap. -/
theorem raised_limits_keep_run (hcfg : cfg.Raises cfg') (hstack : cfg.stackBytes ≤ cfg'.stackBytes)
    (hfits : cfg'.stackBytes ≤ stackEnd)
    (hwhole : cfg.poison → cfg.stackBytes % 4 = cfg'.stackBytes % 4) {n : Nat}
    (hrun : runWithin p cfg false n (State.start p cfg none) = (.exited, s)) :
    ∃ s', (∀ k, runWithin p cfg' false (n + k) (State.start p cfg' none) = (.exited, s')) ∧
      s'.console.output = s.console.output ∧ s'.steps = s.steps ∧ s'.regs = s.regs ∧
      s'.hi = s.hi ∧ s'.lo = s.lo ∧ s'.pc = s.pc ∧ s'.memory.heap = s.memory.heap := by
  obtain ⟨d, hd⟩ := Nat.exists_eq_add_of_le hstack
  have hload : (State.start p cfg none).memory.Widens d (State.start p cfg' none).memory := by
    show (Memory.load p.data cfg.poison cfg.stackBytes).Widens d
      (Memory.load p.data cfg'.poison cfg'.stackBytes)
    rw [hcfg.poison, hd]
    refine Memory.load_widens p.data cfg.poison (by omega) fun hpoison => ?_
    have := hwhole hpoison
    omega
  obtain ⟨m'', hwidens, hrun'⟩ := runWithin_widens hcfg hload hrun
  exact ⟨{ s with memory := m'' }, hrun', rfl, rfl, rfl, rfl, rfl, rfl, hwidens.heap⟩

/-- A program that allocates a word, stores to it and to the stack, prints and ends. -/
def greeting : Bytes :=
  ".data\nhi: .asciiz \"hi \"\n.text\nmain: li $a0, 3\nli $v0, 9\nsyscall\nli $t0, 7\n" ++
    "sw $t0, 0($v0)\nsw $t0, 0($sp)\nla $a0, hi\nli $v0, 4\nsyscall\nlw $a0, 0($sp)\n" ++
    "li $v0, 1\nsyscall\nli $v0, 10\nsyscall\n"

theorem raised_limits_keep_run_greeting :
    ∃ p s s', assemble greeting = .ok p ∧
      runWithin p ⟨15, 8, 8, true⟩ false 15 (State.start p ⟨15, 8, 8, true⟩ none) = (.exited, s) ∧
      (∀ k, runWithin p ⟨50, 16, 20, true⟩ false (15 + k) (State.start p ⟨50, 16, 20, true⟩ none) =
        (.exited, s')) ∧
      s.console.output = "hi 7" ∧ s'.console.output = "hi 7" ∧ s'.steps = 14 := by
  have hrun : (assemble greeting).toOption.any fun p =>
      let (status, s) := runWithin p ⟨15, 8, 8, true⟩ false 15 (State.start p ⟨15, 8, 8, true⟩ none)
      status = .exited ∧ s.console.output = "hi 7" ∧ s.steps = 14 := by
    decide +kernel
  cases hasm : assemble greeting with
  | error e =>
    rw [hasm] at hrun
    cases hrun
  | ok p =>
    rw [hasm] at hrun
    cases hlast : runWithin p ⟨15, 8, 8, true⟩ false 15 (State.start p ⟨15, 8, 8, true⟩ none) with
    | mk status s =>
      simp only [Except.toOption, Option.any_some, hlast, decide_eq_true_eq] at hrun
      obtain ⟨rfl, houtput, hsteps⟩ := hrun
      have hraises : Config.Raises ⟨15, 8, 8, true⟩ ⟨50, 16, 20, true⟩ :=
        ⟨rfl, by decide, .inr (by decide)⟩
      obtain ⟨s', hrun', houtput', hsteps', -⟩ :=
        raised_limits_keep_run hraises (by decide) (by decide) (fun _ => rfl) hlast
      exact ⟨p, s, s', rfl, hlast, hrun', houtput, houtput'.trans houtput, hsteps'.trans hsteps⟩

end Machine

end MiniJava
