import MiniJava.Proofs.Machine.Execution
import MiniJava.Proofs.Simulation.Values

/-!
# Blocks at the end of the heap

The machine allocates at the end of the heap, and the code that asked for a block then writes its
words one after the other.

* **`Memory.blockAddress`** — the addresses of the words of a block.
* **`Memory.Extends`** — a memory with a block more, some of whose words are written.
* **`extends_grow`**, **`Extends.push`** — a fresh block, and one more word of it.
* **`Extends.word_old`**, **`Extends.word_new`** — what can be read then.
-/

namespace MiniJava.Memory

/-! ### Addresses -/

/-- The address of a word of the block that is allocated next. -/
def blockAddress (m : Memory) (j : Nat) : UInt32 := m.heapEnd + UInt32.ofInt (4 * j)

theorem blockAddress_zero (m : Memory) : m.blockAddress 0 = m.heapEnd := UInt32.add_zero _

theorem heapEnd_add (m : Memory) (j : Nat) : m.heapEnd + 4 * UInt32.ofNat j = m.blockAddress j := by
  rw [blockAddress, UInt32.ofInt_mul, ← Simulation.ofNat_eq_ofInt]
  rfl

theorem blockAddress_add (m : Memory) {j j' : Nat} {o : Int} (h : o = 4 * j' - 4 * (j : Int)) :
    m.blockAddress j + UInt32.ofInt o = m.blockAddress j' := by
  rw [blockAddress, UInt32.add_assoc, ← UInt32.ofInt_add, blockAddress]
  congr 2
  omega

theorem toNat_blockAddress {m : Memory} {j : Nat} (h : m.heap.size + 4 * j ≤ 0x6fff0000) :
    (m.blockAddress j).toNat = dataBase.toNat + (m.heap.size + 4 * j) := by
  have hbase : dataBase.toNat = 0x10010000 := rfl
  have hlt : m.heap.size < UInt32.size := by
    show _ < 4294967296
    omega
  have hint := toNat_ofInt (n := 4 * j) (by omega) (by omega)
  rw [blockAddress, heapEnd, UInt32.toNat_add, UInt32.toNat_add, UInt32.toNat_ofNat_of_lt' hlt,
    hbase]
  omega

/-! ### Blocks -/

/-- The memory has a block of `n` words more, the first of which are `ws`. -/
structure Extends (m₀ : Memory) (n : Nat) (ws : List UInt32) (m : Memory) : Prop where
  stack : m.stack = m₀.stack
  size : m.heap.size = m₀.heap.size + 4 * n
  old : ∀ o, o + 4 ≤ m₀.heap.size → Block.word m.heap o = Block.word m₀.heap o
  new : ∀ j w, ws[j]? = some w → Block.word m.heap (m₀.heap.size + 4 * j) = w

theorem extends_grow (m₀ : Memory) (poison : Bool) (n : Nat) :
    m₀.Extends n [] (m₀.grow poison (4 * n)) where
  stack := rfl
  size := size_heap_grow
  old o ho := Block.word_append ho
  new j w h := by simp at h

namespace Extends

variable {m₀ m : Memory} {n : Nat} {ws : List UInt32} (h : m₀.Extends n ws m)

include h

/-- The words of the block are there. -/
theorem wordPlace (hwhole : m₀.heap.size % 4 = 0) (hsize : m₀.heap.size + 4 * n ≤ 0x6fff0000)
    {j : Nat} (hj : j < n) :
    m.wordPlace (m₀.blockAddress j) = .ok ⟨.heap, m₀.heap.size + 4 * j⟩ := by
  have haddress := toNat_blockAddress (m := m₀) (j := j) (by omega)
  have hbase : dataBase.toNat = 0x10010000 := rfl
  have hgrown := h.size
  exact wordPlace_heap_of (by omega) haddress (by omega)

/-- One more word of the block is written. -/
theorem push (hn : ws.length < n) (w : UInt32) :
    m₀.Extends n (ws ++ [w]) (m.setWord ⟨.heap, m₀.heap.size + 4 * ws.length⟩ w) where
  stack := h.stack
  size := (Block.size_setWord _ _ _).trans h.size
  old o ho := by
    show Block.word (Block.setWord m.heap (m₀.heap.size + 4 * ws.length) w) o = _
    rw [Block.word_setWord_ne (by omega)]
    exact h.old o ho
  new j u hu := by
    have hgrown := h.size
    show Block.word (Block.setWord m.heap (m₀.heap.size + 4 * ws.length) w) _ = u
    by_cases hj : j = ws.length
    · subst hj
      rw [Block.word_setWord_self (by omega)]
      simpa using hu
    · have hlt : j < ws.length := by
        have hbound := (List.getElem?_eq_some_iff.mp hu).1
        rw [List.length_append, List.length_singleton] at hbound
        omega
      rw [List.getElem?_append_left hlt] at hu
      rw [Block.word_setWord_ne (by omega)]
      exact h.new j u hu

/-- What could be read before is read as before, if the heap stays below the stack. -/
theorem word_old (hapart : dataBase.toNat + (m₀.heap.size + 4 * n) + m₀.stack.size ≤ stackEnd)
    {a w : UInt32} (hw : m₀.word a = .ok w) : m.word a = .ok w := by
  obtain ⟨place, hplace, rfl⟩ := word_eq_ok hw
  obtain ⟨ha, hplace⟩ := wordPlace_eq_ok hplace
  have hgrown := h.size
  have hstack : m.stack.size = m₀.stack.size := by rw [h.stack]
  rcases place?_cases hplace with ⟨o, hao, hfits, rfl⟩ | ⟨o, hao, hfits, rfl⟩
  · have hnew : m.wordPlace a = .ok ⟨.heap, o⟩ := wordPlace_heap_of ha hao (by omega)
    rw [word, hnew]
    exact congrArg Except.ok (h.old o hfits)
  · have hnew : m.wordPlace a = .ok ⟨.stack, o⟩ :=
      wordPlace_stack_of ha (by omega) (by omega) (by omega) (by omega)
    rw [word, hnew]
    show Except.ok (Block.word m.stack o) = .ok (Block.word m₀.stack o)
    rw [h.stack]

/-- The words that were written are read. -/
theorem word_new (hwhole : m₀.heap.size % 4 = 0) (hsize : m₀.heap.size + 4 * n ≤ 0x6fff0000)
    {j : Nat} (hj : j < n) {w : UInt32} (hw : ws[j]? = some w) :
    m.word (m₀.blockAddress j) = .ok w := by
  rw [word, h.wordPlace hwhole hsize hj]
  exact congrArg Except.ok (h.new j w hw)

end Extends

end MiniJava.Memory

namespace MiniJava.Machine

/-- A store writes the next word of a block. -/
theorem step_push {p : Image} (cfg : Config) {k n : Nat} {s : State} {m₀ : Memory}
    {ws : List UInt32} {r base : Reg} {o : Int} (h : m₀.Extends n ws s.memory)
    (hwhole : m₀.heap.size % 4 = 0) (hsize : m₀.heap.size + 4 * n ≤ 0x6fff0000)
    (hn : ws.length < n) (hi : Performs p k (.sw r o base)) (hpc : s.pc = k)
    (ha : s.reg base + UInt32.ofInt o = m₀.blockAddress ws.length) :
    ∃ m, step p cfg s = .done (s.write m) ∧ m₀.Extends n (ws ++ [s.reg r]) m := by
  have hplace := h.wordPlace hwhole hsize hn
  rw [← ha] at hplace
  exact ⟨_, step_sw hi hpc hplace, h.push hn (s.reg r)⟩

end MiniJava.Machine
