import Mathlib.Data.List.Range
import MiniJava.Proofs.Assembly.Image
import MiniJava.Proofs.Machine.Words

/-!
# Memory as words

The memory of a running program, seen as words: those of the stack counted from its top down, and
those of the heap counted from the end of the messages up.

* **`stackAddress`**, **`heapAddress`** — where the words lie.
* **`Memory.Keeps`** — the memory keeps the given words, and the messages are intact.
* **`Keeps.word_stack`**, **`Keeps.setWord_stack`**, … — reading and writing words.
* **`Keeps.grow`** — more heap.
* **`string_heap`**, **`Keeps.string`** — strings in the heap can be read, and so the messages.
-/

namespace MiniJava

/-! ### Addresses -/

theorem toNat_ofInt {n : Int} (hlow : 0 ≤ n) (hhigh : n < 0x100000000) :
    ((UInt32.ofInt n).toNat : Int) = n := by
  have hofNat : UInt32.ofInt n = UInt32.ofNat n.toNat := by
    have hmod : n % 0x100000000 = n := Int.emod_eq_of_lt hlow hhigh
    show UInt32.ofNat (n % 0x100000000).toNat = _
    rw [hmod]
  have hlt : n.toNat < UInt32.size := (Int.toNat_lt hlow).mpr hhigh
  rw [hofNat, UInt32.toNat_ofNat_of_lt' hlt]
  exact Int.toNat_of_nonneg hlow

/-- The address of a word of the stack. -/
def stackAddress (j : Nat) : UInt32 := UInt32.ofInt (0x7ffffffc - 4 * j)

/-- The address of a word of the heap. -/
def heapAddress (k : Nat) : UInt32 := UInt32.ofInt (0x10010038 + 4 * k)

theorem aligned {n : Int} (hlow : 0 ≤ n) (hhigh : n < 0x100000000) (h : n % 4 = 0) :
    UInt32.ofInt n % 4 = 0 := by
  have hn := toNat_ofInt hlow hhigh
  apply UInt32.toNat.inj
  rw [UInt32.toNat_mod]
  show (UInt32.ofInt n).toNat % 4 = 0
  omega

/-! ### Messages -/

/-- The text stands among the messages, `o` bytes from their start, with a zero byte after it. -/
def Support.Message (text : Bytes) (o : Nat) : Prop :=
  o + text.length < 56 ∧
    (∀ i < text.length, Support.messages.getD (o + i) 0 = text.getD i 0 ∧ text.getD i 0 ≠ 0) ∧
    Support.messages.getD (o + text.length) 0 = 0

instance (text : Bytes) (o : Nat) : Decidable (Support.Message text o) :=
  inferInstanceAs (Decidable (_ ∧ _ ∧ _))

namespace Memory

/-- A byte of the heap. -/
theorem byte?_heap {m : Memory} {i : Nat} (hi : i < m.heap.size) (hlow : i < 0xefff0000) :
    m.byte? (dataBase + UInt32.ofNat i) = some (m.heap.get! i) := by
  have hbase : dataBase.toNat = 0x10010000 := rfl
  have hnat : (dataBase + UInt32.ofNat i).toNat = 0x10010000 + i := by
    have hlt : i < UInt32.size := Nat.lt_trans hlow (by decide)
    rw [UInt32.toNat_add, UInt32.toNat_ofNat_of_lt' hlt, hbase]
    omega
  have hplace : m.place? (dataBase + UInt32.ofNat i) 1 = some ⟨.heap, i⟩ := by
    simp only [place?, hnat, hbase]
    rw [if_pos (by omega)]
    simp
  rw [byte?, hplace]
  rfl

/-- Bytes of the heap are read as a string up to the next zero byte. -/
theorem stringWithin_heap {m : Memory} {text : Bytes} {o : Nat}
    (hsize : o + text.length < m.heap.size) (hlow : o + text.length < 0xefff0000)
    (hbytes : ∀ i < text.length, m.heap.get! (o + i) = text.getD i 0 ∧ text.getD i 0 ≠ 0)
    (hend : m.heap.get! (o + text.length) = 0) (read : Bytes) {n : Nat} (hn : text.length < n) :
    m.stringWithin n read (dataBase + UInt32.ofNat o) = .ok (read.reverse ++ text) := by
  induction text generalizing o read n with
  | nil =>
    obtain ⟨n, rfl⟩ := Nat.exists_eq_add_one_of_ne_zero (Nat.ne_zero_of_lt hn)
    simp only [List.length_nil, Nat.add_zero] at hsize hlow hend
    rw [stringWithin, byte?_heap hsize hlow, hend]
    simp
  | cons c text ih =>
    obtain ⟨n, rfl⟩ := Nat.exists_eq_add_one_of_ne_zero (Nat.ne_zero_of_lt hn)
    rw [List.length_cons] at hsize hlow hend hn
    obtain ⟨hc, hne⟩ := hbytes 0 (Nat.zero_lt_succ _)
    rw [Nat.add_zero, List.getD_cons_zero] at hc
    rw [List.getD_cons_zero] at hne
    have hnext : dataBase + UInt32.ofNat o + 1 = dataBase + UInt32.ofNat (o + 1) := by
      rw [UInt32.ofNat_add, UInt32.add_assoc]
      rfl
    rw [stringWithin, byte?_heap (by omega) (by omega), hc]
    simp only [beq_iff_eq, hne, if_false, hnext]
    rw [ih (by omega) (by omega) ?_ ?_ (c :: read) (by omega)]
    · simp
    · intro i hi
      have hshift := hbytes (i + 1) (Nat.succ_lt_succ hi)
      rw [List.getD_cons_succ] at hshift
      rwa [show o + 1 + i = o + (i + 1) by omega]
    · rwa [show o + 1 + text.length = o + (text.length + 1) by omega]

theorem string_heap {m : Memory} {text : Bytes} {o : Nat}
    (hsize : o + text.length < m.heap.size) (hlow : o + text.length < 0xefff0000)
    (hbytes : ∀ i < text.length, m.heap.get! (o + i) = text.getD i 0 ∧ text.getD i 0 ≠ 0)
    (hend : m.heap.get! (o + text.length) = 0) :
    m.string (dataBase + UInt32.ofNat o) = .ok text :=
  stringWithin_heap hsize hlow hbytes hend [] (by omega)

theorem wordPlace_stack {m : Memory} {j : Nat} (hj : 4 * (j + 1) ≤ m.stack.size)
    (hapart : m.heap.size + m.stack.size ≤ 0x6fff0000) :
    m.wordPlace (stackAddress j) = .ok ⟨.stack, m.stack.size - 4 * (j + 1)⟩ := by
  have hlow : (0 : Int) ≤ 0x7ffffffc - 4 * j := by omega
  have hhigh : (0x7ffffffc - 4 * j : Int) < 0x100000000 := by omega
  have hnat : ((stackAddress j).toNat : Int) = 0x7ffffffc - 4 * j := toNat_ofInt hlow hhigh
  have hbase : dataBase.toNat = 0x10010000 := rfl
  have hend : stackEnd = 0x80000000 := rfl
  have haligned : stackAddress j % 4 = 0 := aligned hlow hhigh (by omega)
  rw [wordPlace, if_neg (not_not.mpr haligned), place?]
  rw [if_neg (by omega), if_pos (by omega)]
  simp only [Except.ok.injEq, Place.mk.injEq, true_and]
  omega

theorem wordPlace_heap {m : Memory} {k : Nat} (hk : 56 + 4 * k + 4 ≤ m.heap.size)
    (hsize : m.heap.size ≤ 0x6fff0000) :
    m.wordPlace (heapAddress k) = .ok ⟨.heap, 56 + 4 * k⟩ := by
  have hlow : (0 : Int) ≤ 0x10010038 + 4 * k := by omega
  have hhigh : (0x10010038 + 4 * k : Int) < 0x100000000 := by omega
  have hnat : ((heapAddress k).toNat : Int) = 0x10010038 + 4 * k := toNat_ofInt hlow hhigh
  have hbase : dataBase.toNat = 0x10010000 := rfl
  have haligned : heapAddress k % 4 = 0 := aligned hlow hhigh (by omega)
  rw [wordPlace, if_neg (not_not.mpr haligned), place?, if_pos (by omega)]
  simp only [Except.ok.injEq, Place.mk.injEq, true_and]
  omega

/-! ### Words -/

theorem heap_setWord_stack (m : Memory) (offset : Nat) (w : UInt32) :
    (m.setWord ⟨.stack, offset⟩ w).heap = m.heap := by
  dsimp only [setWord]

theorem stack_setWord_heap (m : Memory) (offset : Nat) (w : UInt32) :
    (m.setWord ⟨.heap, offset⟩ w).stack = m.stack := by
  dsimp only [setWord]

/-- The memory keeps the given words of stack and heap, the stack has the given size in bytes, and
the messages are intact. -/
structure Keeps (m : Memory) (size : Nat) (stack : Nat → UInt32) (heap : List UInt32) : Prop where
  stackSize : m.stack.size = size
  stackWords : ∀ j, 4 * (j + 1) ≤ size → Block.word m.stack (size - 4 * (j + 1)) = stack j
  heapSize : m.heap.size = 56 + 4 * heap.length
  heapWords : ∀ k w, heap[k]? = some w → Block.word m.heap (56 + 4 * k) = w
  data : ∀ i < 56, m.heap.get! i = Support.messages.getD i 0
  apart : 56 + 4 * heap.length + size ≤ 0x6fff0000

namespace Keeps

variable {m : Memory} {size : Nat} {stack : Nat → UInt32} {heap : List UInt32}
  (h : m.Keeps size stack heap)

include h

theorem wordPlace_stack {j : Nat} (hj : 4 * (j + 1) ≤ size) :
    m.wordPlace (stackAddress j) = .ok ⟨.stack, size - 4 * (j + 1)⟩ := by
  have hsize := h.stackSize
  have hheap := h.heapSize
  have hapart := h.apart
  rw [Memory.wordPlace_stack (by omega) (by omega), hsize]

theorem wordPlace_heap {k : Nat} (hk : k < heap.length) :
    m.wordPlace (heapAddress k) = .ok ⟨.heap, 56 + 4 * k⟩ := by
  have hheap := h.heapSize
  have hapart := h.apart
  exact Memory.wordPlace_heap (by omega) (by omega)

theorem word_stack {j : Nat} (hj : 4 * (j + 1) ≤ size) :
    m.word (stackAddress j) = .ok (stack j) := by
  rw [word, h.wordPlace_stack hj]
  exact congrArg Except.ok (h.stackWords j hj)

theorem word_heap {k : Nat} {w : UInt32} (hk : heap[k]? = some w) :
    m.word (heapAddress k) = .ok w := by
  have hlt : k < heap.length := (List.getElem?_eq_some_iff.mp hk).1
  rw [word, h.wordPlace_heap hlt]
  exact congrArg Except.ok (h.heapWords k w hk)

/-- A word of the stack is written. -/
theorem setWord_stack {j : Nat} (hj : 4 * (j + 1) ≤ size) (w : UInt32) :
    (m.setWord ⟨.stack, size - 4 * (j + 1)⟩ w).Keeps size
      (fun i => if i = j then w else stack i) heap where
  stackSize := by
    rw [← h.stackSize]
    exact Block.size_setWord _ _ _
  stackWords i hi := by
    show Block.word (Block.setWord m.stack (size - 4 * (j + 1)) w) _ = _
    have hsize := h.stackSize
    by_cases hij : i = j
    · rw [if_pos hij, hij, Block.word_setWord_self (by omega)]
    · rw [if_neg hij, Block.word_setWord_ne (by omega)]
      exact h.stackWords i hi
  heapSize := by
    rw [heap_setWord_stack]
    exact h.heapSize
  heapWords := by
    rw [heap_setWord_stack]
    exact h.heapWords
  data := by
    rw [heap_setWord_stack]
    exact h.data
  apart := h.apart

/-- A word of the heap is written. -/
theorem setWord_heap {k : Nat} (hk : k < heap.length) (w : UInt32) :
    (m.setWord ⟨.heap, 56 + 4 * k⟩ w).Keeps size stack (heap.set k w) where
  stackSize := by
    rw [stack_setWord_heap]
    exact h.stackSize
  stackWords := by
    rw [stack_setWord_heap]
    exact h.stackWords
  heapSize := by
    rw [List.length_set, ← h.heapSize]
    exact Block.size_setWord _ _ _
  heapWords i u hi := by
    show Block.word (Block.setWord m.heap (56 + 4 * k) w) _ = _
    have hsize := h.heapSize
    by_cases hik : i = k
    · subst hik
      rw [List.getElem?_set_self hk] at hi
      rw [Block.word_setWord_self (by omega)]
      exact Option.some.inj hi
    · rw [List.getElem?_set_ne (Ne.symm hik)] at hi
      rw [Block.word_setWord_ne (by omega)]
      exact h.heapWords i u hi
  data i hi := by
    show (Block.setWord m.heap (56 + 4 * k) w).get! i = _
    rw [Block.get!_setWord_ne (by omega)]
    exact h.data i hi
  apart := by
    rw [List.length_set]
    exact h.apart

/-- The heap grows by `n` words. -/
theorem grow (poison : Bool) {n : Nat} (hn : 56 + 4 * (heap.length + n) + size ≤ 0x6fff0000) :
    ∃ fresh : List UInt32, fresh.length = n ∧
      (m.grow poison (4 * n)).Keeps size stack (heap ++ fresh) := by
  have hsize := h.heapSize
  have hfresh := Block.size_fresh poison (4 * n)
  refine ⟨(List.range n).map fun i =>
    Block.word (m.heap ++ Block.fresh poison (4 * n)) (56 + 4 * (heap.length + i)), by simp, ?_⟩
  refine ⟨h.stackSize, h.stackWords, ?_, ?_, ?_, ?_⟩
  · show (m.heap ++ Block.fresh poison (4 * n)).size = _
    rw [ByteArray.size_append, hfresh, hsize]
    simp only [List.length_append, List.length_map, List.length_range]
    omega
  · intro k w hk
    show Block.word (m.heap ++ Block.fresh poison (4 * n)) _ = w
    by_cases hold : k < heap.length
    · rw [List.getElem?_append_left hold] at hk
      rw [Block.word_append (by omega)]
      exact h.heapWords k w hk
    · rw [List.getElem?_append_right (by omega), List.getElem?_map] at hk
      have hlt : k - heap.length < n := by
        by_contra hge
        rw [List.getElem?_eq_none (by simpa using hge)] at hk
        cases hk
      rw [List.getElem?_range hlt, Option.map_some] at hk
      rw [← Option.some.inj hk]
      congr 2
      omega
  · intro i hi
    show (m.heap ++ Block.fresh poison (4 * n)).get! i = _
    rw [Block.get!_append (by omega)]
    exact h.data i hi
  · simp only [List.length_append, List.length_map, List.length_range]
    omega

/-- A message is read. -/
theorem string {text : Bytes} {o : Nat} (ht : Support.Message text o) :
    m.string (dataBase + UInt32.ofNat o) = .ok text := by
  have hsize := h.heapSize
  obtain ⟨hlength, hbytes, hend⟩ := ht
  apply string_heap (by omega) (by omega)
  · intro i hi
    rw [h.data _ (by omega)]
    exact hbytes i hi
  · rw [h.data _ hlength]
    exact hend

end Keeps

end Memory

end MiniJava
