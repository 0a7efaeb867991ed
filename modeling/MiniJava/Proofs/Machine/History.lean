import MiniJava.Assembly.Assemble
import MiniJava.Proofs.Machine.Effects
import MiniJava.Proofs.Machine.Words

/-!
# What memory remembers

Over a whole run, a word of memory is what was stored there last.  A word to which nothing was
stored is what it was at first: a word of the program's data, or a word of fresh memory, be it there
from the start or allocated since.

* **`Reached`** — the states of a run, each with the stores up to it.
* **`Image.initialWord`** — what a word is before anything is stored there.
* **`Remembers`** — what holds of memory after some stores; `Remembers.step`: each step keeps it.
* **`word_is_last_stored`** — the statement for whole runs.
-/

namespace MiniJava

namespace Memory

/-! ### Places -/

section Places

variable {m : Memory} {a : UInt32} {n : Nat} {place : Place}

/-- Bytes are in the heap, or else on the stack. -/
theorem place?_cases (h : m.place? a n = some place) :
    (∃ o, a.toNat = dataBase.toNat + o ∧ o + n ≤ m.heap.size ∧ place = ⟨.heap, o⟩) ∨
      ∃ o, a.toNat + m.stack.size = stackEnd + o ∧ o + n ≤ m.stack.size ∧ place = ⟨.stack, o⟩ := by
  unfold place? at h
  simp only at h
  split at h
  · exact .inl ⟨a.toNat - dataBase.toNat, by omega, by omega, (Option.some.inj h).symm⟩
  split at h
  · exact .inr ⟨a.toNat + m.stack.size - stackEnd, by omega, by omega, (Option.some.inj h).symm⟩
  · cases h

theorem wordPlace_eq_ok (h : m.wordPlace a = .ok place) :
    a.toNat % 4 = 0 ∧ m.place? a 4 = some place := by
  unfold wordPlace at h
  split at h
  · cases h
  · rename_i haligned
    have hmod : a % 4 = 0 := not_not.mp haligned
    have hnat : a.toNat % 4 = 0 := by
      have := congrArg UInt32.toNat hmod
      rwa [UInt32.toNat_mod] at this
    cases hplace : m.place? a 4 with
    | none =>
      rw [hplace] at h
      cases h
    | some q =>
      rw [hplace] at h
      exact ⟨hnat, congrArg some (Except.ok.inj h)⟩

theorem wordPlace_of_place? (ha : a.toNat % 4 = 0) (hplace : m.place? a 4 = some place) :
    m.wordPlace a = .ok place := by
  have hmod : a % 4 = 0 := by
    apply UInt32.toNat_inj.mp
    rw [UInt32.toNat_mod]
    exact ha
  rw [wordPlace, if_neg (not_not.mpr hmod), hplace]

theorem word_eq_ok {w : UInt32} (h : m.word a = .ok w) :
    ∃ place, m.wordPlace a = .ok place ∧ w = m.wordAt place := by
  unfold word at h
  cases hplace : m.wordPlace a with
  | error f =>
    rw [hplace] at h
    cases h
  | ok place =>
    rw [hplace] at h
    exact ⟨place, rfl, (Except.ok.inj h).symm⟩

/-- A word of the heap. -/
theorem wordPlace_heap_of {o : Nat} (ha : a.toNat % 4 = 0) (hao : a.toNat = dataBase.toNat + o)
    (hfits : o + 4 ≤ m.heap.size) : m.wordPlace a = .ok ⟨.heap, o⟩ := by
  apply wordPlace_of_place? ha
  rw [place?, if_pos (by omega), hao, Nat.add_sub_cancel_left]

/-- A word of the stack that lies above the heap. -/
theorem wordPlace_stack_of {o : Nat} (ha : a.toNat % 4 = 0)
    (hao : a.toNat + m.stack.size = stackEnd + o) (hfits : o + 4 ≤ m.stack.size)
    (habove : dataBase.toNat + m.heap.size ≤ a.toNat) (hsize : m.stack.size ≤ stackEnd) :
    m.wordPlace a = .ok ⟨.stack, o⟩ := by
  apply wordPlace_of_place? ha
  rw [place?, if_neg (by omega), if_pos (by omega), hao, Nat.add_sub_cancel_left]

/-- Where a word is kept hangs on the sizes of the segments only. -/
theorem wordPlace_congr {m' : Memory} (hheap : m'.heap.size = m.heap.size)
    (hstack : m'.stack.size = m.stack.size) : m'.wordPlace a = m.wordPlace a := by
  unfold wordPlace place?
  rw [hheap, hstack]

theorem size_heap_setWord (place : Place) (w : UInt32) :
    (m.setWord place w).heap.size = m.heap.size := by
  unfold setWord
  split
  · exact Block.size_setWord _ _ _
  · rfl

theorem size_stack_setWord (place : Place) (w : UInt32) :
    (m.setWord place w).stack.size = m.stack.size := by
  unfold setWord
  split
  · rfl
  · exact Block.size_setWord _ _ _

end Places

/-! ### Stores -/

section Stores

variable {m : Memory} {a b : UInt32} {place place' : Place}

/-- The word at a place to which one was stored. -/
theorem wordAt_setWord_self (h : m.wordPlace a = .ok place) (w : UInt32) :
    (m.setWord place w).wordAt place = w := by
  obtain ⟨-, hplace⟩ := wordPlace_eq_ok h
  rcases place?_cases hplace with ⟨o, -, hfits, rfl⟩ | ⟨o, -, hfits, rfl⟩
  · exact Block.word_setWord_self hfits w
  · exact Block.word_setWord_self hfits w

/-- A store leaves the words at all other addresses alone. -/
theorem wordAt_setWord_ne (h : m.wordPlace a = .ok place) (h' : m.wordPlace b = .ok place')
    (hne : a ≠ b) (w : UInt32) : (m.setWord place w).wordAt place' = m.wordAt place' := by
  obtain ⟨ha, hplace⟩ := wordPlace_eq_ok h
  obtain ⟨hb, hplace'⟩ := wordPlace_eq_ok h'
  have hapart : a.toNat ≠ b.toNat := fun heq => hne (UInt32.toNat_inj.mp heq)
  rcases place?_cases hplace with ⟨o, hao, -, rfl⟩ | ⟨o, hao, -, rfl⟩ <;>
    rcases place?_cases hplace' with ⟨o', hbo, -, rfl⟩ | ⟨o', hbo, -, rfl⟩
  · exact @Block.word_setWord_ne _ o o' (by omega) w
  · rfl
  · rfl
  · exact @Block.word_setWord_ne _ o o' (by omega) w

end Stores

/-! ### Growth -/

section Growth

variable {m : Memory} {a : UInt32} {place : Place} {poison : Bool} {n : Nat}

theorem size_heap_grow : (m.grow poison n).heap.size = m.heap.size + n := by
  show (m.heap ++ Block.fresh poison n).size = _
  rw [ByteArray.size_append, Block.size_fresh]

/-- Memory that grows keeps its words where they were, if the heap stays below the stack. -/
theorem wordPlace_grow (h : m.wordPlace a = .ok place)
    (hapart : dataBase.toNat + (m.heap.size + n) + m.stack.size ≤ stackEnd) :
    (m.grow poison n).wordPlace a = .ok place ∧ (m.grow poison n).wordAt place = m.wordAt place := by
  obtain ⟨ha, hplace⟩ := wordPlace_eq_ok h
  rcases place?_cases hplace with ⟨o, hao, hfits, rfl⟩ | ⟨o, hao, hfits, rfl⟩
  · refine ⟨?_, Block.word_append hfits⟩
    exact wordPlace_heap_of ha hao (by rw [size_heap_grow]; omega)
  · refine ⟨?_, rfl⟩
    have hstack : (m.grow poison n).stack.size = m.stack.size := rfl
    exact wordPlace_stack_of ha hao hfits (by rw [size_heap_grow]; omega) (by omega)

/-- A word that memory has after it has grown was there before, or is fresh. -/
theorem wordPlace_grow_cases (h : (m.grow poison n).wordPlace a = .ok place)
    (hapart : dataBase.toNat + (m.heap.size + n) + m.stack.size ≤ stackEnd)
    (hheap : m.heap.size % 4 = 0) :
    m.wordPlace a = .ok place ∨
      ((∀ place', m.wordPlace a ≠ .ok place') ∧ dataBase.toNat + m.heap.size ≤ a.toNat ∧
        (m.grow poison n).wordAt place = if poison then 0xdeadbeef else 0) := by
  have hbase : dataBase.toNat % 4 = 0 := by decide
  obtain ⟨ha, hplace⟩ := wordPlace_eq_ok h
  rcases place?_cases hplace with ⟨o, hao, hfits, rfl⟩ | ⟨o, hao, hfits, rfl⟩
  · rw [size_heap_grow] at hfits
    by_cases hold : o + 4 ≤ m.heap.size
    · exact .inl (wordPlace_heap_of ha hao hold)
    · refine .inr ⟨?_, by omega, ?_⟩
      · intro place' h'
        obtain ⟨-, hplace'⟩ := wordPlace_eq_ok h'
        rcases place?_cases hplace' with ⟨o', hao', hfits', -⟩ | ⟨o', hao', -, -⟩
        · omega
        · omega
      · show Block.word (m.heap ++ Block.fresh poison n) o = _
        rw [Block.word_append_right (by omega)]
        exact Block.word_fresh (by omega) (by omega)
  · have hstack : (m.grow poison n).stack.size = m.stack.size := rfl
    exact .inl (wordPlace_stack_of ha hao hfits (by omega) (by omega))

end Growth

end Memory

/-! ### Initial words -/

/-- The size of the data of a program, filled up to whole words. -/
def Image.dataSize (p : Image) : Nat := (p.data.length + 3) / 4 * 4

/-- What a word of memory is before anything is stored there: the word of the data at its address,
filled up with zeros, or else a word of fresh memory. -/
def Image.initialWord (p : Image) (poison : Bool) (a : UInt32) : UInt32 :=
  let o := a.toNat - dataBase.toNat
  if dataBase.toNat ≤ a.toNat ∧ o < p.dataSize then
    UInt32.ofNat (Block.littleEndian ((p.data.drop o).take 4))
  else if poison then 0xdeadbeef else 0

theorem Block.littleEndian_take (s : Bytes) :
    littleEndian (s.take 4) =
      littleEndian [s.getD 0 0, s.getD 1 0, s.getD 2 0, s.getD 3 0] := by
  match s with
  | [] => rfl
  | [a] => rfl
  | [a, b] => rfl
  | [a, b, c] => rfl
  | a :: b :: c :: d :: s => rfl

namespace Memory

variable (p : Image) (poison : Bool) (size : Nat)

theorem size_heap_load : (Memory.load p.data poison size).heap.size = p.dataSize := by
  show (p.data ++ Bytes.replicate ((4 - p.data.length % 4) % 4) 0).toByteArray.size = _
  rw [List.size_toByteArray, List.length_append, Bytes.replicate, List.length_replicate]
  unfold Image.dataSize
  omega

theorem get!_heap_load (i : Nat) : (Memory.load p.data poison size).heap.get! i = p.data.getD i 0 := by
  show (p.data ++ Bytes.replicate ((4 - p.data.length % 4) % 4) 0).toByteArray.get! i = _
  rw [Block.get!_eq_getD, List.toList_data_toByteArray]
  by_cases hi : i < p.data.length
  · rw [List.getD_append _ _ _ _ hi]
  · have hle : p.data.length ≤ i := Nat.le_of_not_lt hi
    rw [List.getD_append_right _ _ _ _ hle, List.getD_eq_default p.data _ hle,
      List.getD_eq_getElem?_getD, Bytes.replicate, List.getElem?_replicate]
    split
    · rfl
    · rfl

/-- A word of the data. -/
theorem word_heap_load (o : Nat) :
    Block.word (Memory.load p.data poison size).heap o =
      UInt32.ofNat (Block.littleEndian ((p.data.drop o).take 4)) := by
  have hget : ∀ k, (p.data.drop o).getD k 0 = (Memory.load p.data poison size).heap.get! (o + k) := by
    intro k
    rw [get!_heap_load, List.getD_eq_getElem?_getD, List.getElem?_drop, List.getD_eq_getElem?_getD]
  rw [Block.littleEndian_take, hget, hget, hget, hget, Nat.add_zero, ← Block.toNat_word,
    UInt32.ofNat_toNat]

end Memory

/-! ### Runs -/

namespace Machine

/-- The states that steps lead to from `s`, each with what was stored on the way: addresses and
words, the last one first. -/
inductive Reached (p : Image) (cfg : Config) (s : State) : List (UInt32 × UInt32) → State → Prop
  | start : Reached p cfg s [] s
  | step {stores : List (UInt32 × UInt32)} {s₁ s₂ : State} : Reached p cfg s stores s₁ →
      Machine.step p cfg s₁ = .done s₂ → Reached p cfg s ((store? p s₁).toList ++ stores) s₂

/-- What holds of the memory of a program after some stores. -/
structure Remembers (p : Image) (cfg : Config) (stores : List (UInt32 × UInt32)) (m : Memory) :
    Prop where
  stackSize : m.stack.size = cfg.stackBytes
  heapWhole : m.heap.size % 4 = 0
  apart : dataBase.toNat + m.heap.size + m.stack.size ≤ stackEnd
  dataFits : p.dataSize ≤ m.heap.size
  /-- Every word is the one that was stored last, or the first one. -/
  words : ∀ a place, m.wordPlace a = .ok place →
    m.wordAt place = (stores.lookup a).getD (p.initialWord cfg.poison a)
  /-- There is memory wherever something was stored. -/
  stored : ∀ a w, (a, w) ∈ stores → ∃ place, m.wordPlace a = .ok place

variable {p : Image} {cfg : Config}

/-- The segments of a program that keeps to its limits do not meet. -/
def Config.KeepsApart (cfg : Config) (p : Image) : Prop :=
  dataBase.toNat + max cfg.heapBytes p.dataSize ≤ (0x80000000 - cfg.stackBytes : Int)

theorem remembers_start (hwhole : cfg.stackBytes % 4 = 0) (hapart : cfg.KeepsApart p) :
    Remembers p cfg [] (Memory.load p.data cfg.poison cfg.stackBytes) := by
  have hend : stackEnd = 0x80000000 := rfl
  have hstack : (Memory.load p.data cfg.poison cfg.stackBytes).stack.size = cfg.stackBytes :=
    Block.size_fresh _ _
  have hheap := Memory.size_heap_load p cfg.poison cfg.stackBytes
  have hdata : (p.dataSize : Int) ≤ max cfg.heapBytes p.dataSize := Int.le_max_right _ _
  unfold Config.KeepsApart at hapart
  have hmeet : dataBase.toNat + p.dataSize + cfg.stackBytes ≤ stackEnd := by omega
  refine ⟨hstack, ?_, ?_, ?_, ?_, ?_⟩
  · rw [hheap, Image.dataSize]
    omega
  · rw [hheap, hstack]
    exact hmeet
  · exact Nat.le_of_eq hheap.symm
  · intro a place hplace
    have hbase : dataBase.toNat % 4 = 0 := by decide
    obtain ⟨ha, hplace⟩ := Memory.wordPlace_eq_ok hplace
    show _ = p.initialWord cfg.poison a
    rcases Memory.place?_cases hplace with ⟨o, hao, hfits, rfl⟩ | ⟨o, hao, hfits, rfl⟩
    · rw [hheap] at hfits
      rw [Image.initialWord, if_pos (by omega), hao, Nat.add_sub_cancel_left]
      exact Memory.word_heap_load p cfg.poison cfg.stackBytes o
    · rw [hstack] at hao hfits
      rw [Image.initialWord, if_neg (by omega)]
      exact Block.word_fresh (o := o) (by omega) hfits
  · intro a w h
    cases h

section Step

variable {stores : List (UInt32 × UInt32)} {m : Memory}

/-- A store puts one word in front of what memory remembers. -/
theorem Remembers.setWord (h : Remembers p cfg stores m) {a : UInt32} {place : Place}
    (hplace : m.wordPlace a = .ok place) (w : UInt32) :
    Remembers p cfg ((a, w) :: stores) (m.setWord place w) ∧
      ∀ b, (m.setWord place w).wordPlace b = m.wordPlace b := by
  have hheap := @Memory.size_heap_setWord m place w
  have hstack := @Memory.size_stack_setWord m place w
  have hsame : ∀ b, (m.setWord place w).wordPlace b = m.wordPlace b :=
    fun b => Memory.wordPlace_congr hheap hstack
  refine ⟨⟨?_, ?_, ?_, ?_, ?_, ?_⟩, hsame⟩
  · rw [hstack]
    exact h.stackSize
  · rw [hheap]
    exact h.heapWhole
  · rw [hheap, hstack]
    exact h.apart
  · rw [hheap]
    exact h.dataFits
  · intro b place' hplace'
    rw [hsame] at hplace'
    rw [List.lookup_cons]
    by_cases hb : b = a
    · subst hb
      rw [hplace] at hplace'
      obtain rfl := Except.ok.inj hplace'
      rw [beq_self_eq_true]
      exact Memory.wordAt_setWord_self hplace w
    · rw [beq_false_of_ne hb, Memory.wordAt_setWord_ne hplace hplace' (Ne.symm hb)]
      exact h.words b place' hplace'
  · intro b u hmem
    rw [hsame]
    rcases List.mem_cons.mp hmem with heq | hmem
    · obtain ⟨rfl, -⟩ := Prod.mk.inj heq
      exact ⟨place, hplace⟩
    · exact h.stored b u hmem

/-- Words that are added to the heap are fresh, and nothing was stored to them. -/
theorem Remembers.grow (hapart : cfg.KeepsApart p) (h : Remembers p cfg stores m) {n : Nat}
    (hroom : (m.heap.size + 4 * n : Int) ≤ cfg.heapBytes) :
    Remembers p cfg stores (m.grow cfg.poison (4 * n)) ∧
      ∀ b place, m.wordPlace b = .ok place →
        (m.grow cfg.poison (4 * n)).wordPlace b = .ok place := by
  have hlimit : cfg.heapBytes ≤ max cfg.heapBytes p.dataSize := Int.le_max_left _ _
  have hend : stackEnd = 0x80000000 := rfl
  have hstack := h.stackSize
  have hmeet : dataBase.toNat + (m.heap.size + 4 * n) + m.stack.size ≤ stackEnd := by
    unfold Config.KeepsApart at hapart
    omega
  have hsize : (m.grow cfg.poison (4 * n)).heap.size = m.heap.size + 4 * n :=
    Memory.size_heap_grow
  have hkept : ∀ b place, m.wordPlace b = .ok place →
      (m.grow cfg.poison (4 * n)).wordPlace b = .ok place :=
    fun b place hplace => (Memory.wordPlace_grow hplace hmeet).1
  have hwhole := h.heapWhole
  have hdata := h.dataFits
  refine ⟨⟨hstack, ?_, ?_, ?_, ?_, ?_⟩, hkept⟩
  · rw [hsize]
    omega
  · rw [hsize]
    exact Nat.add_assoc .. ▸ hmeet
  · rw [hsize]
    omega
  · intro b place hplace
    rcases Memory.wordPlace_grow_cases hplace hmeet hwhole with hold | ⟨hnew, hbeyond, hfresh⟩
    · rw [(Memory.wordPlace_grow hold hmeet).2]
      exact h.words b place hold
    · -- where there was no memory nothing was stored
      have hunstored : stores.lookup b = none := by
        rw [List.lookup_eq_none_iff]
        intro entry hentry
        refine bne_iff_ne.mpr ?_
        rintro rfl
        obtain ⟨place', hplace'⟩ := h.stored _ _ hentry
        exact hnew place' hplace'
      have hbare : ¬ (dataBase.toNat ≤ b.toNat ∧ b.toNat - dataBase.toNat < p.dataSize) := by
        omega
      rw [hfresh, hunstored, Option.getD_none, Image.initialWord, if_neg hbare]
  · intro b u hmem
    obtain ⟨place, hplace⟩ := h.stored b u hmem
    exact ⟨place, hkept b place hplace⟩

/-- A step keeps what memory remembers, and the words that there are. -/
theorem Remembers.step {s s' : State} (hapart : cfg.KeepsApart p)
    (h : Remembers p cfg stores s.memory) (hstep : Machine.step p cfg s = .done s') :
    Remembers p cfg ((store? p s).toList ++ stores) s'.memory ∧
      ∀ a place, s.memory.wordPlace a = .ok place → s'.memory.wordPlace a = .ok place := by
  have heffect := memoryEffect_of_step hstep
  generalize s'.memory = m' at heffect
  cases heffect with
  | keep hnone =>
    rw [hnone]
    exact ⟨h, fun a place hplace => hplace⟩
  | store hstore hplace =>
    rw [hstore]
    obtain ⟨hremembers, hsame⟩ := h.setWord hplace _
    exact ⟨hremembers, fun b place' hplace' => (hsame b).trans hplace'⟩
  | grow hnone hroom =>
    rw [hnone]
    exact h.grow hapart hroom

end Step

/-- A run keeps what memory remembers, and the words that there are. -/
theorem Reached.keeps {earlier stores : List (UInt32 × UInt32)} {s s' : State}
    (hapart : cfg.KeepsApart p) (hs : Remembers p cfg earlier s.memory)
    (h : Reached p cfg s stores s') :
    Remembers p cfg (stores ++ earlier) s'.memory ∧
      ∀ a place, s.memory.wordPlace a = .ok place → s'.memory.wordPlace a = .ok place := by
  induction h with
  | start => exact ⟨hs, fun a place hplace => hplace⟩
  | step _ hstep ih =>
    obtain ⟨hremembers, hkept⟩ := ih.1.step hapart hstep
    rw [List.append_assoc]
    exact ⟨hremembers, fun a place hplace => hkept a place (ih.2 a place hplace)⟩

theorem Reached.remembers {limit : Option Nat} {stores : List (UInt32 × UInt32)} {s : State}
    (hwhole : cfg.stackBytes % 4 = 0) (hapart : cfg.KeepsApart p)
    (h : Reached p cfg (State.start p cfg limit) stores s) : Remembers p cfg stores s.memory := by
  have hkept := (h.keeps hapart (remembers_start hwhole hapart)).1
  rwa [List.append_nil] at hkept

/-- In every state of a run, a word that can be read is the one that was stored there last, or the
first one if nothing was stored there; and it can be read from then on. -/
theorem word_is_last_stored {limit : Option Nat} (hwhole : cfg.stackBytes % 4 = 0)
    (hapart : cfg.KeepsApart p) {stores : List (UInt32 × UInt32)} {s : State}
    (h : Reached p cfg (State.start p cfg limit) stores s) :
    (∀ a w, s.memory.word a = .ok w →
      w = (stores.lookup a).getD (p.initialWord cfg.poison a)) ∧
    ∀ later s', Reached p cfg s later s' →
      ∀ a w, s.memory.word a = .ok w → ∃ w', s'.memory.word a = .ok w' := by
  have hremembers := h.remembers hwhole hapart
  constructor
  · intro a w hw
    obtain ⟨place, hplace, rfl⟩ := Memory.word_eq_ok hw
    exact hremembers.words a place hplace
  · intro later s' hlater a w hw
    obtain ⟨place, hplace, -⟩ := Memory.word_eq_ok hw
    have hplace' := (hlater.keeps hapart hremembers).2 a place hplace
    refine ⟨s'.memory.wordAt place, ?_⟩
    rw [Memory.word, hplace']

/-- The state after `n` steps, if none of them fails, and what was stored by then. -/
def historyWithin (p : Image) (cfg : Config) : (n : Nat) → List (UInt32 × UInt32) → State →
    Option (List (UInt32 × UInt32) × State)
  | 0, stores, s => some (stores, s)
  | n + 1, stores, s =>
      match Machine.step p cfg s with
      | .done s' => historyWithin p cfg n ((store? p s).toList ++ stores) s'
      | .fault _ _ => none

theorem Reached.of_historyWithin {s₀ : State} (n : Nat) {stores stores' : List (UInt32 × UInt32)}
    {s s' : State} (h : Reached p cfg s₀ stores s)
    (hn : historyWithin p cfg n stores s = some (stores', s')) : Reached p cfg s₀ stores' s' := by
  induction n generalizing stores s with
  | zero =>
    obtain ⟨rfl, rfl⟩ := Prod.mk.inj (Option.some.inj hn)
    exact h
  | succ n ih =>
    unfold historyWithin at hn
    split at hn
    · rename_i s₁ hstep
      exact ih (.step h hstep) hn
    · cases hn

/-- A program that stores to its data twice, to its stack once, and allocates a word. -/
def scribbling : Bytes :=
  ".data\nx: .word 7, 8\n.text\nmain: la $t1, x\nli $t0, 5\nsw $t0, 0($t1)\nli $t0, 6\n" ++
    "sw $t0, 0($t1)\nsw $t0, 0($sp)\nli $a0, 4\nli $v0, 9\nsyscall\n"

/-- Little memory, filled with poison. -/
def Config.tight : Config := ⟨0, 8, 12, true⟩

theorem word_is_last_stored_scribbling :
    ∃ p stores s, assemble scribbling = .ok p ∧
      Reached p .tight (State.start p .tight none) stores s ∧
      stores = [(0x7ffffffc, 6), (0x10010000, 6), (0x10010000, 5)] ∧
      s.memory.word 0x10010000 = .ok 6 ∧ s.memory.word 0x10010004 = .ok 8 ∧
      s.memory.word 0x10010008 = .ok 0xdeadbeef ∧ s.memory.word 0x7ffffff8 = .ok 0xdeadbeef := by
  have hrun : (assemble scribbling).toOption.any fun p =>
      p.data = [7, 0, 0, 0, 8, 0, 0, 0] ∧
      (historyWithin p .tight 9 [] (State.start p .tight none)).any fun (stores, s) =>
        stores = [(0x7ffffffc, 6), (0x10010000, 6), (0x10010000, 5)] ∧
        [0x10010000, 0x10010004, 0x10010008, 0x7ffffff8].all fun a =>
          (s.memory.word a).toBool := by
    decide +kernel
  cases hasm : assemble scribbling with
  | error e =>
    rw [hasm] at hrun
    cases hrun
  | ok p =>
    rw [hasm] at hrun
    obtain ⟨hdata, hrun⟩ := of_decide_eq_true hrun
    cases hhistory : historyWithin p .tight 9 [] (State.start p .tight none) with
    | none =>
      rw [hhistory] at hrun
      cases hrun
    | some last =>
      obtain ⟨stores, s⟩ := last
      rw [hhistory] at hrun
      obtain ⟨hstores, hreadable⟩ := of_decide_eq_true hrun
      have hreached := Reached.of_historyWithin 9 .start hhistory
      have hsize : p.dataSize = 8 := by rw [Image.dataSize, hdata]; rfl
      have hapart : Config.tight.KeepsApart p := by
        unfold Config.KeepsApart
        rw [hsize]
        decide
      have hlast := (word_is_last_stored (by decide) hapart hreached).1
      have hword : ∀ a ∈ [(0x10010000 : UInt32), 0x10010004, 0x10010008, 0x7ffffff8],
          s.memory.word a = .ok ((stores.lookup a).getD (p.initialWord true a)) := by
        intro a ha
        have hok := List.all_eq_true.mp hreadable a ha
        cases hw : s.memory.word a with
        | error f =>
          rw [hw] at hok
          cases hok
        | ok w => exact congrArg Except.ok (hlast a w hw)
      refine ⟨p, stores, s, rfl, hreached, hstores, ?_⟩
      simp only [List.mem_cons, forall_eq_or_imp, List.not_mem_nil, false_imp_iff, implies_true,
        and_true, hstores, Image.initialWord, hsize, hdata] at hword
      exact hword

end Machine

end MiniJava
