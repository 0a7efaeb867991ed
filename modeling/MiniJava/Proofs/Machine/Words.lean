import Mathlib.Data.List.GetD
import MiniJava.Machine.Memory

/-!
# Words of memory

What reading a word gives after one was written, after memory has grown, and at the start.

* **`word_setWord_self`**, **`word_setWord_ne`** — a word that was written is read back, and words
  that do not overlap it stay.
* **`word_append`**, **`word_append_right`** — memory that grows keeps its words and gets new ones.
* **`toNat_word`** — a word as the number that its bytes stand for.
* **`size_fresh`**, **`get!_fresh`**, **`word_fresh`** — how much fresh memory there is, and what it
  holds.
-/

namespace MiniJava.Block

/-! ### Bytes -/

theorem get!_set!_self {b : ByteArray} {i : Nat} (h : i < b.size) (c : UInt8) :
    (b.set! i c).get! i = c := by
  obtain ⟨bs⟩ := b
  have hi : i < bs.size := h
  show (bs.set! i c)[i]! = c
  rw [Array.set!_eq_setIfInBounds, getElem!_pos _ _ (by simpa using hi)]
  simp

theorem get!_set!_ne {b : ByteArray} {i j : Nat} (h : i ≠ j) (c : UInt8) :
    (b.set! i c).get! j = b.get! j := by
  obtain ⟨bs⟩ := b
  show (bs.set! i c)[j]! = bs[j]!
  rw [Array.set!_eq_setIfInBounds]
  by_cases hj : j < bs.size
  · rw [getElem!_pos (bs.setIfInBounds i c) j (by simpa using hj), getElem!_pos bs j hj,
      Array.getElem_setIfInBounds_ne hj h]
  · rw [getElem!_neg (bs.setIfInBounds i c) j (by simpa using hj), getElem!_neg bs j hj]

@[simp] theorem size_set! (b : ByteArray) (i : Nat) (c : UInt8) : (b.set! i c).size = b.size := by
  obtain ⟨bs⟩ := b
  show (bs.set! i c).size = bs.size
  rw [Array.set!_eq_setIfInBounds, Array.size_setIfInBounds]

theorem get!_append {a b : ByteArray} {i : Nat} (h : i < a.size) :
    (a ++ b).get! i = a.get! i := by
  have hi : i < a.data.size := h
  have happend : i < (a ++ b).data.size := by
    rw [ByteArray.data_append, Array.size_append]
    omega
  show (a ++ b).data[i]! = a.data[i]!
  rw [getElem!_pos (a ++ b).data i happend, getElem!_pos a.data i hi]
  simp only [ByteArray.data_append, Array.getElem_append_left hi]

theorem get!_eq_getD (b : ByteArray) (i : Nat) : b.get! i = b.data.toList.getD i 0 := by
  obtain ⟨bs⟩ := b
  show bs[i]! = bs.toList.getD i 0
  rw [List.getD_eq_getElem?_getD, Array.getElem?_toList, getElem!_def]
  cases bs[i]? <;> rfl

theorem get!_append_right {a b : ByteArray} {i : Nat} (h : a.size ≤ i) :
    (a ++ b).get! i = b.get! (i - a.size) := by
  rw [get!_eq_getD, get!_eq_getD, ByteArray.data_append, Array.toList_append,
    List.getD_append_right _ _ _ _ h]
  rfl

/-! ### Words -/

@[simp] theorem size_setWord (b : ByteArray) (o : Nat) (w : UInt32) :
    (setWord b o w).size = b.size := by
  simp [setWord]

/-- The bits of a byte that was taken out of a word and put back. -/
theorem getLsbD_byte (w : BitVec 32) (k : Nat) {i : Nat} (hi : i < 32) :
    (((w >>> k).setWidth 8).setWidth 32 <<< k).getLsbD i =
      (decide (k ≤ i ∧ i < k + 8) && w.getLsbD i) := by
  simp only [BitVec.getLsbD_shiftLeft, BitVec.getLsbD_setWidth, BitVec.getLsbD_ushiftRight]
  by_cases hlow : k ≤ i
  · by_cases hhigh : i < k + 8
    · simp [hi, hlow, hhigh, show ¬ i < k by omega, show i - k < 8 by omega,
        show i - k < 32 by omega, show k + (i - k) = i by omega]
    · simp [hlow, hhigh, show ¬ i - k < 8 by omega]
  · simp [hlow, show i < k by omega]

/-- A word is put together from its bytes. -/
theorem join_bytes (w : UInt32) :
    w.toUInt8.toUInt32 ||| (w >>> 8).toUInt8.toUInt32 <<< 8 |||
      (w >>> 16).toUInt8.toUInt32 <<< 16 ||| (w >>> 24).toUInt8.toUInt32 <<< 24 = w := by
  have h8 : (UInt32.toBitVec 8 % 32).toNat = 8 := by decide
  have h16 : (UInt32.toBitVec 16 % 32).toNat = 16 := by decide
  have h24 : (UInt32.toBitVec 24 % 32).toNat = 24 := by decide
  apply UInt32.toBitVec_inj.mp
  apply BitVec.eq_of_getLsbD_eq
  intro i hi
  have h0 : ((w.toBitVec.setWidth 8).setWidth 32).getLsbD i =
      (decide (i < 8) && w.toBitVec.getLsbD i) := by
    simpa using getLsbD_byte w.toBitVec 0 hi
  simp only [UInt32.toBitVec_or, UInt32.toBitVec_shiftLeft, UInt8.toBitVec_toUInt32,
    UInt32.toBitVec_toUInt8, UInt32.toBitVec_shiftRight, BitVec.getLsbD_or, BitVec.shiftLeft_eq',
    BitVec.ushiftRight_eq', h8, h16, h24, h0, getLsbD_byte w.toBitVec _ hi]
  cases w.toBitVec.getLsbD i with
  | false => simp
  | true =>
    simp only [Bool.and_true, Bool.or_eq_true, decide_eq_true_eq]
    omega

/-- The bytes of a word, the lowest first. -/
def byteOf (w : UInt32) : Nat → UInt8
  | 0 => w.toUInt8
  | 1 => (w >>> 8).toUInt8
  | 2 => (w >>> 16).toUInt8
  | _ => (w >>> 24).toUInt8

/-- The bytes of a word that was written. -/
theorem get!_setWord_self {b : ByteArray} {o : Nat} (h : o + 4 ≤ b.size) (w : UInt32) {k : Nat}
    (hk : k < 4) : (setWord b o w).get! (o + k) = byteOf w k := by
  match k with
  | 0 =>
    simp only [setWord, Nat.add_zero]
    rw [get!_set!_ne (by omega), get!_set!_ne (by omega), get!_set!_ne (by omega),
      get!_set!_self (by omega)]
    rfl
  | 1 =>
    simp only [setWord]
    rw [get!_set!_ne (by omega), get!_set!_ne (by omega), get!_set!_self (by simp; omega)]
    rfl
  | 2 =>
    simp only [setWord]
    rw [get!_set!_ne (by omega), get!_set!_self (by simp; omega)]
    rfl
  | 3 =>
    simp only [setWord]
    rw [get!_set!_self (by simp; omega)]
    rfl

theorem word_setWord_self {b : ByteArray} {o : Nat} (h : o + 4 ≤ b.size) (w : UInt32) :
    word (setWord b o w) o = w := by
  have h0 : (setWord b o w).get! o = byteOf w 0 := @get!_setWord_self b o h w 0 (by omega)
  rw [word, h0, get!_setWord_self h w (by omega), get!_setWord_self h w (by omega),
    get!_setWord_self h w (by omega)]
  exact join_bytes w

theorem get!_setWord_ne {b : ByteArray} {o i : Nat} (h : i < o ∨ o + 4 ≤ i) (w : UInt32) :
    (setWord b o w).get! i = b.get! i := by
  simp only [setWord]
  rw [get!_set!_ne (by omega), get!_set!_ne (by omega), get!_set!_ne (by omega),
    get!_set!_ne (by omega)]

theorem word_setWord_ne {b : ByteArray} {o o' : Nat} (h : o' + 4 ≤ o ∨ o + 4 ≤ o') (w : UInt32) :
    word (setWord b o w) o' = word b o' := by
  rw [word, word, get!_setWord_ne (by omega), get!_setWord_ne (by omega),
    get!_setWord_ne (by omega), get!_setWord_ne (by omega)]

theorem word_append {a b : ByteArray} {o : Nat} (h : o + 4 ≤ a.size) :
    word (a ++ b) o = word a o := by
  rw [word, word, get!_append (by omega), get!_append (by omega), get!_append (by omega),
    get!_append (by omega)]

theorem word_append_right {a b : ByteArray} {o : Nat} (h : a.size ≤ o) :
    word (a ++ b) o = word b (o - a.size) := by
  rw [word, word, get!_append_right (by omega), get!_append_right (by omega),
    get!_append_right (by omega), get!_append_right (by omega)]
  rw [Nat.sub_add_comm h, Nat.sub_add_comm h, Nat.sub_add_comm h]

/-- The number that bytes stand for, the lowest first. -/
def littleEndian : Bytes → Nat
  | [] => 0
  | c :: s => c.toNat + 256 * littleEndian s

theorem toNat_word (b : ByteArray) (o : Nat) :
    (word b o).toNat =
      littleEndian [b.get! o, b.get! (o + 1), b.get! (o + 2), b.get! (o + 3)] := by
  unfold word
  generalize b.get! o = c₀
  generalize b.get! (o + 1) = c₁
  generalize b.get! (o + 2) = c₂
  generalize b.get! (o + 3) = c₃
  have h0 := c₀.toNat_lt
  have h1 := c₁.toNat_lt
  have h2 := c₂.toNat_lt
  have h3 := c₃.toNat_lt
  simp only [UInt32.toNat_or, UInt32.toNat_shiftLeft, UInt8.toNat_toUInt32, littleEndian]
  have e1 : (8 : UInt32).toNat % 32 = 8 := by decide
  have e2 : (16 : UInt32).toNat % 32 = 16 := by decide
  have e3 : (24 : UInt32).toNat % 32 = 24 := by decide
  have s1 : c₁.toNat <<< 8 % 2 ^ 32 = c₁.toNat <<< 8 :=
    Nat.mod_eq_of_lt (by rw [Nat.shiftLeft_eq]; omega)
  have s2 : c₂.toNat <<< 16 % 2 ^ 32 = c₂.toNat <<< 16 :=
    Nat.mod_eq_of_lt (by rw [Nat.shiftLeft_eq]; omega)
  have s3 : c₃.toNat <<< 24 % 2 ^ 32 = c₃.toNat <<< 24 :=
    Nat.mod_eq_of_lt (by rw [Nat.shiftLeft_eq]; omega)
  -- each byte lies above all the bits before it, so that joining them is adding them
  rw [e1, e2, e3, s1, s2, s3, Nat.or_comm c₀.toNat, ← Nat.shiftLeft_add_eq_or_of_lt h0,
    Nat.or_comm _ (c₂.toNat <<< 16),
    ← Nat.shiftLeft_add_eq_or_of_lt (by rw [Nat.shiftLeft_eq]; omega),
    Nat.or_comm _ (c₃.toNat <<< 24),
    ← Nat.shiftLeft_add_eq_or_of_lt (by simp only [Nat.shiftLeft_eq]; omega)]
  simp only [Nat.shiftLeft_eq]
  omega

/-! ### Fresh memory -/

theorem size_foldl_push (s : Bytes) (b : ByteArray) :
    (s.foldl ByteArray.push b).size = b.size + s.length := by
  induction s generalizing b with
  | nil => rfl
  | cons c s ih =>
    rw [List.foldl_cons, ih, ByteArray.size_push, List.length_cons]
    omega

theorem size_pushCopies (s : Bytes) (n : Nat) (b : ByteArray) :
    (pushCopies s n b).size = b.size + n * s.length := by
  induction n generalizing b with
  | zero => simp [pushCopies]
  | succ n ih =>
    rw [pushCopies, ih, size_foldl_push, Nat.succ_mul]
    omega

theorem size_fresh (poison : Bool) (size : Nat) : (fresh poison size).size = size := by
  unfold fresh
  have hempty : ByteArray.empty.size = 0 := rfl
  split
  · rw [size_pushCopies, size_pushCopies, hempty]
    show 0 + size / 4 * 4 + size % 4 * 1 = size
    omega
  · rw [size_pushCopies, hempty]
    show 0 + size * 1 = size
    omega

theorem toList_foldl_push (s : Bytes) (b : ByteArray) :
    (s.foldl ByteArray.push b).data.toList = b.data.toList ++ s := by
  induction s generalizing b with
  | nil => simp
  | cons c s ih =>
    rw [List.foldl_cons, ih]
    simp

theorem toList_pushCopies (s : Bytes) (n : Nat) (b : ByteArray) :
    (pushCopies s n b).data.toList = b.data.toList ++ (List.replicate n s).flatten := by
  induction n generalizing b with
  | zero => simp [pushCopies]
  | succ n ih =>
    rw [pushCopies, ih, toList_foldl_push, List.replicate_succ, List.flatten_cons,
      List.append_assoc]

theorem getD_flatten_replicate {s : Bytes} {n i : Nat} (h : i < n * s.length) :
    (List.replicate n s).flatten.getD i 0 = s.getD (i % s.length) 0 := by
  induction n generalizing i with
  | zero => omega
  | succ n ih =>
    rw [List.replicate_succ, List.flatten_cons]
    by_cases hi : i < s.length
    · rw [List.getD_append _ _ _ _ hi, Nat.mod_eq_of_lt hi]
    · have hle : s.length ≤ i := Nat.le_of_not_lt hi
      rw [Nat.succ_mul] at h
      rw [List.getD_append_right _ _ _ _ hle, ih (by omega), Nat.mod_eq_sub_mod hle]

/-- Fresh memory is zero, but for the whole words of poison in it. -/
theorem get!_fresh (poison : Bool) (size i : Nat) :
    (fresh poison size).get! i =
      if poison ∧ i < size / 4 * 4 then poisonBytes.getD (i % 4) 0 else 0 := by
  have hzeros : ∀ n j, (List.replicate n [(0 : UInt8)]).flatten.getD j 0 = 0 := by
    intro n j
    by_cases hj : j < n * [(0 : UInt8)].length
    · rw [getD_flatten_replicate hj]
      simp
    · exact List.getD_eq_default _ _ (by simpa using hj)
  rw [get!_eq_getD]
  cases poison with
  | false =>
    rw [fresh, if_neg Bool.false_ne_true, toList_pushCopies,
      if_neg (fun h => Bool.false_ne_true h.1)]
    exact hzeros size i
  | true =>
    rw [fresh, if_pos rfl, toList_pushCopies, toList_pushCopies]
    have hlength : (List.replicate (size / 4) poisonBytes).flatten.length = size / 4 * 4 := by
      simp [poisonBytes]
    show ((List.replicate (size / 4) poisonBytes).flatten ++ _).getD i 0 = _
    by_cases hi : i < size / 4 * 4
    · rw [if_pos ⟨rfl, hi⟩, List.getD_append _ _ _ _ (by rw [hlength]; exact hi)]
      exact getD_flatten_replicate hi
    · rw [if_neg (fun h => hi h.2), List.getD_append_right _ _ _ _ (by rw [hlength]; omega)]
      exact hzeros _ _

/-- The word that every word of fresh memory holds. -/
theorem word_fresh {poison : Bool} {size o : Nat} (ho : o % 4 = 0) (h : o + 4 ≤ size) :
    word (fresh poison size) o = if poison then 0xdeadbeef else 0 := by
  have hbyte : ∀ k < 4, (fresh poison size).get! (o + k) =
      if poison then poisonBytes.getD k 0 else 0 := by
    intro k hk
    rw [get!_fresh, show (o + k) % 4 = k by omega]
    cases poison with
    | false => rfl
    | true => exact if_pos ⟨rfl, by omega⟩
  have h0 := hbyte 0 (by omega)
  rw [Nat.add_zero] at h0
  rw [word, h0, hbyte 1 (by omega), hbyte 2 (by omega), hbyte 3 (by omega)]
  cases poison with
  | false => rfl
  | true => decide

end MiniJava.Block
