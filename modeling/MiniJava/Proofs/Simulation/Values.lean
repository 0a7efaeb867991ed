import MiniJava.Machine.Step
import MiniJava.Proofs.Machine.Memory
import MiniJava.Proofs.Semantics

/-!
# Values as words

How the values of the interpreter are kept in registers and memory, and that the machine computes
with the words what the interpreter computes with the values.

* **`word`** — the word of a value: `true` is all ones, null is zero, a reference is an address.
* **`word_number`**, **`word_not`**, **`word_apply`** — numbers and operators.
* **`stackAddress_offset`**, **`heapAddress_offset`** — addresses with offsets.
-/

namespace MiniJava.Simulation

open Machine Semantics

/-! ### Words -/

/-- The word of a value. -/
def word : Value → UInt32
  | .int n => n.toUInt32
  | .bool b => if b then 0xFFFFFFFF else 0
  | .null => 0
  | .object r => heapAddress r
  | .array r => heapAddress r

theorem toUInt32_ofInt (n : Int) : (Int32.ofInt n).toUInt32 = UInt32.ofInt n := by
  apply UInt32.toBitVec_inj.mp
  apply BitVec.eq_of_toNat_eq
  show (BitVec.ofInt 32 n).toNat = (UInt32.ofInt n).toNat
  rw [BitVec.toNat_ofInt]
  show _ = (UInt32.ofNat (n % 0x100000000).toNat).toNat
  have hlt : (n % 0x100000000).toNat < UInt32.size := by
    show _ < 4294967296
    omega
  rw [UInt32.toNat_ofNat_of_lt' hlt]
  rfl

theorem signed_toUInt32 (n : Int32) : signed n.toUInt32 = n.toInt := rfl

theorem ofNat_eq_ofInt (n : Nat) : UInt32.ofNat n = UInt32.ofInt n := by
  show _ = UInt32.ofNat ((n : Int) % 0x100000000).toNat
  apply UInt32.toNat.inj
  rw [UInt32.toNat_ofNat', UInt32.toNat_ofNat']
  omega

theorem toUInt32_eq (n : Int32) : n.toUInt32 = UInt32.ofInt n.toInt := by
  rw [← toUInt32_ofInt, Int32.ofInt_toInt]

theorem signed_ofInt {n : Int} (hlow : -0x80000000 ≤ n) (hhigh : n < 0x80000000) :
    signed (UInt32.ofInt n) = n := by
  rw [← toUInt32_ofInt, signed_toUInt32]
  exact Int32.toInt_ofInt_of_le hlow hhigh

theorem ofInt_congr {n m : Int} (h : n % 0x100000000 = m % 0x100000000) :
    UInt32.ofInt n = UInt32.ofInt m := by
  show UInt32.ofNat (n % 0x100000000).toNat = UInt32.ofNat (m % 0x100000000).toNat
  rw [h]

theorem ofInt_signed (w : UInt32) : UInt32.ofInt (signed w) = w := (toUInt32_eq w.toInt32).symm

theorem signed_le (w : UInt32) : signed w ≤ 0x7fffffff := Int32.toInt_le w.toInt32

theorem signed_of_toNat {w : UInt32} {n : Nat} (h : w.toNat = n) (hlt : n < 0x80000000) :
    signed w = n := by
  have hw : w = UInt32.ofInt n := by
    rw [← ofNat_eq_ofInt, ← h, UInt32.ofNat_toNat]
  rw [hw]
  exact signed_ofInt (by omega) (by omega)

/-- A shift by two places multiplies by four. -/
theorem shiftLeft_two (n : Int) :
    UInt32.ofInt n <<< (UInt32.ofInt 2 &&& 31) = UInt32.ofInt (4 * n) := by
  have hfour : (UInt32.ofInt 4).toNat = 4 := rfl
  have htwo : (UInt32.ofInt 2 &&& 31).toNat = 2 := rfl
  apply UInt32.toNat.inj
  rw [UInt32.ofInt_mul, UInt32.toNat_mul, UInt32.toNat_shiftLeft, hfour, htwo, Nat.shiftLeft_eq,
    Nat.mul_comm]

theorem word_number {v : Value} {n : Int32} (h : v.number? = some n) : word v = n.toUInt32 := by
  cases v with
  | int m =>
    obtain rfl := Option.some.inj h
    rfl
  | bool b =>
    obtain rfl := Option.some.inj h
    cases b with
    | true => rfl
    | false => rfl
  | _ => cases h

theorem signed_word {v : Value} {n : Int32} (h : v.number? = some n) :
    signed (word v) = n.toInt := by
  rw [word_number h]
  rfl

theorem word_eq_zero_iff {v : Value} {n : Int32} (h : v.number? = some n) :
    word v = 0 ↔ n = 0 := by
  rw [word_number h]
  constructor
  · intro hzero
    exact congrArg UInt32.toInt32 hzero
  · rintro rfl
    rfl

theorem heapAddress_ne_zero (r : Ref) : heapAddress r ≠ 0 := by
  intro hzero
  have hint := toNat_ofInt (n := 0x10010038 + 4 * r) (by omega) (by omega)
  rw [heapAddress] at hzero
  rw [hzero] at hint
  have hnat : (0 : UInt32).toNat = 0 := rfl
  omega

/-! ### Operators -/

/-- What the code of an operator computes. -/
def combined : BinaryOp → (x y : UInt32) → UInt32
  | .and, x, y => x &&& y
  | .less, x, y => 0 - if signed x < signed y then 1 else 0
  | .plus, x, y => x + y
  | .minus, x, y => x - y
  | .times, x, y => UInt32.ofInt (signed x * signed y)
  | .other _, _, _ => 0

theorem word_not {v v' : Value} (h : v.not? = some v') : word v' = ~~~(word v ||| word v) := by
  rw [UInt32.or_self]
  cases v with
  | int n =>
    obtain rfl := Option.some.inj h
    exact Int32.toUInt32_not n
  | bool b =>
    obtain rfl := Option.some.inj h
    cases b with
    | true => rfl
    | false => rfl
  | _ => cases h

theorem ofInt_signed_mul (m n : Int32) :
    UInt32.ofInt (m.toInt * n.toInt) = (m * n).toUInt32 := by
  rw [← toUInt32_ofInt, Int32.ofInt_mul, Int32.ofInt_toInt, Int32.ofInt_toInt]

/-- An operator on numbers. -/
theorem word_apply_numbers {op : BinaryOp} {m n : Int32} {v : Value}
    (h : (match op with
      | .and => some (Value.int (m &&& n))
      | .less => some (.bool (m < n))
      | .plus => some (.int (m + n))
      | .minus => some (.int (m - n))
      | .times => some (.int (m * n))
      | .other _ => none) = some v) :
    word v = combined op m.toUInt32 n.toUInt32 := by
  cases op with
  | and =>
    obtain rfl := Option.some.inj h
    exact Int32.toUInt32_and m n
  | less =>
    obtain rfl := Option.some.inj h
    show (if decide (m < n) = true then 0xFFFFFFFF else 0) = 0 - if m.toInt < n.toInt then 1 else 0
    by_cases hlt : m < n
    · rw [if_pos (decide_eq_true hlt), if_pos (Int32.lt_iff_toInt_lt.mp hlt)]
      rfl
    · rw [if_neg (by simpa using hlt), if_neg (fun hlt' => hlt (Int32.lt_iff_toInt_lt.mpr hlt'))]
      rfl
  | plus =>
    obtain rfl := Option.some.inj h
    exact Int32.toUInt32_add m n
  | minus =>
    obtain rfl := Option.some.inj h
    exact Int32.toUInt32_sub m n
  | times =>
    obtain rfl := Option.some.inj h
    exact (ofInt_signed_mul m n).symm
  | other s => cases h

/-- The machine computes with words what the interpreter computes with values. -/
theorem word_apply {op : BinaryOp} {x y v : Value} (h : apply op x y = some v) :
    word v = combined op (word x) (word y) := by
  unfold apply at h
  split at h
  · rename_i a b
    obtain rfl := Option.some.inj h
    cases a with
    | true => cases b <;> rfl
    | false => cases b <;> rfl
  · obtain ⟨m, hm, h⟩ := Option.bind_eq_some_iff.mp h
    obtain ⟨n, hn, h⟩ := Option.bind_eq_some_iff.mp h
    rw [word_number hm, word_number hn]
    exact word_apply_numbers h

/-! ### Addresses with offsets -/

theorem stackAddress_offset {j j' : Nat} {o : Int} (h : o = 4 * (j : Int) - 4 * j') :
    stackAddress j + UInt32.ofInt o = stackAddress j' := by
  rw [stackAddress, stackAddress, ← UInt32.ofInt_add]
  congr 1
  omega

theorem heapAddress_offset {k k' : Nat} {o : Int} (h : o = 4 * (k' : Int) - 4 * k) :
    heapAddress k + UInt32.ofInt o = heapAddress k' := by
  rw [heapAddress, heapAddress, ← UInt32.ofInt_add]
  congr 1
  omega

end MiniJava.Simulation
