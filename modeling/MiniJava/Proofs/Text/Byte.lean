import MiniJava.Text.Bytes

/-!
# Facts about all bytes

There are 256 bytes, so that what is asked of all of them can be tried out.
-/

namespace MiniJava

/-- What holds of the bytes of all numbers below 256 holds of all bytes. -/
theorem forall_byte {P : UInt8 → Prop} (h : ∀ n < 256, P (.ofNat n)) (c : UInt8) : P c := by
  have hc := h c.toNat c.toNat_lt
  rwa [UInt8.ofNat_toNat] at hc

end MiniJava
