import MiniJava.Text.Bytes

/-!
# Numbers in text

* **`decimal`** — an integer in base ten, with a minus sign when it is negative.
* **`hex`** — a natural number in base sixteen, lower case, without leading zeros.
* **`hexPadded`** — the same, filled up with zeros to a least width.
-/

namespace MiniJava

/-- The digit of value `d`: `0` to `9`, then `a` onwards. -/
def digitByte (d : Nat) : UInt8 := if d < 10 then UInt8.ofNat (48 + d) else UInt8.ofNat (87 + d)

/-- The digits of `n` in front of `acc`; `fuel` bounds their number. -/
def digitsOnto (base : Nat) : (fuel n : Nat) → Bytes → Bytes
  | 0, _, acc => acc
  | fuel + 1, n, acc =>
      let acc := digitByte (n % base) :: acc
      if n / base = 0 then acc else digitsOnto base fuel (n / base) acc

/-- The digits of `n` in the given base, at least one of them. -/
def digits (base n : Nat) : Bytes := digitsOnto base (n + 1) n []

/-- A natural number in base ten. -/
def natural (n : Nat) : Bytes := digits 10 n

/-- An integer in base ten. -/
def decimal : Int → Bytes
  | .ofNat n => natural n
  | .negSucc n => '-' :: natural (n + 1)

/-- A natural number in base sixteen. -/
def hex (n : Nat) : Bytes := digits 16 n

/-- A natural number in base sixteen with at least `width` digits. -/
def hexPadded (width n : Nat) : Bytes :=
  let ds := hex n
  Bytes.replicate (width - ds.length) '0' ++ ds

end MiniJava
