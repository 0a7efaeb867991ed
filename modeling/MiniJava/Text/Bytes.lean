/-!
# Text as bytes

Sources, assembly and everything that is printed are sequences of bytes: a source may hold any
byte at all, and columns count bytes.  The library therefore works on `Bytes` throughout and
writes its own words as ordinary string literals, which a coercion turns into their UTF-8 bytes.

* **`utf8`** — the bytes of a string.
* **`Bytes.cut`** — a text around the first occurrence of a byte.
* **`Bytes.find?`** — the offset of the first occurrence of a fragment.
* **`Bytes.trimByte`** — a text without a given byte at its two ends.
-/

namespace MiniJava

/-- A text, byte by byte. -/
abbrev Bytes := List UInt8

/-- The UTF-8 encoding of a string. -/
def utf8 (s : String) : Bytes := s.toUTF8.data.toList

/-- String literals stand for their UTF-8 bytes. -/
scoped instance coeString : Coe String Bytes := ⟨utf8⟩

/-- Character literals stand for single bytes. -/
scoped instance coeChar : Coe Char UInt8 := ⟨Char.toUInt8⟩

/-- Is the byte an ASCII decimal digit? -/
def isDigit (c : UInt8) : Bool := 48 ≤ c && c ≤ 57

/-- Is the byte an ASCII letter? -/
def isLetter (c : UInt8) : Bool := (97 ≤ c && c ≤ 122) || (65 ≤ c && c ≤ 90)

namespace Bytes

/-- The text before and after the first occurrence of `c`, if there is one. -/
def cut (c : UInt8) (s : Bytes) : Option (Bytes × Bytes) :=
  match s.dropWhile (· != c) with
  | [] => none
  | _ :: after => some (s.takeWhile (· != c), after)

theorem cut_cons_self (c : UInt8) (s : Bytes) : cut c (c :: s) = some ([], s) := by
  simp [cut]

theorem cut_cons_ne {c d : UInt8} (s : Bytes) (h : d ≠ c) :
    cut c (d :: s) = (cut c s).map fun (before, after) => (d :: before, after) := by
  simp only [cut, List.dropWhile_cons, List.takeWhile_cons, bne_iff_ne, ne_eq, h,
    not_false_eq_true, if_true]
  cases s.dropWhile (· != c) <;> rfl

/-- A text is cut at the first occurrence: there is none before it. -/
theorem cut_eq_some_iff {c : UInt8} {s before after : Bytes} :
    cut c s = some (before, after) ↔ s = before ++ c :: after ∧ c ∉ before := by
  induction s generalizing before with
  | nil => simp [cut]
  | cons d s ih =>
      by_cases h : d = c
      · subst h
        rw [cut_cons_self]
        cases before with
        | nil => simp
        | cons b before => simp; grind
      · rw [cut_cons_ne s h]
        cases before with
        | nil => simp; grind
        | cons b before =>
            simp only [Option.map_eq_some_iff, Prod.mk.injEq, List.cons.injEq, Prod.exists]
            grind

theorem cut_eq_none_iff {c : UInt8} {s : Bytes} : cut c s = none ↔ c ∉ s := by
  induction s with
  | nil => simp [cut]
  | cons d s ih =>
      by_cases h : d = c
      · subst h
        simp [cut_cons_self]
      · simp [cut_cons_ne s h, ih, Ne.symm h]

/-- The offset at which `fragment` first occurs in a text. -/
def find? (fragment : Bytes) : Bytes → Option Nat
  | [] => if fragment.isEmpty then some 0 else none
  | c :: rest =>
      if fragment.isPrefixOf (c :: rest) then some 0
      else (find? fragment rest).map (· + 1)

/-- The texts in order, with `separator` between neighbours. -/
def join (separator : Bytes) : List Bytes → Bytes
  | [] => []
  | [s] => s
  | s :: rest => s ++ separator ++ join separator rest

/-- The text without the bytes at its end that satisfy `p`. -/
def dropEndWhile (p : UInt8 → Bool) (s : Bytes) : Bytes :=
  (s.reverse.dropWhile p).reverse

/-- The text without the byte `c` at its two ends. -/
def trimByte (c : UInt8) (s : Bytes) : Bytes :=
  dropEndWhile (· == c) (s.dropWhile (· == c))

/-- The text without the bytes `c` anywhere in it. -/
def without (c : UInt8) (s : Bytes) : Bytes := s.filter (· != c)

/-- The same byte `n` times. -/
def replicate (n : Nat) (c : UInt8) : Bytes := List.replicate n c

end Bytes

end MiniJava
