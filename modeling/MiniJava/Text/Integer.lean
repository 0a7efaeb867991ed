import MiniJava.Text.Decimal

/-!
# Reading integers

Two readers of signed 64-bit integers.

* **`Integer.plain?`** — base ten: an optional sign and decimal digits, nothing else.
* **`Integer.literal`** — the base is announced by a leading `0x`, `0o`, `0b` or `0`, and an
  underscore may stand between two digits, or between the announcement and a digit.

A reader tells text that is no number from a number that does not fit.
-/

namespace MiniJava.Integer

/-- Why a text is not a 64-bit integer. -/
inductive Fault where
  /-- It is no number. -/
  | malformed
  /-- It is a number that does not fit. -/
  | outOfRange
  deriving DecidableEq, Repr

/-- The value of a digit in any base up to thirty-six. -/
def digitValue? (c : UInt8) : Option Nat :=
  if isDigit c then some (c.toNat - 48)
  else if isLetter c then some ((c ||| 0x20).toNat - 87)
  else none

/-- The largest value of an unsigned 64-bit word. -/
def wordMax : Nat := 0xFFFFFFFFFFFFFFFF

/-- The value of a run of digits that is `acc` so far.  With `gaps`, underscores are passed over.
The run fails at the first byte that is no digit or that takes the value beyond `wordMax`. -/
def magnitude (base : Nat) (gaps : Bool) : (acc : Nat) → Bytes → Except Fault Nat
  | acc, [] => .ok acc
  | acc, c :: rest =>
      if gaps && c == '_' then magnitude base gaps acc rest
      else
        match digitValue? c with
        | none => .error .malformed
        | some d =>
            if base ≤ d then .error .malformed
            else if wordMax < acc * base + d then .error .outOfRange
            else magnitude base gaps (acc * base + d) rest

/-- Do underscores stand only between digits?  `afterDigit` says whether the byte before counts as a
digit, so that an underscore may follow it. -/
def gapsAreInner : (afterDigit : Bool) → Bytes → Bool
  | _, [] => true
  | afterDigit, c :: rest =>
      if c == '_' then
        afterDigit && (match rest with
          | [] => false
          | _ :: _ => gapsAreInner false rest)
      else gapsAreInner true rest

/-- Split off an optional sign; `true` is minus. -/
def sign : Bytes → Bool × Bytes
  | c :: rest =>
      if c == '-' then (true, rest) else if c == '+' then (false, rest) else (false, c :: rest)
  | [] => (false, [])

/-- The base that a literal announces, the digits after the announcement, and whether an
underscore may follow the announcement directly. -/
def announcedBase (s : Bytes) : Nat × Bytes × Bool :=
  match s with
  | zero :: mark :: digit :: rest =>
      if zero == '0' then
        let low := mark ||| 0x20
        if low == 'b' then (2, digit :: rest, true)
        else if low == 'o' then (8, digit :: rest, true)
        else if low == 'x' then (16, digit :: rest, true)
        else (8, mark :: digit :: rest, true)
      else (10, s, false)
  | zero :: rest => if zero == '0' then (8, rest, true) else (10, s, false)
  | [] => (10, s, false)

/-- Put a sign on a magnitude, within the range of signed 64-bit integers. -/
def signed (negative : Bool) (n : Nat) : Except Fault Int :=
  if negative then if n ≤ 0x8000000000000000 then .ok (-(n : Int)) else .error .outOfRange
  else if n < 0x8000000000000000 then .ok n else .error .outOfRange

/-- Read an integer literal. -/
def literal (s : Bytes) : Except Fault Int := do
  let (negative, body) := sign s
  if body.isEmpty then throw .malformed
  let (base, ds, announced) := announcedBase body
  let n ← magnitude base true 0 ds
  if !gapsAreInner announced ds then throw .malformed
  signed negative n

/-- Read an integer in base ten: an optional sign and digits. -/
def plain (s : Bytes) : Except Fault Int := do
  let (negative, body) := sign s
  if body.isEmpty then throw .malformed
  let n ← magnitude 10 false 0 body
  signed negative n

/-- Read an integer in base ten, if there is one. -/
def plain? (s : Bytes) : Option Int := (plain s).toOption

end MiniJava.Integer
