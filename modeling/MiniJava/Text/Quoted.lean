import MiniJava.Text.Decimal
import MiniJava.Text.Printable
import MiniJava.Text.Utf8

/-!
# Quoted text

Messages show foreign text between double quotes, in a form that is printable whatever the text
holds: printable characters stand for themselves, a quote and a backslash take a backslash, the
usual control characters have one-letter escapes, and all else is written in hexadecimal.
-/

namespace MiniJava.Quoted

/-- The one-letter escape of a control character, if it has one. -/
def letter? (n : Nat) : Option UInt8 :=
  match n with
  | 7 => some 'a'
  | 8 => some 'b'
  | 9 => some 't'
  | 10 => some 'n'
  | 11 => some 'v'
  | 12 => some 'f'
  | 13 => some 'r'
  | _ => none

/-- How a character is written inside quotes. -/
def character (c : Char) : Bytes :=
  if c = '"' ∨ c = '\\' then '\\' :: Utf8.encode c
  else if Printable.isPrintable c then Utf8.encode c
  else
    match letter? c.toNat with
    | some l => ['\\', l]
    | none =>
        if c.toNat < 0x20 ∨ c.toNat = 0x7F then "\\x" ++ hexPadded 2 c.toNat
        else if c.toNat < 0x10000 then "\\u" ++ hexPadded 4 c.toNat
        else "\\U" ++ hexPadded 8 c.toNat

/-- How one item of a text is written: a character, or a byte that belongs to none. -/
def item : UInt8 × Option Char → Bytes
  | (_, some c) => character c
  | (b, none) => "\\x" ++ hexPadded 2 b.toNat

/-- A text between double quotes. -/
def quote (s : Bytes) : Bytes := "\"" ++ (Utf8.chars s).flatMap item ++ "\""

end MiniJava.Quoted
