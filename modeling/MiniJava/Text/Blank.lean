import MiniJava.Text.Bytes

/-!
# Blank space

White space in the sense of Unicode, by its encodings: six ASCII controls and the space, and
nineteen characters of two or three bytes.  A byte that belongs to no character is not blank.

* **`trimStart`**, **`trimEnd`**, **`trim`** — a text without the blank space at its ends.
-/

namespace MiniJava

namespace Blank

/-- Is the byte a blank of its own: tab, line feed, vertical tab, form feed, return or space? -/
def isBlankByte (c : UInt8) : Bool := (9 ≤ c && c ≤ 13) || c == 32

/-- The encodings of the blank characters beyond ASCII. -/
def wide : List Bytes :=
  [[0xC2, 0x85], [0xC2, 0xA0], [0xE1, 0x9A, 0x80],
   [0xE2, 0x80, 0x80], [0xE2, 0x80, 0x81], [0xE2, 0x80, 0x82], [0xE2, 0x80, 0x83],
   [0xE2, 0x80, 0x84], [0xE2, 0x80, 0x85], [0xE2, 0x80, 0x86], [0xE2, 0x80, 0x87],
   [0xE2, 0x80, 0x88], [0xE2, 0x80, 0x89], [0xE2, 0x80, 0x8A], [0xE2, 0x80, 0xA8],
   [0xE2, 0x80, 0xA9], [0xE2, 0x80, 0xAF], [0xE2, 0x81, 0x9F], [0xE3, 0x80, 0x80]]

/-- The number of bytes of the blank character at the front of `s`, if there is one; `wides` are
the encodings of more than one byte to look for. -/
def width? (wides : List Bytes) : Bytes → Option Nat
  | [] => none
  | c :: rest =>
      if isBlankByte c then some 1
      else (wides.find? (·.isPrefixOf (c :: rest))).map List.length

/-- The text after the blank characters at its front.  The first number counts the bytes of a
blank character still to drop. -/
def dropBlanks (wides : List Bytes) : Nat → Bytes → Bytes
  | _, [] => []
  | skip + 1, _ :: rest => dropBlanks wides skip rest
  | 0, c :: rest =>
      match width? wides (c :: rest) with
      | some n => dropBlanks wides (n - 1) rest
      | none => c :: rest

end Blank

/-- The text without the blank space at its front. -/
def Bytes.trimStart (s : Bytes) : Bytes := Blank.dropBlanks Blank.wide 0 s

/-- The text without the blank space at its end: the encodings are read backwards. -/
def Bytes.trimEnd (s : Bytes) : Bytes :=
  (Blank.dropBlanks (Blank.wide.map List.reverse) 0 s.reverse).reverse

/-- The text without the blank space at its ends. -/
def Bytes.trim (s : Bytes) : Bytes := s.trimStart.trimEnd

end MiniJava
