import MiniJava.Text.Bytes

/-!
# Characters inside a text

A text need not be valid UTF-8.  `Utf8.first?` reads the character at its front, if the bytes
there encode one, and `Utf8.encode` writes a character.  `Utf8.decode` reads any text at all, with
U+FFFD for what encodes nothing.
-/

namespace MiniJava.Utf8

/-- The bytes of one character. -/
def encode (c : Char) : Bytes := String.utf8EncodeChar c

/-- The character whose code point is the value of a byte. -/
def ofByte (b : UInt8) : Bytes := encode (Char.ofNat b.toNat)

/-- The character whose encoding stands at the front of a text, if one does. -/
def first? (s : Bytes) : Option Char := (s.take 4).toByteArray.utf8DecodeChar? 0

/-- The encoding of U+FFFD, which stands for bytes that encode nothing. -/
def replacement : Bytes := [0xEF, 0xBF, 0xBD]

/-- The characters of a text in order, `none` for each byte that belongs to no character.  The
first argument counts the bytes still to skip, those of the character read last. -/
def charsFrom : Nat → Bytes → List (UInt8 × Option Char)
  | _, [] => []
  | skip + 1, _ :: rest => charsFrom skip rest
  | 0, c :: rest =>
      match first? (c :: rest) with
      | some ch => (c, some ch) :: charsFrom (ch.utf8Size - 1) rest
      | none => (c, none) :: charsFrom 0 rest

/-- The characters of a text in order, each with its first byte; a byte that belongs to no
character stands alone. -/
def chars (s : Bytes) : List (UInt8 × Option Char) := charsFrom 0 s

/-- The characters of a text in order, U+FFFD for each byte that belongs to none. -/
def decode (s : Bytes) : List Char := (chars s).map fun (_, c) => c.getD '\uFFFD'

/-- The bytes of characters in order. -/
def encodeAll (s : List Char) : Bytes := s.flatMap encode

end MiniJava.Utf8
