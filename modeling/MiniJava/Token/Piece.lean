import MiniJava.Text.Utf8
import MiniJava.Token

/-!
# Cutting a source into pieces

A source is cut from front to back into pieces: gaps, which are runs of white space and comments,
and the bytes of tokens.  No byte is lost and none belongs to two pieces, so that the place of a
token is the place after all the bytes before it.

* **`nextPiece`** — the piece at the front of a non-empty source, and what follows it.
* **`pieces`** — all pieces of a source; by `nextPiece_text` no byte is lost on the way.
* **`Piece.locate`** — the tokens among the pieces, each with its place.

A NUL byte ends a word, a number and a comment, and is itself the token `eof`; scanning goes on
after it.  A block comment that meets a NUL byte or the end of the source before its closer is
an illegal token.
-/

namespace MiniJava

/-- White space between tokens. -/
def isSpace (c : UInt8) : Bool := c == ' ' || c == '\t' || c == '\n' || c == '\r' || c == '\x0c'

/-- Bytes that can start a word. -/
def isWordStart (c : UInt8) : Bool := isLetter c || c == '_'

/-- Bytes that can continue a word. -/
def isWordPart (c : UInt8) : Bool := isWordStart c || isDigit c

/-- A piece of a source. -/
inductive Piece where
  /-- White space or a complete comment. -/
  | gap (text : Bytes)
  /-- The bytes `text` of a token of the given kind and literal. -/
  | token (kind : TokenKind) (literal text : Bytes)
  deriving DecidableEq, Repr

/-- The bytes of a piece. -/
def Piece.text : Piece → Bytes
  | .gap t => t
  | .token _ _ t => t

/-- The offset just past the first `*/` of a block comment's body, counted from `n`; `none` when
the body meets a NUL byte or its end first. -/
def closer? (n : Nat) : Bytes → Option Nat
  | c :: d :: rest =>
      if c == 0 then none
      else if c == '*' && d == '/' then some (n + 2)
      else closer? (n + 1) (d :: rest)
  | _ => none

/-- The block comment with the given body, as far as it goes. -/
def blockComment (body : Bytes) : Piece × Bytes :=
  match closer? 0 body with
  | some n => (.gap ("/*" ++ body.take n), body.drop n)
  | none => (.token .illegal "/*" ("/*" ++ body.takeWhile (· != 0)), body.dropWhile (· != 0))

/-- The token that starts with `c`, where neither white space nor a comment starts. -/
def nextToken (c : UInt8) (rest : Bytes) : Piece × Bytes :=
  if c == 0 then (.token .eof [] [c], rest)
  else if c == '&' && rest.head? == some '&' then (.token .andAnd "&&" "&&", rest.tail)
  else
    match TokenKind.ofSymbol? c with
    | some kind => (.token kind [c] [c], rest)
    | none =>
        if isWordStart c then
          let word := (c :: rest).takeWhile isWordPart
          (.token (.ofWord word) word word, (c :: rest).dropWhile isWordPart)
        else if isDigit c then
          let number := (c :: rest).takeWhile isDigit
          (.token .int number number, (c :: rest).dropWhile isDigit)
        else (.token .illegal (Utf8.ofByte c) [c], rest)

/-- The piece at the front of the source `c :: rest`, and what follows it. -/
def nextPiece (c : UInt8) (rest : Bytes) : Piece × Bytes :=
  if isSpace c then
    (.gap ((c :: rest).takeWhile isSpace), (c :: rest).dropWhile isSpace)
  else if c == '/' && rest.head? == some '/' then
    let inComment (d : UInt8) : Bool := d != '\n' && d != 0
    (.gap ((c :: rest).takeWhile inComment), (c :: rest).dropWhile inComment)
  else if c == '/' && rest.head? == some '*' then blockComment rest.tail
  else nextToken c rest

/-! ### Nothing is lost -/

theorem nextToken_text (c : UInt8) (rest : Bytes) :
    (nextToken c rest).1.text ++ (nextToken c rest).2 = c :: rest := by
  unfold nextToken
  split
  · simp [Piece.text]
  split
  · rename_i h
    simp only [Bool.and_eq_true, beq_iff_eq] at h
    obtain ⟨hc, hr⟩ := h
    obtain ⟨d, rfl⟩ := List.head?_eq_some_iff.mp hr
    subst hc
    rfl
  split
  · simp [Piece.text]
  split
  · simp only [Piece.text, List.takeWhile_append_dropWhile]
  split
  · simp only [Piece.text, List.takeWhile_append_dropWhile]
  · simp [Piece.text]

theorem blockComment_text (body : Bytes) :
    (blockComment body).1.text ++ (blockComment body).2 = utf8 "/*" ++ body := by
  unfold blockComment
  split
  · simp only [Piece.text, List.append_assoc, List.take_append_drop]
  · simp only [Piece.text, List.append_assoc, List.takeWhile_append_dropWhile]

/-- A piece and what follows it make up the source. -/
theorem nextPiece_text (c : UInt8) (rest : Bytes) :
    (nextPiece c rest).1.text ++ (nextPiece c rest).2 = c :: rest := by
  unfold nextPiece
  split
  · simp only [Piece.text, List.takeWhile_append_dropWhile]
  split
  · simp only [Piece.text, List.takeWhile_append_dropWhile]
  split
  · rename_i h
    simp only [Bool.and_eq_true, beq_iff_eq] at h
    obtain ⟨hc, hr⟩ := h
    obtain ⟨d, rfl⟩ := List.head?_eq_some_iff.mp hr
    subst hc
    rw [blockComment_text]
    rfl
  · exact nextToken_text c rest

theorem nextToken_text_ne_nil (c : UInt8) (rest : Bytes) : (nextToken c rest).1.text ≠ [] := by
  unfold nextToken
  split
  · simp [Piece.text]
  split
  · simp only [Piece.text, ne_eq]; decide
  split
  · simp [Piece.text]
  split
  · rename_i h
    simp [Piece.text, isWordPart, h]
  split
  · rename_i h
    simp [Piece.text, h]
  · simp [Piece.text]

/-- A piece has at least one byte. -/
theorem nextPiece_text_ne_nil (c : UInt8) (rest : Bytes) : (nextPiece c rest).1.text ≠ [] := by
  unfold nextPiece
  split
  · rename_i h
    simp [Piece.text, h]
  split
  · rename_i h
    simp only [Bool.and_eq_true, beq_iff_eq] at h
    rw [h.1]
    simp only [Piece.text, List.takeWhile_cons]
    rw [if_pos (by decide)]
    exact List.cons_ne_nil _ _
  split
  · unfold blockComment
    split <;> simp only [Piece.text, ne_eq, List.append_eq_nil_iff, not_and] <;>
      exact fun h => absurd h (by decide)
  · exact nextToken_text_ne_nil c rest

/-! ### All pieces -/

/-- The first pieces of a source, at most `n`. -/
def piecesWithin : (n : Nat) → Bytes → List Piece
  | n + 1, c :: rest =>
      let (piece, rest) := nextPiece c rest
      piece :: piecesWithin n rest
  | _, _ => []

/-- The pieces of a source.  Each piece has at least one byte, so that there are at most as many
pieces as bytes. -/
def pieces (source : Bytes) : List Piece := piecesWithin source.length source

/-! ### Tokens -/

/-- The tokens among pieces of which the first starts at `p`. -/
def Piece.locate (p : Position) : List Piece → List Token
  | [] => []
  | .gap t :: rest => locate (p.after t) rest
  | .token kind literal t :: rest => ⟨kind, literal, p.line, p.column⟩ :: locate (p.after t) rest

end MiniJava
