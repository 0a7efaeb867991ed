import MiniJava.Token.Piece

/-!
# Token streams

What a reader of tokens sees: the tokens of a source in order, and after them the token `eof`
again and again.  Each `eof` past the end stands one column to the right of the one before.

* **`TokenStream.ofSource`** — the stream of a source.
* **`TokenStream.head`**, **`second`**, **`advance`** — the two tokens in view, and the step to
  the next.
-/

namespace MiniJava

/-- The tokens that are still to be read. -/
structure TokenStream where
  /-- The tokens left before the end of the source. -/
  pending : List Token
  /-- The place of the first `eof` token after them. -/
  finish : Position
  deriving DecidableEq, Repr

namespace TokenStream

/-- The stream of tokens of a source. -/
def ofSource (source : Bytes) : TokenStream :=
  ⟨Piece.locate .start (pieces source), Position.start.after source⟩

/-- The `eof` token `n` columns past the place `p`. -/
def eofAt (p : Position) (n : Nat) : Token := ⟨.eof, [], p.line, (p.column + n : Nat)⟩

/-- The token at the front. -/
def head (s : TokenStream) : Token :=
  match s.pending with
  | t :: _ => t
  | [] => eofAt s.finish 0

/-- The token after the one at the front. -/
def second (s : TokenStream) : Token :=
  match s.pending with
  | _ :: t :: _ => t
  | [_] => eofAt s.finish 0
  | [] => eofAt s.finish 1

/-- The stream after its front token. -/
def advance (s : TokenStream) : TokenStream :=
  match s.pending with
  | _ :: rest => { s with pending := rest }
  | [] => { s with finish := ⟨s.finish.line, s.finish.column + 1⟩ }

/-- The first `n` tokens. -/
def take : Nat → TokenStream → List Token
  | 0, _ => []
  | n + 1, s => s.head :: take n s.advance

/-- The tokens up to the first `eof`, and `n` more. -/
def takeToEnd (n : Nat) (s : TokenStream) : List Token :=
  s.take ((s.pending.takeWhile (·.kind != .eof)).length + 1 + n)

end TokenStream

end MiniJava
