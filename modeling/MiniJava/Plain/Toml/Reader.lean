import MiniJava.Text.Bytes

/-!
# Readers of characters

A reader takes a value off the front of a text or fails; after a failure another reader may try
the same text.  A text that no reader takes is reported by line, and the line is that of the
furthest place at which some construct was complete, whether or not the attempt it belonged to
came to anything.

* **`Cursor`** — a place in a text; `Cursor.line` and `Cursor.row` number its line.
* **`Reader`** — readers; what they return carries the furthest row they reached.
* **`Reader.construct`** — a reader whose success counts as progress.
* **`Reader.many`** — a reader as often as it succeeds.
-/

namespace MiniJava.Toml

/-- Does the character end a line? -/
def isBreak (c : Char) : Bool := c = '\n' || c = '\r'

/-! ### Places -/

/-- A place in a text. -/
structure Cursor where
  /-- The characters after it. -/
  rest : List Char
  /-- How many characters stand before it. -/
  offset : Nat
  /-- How many of them are line feeds. -/
  feeds : Nat
  /-- How many of them are line feeds or carriage returns. -/
  breaks : Nat
  deriving DecidableEq, Repr

namespace Cursor

/-- The place in front of a text. -/
def start (s : List Char) : Cursor := ⟨s, 0, 0, 0⟩

/-- The place `n` characters further on. -/
def advance (c : Cursor) (n : Nat) : Cursor :=
  let s := c.rest.take n
  ⟨c.rest.drop n, c.offset + s.length, c.feeds + s.count '\n', c.breaks + s.countP isBreak⟩

/-- The line of a place, from 1: a line feed ends a line, and so does a carriage return. -/
def line (c : Cursor) : Nat := c.breaks + 1

/-- The line of the character at a place, from 1: only line feeds end lines, and a line feed
belongs to the line that it starts. -/
def row (c : Cursor) : Nat := c.feeds + if c.rest.head? = some '\n' then 2 else 1

end Cursor

/-! ### Readers -/

/-- What a reader returns. -/
structure Reading (α : Type) where
  /-- What was read and the place after it, unless reading failed. -/
  result : Option (α × Cursor)
  /-- The furthest row in which a construct was complete, 0 if none was. -/
  reach : Nat

/-- A reader of the text at a place. -/
def Reader (α : Type) : Type := Cursor → Reading α

namespace Reader

variable {α β : Type}

/-- Read nothing. -/
def ret (a : α) : Reader α := fun c => ⟨some (a, c), 0⟩

/-- Go on with `f` after `p`. -/
def andThen (p : Reader α) (f : α → Reader β) : Reader β := fun c =>
  match p c with
  | ⟨none, r⟩ => ⟨none, r⟩
  | ⟨some (a, d), r⟩ =>
      let next := f a d
      ⟨next.result, max r next.reach⟩

instance : Monad Reader where
  pure := ret
  bind := andThen

instance : LawfulMonad Reader := LawfulMonad.mk' Reader
  (fun x => by
    funext c
    show andThen x ret c = x c
    simp only [andThen, ret]
    rcases x c with ⟨_ | ⟨a, d⟩, r⟩ <;> simp)
  (fun a f => by
    funext c
    show andThen (ret a) f c = f a c
    simp [andThen, ret])
  (fun x f g => by
    funext c
    show andThen (andThen x f) g c = andThen x (fun a => andThen (f a) g) c
    simp only [andThen]
    rcases x c with ⟨_ | ⟨a, d⟩, r⟩
    · rfl
    · simp only
      rcases f a d with ⟨_ | ⟨b, e⟩, s⟩
      · rfl
      · simp only [Reading.mk.injEq, true_and]
        exact Nat.max_assoc r s _)

/-- Fail. -/
def fail : Reader α := fun _ => ⟨none, 0⟩

/-- Try `p`, and `q` on the same text if `p` fails. -/
def orElse (p : Reader α) (q : Unit → Reader α) : Reader α := fun c =>
  match p c with
  | ⟨none, r⟩ =>
      let next := q () c
      ⟨next.result, max r next.reach⟩
  | taken => taken

instance : OrElse (Reader α) := ⟨orElse⟩

/-- The place that reading has come to. -/
def place : Reader Cursor := fun c => ⟨some (c, c), 0⟩

/-- Count the success of `p` as progress, if it took anything. -/
def construct (p : Reader α) : Reader α := fun c =>
  match p c with
  | ⟨some (a, d), r⟩ => ⟨some (a, d), if d.offset = c.offset then r else max r d.row⟩
  | ⟨none, r⟩ => ⟨none, r⟩

/-- The characters at the front that satisfy `p`, possibly none. -/
def takeWhile (p : Char → Bool) : Reader (List Char) := fun c =>
  let s := c.rest.takeWhile p
  ⟨some (s, c.advance s.length), 0⟩

/-- A character that satisfies `p`. -/
def satisfy (p : Char → Bool) : Reader Char := fun c =>
  match c.rest with
  | [] => ⟨none, 0⟩
  | a :: _ => if p a then ⟨some (a, c.advance 1), 0⟩ else ⟨none, 0⟩

/-- The given characters. -/
def exactly (s : List Char) : Reader Unit := fun c =>
  if s.isPrefixOf c.rest then ⟨some ((), c.advance s.length), 0⟩ else ⟨none, 0⟩

/-- Take nothing, and fail where `s` stands. -/
def notAt (s : List Char) : Reader Unit := fun c =>
  if s.isPrefixOf c.rest then ⟨none, 0⟩ else ⟨some ((), c), 0⟩

/-- What `p` reads, or nothing. -/
def optional (p : Reader α) : Reader (Option α) := some <$> p <|> ret none

/-- What `p` reads, as often as it succeeds but no more than `bound` times, after what `acc` holds
in reverse. -/
def manyFrom (p : Reader α) : (bound : Nat) → (acc : List α) → (reach : Nat) → Reader (List α)
  | 0, acc, r, c => ⟨some (acc.reverse, c), r⟩
  | bound + 1, acc, r, c =>
      match p c with
      | ⟨some (a, d), s⟩ => manyFrom p bound (a :: acc) (max r s) d
      | ⟨none, s⟩ => ⟨some (acc.reverse, c), max r s⟩

/-- What `p` reads, as often as it succeeds but no more than `bound` times. -/
def many (bound : Nat) (p : Reader α) : Reader (List α) := manyFrom p bound [] 0

/-- What `p` reads, at least once. -/
def many1 (bound : Nat) (p : Reader α) : Reader (List α) := do
  let a ← p
  return a :: (← many bound p)

/-- What `p` reads, with the characters that it takes. -/
def spelled (p : Reader α) : Reader (α × List Char) := fun c =>
  match p c with
  | ⟨some (a, d), r⟩ => ⟨some ((a, c.rest.take (d.offset - c.offset)), d), r⟩
  | ⟨none, r⟩ => ⟨none, r⟩

end Reader

end MiniJava.Toml
