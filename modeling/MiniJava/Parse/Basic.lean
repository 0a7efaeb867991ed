import MiniJava.Text.Quoted
import MiniJava.Token.Stream
import MiniJava.Tree

/-!
# Reading tokens

A reader sees two tokens of the stream, the current one and the one after it, and notes its
complaints as it goes.  When it gives up on a construct the stream stays where it was left and
the complaints are kept, so that a caller can look for a place to go on from.

* **`Complaint`**, **`ParseError`** — what can be wrong, and where.
* **`Parse`** — readers; `Parse.fail` gives up, `Parse.failAt` with a complaint.
* **`Parse.expect`** — step to the next token, which must be of a given kind.
-/

namespace MiniJava

/-- What can be wrong with a source. -/
inductive Complaint where
  /-- The next token should be of another kind. -/
  | expected (want got : TokenKind)
  /-- The next token should be a particular word. -/
  | expectedWord (want got : Bytes)
  /-- The source does not start with the entry class. -/
  | expectedEntryClass (got : TokenKind)
  /-- Something other than a class stands between classes. -/
  | expectedClass (got : TokenKind)
  | expectedType (got : TokenKind)
  /-- The body of `main` is not closed. -/
  | unclosedMain (got : TokenKind)
  /-- Neither a method nor the end of the class. -/
  | expectedMember (got : TokenKind)
  /-- A method's statements are not followed by its return. -/
  | noReturn (method : Bytes)
  /-- A variable is declared after a statement. -/
  | lateDeclaration
  /-- A statement that starts with a name is no assignment. -/
  | noAssignment (name : Bytes)
  | notAStatement (got : TokenKind)
  | unclosedBlock
  | notAnExpression (got : TokenKind)
  /-- An integer literal does not fit in 32 bits. -/
  | integerTooLarge (literal : Bytes)
  /-- Neither an array nor an object is created. -/
  | expectedCreation (got : TokenKind)
  deriving DecidableEq, Repr

/-- The text of a complaint. -/
def Complaint.message : Complaint → Bytes
  | expected want got =>
      "expected next token to be " ++ want.name ++ ", got " ++ got.name ++ " instead"
  | expectedWord want got =>
      "expected " ++ Quoted.quote want ++ ", got " ++ Quoted.quote got ++ " instead"
  | expectedEntryClass got => "expected entry class declaration, got " ++ got.name
  | expectedClass got => "expected class declaration, got " ++ got.name
  | expectedType got => "expected type, got " ++ got.name
  | unclosedMain got => "expected \x7d to close main, got " ++ got.name
  | expectedMember got => "expected method declaration or \x7d, got " ++ got.name
  | noReturn m => "method " ++ m ++ " must end with a return statement"
  | lateDeclaration => "variable declarations must precede statements"
  | noAssignment x => "expected = or [ after " ++ x
  | notAStatement got => "unexpected " ++ got.name ++ " at start of statement"
  | unclosedBlock => "unterminated block"
  | notAnExpression got => "no prefix parse function for " ++ got.name ++ " found"
  | integerTooLarge lit => "could not parse " ++ Quoted.quote lit ++ " as 32-bit integer"
  | expectedCreation got => "expected int[...] or class name after new, got " ++ got.name

/-- A complaint about the token at a place. -/
structure ParseError where
  line : Int
  column : Int
  complaint : Complaint
  deriving DecidableEq, Repr

/-- The text of an error, with its place in front. -/
def ParseError.text (e : ParseError) : Bytes := Position.tag e.line e.column e.complaint.message

/-- What a reader works on: the tokens to come and the errors noted so far. -/
structure ParseState where
  input : TokenStream
  errors : List ParseError
  deriving DecidableEq, Repr

namespace ParseState

/-- Step to the next token. -/
def advance (s : ParseState) : ParseState := { s with input := s.input.advance }

/-- Note a complaint about a token. -/
def complain (t : Token) (c : Complaint) (s : ParseState) : ParseState :=
  { s with errors := s.errors ++ [⟨t.line, t.column, c⟩] }

end ParseState

/-- A reader: it gives a result or gives up, and in both cases leaves a state behind. -/
def Parse (α : Type) : Type := ParseState → Option α × ParseState

namespace Parse

/-- Read nothing. -/
def ret {α : Type} (a : α) : Parse α := fun s => (some a, s)

/-- Go on with `f` unless `p` gave up. -/
def andThen {α β : Type} (p : Parse α) (f : α → Parse β) : Parse β := fun s =>
  match p s with
  | (some a, s) => f a s
  | (none, s) => (none, s)

instance : Monad Parse where
  pure := ret
  bind := andThen

instance : LawfulMonad Parse := LawfulMonad.mk' Parse
  (fun x => by
    funext s
    show (match x s with | (some a, s) => (some a, s) | (none, s) => (none, s)) = x s
    rcases x s with ⟨_ | a, s⟩ <;> rfl)
  (fun _ _ => rfl)
  (fun x f g => by
    funext s
    show andThen (andThen x f) g s = andThen x (fun a => andThen (f a) g) s
    simp only [andThen]
    rcases x s with ⟨_ | a, s⟩ <;> rfl)

/-- Give up. -/
def fail {α : Type} : Parse α := fun s => (none, s)

/-- Complain about a token and give up. -/
def failAt {α : Type} (t : Token) (c : Complaint) : Parse α := fun s => (none, s.complain t c)

/-- The current token. -/
def current : Parse Token := fun s => (some s.input.head, s)

/-- The token after the current one. -/
def upcoming : Parse Token := fun s => (some s.input.second, s)

/-- Step to the next token. -/
def advance : Parse Unit := fun s => (some (), s.advance)

/-- Step to the next token, which must be of kind `k`. -/
def expect (k : TokenKind) : Parse Unit := do
  let t ← upcoming
  if t.kind = k then advance else failAt t (.expected k t.kind)

/-- Step to the next token, which must be the identifier `w`. -/
def expectWord (w : Bytes) : Parse Unit := do
  let t ← upcoming
  if t.kind = .ident ∧ t.literal = w then advance else failAt t (.expectedWord w t.literal)

/-- Step to the next token, which must be an identifier. -/
def expectIdent : Parse Ident := do
  expect .ident
  let t ← current
  return ⟨t, t.literal⟩

/-- Step over tokens of the given kinds. -/
def expectAll : List TokenKind → Parse Unit
  | [] => return
  | k :: ks => do
      expect k
      expectAll ks

end Parse

end MiniJava
