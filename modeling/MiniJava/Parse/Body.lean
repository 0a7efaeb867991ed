import MiniJava.Parse.Basic

/-!
# Reading expressions and statements

Expressions are read by precedence: first an operand, then as many operators as bind more
tightly than the operator to the left.  Every reader starts on the first token of its construct
and leaves the last one current.

The readers of nested constructs call themselves through a bound `n` on the depth of nesting and
on the length of lists.  Every such step reads a token, so that a bound above the number of
tokens is never met.

* **`Parse.expression`** — an expression whose operators bind more tightly than a given level.
* **`Parse.statement`** — a statement.
* **`Parse.statementsUntil`** — statements up to a given kind of token.
-/

namespace MiniJava

/-- How tightly operators bind. -/
abbrev Precedence := Nat

namespace Precedence

/-- Below every operator. -/
def lowest : Precedence := 1

/-- The operand of a negation. -/
def negation : Precedence := 6

/-- How tightly the operator that a token stands for binds; a token that is no operator ends an
expression. -/
def ofToken : TokenKind → Precedence
  | .andAnd => 2
  | .less => 3
  | .plus => 4
  | .minus => 4
  | .star => 5
  | .lbracket => 7
  | .dot => 8
  | _ => lowest

end Precedence

/-- The operator with two operands that a token stands for. -/
def BinaryOp.ofToken (t : Token) : BinaryOp :=
  match t.kind with
  | .andAnd => .and
  | .less => .less
  | .plus => .plus
  | .minus => .minus
  | .star => .times
  | _ => .other t.literal

/-- The value of a run of decimal digits. -/
def digitsValue (ds : Bytes) : Nat := ds.foldl (fun n d => n * 10 + (d.toNat - 48)) 0

/-- The largest integer of the language. -/
def intMax : Nat := 0x7FFFFFFF

namespace Parse

/-! ### Expressions -/

/-- Read the expressions after a first argument, up to the closing parenthesis. -/
def moreArguments (expr : Precedence → Parse Expr) : Nat → Parse (List Expr)
  | 0 => fail
  | n + 1 => do
      if (← upcoming).kind = .comma then
        advance
        advance
        let e ← expr .lowest
        let es ← moreArguments expr n
        return e :: es
      else
        expect .rparen
        return []

/-- Read arguments after the opening parenthesis, up to the closing one. -/
def arguments (expr : Precedence → Parse Expr) (n : Nat) : Parse (List Expr) := do
  advance
  if (← current).kind = .rparen then return []
  else
    let e ← expr .lowest
    let es ← moreArguments expr n
    return e :: es

/-- Read what follows the word `new`. -/
def creation (expr : Precedence → Parse Expr) : Parse Expr := do
  let t ← current
  let next ← upcoming
  match next.kind with
  | .intWord =>
      advance
      expect .lbracket
      advance
      let size ← expr .lowest
      expect .rbracket
      return .newArray t size
  | .ident =>
      let c ← expectIdent
      expectAll [.lparen, .rparen]
      return .newObject t c
  | k => failAt next (.expectedCreation k)

/-- Read an operand. -/
def operand (expr : Precedence → Parse Expr) : Parse Expr := do
  let t ← current
  match t.kind with
  | .ident => return .var ⟨t, t.literal⟩
  | .int =>
      let n := digitsValue t.literal
      if n ≤ intMax then return .int t n else failAt t (.integerTooLarge t.literal)
  | .trueWord => return .bool t true
  | .falseWord => return .bool t false
  | .thisWord => return .this t
  | .bang =>
      advance
      let e ← expr .negation
      return .unary t .not e
  | .lparen =>
      advance
      let e ← expr .lowest
      expect .rparen
      return e
  | .newWord => creation expr
  | k => failAt t (.notAnExpression k)

/-- Read the rest of an expression whose operator is current and whose left side is `left`. -/
def extend (expr : Precedence → Parse Expr) (n : Nat) (left : Expr) : Parse Expr := do
  let t ← current
  match t.kind with
  | .lbracket =>
      advance
      let i ← expr .lowest
      expect .rbracket
      return .index t left i
  | .dot =>
      if (← upcoming).kind = .lengthWord then
        advance
        return .length (← current) left
      else
        let m ← expectIdent
        expect .lparen
        let args ← arguments expr n
        return .call m.token left m args
  | k =>
      advance
      let right ← expr (.ofToken k)
      return .binary t (.ofToken t) left right

/-- Extend `left` by the operators that bind more tightly than `level`. -/
def climb (expr : Precedence → Parse Expr) (level : Precedence) (bound : Nat) :
    Nat → Expr → Parse Expr
  | 0, _ => fail
  | n + 1, left => do
      if level < .ofToken (← upcoming).kind then
        advance
        let left ← extend expr bound left
        climb expr level bound n left
      else return left

/-- Read an expression whose operators bind more tightly than `level`. -/
def expression : (n : Nat) → (level : Precedence) → Parse Expr
  | 0, _ => fail
  | n + 1, level => do
      let left ← operand (expression n)
      climb (expression n) level n (n + 1) left

/-! ### Statements -/

/-- Does a variable declaration start at the current token?  A name starts one only when another
name follows it. -/
def atDeclaration : Parse Bool := do
  match (← current).kind with
  | .intWord => return true
  | .booleanWord => return true
  | .ident => return (← upcoming).kind = .ident
  | _ => return false

/-- Read statements up to a token of kind `stop`, a closing brace or the end of the source. -/
def statementsUntil (stmt : Parse Stmt) (stop : TokenKind) : Nat → Parse (List Stmt)
  | 0 => fail
  | n + 1 => do
      let t ← current
      if t.kind = stop ∨ t.kind = .rbrace ∨ t.kind = .eof then return []
      else if ← atDeclaration then failAt t .lateDeclaration
      else
        let s ← stmt
        advance
        let ss ← statementsUntil stmt stop n
        return s :: ss

/-- Read a statement. -/
def statement : (n : Nat) → Parse Stmt
  | 0 => fail
  | n + 1 => do
      let t ← current
      match t.kind with
      | .lbrace =>
          advance
          let body ← statementsUntil (statement n) .rbrace n
          let last ← current
          if last.kind = .rbrace then return .block t body else failAt last .unclosedBlock
      | .ifWord =>
          expect .lparen
          advance
          let c ← expression n .lowest
          expect .rparen
          advance
          let thenBranch ← statement n
          expect .elseWord
          advance
          let elseBranch ← statement n
          return .cond t c thenBranch elseBranch
      | .whileWord =>
          expect .lparen
          advance
          let c ← expression n .lowest
          expect .rparen
          advance
          let body ← statement n
          return .loop t c body
      | .systemWord =>
          expect .dot
          expectWord "out"
          expect .dot
          expectWord "println"
          expect .lparen
          advance
          let e ← expression n .lowest
          expectAll [.rparen, .semicolon]
          return .print t e
      | .ident =>
          let x : Ident := ⟨t, t.literal⟩
          let next ← upcoming
          match next.kind with
          | .assign =>
              advance
              advance
              let e ← expression n .lowest
              expect .semicolon
              return .assign t x e
          | .lbracket =>
              advance
              advance
              let i ← expression n .lowest
              expectAll [.rbracket, .assign]
              advance
              let e ← expression n .lowest
              expect .semicolon
              return .assignElem t x i e
          | _ => failAt next (.noAssignment t.literal)
      | k => failAt t (.notAStatement k)

end Parse

end MiniJava
