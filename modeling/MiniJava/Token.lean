import MiniJava.Text.Decimal

/-!
# Tokens

The vocabulary of the language: what kinds of tokens there are, how each kind is called in
messages, and which words are reserved.  A token keeps the bytes it was written with and the
place where it starts.

* **`TokenKind`** — the kinds; `TokenKind.name` is the name that messages use.
* **`Token`** — a kind, its literal, and the line and column of its first byte.
* **`TokenKind.ofWord`** — the kind of a word: reserved, or an identifier.
-/

namespace MiniJava

/-- The kinds of tokens. -/
inductive TokenKind where
  /-- A byte that starts no token, or a comment that is never closed. -/
  | illegal
  /-- The end of the source. -/
  | eof
  /-- A name. -/
  | ident
  /-- A run of decimal digits. -/
  | int
  | assign | plus | minus | star | bang | less | andAnd
  | comma | semicolon | dot | lparen | rparen | lbrace | rbrace | lbracket | rbracket
  | classWord | publicWord | staticWord | voidWord | mainWord | stringWord | extendsWord
  | returnWord | intWord | booleanWord | ifWord | elseWord | whileWord | systemWord
  | lengthWord | trueWord | falseWord | thisWord | newWord
  /-- A kind that no scan produces, known by its name alone. -/
  | other (name : Bytes)
  deriving DecidableEq, Repr

namespace TokenKind

/-- The kinds that a scan can produce, each with its name in messages. -/
def names : List (TokenKind × String) :=
  [(illegal, "ILLEGAL"), (eof, "EOF"), (ident, "IDENT"), (int, "INT"),
   (assign, "="), (plus, "+"), (minus, "-"), (star, "*"), (bang, "!"), (less, "<"),
   (andAnd, "&&"), (comma, ","), (semicolon, ";"), (dot, "."), (lparen, "("), (rparen, ")"),
   (lbrace, "\x7b"), (rbrace, "\x7d"), (lbracket, "["), (rbracket, "]"),
   (classWord, "CLASS"), (publicWord, "PUBLIC"), (staticWord, "STATIC"), (voidWord, "VOID"),
   (mainWord, "MAIN"), (stringWord, "STRING"), (extendsWord, "EXTENDS"),
   (returnWord, "RETURN"), (intWord, "INT_TYPE"), (booleanWord, "BOOLEAN"), (ifWord, "IF"),
   (elseWord, "ELSE"), (whileWord, "WHILE"), (systemWord, "SYSTEM"), (lengthWord, "LENGTH"),
   (trueWord, "TRUE"), (falseWord, "FALSE"), (thisWord, "THIS"), (newWord, "NEW")]

/-- The name of a kind in messages. -/
def name : TokenKind → Bytes
  | other n => n
  | k => (names.lookup k).getD ""

/-- The kind with the given name. -/
def ofName (n : Bytes) : TokenKind :=
  match names.find? (utf8 ·.2 == n) with
  | some (k, _) => k
  | none => other n

/-- The reserved words.  The words `out` and `println` are ordinary identifiers. -/
def reserved : List (String × TokenKind) :=
  [("class", classWord), ("public", publicWord), ("static", staticWord), ("void", voidWord),
   ("main", mainWord), ("String", stringWord), ("extends", extendsWord),
   ("return", returnWord), ("int", intWord), ("boolean", booleanWord), ("if", ifWord),
   ("else", elseWord), ("while", whileWord), ("System", systemWord), ("length", lengthWord),
   ("true", trueWord), ("false", falseWord), ("this", thisWord), ("new", newWord)]

/-- The kind of a word: a reserved word has its own, every other word is an identifier. -/
def ofWord (w : Bytes) : TokenKind :=
  match reserved.find? (utf8 ·.1 == w) with
  | some (_, k) => k
  | none => ident

/-- The kind of a token that is a single punctuation byte. -/
def ofSymbol? (c : UInt8) : Option TokenKind :=
  if c == '=' then some assign
  else if c == '+' then some plus
  else if c == '-' then some minus
  else if c == '*' then some star
  else if c == '!' then some bang
  else if c == '<' then some less
  else if c == ';' then some semicolon
  else if c == ',' then some comma
  else if c == '.' then some dot
  else if c == '(' then some lparen
  else if c == ')' then some rparen
  else if c == '\x7b' then some lbrace
  else if c == '\x7d' then some rbrace
  else if c == '[' then some lbracket
  else if c == ']' then some rbracket
  else none

end TokenKind

/-- A token of a source, or of a tree built by hand, whose places may be any integers. -/
structure Token where
  /-- What kind of token it is. -/
  kind : TokenKind
  /-- The bytes it stands for. -/
  literal : Bytes
  /-- The line of its first byte; the first line is 1. -/
  line : Int
  /-- The column of its first byte; the first column is 1. -/
  column : Int
  deriving DecidableEq, Repr

/-- The token of a node that came from no source. -/
def Token.none : Token := ⟨.other [], [], 0, 0⟩

/-- Does the token name a place in a source? -/
def Token.isPlaced (t : Token) : Bool := 0 < t.line && 0 < t.column

/-- A place in a source, counted from line 1, column 1; columns count bytes. -/
structure Position where
  line : Nat
  column : Nat
  deriving DecidableEq, Repr

namespace Position

/-- The place of the first byte of a source. -/
def start : Position := ⟨1, 1⟩

/-- The place after the byte `c` at `p`. -/
def next (p : Position) (c : UInt8) : Position :=
  if c == '\n' then ⟨p.line + 1, 1⟩ else ⟨p.line, p.column + 1⟩

/-- The place after the bytes of `s`, the first of which stands at `p`. -/
def after (p : Position) (s : Bytes) : Position := s.foldl next p

theorem after_append (p : Position) (s t : Bytes) : p.after (s ++ t) = (p.after s).after t :=
  List.foldl_append

/-- `line:column: ` in front of a message. -/
def tag (line column : Int) (message : Bytes) : Bytes :=
  decimal line ++ ":" ++ decimal column ++ ": " ++ message

end Position

end MiniJava
