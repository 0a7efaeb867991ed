import MiniJava.Parse.Body

/-!
# Reading programs

A program is read class by class.  A class that cannot be read is given up, and reading goes on
at the next token that starts a class; what was read is kept, together with every error.

* **`Program.parse`** — the program of a source, as far as it can be read, and the errors.
-/

namespace MiniJava

namespace Parse

/-! ### Types and variables -/

/-- Read a type; its last token becomes current. -/
def typeRef : Parse TypeRef := do
  let t ← current
  match t.kind with
  | .intWord =>
      if (← upcoming).kind = .lbracket then
        advance
        expect .rbracket
        return ⟨t, .intArray⟩
      else return ⟨t, .int⟩
  | .booleanWord => return ⟨t, .boolean⟩
  | .ident => return ⟨t, .object t.literal⟩
  | k => failAt t (.expectedType k)

/-- Read a type and a name. -/
def typedName : Parse VarDecl := do
  let t ← current
  let type ← typeRef
  let name ← expectIdent
  return ⟨t, type, name⟩

/-- Read variable declarations; the first token after them becomes current. -/
def varDecls : Nat → Parse (List VarDecl)
  | 0 => fail
  | n + 1 => do
      if ← atDeclaration then
        let d ← typedName
        expect .semicolon
        advance
        let ds ← varDecls n
        return d :: ds
      else return []

/-- Read the parameters after the one just read, up to the closing parenthesis. -/
def moreParams : Nat → Parse (List VarDecl)
  | 0 => fail
  | n + 1 => do
      if (← upcoming).kind = .comma then
        advance
        advance
        let p ← typedName
        let ps ← moreParams n
        return p :: ps
      else
        expect .rparen
        return []

/-- Read parameters after the opening parenthesis, up to the closing one. -/
def params (n : Nat) : Parse (List VarDecl) := do
  advance
  if (← current).kind = .rparen then return []
  else
    let p ← typedName
    let ps ← moreParams n
    return p :: ps

/-! ### Classes -/

/-- Read a method. -/
def methodDecl (n : Nat) : Parse MethodDecl := do
  let t ← current
  advance
  let returns ← typeRef
  let name ← expectIdent
  expect .lparen
  let params ← params n
  expect .lbrace
  advance
  let vars ← varDecls n
  let body ← statementsUntil (statement n) .returnWord n
  let last ← current
  if last.kind = .returnWord then
    advance
    let result ← expression n .lowest
    expectAll [.semicolon, .rbrace]
    return ⟨t, returns, name, params, vars, body, result⟩
  else failAt last (.noReturn name.name)

/-- Read the methods of a class; the first token after them becomes current. -/
def methodDecls : Nat → Parse (List MethodDecl)
  | 0 => fail
  | n + 1 => do
      if (← current).kind = .publicWord then
        let m ← methodDecl n
        advance
        let ms ← methodDecls n
        return m :: ms
      else return []

/-- Read the class that is extended, if one is named. -/
def parent : Parse (Option Ident) := do
  if (← upcoming).kind = .extendsWord then
    advance
    let p ← expectIdent
    return some p
  else return none

/-- Read a class. -/
def classDecl (n : Nat) : Parse ClassDecl := do
  let t ← current
  let name ← expectIdent
  let parent ← parent
  expect .lbrace
  advance
  let fields ← varDecls n
  let methods ← methodDecls n
  let last ← current
  if last.kind = .rbrace then return ⟨t, name, parent, fields, methods⟩
  else failAt last (.expectedMember last.kind)

/-- Read the entry class. -/
def mainClass (n : Nat) : Parse MainClass := do
  let t ← current
  let name ← expectIdent
  expectAll [.lbrace, .publicWord, .staticWord, .voidWord, .mainWord, .lparen, .stringWord,
    .lbracket, .rbracket]
  let arg ← expectIdent
  expectAll [.rparen, .lbrace]
  advance
  let vars ← varDecls n
  let body ← statementsUntil (statement n) .rbrace n
  let last ← current
  if last.kind = .rbrace then
    expect .rbrace
    return ⟨t, name, some arg, vars, body⟩
  else failAt last (.unclosedMain last.kind)

end Parse

/-! ### Programs -/

/-- Leave the current token and step on to the next one that starts a class, or to the end. -/
def ParseState.resume (s : ParseState) : ParseState :=
  let input := s.input.advance
  { s with
    input :=
      { input with
        pending := input.pending.dropWhile fun t => t.kind != .eof && t.kind != .classWord } }

namespace Parse

/-- Read the entry class, if the source starts with one. -/
def entry (n : Nat) (s : ParseState) : Option MainClass × ParseState :=
  let t := s.input.head
  if t.kind = .classWord then
    match mainClass n s with
    | (some m, s) => (some m, s.advance)
    | (none, s) => (none, s.resume)
  else (none, (s.complain t (.expectedEntryClass t.kind)).resume)

/-- Read classes up to the end of the source. -/
def classDecls : Nat → ParseState → List ClassDecl × ParseState
  | 0, s => ([], s)
  | n + 1, s =>
      let t := s.input.head
      if t.kind = .eof then ([], s)
      else if t.kind = .classWord then
        match classDecl n s with
        | (some c, s) =>
            let (cs, s) := classDecls n s.advance
            (c :: cs, s)
        | (none, s) => classDecls n s.resume
      else classDecls n (s.complain t (.expectedClass t.kind)).resume

end Parse

/-- What a source was read as. -/
structure ParseResult where
  /-- The classes that could be read. -/
  program : Program
  /-- Everything that is wrong with the source, in the order of reading. -/
  errors : List ParseError
  deriving Repr

/-- Read the program in a stream of tokens. -/
def Program.ofTokens (input : TokenStream) : ParseResult :=
  let bound := input.pending.length + 2
  let (main, s) := Parse.entry bound ⟨input, []⟩
  let (classes, s) := Parse.classDecls bound s
  ⟨⟨main, classes⟩, s.errors⟩

/-- Read the program in a source. -/
def Program.parse (source : Bytes) : ParseResult := Program.ofTokens (TokenStream.ofSource source)

end MiniJava
