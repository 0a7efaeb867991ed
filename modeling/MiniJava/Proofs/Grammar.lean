import MiniJava.Parse.Body

/-!
# The grammar of the language

Which token sequences are programs, said without any reader.  A phrase is a relation between a
list of tokens and the tree that it stands for.

Expressions have two grammars.  The first, `Exp`, lets any expression stand as an operand of any
operator, so that a phrase may have several trees.  The second, `ExpAt`, is in strata: the higher
the number of a stratum, the more tightly its operators bind.

```
  0   &&        1   <        2   +  -        3   *        4   prefix !
  5   postfix [ ]  .length  .m( )  and everything that is no operator
```

Declarations and statements are the same for both; they take the grammar of expressions as a
parameter.

* **`Exp`** — expressions without precedence.
* **`ExpAt`** — the expressions of a stratum; all binary operators group to the left.
* **`StmtOf`**, **`MethodOf`**, **`ClassOf`**, **`MainOf`**, **`ProgramOf`** — the other phrases.
* **`Small`** — every integer literal is one of the language.
-/

namespace MiniJava.Grammar

/-- The kinds of tokens in order. -/
def kinds (ts : List Token) : List TokenKind := ts.map (·.kind)

/-- The binary operators: the stratum of each, its token, and what it means. -/
inductive Operator : Nat → TokenKind → BinaryOp → Prop
  | and : Operator 0 .andAnd .and
  | less : Operator 1 .less .less
  | plus : Operator 2 .plus .plus
  | minus : Operator 2 .minus .minus
  | times : Operator 3 .star .times

/-- The stratum of prefix operators. -/
def prefixStratum : Nat := 4

/-- The stratum of postfix operators. -/
def postfixStratum : Nat := 5

/-- An identifier that is written as the token `t`. -/
def ident (t : Token) : Ident := ⟨t, t.literal⟩

/-! ### Expressions -/

/-- The expressions that are a single token. -/
inductive Atom : Token → Expr → Prop
  | var {t : Token} : t.kind = .ident → Atom t (.var (ident t))
  | int {t : Token} : t.kind = .int → Atom t (.int t (digitsValue t.literal))
  | true {t : Token} : t.kind = .trueWord → Atom t (.bool t true)
  | false {t : Token} : t.kind = .falseWord → Atom t (.bool t false)
  | this {t : Token} : t.kind = .thisWord → Atom t (.this t)

mutual

/-- Expressions, with no regard to precedence. -/
inductive Exp : List Token → Expr → Prop
  | atom {t : Token} {e : Expr} : Atom t e → Exp [t] e
  | paren {t u : Token} {ts : List Token} {e : Expr} :
      t.kind = .lparen → Exp ts e → u.kind = .rparen → Exp (t :: ts ++ [u]) e
  | newArray {t i b u : Token} {ts : List Token} {e : Expr} :
      kinds [t, i, b] = [.newWord, .intWord, .lbracket] → Exp ts e → u.kind = .rbracket →
      Exp ([t, i, b] ++ ts ++ [u]) (.newArray t e)
  | newObject {t c l r : Token} :
      kinds [t, c, l, r] = [.newWord, .ident, .lparen, .rparen] →
      Exp [t, c, l, r] (.newObject t (ident c))
  | not {t : Token} {ts : List Token} {e : Expr} :
      t.kind = .bang → Exp ts e → Exp (t :: ts) (.unary t .not e)
  | binary {k : Nat} {op : BinaryOp} {t : Token} {ts us : List Token} {l r : Expr} :
      Exp ts l → Operator k t.kind op → Exp us r → Exp (ts ++ t :: us) (.binary t op l r)
  | index {t u : Token} {ts us : List Token} {a i : Expr} :
      Exp ts a → t.kind = .lbracket → Exp us i → u.kind = .rbracket →
      Exp (ts ++ (t :: us ++ [u])) (.index t a i)
  | length {t u : Token} {ts : List Token} {a : Expr} :
      Exp ts a → kinds [t, u] = [.dot, .lengthWord] → Exp (ts ++ [t, u]) (.length u a)
  | call {t m l r : Token} {ts us : List Token} {a : Expr} {es : List Expr} :
      Exp ts a → kinds [t, m, l] = [.dot, .ident, .lparen] → Args us es → r.kind = .rparen →
      Exp (ts ++ ([t, m, l] ++ us ++ [r])) (.call m a (ident m) es)

/-- Arguments, with commas between them. -/
inductive Args : List Token → List Expr → Prop
  | none : Args [] []
  | some {ts us : List Token} {e : Expr} {es : List Expr} :
      Exp ts e → MoreArgs us es → Args (ts ++ us) (e :: es)

/-- Arguments, with a comma before each of them. -/
inductive MoreArgs : List Token → List Expr → Prop
  | none : MoreArgs [] []
  | some {t : Token} {ts us : List Token} {e : Expr} {es : List Expr} :
      t.kind = .comma → Exp ts e → MoreArgs us es → MoreArgs (t :: ts ++ us) (e :: es)

end

mutual

/-- The expressions of a stratum and of those above it. -/
inductive ExpAt : Nat → List Token → Expr → Prop
  | tighter {k : Nat} {ts : List Token} {e : Expr} : ExpAt (k + 1) ts e → ExpAt k ts e
  | binary {k : Nat} {op : BinaryOp} {t : Token} {ts us : List Token} {l r : Expr} :
      ExpAt k ts l → Operator k t.kind op → ExpAt (k + 1) us r →
      ExpAt k (ts ++ t :: us) (.binary t op l r)
  | not {t : Token} {ts : List Token} {e : Expr} :
      t.kind = .bang → ExpAt prefixStratum ts e → ExpAt prefixStratum (t :: ts) (.unary t .not e)
  | atom {t : Token} {e : Expr} : Atom t e → ExpAt postfixStratum [t] e
  | paren {t u : Token} {ts : List Token} {e : Expr} :
      t.kind = .lparen → ExpAt 0 ts e → u.kind = .rparen →
      ExpAt postfixStratum (t :: ts ++ [u]) e
  | newArray {t i b u : Token} {ts : List Token} {e : Expr} :
      kinds [t, i, b] = [.newWord, .intWord, .lbracket] → ExpAt 0 ts e → u.kind = .rbracket →
      ExpAt postfixStratum ([t, i, b] ++ ts ++ [u]) (.newArray t e)
  | newObject {t c l r : Token} :
      kinds [t, c, l, r] = [.newWord, .ident, .lparen, .rparen] →
      ExpAt postfixStratum [t, c, l, r] (.newObject t (ident c))
  | index {t u : Token} {ts us : List Token} {a i : Expr} :
      ExpAt postfixStratum ts a → t.kind = .lbracket → ExpAt 0 us i → u.kind = .rbracket →
      ExpAt postfixStratum (ts ++ (t :: us ++ [u])) (.index t a i)
  | length {t u : Token} {ts : List Token} {a : Expr} :
      ExpAt postfixStratum ts a → kinds [t, u] = [.dot, .lengthWord] →
      ExpAt postfixStratum (ts ++ [t, u]) (.length u a)
  | call {t m l r : Token} {ts us : List Token} {a : Expr} {es : List Expr} :
      ExpAt postfixStratum ts a → kinds [t, m, l] = [.dot, .ident, .lparen] → ArgsAt us es →
      r.kind = .rparen →
      ExpAt postfixStratum (ts ++ ([t, m, l] ++ us ++ [r])) (.call m a (ident m) es)

/-- Arguments in strata, with commas between them. -/
inductive ArgsAt : List Token → List Expr → Prop
  | none : ArgsAt [] []
  | some {ts us : List Token} {e : Expr} {es : List Expr} :
      ExpAt 0 ts e → MoreArgsAt us es → ArgsAt (ts ++ us) (e :: es)

/-- Arguments in strata, with a comma before each of them. -/
inductive MoreArgsAt : List Token → List Expr → Prop
  | none : MoreArgsAt [] []
  | some {t : Token} {ts us : List Token} {e : Expr} {es : List Expr} :
      t.kind = .comma → ExpAt 0 ts e → MoreArgsAt us es → MoreArgsAt (t :: ts ++ us) (e :: es)

end

/-- Every integer literal among the tokens is an integer of the language. -/
def Small (ts : List Token) : Prop := ∀ t ∈ ts, t.kind = .int → digitsValue t.literal ≤ intMax

theorem small_append {ts us : List Token} : Small (ts ++ us) ↔ Small ts ∧ Small us := by
  simp only [Small, List.mem_append, or_imp, forall_and]

theorem small_cons {t : Token} {ts : List Token} : Small (t :: ts) ↔ Small [t] ∧ Small ts :=
  @small_append [t] ts

/-- A part of small tokens is small. -/
theorem Small.part {ts us : List Token} (h : Small ts) (hpart : ∀ t ∈ us, t ∈ ts) : Small us :=
  fun t ht => h t (hpart t ht)

/-- Tokens that are no integer literals are small. -/
theorem small_of_kinds {ts : List Token} (h : .int ∉ kinds ts) : Small ts := by
  intro t ht hk
  exact absurd (hk ▸ List.mem_map_of_mem ht) h

theorem ExpAt.ne_nil {k : Nat} {ts : List Token} {e : Expr} : ExpAt k ts e → ts ≠ []
  | .tighter h => h.ne_nil
  | .binary _ _ _ => by simp
  | .not _ _ => by simp
  | .atom _ => by simp
  | .paren _ _ _ => by simp
  | .newArray _ _ _ => by simp
  | .newObject _ => by simp
  | .index _ _ _ _ => by simp
  | .length _ _ => by simp
  | .call _ _ _ _ => by simp

/-- A phrase of a stratum is a phrase of every looser one. -/
theorem ExpAt.loosen {j k : Nat} {ts : List Token} {e : Expr} (h : ExpAt k ts e) (hjk : j ≤ k) :
    ExpAt j ts e := by
  induction k with
  | zero =>
    obtain rfl : j = 0 := by omega
    exact h
  | succ k ih =>
    rcases Nat.lt_or_eq_of_le hjk with hlt | rfl
    · exact ih (.tighter h) (by omega)
    · exact h

/-! ### Types and variables -/

/-- Types. -/
inductive TypeOf : List Token → TypeRef → Prop
  | int {t : Token} : t.kind = .intWord → TypeOf [t] ⟨t, .int⟩
  | intArray {t l r : Token} :
      kinds [t, l, r] = [.intWord, .lbracket, .rbracket] → TypeOf [t, l, r] ⟨t, .intArray⟩
  | boolean {t : Token} : t.kind = .booleanWord → TypeOf [t] ⟨t, .boolean⟩
  | object {t : Token} : t.kind = .ident → TypeOf [t] ⟨t, .object t.literal⟩

/-- A type and a name. -/
inductive TypedName : List Token → VarDecl → Prop
  | mk {ts : List Token} {x : Token} {type : TypeRef} :
      TypeOf ts type → x.kind = .ident → TypedName (ts ++ [x]) ⟨type.token, type, ident x⟩

/-- Variable declarations, each with its semicolon. -/
inductive Decls : List Token → List VarDecl → Prop
  | none : Decls [] []
  | some {ts us : List Token} {t : Token} {d : VarDecl} {ds : List VarDecl} :
      TypedName ts d → t.kind = .semicolon → Decls us ds → Decls (ts ++ t :: us) (d :: ds)

/-- Parameters, with a comma before each of them. -/
inductive MoreParams : List Token → List VarDecl → Prop
  | none : MoreParams [] []
  | some {t : Token} {ts us : List Token} {d : VarDecl} {ds : List VarDecl} :
      t.kind = .comma → TypedName ts d → MoreParams us ds → MoreParams (t :: ts ++ us) (d :: ds)

/-- Parameters, with commas between them. -/
inductive Params : List Token → List VarDecl → Prop
  | none : Params [] []
  | some {ts us : List Token} {d : VarDecl} {ds : List VarDecl} :
      TypedName ts d → MoreParams us ds → Params (ts ++ us) (d :: ds)

/-! ### Statements -/

/-- Opens a printing statement: `System.out.println(`. -/
def Opens (ts : List Token) : Prop :=
  ∃ s d o e p l : Token, ts = [s, d, o, e, p, l] ∧
    kinds ts = [.systemWord, .dot, .ident, .dot, .ident, .lparen] ∧
    o.literal = utf8 "out" ∧ p.literal = utf8 "println"

mutual

/-- Statements over the expressions `E`. -/
inductive StmtOf (E : List Token → Expr → Prop) : List Token → Stmt → Prop
  | block {t u : Token} {ts : List Token} {ss : List Stmt} :
      t.kind = .lbrace → StmtsOf E ts ss → u.kind = .rbrace →
      StmtOf E (t :: ts ++ [u]) (.block t ss)
  | cond {t l r w : Token} {cs ts us : List Token} {c : Expr} {a b : Stmt} :
      kinds [t, l] = [.ifWord, .lparen] → E cs c → r.kind = .rparen → StmtOf E ts a →
      w.kind = .elseWord → StmtOf E us b →
      StmtOf E ([t, l] ++ cs ++ r :: ts ++ w :: us) (.cond t c a b)
  | loop {t l r : Token} {cs ts : List Token} {c : Expr} {b : Stmt} :
      kinds [t, l] = [.whileWord, .lparen] → E cs c → r.kind = .rparen → StmtOf E ts b →
      StmtOf E ([t, l] ++ cs ++ r :: ts) (.loop t c b)
  | print {t r s : Token} {os ts : List Token} {e : Expr} :
      Opens (t :: os) → E ts e → kinds [r, s] = [.rparen, .semicolon] →
      StmtOf E (t :: os ++ ts ++ [r, s]) (.print t e)
  | assign {x t s : Token} {ts : List Token} {e : Expr} :
      kinds [x, t] = [.ident, .assign] → E ts e → s.kind = .semicolon →
      StmtOf E ([x, t] ++ ts ++ [s]) (.assign x (ident x) e)
  | assignElem {x l r t s : Token} {is ts : List Token} {i e : Expr} :
      kinds [x, l] = [.ident, .lbracket] → E is i → kinds [r, t] = [.rbracket, .assign] →
      E ts e → s.kind = .semicolon →
      StmtOf E ([x, l] ++ is ++ [r, t] ++ ts ++ [s]) (.assignElem x (ident x) i e)

/-- Statements one after another. -/
inductive StmtsOf (E : List Token → Expr → Prop) : List Token → List Stmt → Prop
  | none : StmtsOf E [] []
  | some {ts us : List Token} {s : Stmt} {ss : List Stmt} :
      StmtOf E ts s → StmtsOf E us ss → StmtsOf E (ts ++ us) (s :: ss)

end

/-! ### Declarations -/

/-- Methods. -/
inductive MethodOf (E : List Token → Expr → Prop) : List Token → MethodDecl → Prop
  | mk {t m l r b w s c : Token} {ts ps ds ss es : List Token} {type : TypeRef}
      {params vars : List VarDecl} {body : List Stmt} {result : Expr} :
      t.kind = .publicWord → TypeOf ts type → kinds [m, l] = [.ident, .lparen] →
      Params ps params → kinds [r, b] = [.rparen, .lbrace] → Decls ds vars →
      StmtsOf E ss body → w.kind = .returnWord → E es result →
      kinds [s, c] = [.semicolon, .rbrace] →
      MethodOf E (t :: ts ++ [m, l] ++ ps ++ [r, b] ++ ds ++ ss ++ w :: es ++ [s, c])
        ⟨t, type, ident m, params, vars, body, result⟩

/-- Methods one after another. -/
inductive MethodsOf (E : List Token → Expr → Prop) : List Token → List MethodDecl → Prop
  | none : MethodsOf E [] []
  | some {ts us : List Token} {m : MethodDecl} {ms : List MethodDecl} :
      MethodOf E ts m → MethodsOf E us ms → MethodsOf E (ts ++ us) (m :: ms)

/-- The class that is extended, if one is named. -/
inductive ParentOf : List Token → Option Ident → Prop
  | none : ParentOf [] none
  | some {t p : Token} : kinds [t, p] = [.extendsWord, .ident] → ParentOf [t, p] (some (ident p))

/-- Classes. -/
inductive ClassOf (E : List Token → Expr → Prop) : List Token → ClassDecl → Prop
  | mk {t c b u : Token} {ps fs ms : List Token} {parent : Option Ident} {fields : List VarDecl}
      {methods : List MethodDecl} :
      kinds [t, c] = [.classWord, .ident] → ParentOf ps parent → b.kind = .lbrace →
      Decls fs fields → MethodsOf E ms methods → u.kind = .rbrace →
      ClassOf E ([t, c] ++ ps ++ b :: fs ++ ms ++ [u]) ⟨t, ident c, parent, fields, methods⟩

/-- Classes one after another. -/
inductive ClassesOf (E : List Token → Expr → Prop) : List Token → List ClassDecl → Prop
  | none : ClassesOf E [] []
  | some {ts us : List Token} {c : ClassDecl} {cs : List ClassDecl} :
      ClassOf E ts c → ClassesOf E us cs → ClassesOf E (ts ++ us) (c :: cs)

/-- The entry class. -/
inductive MainOf (E : List Token → Expr → Prop) : List Token → MainClass → Prop
  | mk {t c a : Token} {hs ps ds ss us : List Token} {vars : List VarDecl} {body : List Stmt} :
      kinds [t, c] = [.classWord, .ident] →
      kinds hs = [.lbrace, .publicWord, .staticWord, .voidWord, .mainWord, .lparen, .stringWord,
        .lbracket, .rbracket] →
      a.kind = .ident → kinds ps = [.rparen, .lbrace] → Decls ds vars → StmtsOf E ss body →
      kinds us = [.rbrace, .rbrace] →
      MainOf E ([t, c] ++ hs ++ a :: ps ++ ds ++ ss ++ us) ⟨t, ident c, some (ident a), vars, body⟩

/-- Programs: the entry class, and the other classes after it. -/
inductive ProgramOf (E : List Token → Expr → Prop) : List Token → Program → Prop
  | mk {ts us : List Token} {m : MainClass} {cs : List ClassDecl} :
      MainOf E ts m → ClassesOf E us cs → ProgramOf E (ts ++ us) ⟨some m, cs⟩

end MiniJava.Grammar
