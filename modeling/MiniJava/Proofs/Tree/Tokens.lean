import MiniJava.Proofs.Grammar

/-!
# The tokens of a tree

The tokens that the nodes of a tree are reported at, the names among them.  A tree that was read has
no tokens but those that it was read from.

* **`Expr.tokens`**, **`Stmt.tokens`**, **`Program.tokens`** — the tokens of a tree.
* **`tokens_of_programOf`** — they are among the tokens of its phrase.
-/

namespace MiniJava

/-- The tokens of a declaration. -/
def VarDecl.tokens (d : VarDecl) : List Token := [d.token, d.type.token, d.name.token]

mutual

/-- The tokens of an expression. -/
def Expr.tokens : Expr → List Token
  | .var x => [x.token]
  | .int t _ => [t]
  | .bool t _ => [t]
  | .this t => [t]
  | .unary t _ e => t :: e.tokens
  | .binary t _ l r => t :: (l.tokens ++ r.tokens)
  | .index t a i => t :: (a.tokens ++ i.tokens)
  | .length t a => t :: a.tokens
  | .call t recv m args => t :: m.token :: (recv.tokens ++ Expr.allTokens args)
  | .newArray t size => t :: size.tokens
  | .newObject t c => [t, c.token]
  | .missing => []

/-- The tokens of expressions. -/
def Expr.allTokens : List Expr → List Token
  | [] => []
  | e :: es => e.tokens ++ Expr.allTokens es

end

mutual

/-- The tokens of a statement. -/
def Stmt.tokens : Stmt → List Token
  | .block t body => t :: Stmt.allTokens body
  | .cond t c a b => t :: (c.tokens ++ a.tokens ++ b.tokens)
  | .loop t c b => t :: (c.tokens ++ b.tokens)
  | .print t e => t :: e.tokens
  | .assign t x e => t :: x.token :: e.tokens
  | .assignElem t x i e => t :: x.token :: (i.tokens ++ e.tokens)
  | .missing => []

/-- The tokens of statements. -/
def Stmt.allTokens : List Stmt → List Token
  | [] => []
  | s :: ss => s.tokens ++ Stmt.allTokens ss

end

/-- The tokens of a method. -/
def MethodDecl.tokens (m : MethodDecl) : List Token :=
  m.token :: m.returns.token :: m.name.token ::
    (m.params.flatMap VarDecl.tokens ++ m.vars.flatMap VarDecl.tokens ++ Stmt.allTokens m.body ++
      m.result.tokens)

/-- The tokens of a class. -/
def ClassDecl.tokens (c : ClassDecl) : List Token :=
  c.token :: c.name.token ::
    (c.parent.toList.map Ident.token ++ c.fields.flatMap VarDecl.tokens ++
      c.methods.flatMap MethodDecl.tokens)

/-- The tokens of the entry class. -/
def MainClass.tokens (m : MainClass) : List Token :=
  m.token :: m.name.token ::
    (m.arg.toList.map Ident.token ++ m.vars.flatMap VarDecl.tokens ++ Stmt.allTokens m.body)

/-- The tokens of a program. -/
def Program.tokens (p : Program) : List Token :=
  p.main.toList.flatMap MainClass.tokens ++ p.classes.flatMap ClassDecl.tokens

/-! ### The tokens that a tree was read from -/

namespace Grammar

theorem tokens_of_atom {t : Token} {e : Expr} (h : Atom t e) : e.tokens ⊆ [t] := by
  cases h <;> exact List.Subset.refl [t]

mutual

theorem tokens_of_expAt {k : Nat} {ts : List Token} {e : Expr} : ExpAt k ts e → e.tokens ⊆ ts
  | .tighter h => tokens_of_expAt h
  | .binary h _ h' => by
    have hl := tokens_of_expAt h
    have hr := tokens_of_expAt h'
    grind [Expr.tokens]
  | .not _ h => by
    have he := tokens_of_expAt h
    grind [Expr.tokens]
  | .atom h => tokens_of_atom h
  | .paren _ h _ => by
    have he := tokens_of_expAt h
    grind
  | .newArray _ h _ => by
    have he := tokens_of_expAt h
    grind [Expr.tokens]
  | .newObject _ => by
    grind [Expr.tokens, ident]
  | .index h _ h' _ => by
    have ha := tokens_of_expAt h
    have hi := tokens_of_expAt h'
    grind [Expr.tokens]
  | .length h _ => by
    have ha := tokens_of_expAt h
    grind [Expr.tokens]
  | .call h _ hs _ => by
    have ha := tokens_of_expAt h
    have hes := tokens_of_argsAt hs
    grind [Expr.tokens, ident]

theorem tokens_of_argsAt {us : List Token} {es : List Expr} :
    ArgsAt us es → Expr.allTokens es ⊆ us
  | .none => List.nil_subset _
  | .some h hs => by
    have he := tokens_of_expAt h
    have hes := tokens_of_moreArgsAt hs
    grind [Expr.allTokens]

theorem tokens_of_moreArgsAt {us : List Token} {es : List Expr} :
    MoreArgsAt us es → Expr.allTokens es ⊆ us
  | .none => List.nil_subset _
  | .some _ h hs => by
    have he := tokens_of_expAt h
    have hes := tokens_of_moreArgsAt hs
    grind [Expr.allTokens]

end

mutual

theorem tokens_of_stmtOf {ts : List Token} {s : Stmt} : StmtOf (ExpAt 0) ts s → s.tokens ⊆ ts
  | .block _ hs _ => by
    have hss := tokens_of_stmtsOf hs
    grind [Stmt.tokens]
  | .cond _ hc _ ha _ hb => by
    have hcond := tokens_of_expAt hc
    have hthen := tokens_of_stmtOf ha
    have helse := tokens_of_stmtOf hb
    grind [Stmt.tokens]
  | .loop _ hc _ hb => by
    have hcond := tokens_of_expAt hc
    have hbody := tokens_of_stmtOf hb
    grind [Stmt.tokens]
  | .print _ he _ => by
    have hvalue := tokens_of_expAt he
    grind [Stmt.tokens]
  | .assign _ he _ => by
    have hvalue := tokens_of_expAt he
    grind [Stmt.tokens, ident]
  | .assignElem _ hi _ he _ => by
    have hindex := tokens_of_expAt hi
    have hvalue := tokens_of_expAt he
    grind [Stmt.tokens, ident]

theorem tokens_of_stmtsOf {ts : List Token} {ss : List Stmt} :
    StmtsOf (ExpAt 0) ts ss → Stmt.allTokens ss ⊆ ts
  | .none => List.nil_subset _
  | .some h hs => by
    have hfirst := tokens_of_stmtOf h
    have hrest := tokens_of_stmtsOf hs
    grind [Stmt.allTokens]

end

theorem token_of_typeOf {ts : List Token} {type : TypeRef} (h : TypeOf ts type) :
    type.token ∈ ts := by
  cases h <;> exact List.mem_cons_self

theorem tokens_of_typedName {ts : List Token} {d : VarDecl} (h : TypedName ts d) :
    d.tokens ⊆ ts := by
  cases h with
  | mk htype _ =>
    have ht := token_of_typeOf htype
    grind [VarDecl.tokens, ident]

theorem tokens_of_decls {ts : List Token} {ds : List VarDecl} (h : Decls ts ds) :
    ds.flatMap VarDecl.tokens ⊆ ts := by
  induction h with
  | none => exact List.nil_subset _
  | some hd _ _ ih =>
    have hfirst := tokens_of_typedName hd
    grind

theorem tokens_of_moreParams {ts : List Token} {ds : List VarDecl} (h : MoreParams ts ds) :
    ds.flatMap VarDecl.tokens ⊆ ts := by
  induction h with
  | none => exact List.nil_subset _
  | some _ hd _ ih =>
    have hfirst := tokens_of_typedName hd
    grind

theorem tokens_of_params {ts : List Token} {ds : List VarDecl} (h : Params ts ds) :
    ds.flatMap VarDecl.tokens ⊆ ts := by
  cases h with
  | none => exact List.nil_subset _
  | some hd hs =>
    have hfirst := tokens_of_typedName hd
    have hrest := tokens_of_moreParams hs
    grind

theorem tokens_of_methodOf {ts : List Token} {m : MethodDecl} (h : MethodOf (ExpAt 0) ts m) :
    m.tokens ⊆ ts := by
  cases h with
  | mk _ htype _ hps _ hds hss _ he _ =>
    have htoken := token_of_typeOf htype
    have hparams := tokens_of_params hps
    have hvars := tokens_of_decls hds
    have hbody := tokens_of_stmtsOf hss
    have hresult := tokens_of_expAt he
    grind [MethodDecl.tokens, ident]

theorem tokens_of_methodsOf {ts : List Token} {ms : List MethodDecl}
    (h : MethodsOf (ExpAt 0) ts ms) : ms.flatMap MethodDecl.tokens ⊆ ts := by
  induction h with
  | none => exact List.nil_subset _
  | some hm _ ih =>
    have hfirst := tokens_of_methodOf hm
    grind

theorem tokens_of_parentOf {ts : List Token} {p : Option Ident} (h : ParentOf ts p) :
    p.toList.map Ident.token ⊆ ts := by
  cases h with
  | none => exact List.nil_subset _
  | some _ => grind [ident]

theorem tokens_of_classOf {ts : List Token} {c : ClassDecl} (h : ClassOf (ExpAt 0) ts c) :
    c.tokens ⊆ ts := by
  cases h with
  | mk _ hp _ hfs hms _ =>
    have hparent := tokens_of_parentOf hp
    have hfields := tokens_of_decls hfs
    have hmethods := tokens_of_methodsOf hms
    grind [ClassDecl.tokens, ident]

theorem tokens_of_classesOf {ts : List Token} {cs : List ClassDecl}
    (h : ClassesOf (ExpAt 0) ts cs) : cs.flatMap ClassDecl.tokens ⊆ ts := by
  induction h with
  | none => exact List.nil_subset _
  | some hc _ ih =>
    have hfirst := tokens_of_classOf hc
    grind

theorem tokens_of_mainOf {ts : List Token} {m : MainClass} (h : MainOf (ExpAt 0) ts m) :
    m.tokens ⊆ ts := by
  cases h with
  | mk _ _ _ _ hds hss _ =>
    have hvars := tokens_of_decls hds
    have hbody := tokens_of_stmtsOf hss
    grind [MainClass.tokens, ident]

/-- The tokens of a tree are among those that it was read from. -/
theorem tokens_of_programOf {ts : List Token} {p : Program} (h : ProgramOf (ExpAt 0) ts p) :
    p.tokens ⊆ ts := by
  cases h with
  | mk hm hcs =>
    have hmain := tokens_of_mainOf hm
    have hclasses := tokens_of_classesOf hcs
    grind [Program.tokens]

end Grammar

end MiniJava
