import MiniJava.Proofs.Grammar
import MiniJava.Proofs.Tree.Unplaced

/-!
# Trees that can be written

What every tree that was read without complaint has in common: nothing is missing, names are
names, the value of an integer literal is the value of its digits and small enough, and every node
is reported at a token of its own kind.

* **`Expr.Written`**, **`Stmt.Written`**, **`Program.Written`** — such trees.
* **`Genuine`** — tokens that are spelled as their kinds call for, integers that are small.
* **`written_of_programOf`** — the tree of genuine tokens is such a tree.
-/

namespace MiniJava

/-- The token of a kind with only one spelling. -/
def Token.fixed (k : TokenKind) : Token := ⟨k, k.spelling?.getD [], 0, 0⟩

@[simp] theorem Token.fixed_kind (k : TokenKind) : (Token.fixed k).kind = k := rfl

@[simp] theorem Token.fixed_unplaced (k : TokenKind) : (Token.fixed k).unplaced = .fixed k := rfl

/-- A name, reported where it stands. -/
structure Ident.Written (x : Ident) : Prop where
  kind : x.token.kind = .ident
  literal : x.token.literal = x.name
  name : IsName x.name

/-- The token and the type that it begins. -/
inductive TypeRef.Written : TypeRef → Prop
  | int {t : Token} : t.unplaced = .fixed .intWord → Written ⟨t, .int⟩
  | intArray {t : Token} : t.unplaced = .fixed .intWord → Written ⟨t, .intArray⟩
  | boolean {t : Token} : t.unplaced = .fixed .booleanWord → Written ⟨t, .boolean⟩
  | object {t : Token} :
      t.kind = .ident → IsName t.literal → Written ⟨t, .object t.literal⟩

/-- A declaration, reported at its type. -/
structure VarDecl.Written (d : VarDecl) : Prop where
  token : d.token = d.type.token
  type : d.type.Written
  name : d.name.Written

mutual

/-- Expressions that can be written. -/
def Expr.Written : Expr → Prop
  | .var x => x.Written
  | .int t v => t.kind = .int ∧ IsNumeral t.literal ∧ v = digitsValue t.literal ∧
      digitsValue t.literal ≤ intMax
  | .bool t v => t.unplaced = .fixed (if v then .trueWord else .falseWord)
  | .this t => t.unplaced = .fixed .thisWord
  | .unary t op e => t.unplaced = .fixed .bang ∧ op = .not ∧ e.Written
  | .binary t op l r => (∃ k, Grammar.Operator k t.kind op) ∧ t.unplaced = .fixed t.kind ∧
      l.Written ∧ r.Written
  | .index t a i => t.unplaced = .fixed .lbracket ∧ a.Written ∧ i.Written
  | .length t a => t.unplaced = .fixed .lengthWord ∧ a.Written
  | .call t recv m args => t = m.token ∧ recv.Written ∧ m.Written ∧ Expr.AllWritten args
  | .newArray t e => t.unplaced = .fixed .newWord ∧ e.Written
  | .newObject t c => t.unplaced = .fixed .newWord ∧ c.Written
  | .missing => False

/-- All of the expressions can be written. -/
def Expr.AllWritten : List Expr → Prop
  | [] => True
  | e :: es => e.Written ∧ Expr.AllWritten es

end

mutual

/-- Statements that can be written. -/
def Stmt.Written : Stmt → Prop
  | .block t body => t.unplaced = .fixed .lbrace ∧ Stmt.AllWritten body
  | .cond t c a b => t.unplaced = .fixed .ifWord ∧ c.Written ∧ a.Written ∧ b.Written
  | .loop t c b => t.unplaced = .fixed .whileWord ∧ c.Written ∧ b.Written
  | .print t e => t.unplaced = .fixed .systemWord ∧ e.Written
  | .assign t x e => t = x.token ∧ x.Written ∧ e.Written
  | .assignElem t x i e => t = x.token ∧ x.Written ∧ i.Written ∧ e.Written
  | .missing => False

/-- All of the statements can be written. -/
def Stmt.AllWritten : List Stmt → Prop
  | [] => True
  | s :: ss => s.Written ∧ Stmt.AllWritten ss

end

/-- Methods that can be written. -/
structure MethodDecl.Written (m : MethodDecl) : Prop where
  token : m.token.unplaced = .fixed .publicWord
  returns : m.returns.Written
  name : m.name.Written
  params : ∀ d ∈ m.params, d.Written
  vars : ∀ d ∈ m.vars, d.Written
  body : Stmt.AllWritten m.body
  result : m.result.Written

/-- Classes that can be written. -/
structure ClassDecl.Written (c : ClassDecl) : Prop where
  token : c.token.unplaced = .fixed .classWord
  name : c.name.Written
  parent : ∀ p ∈ c.parent, p.Written
  fields : ∀ d ∈ c.fields, d.Written
  methods : ∀ m ∈ c.methods, m.Written

/-- Entry classes that can be written. -/
structure MainClass.Written (m : MainClass) : Prop where
  token : m.token.unplaced = .fixed .classWord
  name : m.name.Written
  arg : ∃ a, m.arg = some a ∧ a.Written
  vars : ∀ d ∈ m.vars, d.Written
  body : Stmt.AllWritten m.body

/-- Programs that can be written. -/
structure Program.Written (p : Program) : Prop where
  main : ∃ m, p.main = some m ∧ m.Written
  classes : ∀ c ∈ p.classes, c.Written

/-! ### Trees of genuine tokens -/

namespace Grammar

/-- The token is spelled as its kind calls for, and small if it is an integer. -/
structure GenuineToken (t : Token) : Prop where
  spelled : t.Spelled
  small : t.kind = .int → digitsValue t.literal ≤ intMax

/-- All of the tokens are genuine. -/
def Genuine (ts : List Token) : Prop := ∀ t ∈ ts, GenuineToken t

theorem genuine_append {ts us : List Token} : Genuine (ts ++ us) ↔ Genuine ts ∧ Genuine us := by
  simp only [Genuine, List.mem_append, or_imp, forall_and]

theorem genuine_cons {t : Token} {ts : List Token} :
    Genuine (t :: ts) ↔ GenuineToken t ∧ Genuine ts := by
  simp only [Genuine, List.mem_cons, forall_eq_or_imp]

/-- A genuine token of a kind with only one spelling is the token of that kind. -/
theorem GenuineToken.fixed {t : Token} {k : TokenKind} (h : GenuineToken t) (hk : t.kind = k)
    (hspelling : k.spelling?.isSome) : t.unplaced = .fixed k := by
  obtain ⟨w, hw⟩ := Option.isSome_iff_exists.mp hspelling
  have hliteral := h.spelled.fixed w (hk ▸ hw)
  simp only [Token.unplaced, Token.fixed, hk, hliteral, hw, Option.getD_some]

theorem GenuineToken.ident {t : Token} (h : GenuineToken t) (hk : t.kind = .ident) :
    (ident t).Written :=
  ⟨hk, rfl, h.spelled.name hk⟩

theorem kinds_eq_cons {t : Token} {ts : List Token} {k : TokenKind} {ks : List TokenKind}
    (h : kinds (t :: ts) = k :: ks) : t.kind = k ∧ kinds ts = ks :=
  List.cons.inj h

theorem Operator.spelling {k : Nat} {kind : TokenKind} {op : BinaryOp} (h : Operator k kind op) :
    kind.spelling? = some op.symbol := by
  cases h <;> rfl

theorem written_of_atom {t : Token} {e : Expr} (h : Atom t e) (hg : GenuineToken t) :
    e.Written := by
  cases h with
  | var hk => exact hg.ident hk
  | int hk => exact ⟨hk, hg.spelled.numeral hk, rfl, hg.small hk⟩
  | true hk => exact hg.fixed hk rfl
  | false hk => exact hg.fixed hk rfl
  | this hk => exact hg.fixed hk rfl

mutual

theorem written_of_expAt {k : Nat} {ts : List Token} {e : Expr} :
    ExpAt k ts e → Genuine ts → e.Written
  | .tighter h, hg => written_of_expAt h hg
  | .binary h hop h', hg => by
    rw [genuine_append, genuine_cons] at hg
    refine ⟨⟨_, hop⟩, hg.2.1.fixed rfl ?_, written_of_expAt h hg.1, written_of_expAt h' hg.2.2⟩
    rw [hop.spelling]
    rfl
  | .not ht h, hg => by
    rw [genuine_cons] at hg
    exact ⟨hg.1.fixed ht rfl, rfl, written_of_expAt h hg.2⟩
  | .atom h, hg => written_of_atom h (genuine_cons.mp hg).1
  | .paren ht h hu, hg => by
    rw [genuine_append, genuine_cons] at hg
    exact written_of_expAt h hg.1.2
  | .newArray hk h hu, hg => by
    rw [genuine_append, genuine_append, genuine_cons] at hg
    exact ⟨hg.1.1.1.fixed (kinds_eq_cons hk).1 rfl, written_of_expAt h hg.1.2⟩
  | .newObject hk, hg => by
    rw [genuine_cons, genuine_cons] at hg
    have hc := kinds_eq_cons (kinds_eq_cons hk).2
    exact ⟨hg.1.fixed (kinds_eq_cons hk).1 rfl, hg.2.1.ident hc.1⟩
  | .index h ht h' hu, hg => by
    rw [genuine_append, genuine_append, genuine_cons] at hg
    exact ⟨hg.2.1.1.fixed ht rfl, written_of_expAt h hg.1, written_of_expAt h' hg.2.1.2⟩
  | .length h hk, hg => by
    rw [genuine_append, genuine_cons] at hg
    have hu := kinds_eq_cons (kinds_eq_cons hk).2
    exact ⟨(genuine_cons.mp hg.2.2).1.fixed hu.1 rfl, written_of_expAt h hg.1⟩
  | .call h hk hs hr, hg => by
    rw [genuine_append, genuine_append, genuine_append, genuine_cons, genuine_cons] at hg
    have hm := kinds_eq_cons (kinds_eq_cons hk).2
    exact ⟨rfl, written_of_expAt h hg.1, hg.2.1.1.2.1.ident hm.1, written_of_argsAt hs hg.2.1.2⟩

theorem written_of_argsAt {us : List Token} {es : List Expr} :
    ArgsAt us es → Genuine us → Expr.AllWritten es
  | .none, _ => trivial
  | .some h hs, hg => by
    rw [genuine_append] at hg
    exact ⟨written_of_expAt h hg.1, written_of_moreArgsAt hs hg.2⟩

theorem written_of_moreArgsAt {us : List Token} {es : List Expr} :
    MoreArgsAt us es → Genuine us → Expr.AllWritten es
  | .none, _ => trivial
  | .some ht h hs, hg => by
    rw [genuine_append, genuine_cons] at hg
    exact ⟨written_of_expAt h hg.1.2, written_of_moreArgsAt hs hg.2⟩

end

mutual

theorem written_of_stmtOf {ts : List Token} {s : Stmt} :
    StmtOf (ExpAt 0) ts s → Genuine ts → s.Written
  | .block ht hs hu, hg => by
    rw [genuine_append, genuine_cons] at hg
    exact ⟨hg.1.1.fixed ht rfl, written_of_stmtsOf hs hg.1.2⟩
  | .cond hk hc hr ha hw hb, hg => by
    simp only [genuine_append, genuine_cons] at hg
    obtain ⟨⟨⟨⟨ht, -⟩, hcs⟩, -, has⟩, -, hbs⟩ := hg
    exact ⟨ht.fixed (kinds_eq_cons hk).1 rfl, written_of_expAt hc hcs, written_of_stmtOf ha has,
      written_of_stmtOf hb hbs⟩
  | .loop hk hc hr hb, hg => by
    simp only [genuine_append, genuine_cons] at hg
    obtain ⟨⟨⟨ht, -⟩, hcs⟩, -, hbs⟩ := hg
    exact ⟨ht.fixed (kinds_eq_cons hk).1 rfl, written_of_expAt hc hcs, written_of_stmtOf hb hbs⟩
  | .print ho he hk, hg => by
    obtain ⟨s, d, o, e, p, l, hts, hopen, -⟩ := ho
    rw [genuine_append, genuine_append, genuine_cons] at hg
    exact ⟨hg.1.1.1.fixed (kinds_eq_cons hopen).1 rfl, written_of_expAt he hg.1.2⟩
  | .assign hk he hs, hg => by
    rw [genuine_append, genuine_append, genuine_cons] at hg
    exact ⟨rfl, hg.1.1.1.ident (kinds_eq_cons hk).1, written_of_expAt he hg.1.2⟩
  | .assignElem hk hi hk' he hs, hg => by
    simp only [genuine_append, genuine_cons] at hg
    obtain ⟨⟨⟨⟨⟨hx, -⟩, his⟩, -⟩, hes⟩, -⟩ := hg
    exact ⟨rfl, hx.ident (kinds_eq_cons hk).1, written_of_expAt hi his, written_of_expAt he hes⟩

theorem written_of_stmtsOf {ts : List Token} {ss : List Stmt} :
    StmtsOf (ExpAt 0) ts ss → Genuine ts → Stmt.AllWritten ss
  | .none, _ => trivial
  | .some h hs, hg => by
    rw [genuine_append] at hg
    exact ⟨written_of_stmtOf h hg.1, written_of_stmtsOf hs hg.2⟩

end

theorem written_of_typeOf {ts : List Token} {type : TypeRef} (h : TypeOf ts type)
    (hg : Genuine ts) : type.Written := by
  cases h with
  | int hk => exact .int ((genuine_cons.mp hg).1.fixed hk rfl)
  | intArray hk => exact .intArray ((genuine_cons.mp hg).1.fixed (kinds_eq_cons hk).1 rfl)
  | boolean hk => exact .boolean ((genuine_cons.mp hg).1.fixed hk rfl)
  | object hk => exact .object hk ((genuine_cons.mp hg).1.ident hk).name

theorem written_of_typedName {ts : List Token} {d : VarDecl} (h : TypedName ts d)
    (hg : Genuine ts) : d.Written := by
  cases h with
  | mk htype hx =>
    rw [genuine_append] at hg
    exact ⟨rfl, written_of_typeOf htype hg.1, (genuine_cons.mp hg.2).1.ident hx⟩

theorem written_of_decls {ts : List Token} {ds : List VarDecl} (h : Decls ts ds)
    (hg : Genuine ts) : ∀ d ∈ ds, d.Written := by
  induction h with
  | none => simp
  | some hd _ _ ih =>
    rw [genuine_append, genuine_cons] at hg
    exact List.forall_mem_cons.mpr ⟨written_of_typedName hd hg.1, ih hg.2.2⟩

theorem written_of_moreParams {ts : List Token} {ds : List VarDecl} (h : MoreParams ts ds)
    (hg : Genuine ts) : ∀ d ∈ ds, d.Written := by
  induction h with
  | none => simp
  | some _ hd _ ih =>
    rw [genuine_append, genuine_cons] at hg
    exact List.forall_mem_cons.mpr ⟨written_of_typedName hd hg.1.2, ih hg.2⟩

theorem written_of_params {ts : List Token} {ds : List VarDecl} (h : Params ts ds)
    (hg : Genuine ts) : ∀ d ∈ ds, d.Written := by
  cases h with
  | none => simp
  | some hd hs =>
    rw [genuine_append] at hg
    exact List.forall_mem_cons.mpr ⟨written_of_typedName hd hg.1, written_of_moreParams hs hg.2⟩

theorem written_of_methodOf {ts : List Token} {m : MethodDecl} (h : MethodOf (ExpAt 0) ts m)
    (hg : Genuine ts) : m.Written := by
  cases h with
  | mk ht htype hm hps hr hds hss hw he hs =>
    simp only [genuine_append, genuine_cons] at hg
    obtain ⟨⟨⟨⟨⟨⟨⟨⟨gt, gtype⟩, gm, -⟩, gps⟩, -⟩, gds⟩, gss⟩, -, ge⟩, -⟩ := hg
    exact {
      token := gt.fixed ht rfl
      returns := written_of_typeOf htype gtype
      name := gm.ident (kinds_eq_cons hm).1
      params := written_of_params hps gps
      vars := written_of_decls hds gds
      body := written_of_stmtsOf hss gss
      result := written_of_expAt he ge }

theorem written_of_methodsOf {ts : List Token} {ms : List MethodDecl}
    (h : MethodsOf (ExpAt 0) ts ms) (hg : Genuine ts) : ∀ m ∈ ms, m.Written := by
  induction h with
  | none => simp
  | some hm _ ih =>
    rw [genuine_append] at hg
    exact List.forall_mem_cons.mpr ⟨written_of_methodOf hm hg.1, ih hg.2⟩

theorem written_of_parentOf {ts : List Token} {p : Option Ident} (h : ParentOf ts p)
    (hg : Genuine ts) : ∀ x ∈ p, x.Written := by
  cases h with
  | none => simp
  | some hk =>
    rw [genuine_cons] at hg
    rintro x hx
    obtain rfl := Option.some.inj hx
    exact (genuine_cons.mp hg.2).1.ident (kinds_eq_cons (kinds_eq_cons hk).2).1

theorem written_of_classOf {ts : List Token} {c : ClassDecl} (h : ClassOf (ExpAt 0) ts c)
    (hg : Genuine ts) : c.Written := by
  cases h with
  | mk hk hp hb hfs hms hu =>
    simp only [genuine_append, genuine_cons] at hg
    obtain ⟨⟨⟨⟨⟨gt, gc, -⟩, gps⟩, -, gfs⟩, gms⟩, -⟩ := hg
    exact {
      token := gt.fixed (kinds_eq_cons hk).1 rfl
      name := gc.ident (kinds_eq_cons (kinds_eq_cons hk).2).1
      parent := written_of_parentOf hp gps
      fields := written_of_decls hfs gfs
      methods := written_of_methodsOf hms gms }

theorem written_of_classesOf {ts : List Token} {cs : List ClassDecl}
    (h : ClassesOf (ExpAt 0) ts cs) (hg : Genuine ts) : ∀ c ∈ cs, c.Written := by
  induction h with
  | none => simp
  | some hc _ ih =>
    rw [genuine_append] at hg
    exact List.forall_mem_cons.mpr ⟨written_of_classOf hc hg.1, ih hg.2⟩

theorem written_of_mainOf {ts : List Token} {m : MainClass} (h : MainOf (ExpAt 0) ts m)
    (hg : Genuine ts) : m.Written := by
  cases h with
  | mk hk hh ha hps hds hss hus =>
    simp only [genuine_append, genuine_cons] at hg
    obtain ⟨⟨⟨⟨⟨⟨gt, gc, -⟩, -⟩, ga, -⟩, gds⟩, gss⟩, -⟩ := hg
    exact {
      token := gt.fixed (kinds_eq_cons hk).1 rfl
      name := gc.ident (kinds_eq_cons (kinds_eq_cons hk).2).1
      arg := ⟨_, rfl, ga.ident ha⟩
      vars := written_of_decls hds gds
      body := written_of_stmtsOf hss gss }

/-- The tree of genuine tokens can be written. -/
theorem written_of_programOf {ts : List Token} {p : Program} (h : ProgramOf (ExpAt 0) ts p)
    (hg : Genuine ts) : p.Written := by
  cases h with
  | mk hm hcs =>
    rw [genuine_append] at hg
    exact ⟨⟨_, rfl, written_of_mainOf hm hg.1⟩, written_of_classesOf hcs hg.2⟩

end Grammar

end MiniJava
