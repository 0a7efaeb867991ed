import MiniJava.Proofs.Compile.Bodies
import MiniJava.Proofs.Tree.Nodes

/-!
# Where errors are placed

Every error in the declarations of a written program, and every error in generating its code, is
placed at a token of the program's tree: the former at the name that it is about, the latter at the
node that it is the fault of.

* **`DeclError.SitedIn`**, **`GenError.SitedIn`** — the error is placed at one of the tokens.
* **`GenErrorCause.Blames`** — which node each error is the fault of.
* **`blamed_program`** — the errors of a program are the fault of its nodes.
* **`sited_build`**, **`sited_program`** — the statements for class tables and for code.
-/

namespace MiniJava

open Grammar

/-! ### Class tables -/

/-- The error is placed at one of the tokens, a name, and it is about this name. -/
def DeclError.SitedIn (ts : List Token) (e : DeclError) : Prop :=
  ∃ kind, ∃ t ∈ ts, t.kind = .ident ∧ e = .atToken kind t.literal t

namespace ClassTable

/-- If the computation fails, its error is placed at one of the tokens. -/
def Sited (ts : List Token) {α : Type} (x : Except DeclError α) : Prop :=
  ∀ e, x = .error e → e.SitedIn ts

section Rules

variable {ts : List Token} {α β : Type}

theorem sited_ok (a : α) : Sited ts (.ok a) := nofun

theorem sited_about {x : Ident} (hx : x.Written) (hmem : x.token ∈ ts) (kind : DeclErrorKind) :
    Sited ts (.error (.about kind x) : Except DeclError α) := by
  rintro e he
  refine ⟨kind, x.token, hmem, hx.kind, ?_⟩
  rw [← Except.error.inj he, hx.literal]
  rfl

theorem Sited.bind {x : Except DeclError α} {f : α → Except DeclError β} (hx : Sited ts x)
    (hf : ∀ a, x = .ok a → Sited ts (f a)) : Sited ts (x >>= f) := by
  intro e he
  cases x with
  | error e' => exact hx e (congrArg Except.error (Except.error.inj he))
  | ok a => exact hf a rfl e he

end Rules

section Declarations

variable {ts : List Token} {declared : List Bytes}

theorem sited_checkNames {seen : List Bytes} {cs : List ClassDecl} (hw : ∀ c ∈ cs, c.Written)
    (hts : cs.flatMap ClassDecl.tokens ⊆ ts) : Sited ts (checkNames seen cs) := by
  induction cs generalizing seen with
  | nil => exact sited_ok _
  | cons c cs ih =>
    rw [checkNames]
    split
    · exact sited_about (hw c (by simp)).name (hts (by simp [ClassDecl.tokens])) _
    · exact ih (fun d hd => hw d (by simp [hd])) (by grind)

theorem sited_checkParents {cs : List ClassDecl} (hw : ∀ c ∈ cs, c.Written)
    (hts : cs.flatMap ClassDecl.tokens ⊆ ts) : Sited ts (checkParents declared cs) := by
  induction cs with
  | nil => exact sited_ok _
  | cons c cs ih =>
    have hrest : Sited ts (checkParents declared cs) :=
      ih (fun d hd => hw d (by simp [hd])) (by grind)
    rw [checkParents]
    split
    · exact hrest
    · rename_i p hp
      split
      · exact hrest
      · exact sited_about ((hw c (by simp)).parent p hp)
          (hts (by simp [ClassDecl.tokens, hp])) _

theorem sited_lineages {cs rest : List ClassDecl} (hw : ∀ c ∈ rest, c.Written)
    (hts : rest.flatMap ClassDecl.tokens ⊆ ts) : Sited ts (lineages cs rest) := by
  induction rest with
  | nil => exact sited_ok _
  | cons c rest ih =>
    rw [lineages]
    split
    · exact sited_about (hw c (by simp)).name (hts (by simp [ClassDecl.tokens])) _
    · exact (ih (fun d hd => hw d (by simp [hd])) (by grind)).bind fun _ _ => sited_ok _

theorem sited_resolve {r : TypeRef} (hr : r.Written) (hmem : r.token ∈ ts) :
    Sited ts (resolve declared r) := by
  cases hr with
  | object hkind _ =>
    unfold resolve
    simp only
    split
    · exact sited_ok _
    · rintro e he
      exact ⟨_, _, hmem, hkind, (Except.error.inj he).symm⟩
  | int _ => exact sited_ok _
  | intArray _ => exact sited_ok _
  | boolean _ => exact sited_ok _

theorem sited_declare {role : Role} {twice : DeclErrorKind} {seen : List Bytes} {index : Nat}
    {ds : List VarDecl} (hw : ∀ d ∈ ds, d.Written) (hts : ds.flatMap VarDecl.tokens ⊆ ts) :
    Sited ts (declare declared role twice seen index ds) := by
  induction ds generalizing seen index with
  | nil => exact sited_ok _
  | cons d ds ih =>
    have hd := hw d (by simp)
    rw [declare]
    split
    · exact sited_about hd.name (hts (by simp [VarDecl.tokens])) _
    · refine (sited_resolve hd.type (hts (by simp [VarDecl.tokens]))).bind fun _ _ => ?_
      exact (ih (fun d hd => hw d (by simp [hd])) (by grind)).bind fun _ _ => sited_ok _

theorem sited_layFields {cs : List ClassDecl} {lines : List (ClassDecl × List Bytes)}
    (hw : ∀ l ∈ lines, l.1.Written) (hts : ∀ l ∈ lines, l.1.tokens ⊆ ts) (names : List Bytes) :
    Sited ts (layFields cs lines names) := by
  induction names with
  | nil => exact sited_ok _
  | cons name names ih =>
    rw [layFields]
    split
    · exact ih
    · rename_i c ancestors hfind
      have hmem := List.mem_of_find?_eq_some hfind
      have hfields := hts _ hmem
      refine (sited_declare (hw _ hmem).fields ?_).bind fun _ _ => ih.bind fun _ _ => sited_ok _
      grind [ClassDecl.tokens]

theorem sited_declareMethods {owner : Bytes} {seen : List Bytes} {ms : List MethodDecl}
    (hw : ∀ m ∈ ms, m.Written) (hts : ms.flatMap MethodDecl.tokens ⊆ ts) :
    Sited ts (declareMethods declared owner seen ms) := by
  induction ms generalizing seen with
  | nil => exact sited_ok _
  | cons m ms ih =>
    have hm := hw m (by simp)
    have htokens : m.tokens ⊆ ts := by grind
    rw [declareMethods]
    split
    · exact sited_about hm.name (htokens (by simp [MethodDecl.tokens])) _
    · refine (sited_resolve hm.returns (htokens (by simp [MethodDecl.tokens]))).bind fun _ _ => ?_
      refine (sited_declare hm.params (by grind [MethodDecl.tokens])).bind fun _ _ => ?_
      refine (sited_declare hm.vars (by grind [MethodDecl.tokens])).bind fun _ _ => ?_
      exact (ih (fun m hm => hw m (by simp [hm])) (by grind)).bind fun _ _ => sited_ok _

theorem sited_assembleClasses {fields : List (Bytes × List Variable)} {tag : Nat}
    {lines : List (ClassDecl × List Bytes)} (hw : ∀ l ∈ lines, l.1.Written)
    (hts : ∀ l ∈ lines, l.1.tokens ⊆ ts) :
    Sited ts (assembleClasses declared fields tag lines) := by
  induction lines generalizing tag with
  | nil => exact sited_ok _
  | cons l lines ih =>
    obtain ⟨c, ancestors⟩ := l
    have htokens := hts (c, ancestors) (by simp)
    have hmethods := (hw (c, ancestors) (by simp)).methods
    rw [assembleClasses]
    refine (sited_declareMethods hmethods (by grind [ClassDecl.tokens])).bind fun _ _ => ?_
    exact (ih (fun l hl => hw l (by simp [hl])) (fun l hl => hts l (by simp [hl]))).bind
      fun _ _ => sited_ok _

end Declarations

/-- An error in the declarations of a written program is placed at a token that is the name it is
about. -/
theorem sited_build {p : Program} (hw : p.Written) : Sited p.tokens (build p) := by
  obtain ⟨m, hmain, hm⟩ := hw.main
  have hclasses : p.classes.flatMap ClassDecl.tokens ⊆ p.tokens := by grind [Program.tokens]
  have hvars : m.vars.flatMap VarDecl.tokens ⊆ p.tokens := by
    grind [Program.tokens, MainClass.tokens]
  rw [build, hmain]
  refine (sited_checkNames hw.classes hclasses).bind fun _ _ => ?_
  refine (sited_checkParents hw.classes hclasses).bind fun _ _ => ?_
  refine (sited_lineages hw.classes hclasses).bind fun lines hlines => ?_
  have hlines : ∀ l ∈ lines, l.1 ∈ p.classes := by
    rw [(lineages_spec hlines).1]
    intro l hl
    obtain ⟨c, hc, rfl⟩ := List.mem_map.mp hl
    exact hc
  have hlwritten : ∀ l ∈ lines, l.1.Written := fun l hl => hw.classes _ (hlines l hl)
  have hltokens : ∀ l ∈ lines, l.1.tokens ⊆ p.tokens := fun l hl => by
    have := hlines l hl
    grind
  refine (sited_layFields hlwritten hltokens _).bind fun _ _ => ?_
  refine (sited_declare hm.vars hvars).bind fun _ _ => ?_
  exact (sited_assembleClasses hlwritten hltokens).bind fun _ _ => sited_ok _

end ClassTable

/-! ### The names of what is found -/

theorem ClassTable.name_of_method? {t : ClassTable} {c : ClassInfo} {name : Bytes} {m : Method}
    (h : t.method? c name = some m) : m.name = name := by
  obtain ⟨owner, -, hfound⟩ := List.exists_of_findSome?_eq_some h
  simpa using List.find?_some hfound

theorem ClassTable.name_of_field? {t : ClassTable} {c : ClassInfo} {name : Bytes} {v : Variable}
    (h : t.field? c name = some v) : v.name = name := by
  obtain ⟨owner, -, hfound⟩ := List.exists_of_findSome?_eq_some h
  simpa using List.find?_some hfound

theorem Scope.name_of_lookup? {sc : Scope} {name : Bytes} {v : Variable}
    (h : sc.lookup? name = some v) : v.name = name := by
  rcases lookup?_cases h with h | h | ⟨-, h⟩
  · simpa using List.find?_some h
  · simpa using List.find?_some h
  · exact ClassTable.name_of_field? h

/-! ### Code -/

/-- What is wrong is the fault of the node: it is the name that means nothing here, the call that
does not fit, the expression that is used as what it is not. -/
inductive GenErrorCause.Blames : GenErrorCause → Expr → Prop
  | unresolved (x : Ident) (className method : Bytes) :
      Blames (.unresolved x.name className method) (.var x)
  | notInstantiable (c : Ident) : Blames (.notInstantiable c.name) (.var c)
  | unknownReceiver (className : Bytes) (t : Token) (recv : Expr) (m : Ident) (args : List Expr) :
      Blames (.unknownReceiver className) (.call t recv m args)
  | undeclaredClass (c : Ident) : Blames (.undeclaredClass c.name) (.var c)
  | noMethod (className : Bytes) (m : Ident) : Blames (.noMethod className m.name) (.var m)
  | undeclaredMethod (className : Bytes) (m : Ident) :
      Blames (.undeclaredMethod className m.name) (.var m)
  | noMain (c : Ident) : Blames (.noMain c.name) (.var c)
  | thisInMain (className : Bytes) (t : Token) : Blames (.thisInMain className) (.this t)
  | arity (owner : Bytes) (want : Nat) (t : Token) (recv : Expr) (m : Ident) (args : List Expr) :
      Blames (.arity owner m.name want args.length) (.call t recv m args)
  | notObject (type : Ty) (t : Token) (recv : Expr) (m : Ident) (args : List Expr) :
      Blames (.notObject m.name type) (.call t recv m args)
  | notIndexable (type : Ty) (t : Token) (a i : Expr) : Blames (.notIndexable type) (.index t a i)
  | noLength (type : Ty) (t : Token) (a : Expr) : Blames (.noLength type) (.length t a)
  | notArray (x : Ident) (type : Ty) : Blames (.notArray x.name type) (.var x)
  | duplicateLabel (first className : Bytes) (m : Ident) :
      Blames (.duplicateLabel first (className ++ "." ++ m.name) (entryLabel className m.name))
        (.var m)
  | missingExpression : Blames .missingExpression .missing
  | missingStatement : Blames .missingStatement .missing
  | unknownUnary (symbol : Bytes) (t : Token) (e : Expr) :
      Blames (.unknownUnary symbol) (.unary t (.other symbol) e)
  | unknownBinary (symbol : Bytes) (t : Token) (l r : Expr) :
      Blames (.unknownBinary symbol) (.binary t (.other symbol) l r)

/-- The kinds of errors that a source can have. -/
def GenErrorKind.ofSource : List GenErrorKind :=
  [.unresolvedIdentifier, .unknownClass, .unknownMethod, .thisInMain, .arity, .notObject,
    .notArray, .duplicateLabel]

/-- Nothing is wrong with a node that can be written but what its names and types are. -/
theorem GenErrorCause.Blames.kind_mem {cause : GenErrorCause} {site : Expr}
    (h : cause.Blames site) (hw : site.Written) : cause.kind ∈ GenErrorKind.ofSource := by
  cases h with
  | missingExpression => exact hw.elim
  | missingStatement => exact hw.elim
  | unknownUnary symbol t e => cases hw.2.1
  | unknownBinary symbol t l r =>
    obtain ⟨⟨k, hop⟩, -⟩ := hw
    generalize t.kind = kind at hop
    cases hop
  | _ => simp [GenErrorCause.kind, GenErrorKind.ofSource]

/-- The error is placed at one of the nodes, the one that its cause blames. -/
def GenError.BlamedOn (ns : List Expr) (e : GenError) : Prop :=
  ∃ site ∈ ns, e.cause.Blames site ∧ e = .atExpr e.cause site

theorem GenError.cause_atExpr (cause : GenErrorCause) (site : Expr) :
    (GenError.atExpr cause site).cause = cause := by
  unfold GenError.atExpr
  simp only
  split
  · split
    · rfl
    · rfl
  · rfl

/-- The error is placed at a node whose token is one of the tokens. -/
def GenError.SitedIn (ts : List Token) (e : GenError) : Prop :=
  ∃ cause site, ∃ t ∈ ts, site.token? = some t ∧ e = .atExpr cause site

theorem GenError.BlamedOn.sitedIn {ns : List Expr} {ts : List Token} {e : GenError}
    (h : e.BlamedOn ns) (hns : ReportedAmong ts ns) : e.SitedIn ts := by
  obtain ⟨site, hsite, -, he⟩ := h
  obtain ⟨-, t, ht, htoken⟩ := hns site hsite
  exact ⟨e.cause, site, t, ht, htoken, he⟩

namespace Gen

/-- If the step fails, its error is the fault of one of the nodes. -/
def Blamed (ns : List Expr) {α : Type} (x : Gen α) : Prop :=
  ∀ g e g', x g = (.error e, g') → e.BlamedOn ns

/-- If the step fails, its error is placed at one of the tokens. -/
def Sited (ts : List Token) {α : Type} (x : Gen α) : Prop :=
  ∀ g e g', x g = (.error e, g') → e.SitedIn ts

section Rules

variable {ns : List Expr} {α β : Type}

theorem Blamed.pure (a : α) : Blamed ns (Pure.pure a : Gen α) := by
  intro g e g' h
  cases (Prod.mk.inj h).1

theorem Blamed.failAt {cause : GenErrorCause} {site : Expr} (hblames : cause.Blames site)
    (hmem : site ∈ ns) : Blamed ns (Gen.failAt cause site : Gen α) := by
  intro g e g' h
  obtain rfl : GenError.atExpr cause site = e := Except.error.inj (Prod.mk.inj h).1
  refine ⟨site, hmem, ?_, ?_⟩
  · rwa [GenError.cause_atExpr]
  · rw [GenError.cause_atExpr]

theorem Blamed.bind {x : Gen α} {f : α → Gen β} (hx : Blamed ns x) (hf : ∀ a, Blamed ns (f a)) :
    Blamed ns (x >>= f) := by
  intro g e g' h
  change andThen x f g = _ at h
  unfold andThen at h
  split at h
  · exact hf _ _ e g' h
  · rename_i e' g₁ hx'
    obtain ⟨he, rfl⟩ := Prod.mk.inj h
    exact hx g e g₁ (by rw [hx', Except.error.inj he])

theorem Succeeds.blamed {x : Gen α} {P : α → Prop} (h : Succeeds x P) : Blamed ns x := by
  intro g e g' he
  obtain ⟨a, g₁, ha, -⟩ := h g
  rw [ha] at he
  cases (Prod.mk.inj he).1

end Rules

section Trees

variable {ns : List Expr} {sc : Scope}

/-- What is done with the meaning of a name is done with a variable of that name. -/
theorem blamed_resolve_bind {α : Type} {x : Ident} {f : Variable → Gen α} (hmem : .var x ∈ ns)
    (hf : ∀ v, v.name = x.name → Blamed ns (f v)) : Blamed ns (sc.resolve x >>= f) := by
  unfold Scope.resolve
  split
  · rename_i v hv
    rw [pure_bind]
    exact hf v (Scope.name_of_lookup? hv)
  · intro g e g' h
    exact Blamed.failAt (.unresolved x _ _) hmem g e g' h

/-- Only an operator that is none of the language has no code. -/
theorem other_of_combine_none {op : BinaryOp} (h : combine op = none) : ∃ s, op = .other s := by
  cases op with
  | other s => exact ⟨s, rfl⟩
  | and => cases h
  | less => cases h
  | plus => cases h
  | minus => cases h
  | times => cases h

theorem blamed_callee {t : Token} {recv : Expr} {type : Ty} {m : Ident} {args : List Expr}
    (hcall : .call t recv m args ∈ ns) (hmethod : .var m ∈ ns) :
    Blamed ns (callee sc (.call t recv m args) type m args.length) := by
  unfold callee
  split
  · split
    · exact .failAt (.unknownReceiver _ t recv m args) hcall
    · split
      · exact .failAt (.noMethod _ m) hmethod
      · rename_i target htarget
        split
        · exact .pure _
        · rw [ClassTable.name_of_method? htarget]
          exact .failAt (.arity _ _ t recv m args) hcall
  · exact .failAt (.notObject _ t recv m args) hcall

mutual

theorem blamed_expression : ∀ e : Expr, e.nodes ⊆ ns → Blamed ns (expression sc e)
  | .int t n, _ => by
    rw [expression]
    exact .pure _
  | .bool t b, _ => by
    rw [expression]
    exact .pure _
  | .this t, hns => by
    rw [expression]
    split
    · exact .failAt (.thisInMain _ t) (hns (Expr.self_mem_nodes _))
    · exact .pure _
  | .var x, hns => by
    rw [expression]
    exact blamed_resolve_bind (hns (Expr.self_mem_nodes _)) fun _ _ => .pure _
  | .unary t (.other s) e, hns => by
    rw [expression]
    exact .failAt (.unknownUnary s t e) (hns (Expr.self_mem_nodes _))
  | .unary t .not e, hns => by
    rw [expression]
    exact (blamed_expression e (by grind [Expr.nodes])).bind fun _ => .pure _
  | .binary t op l r, hns => by
    rw [expression]
    refine (blamed_expression l (by grind [Expr.nodes])).bind fun (_, _) => ?_
    refine (blamed_expression r (by grind [Expr.nodes])).bind fun (_, _) => ?_
    dsimp only
    split
    · exact .pure _
    · rename_i hnone
      obtain ⟨s, rfl⟩ := other_of_combine_none hnone
      exact .failAt (.unknownBinary s t l r) (hns (Expr.self_mem_nodes _))
  | .index t a i, hns => by
    rw [expression]
    refine (blamed_expression a (by grind [Expr.nodes])).bind fun (_, _) => ?_
    dsimp only
    split
    · exact (blamed_expression i (by grind [Expr.nodes])).bind fun _ => .pure _
    · exact .failAt (.notIndexable _ t a i) (hns (Expr.self_mem_nodes _))
  | .length t a, hns => by
    rw [expression]
    refine (blamed_expression a (by grind [Expr.nodes])).bind fun (_, _) => ?_
    dsimp only
    split
    · exact .pure _
    · exact .failAt (.noLength _ t a) (hns (Expr.self_mem_nodes _))
  | .newArray t n, hns => by
    rw [expression]
    exact (blamed_expression n (by grind [Expr.nodes])).bind fun _ => .pure _
  | .newObject t c, hns => by
    have hname : .var c ∈ ns := hns (by simp [Expr.nodes])
    rw [expression]
    split
    · exact .failAt (.notInstantiable c) hname
    · split
      · exact .failAt (.notInstantiable c) hname
      · refine (succeeds_layout _ _ _).blamed.bind fun _ => ?_
        exact succeeds_newLabel.blamed.bind fun _ => succeeds_newLabel.blamed.bind fun _ => .pure _
  | .call t recv m args, hns => by
    rw [expression]
    refine (blamed_expression recv (by grind [Expr.nodes])).bind fun _ => ?_
    apply Blamed.bind
    · exact blamed_callee (hns (Expr.self_mem_nodes _)) (hns (by simp [Expr.nodes]))
    · intro _
      exact (blamed_pushArguments args (by grind [Expr.nodes])).bind fun _ => .pure _
  | .missing, hns => by
    rw [expression]
    exact .failAt .missingExpression (hns (Expr.self_mem_nodes _))

theorem blamed_pushArguments : ∀ es : List Expr, Expr.allNodes es ⊆ ns →
    Blamed ns (pushArguments sc es)
  | [], _ => by
    rw [pushArguments]
    exact .pure _
  | e :: es, hns => by
    rw [pushArguments]
    refine (blamed_pushArguments es (by grind [Expr.allNodes])).bind fun _ => ?_
    exact (blamed_expression e (by grind [Expr.allNodes])).bind fun _ => .pure _

end

mutual

theorem blamed_statement : ∀ s : Stmt, s.nodes ⊆ ns → Blamed ns (statement sc s)
  | .block t ss, hns => by
    rw [statement]
    exact blamed_statements ss hns
  | .cond t c a b, hns => by
    rw [statement]
    refine succeeds_newLabel.blamed.bind fun _ => ?_
    refine succeeds_newLabel.blamed.bind fun _ => ?_
    refine (blamed_expression c (by grind [Stmt.nodes])).bind fun _ => ?_
    refine (blamed_statement a (by grind [Stmt.nodes])).bind fun _ => ?_
    exact (blamed_statement b (by grind [Stmt.nodes])).bind fun _ => .pure _
  | .loop t c b, hns => by
    rw [statement]
    refine succeeds_newLabel.blamed.bind fun _ => ?_
    refine succeeds_newLabel.blamed.bind fun _ => ?_
    refine (blamed_expression c (by grind [Stmt.nodes])).bind fun _ => ?_
    exact (blamed_statement b (by grind [Stmt.nodes])).bind fun _ => .pure _
  | .print t e, hns => by
    rw [statement]
    exact (blamed_expression e hns).bind fun _ => .pure _
  | .assign t x e, hns => by
    rw [statement]
    refine (blamed_expression e (by grind [Stmt.nodes])).bind fun _ => ?_
    exact blamed_resolve_bind (hns (by simp [Stmt.nodes])) fun _ _ => .pure _
  | .assignElem t x i e, hns => by
    have hname : .var x ∈ ns := hns (by simp [Stmt.nodes])
    rw [statement]
    apply blamed_resolve_bind hname
    intro v hv
    split
    · refine (blamed_expression i (by grind [Stmt.nodes])).bind fun _ => ?_
      exact (blamed_expression e (by grind [Stmt.nodes])).bind fun _ => .pure _
    · rw [hv]
      exact .failAt (.notArray x _) hname
  | .missing, hns => by
    rw [statement]
    exact .failAt .missingStatement (hns (by simp [Stmt.nodes]))

theorem blamed_statements : ∀ ss : List Stmt, Stmt.allNodes ss ⊆ ns →
    Blamed ns (statements sc ss)
  | [], _ => by
    rw [statements]
    exact .pure _
  | s :: ss, hns => by
    rw [statements]
    refine (blamed_statement s (by grind [Stmt.allNodes])).bind fun _ => ?_
    exact (blamed_statements ss (by grind [Stmt.allNodes])).bind fun _ => .pure _

end

variable {t : ClassTable}

theorem blamed_method {cls : ClassInfo} {d : MethodDecl} (hns : d.nodes ⊆ ns) :
    Blamed ns (method t cls d) := by
  unfold method
  split
  · exact .failAt (.undeclaredMethod _ d.name) (hns (by simp [MethodDecl.nodes]))
  · refine (succeeds_report _).blamed.bind fun _ => ?_
    refine (blamed_statements d.body (by grind [MethodDecl.nodes])).bind fun _ => ?_
    exact (blamed_expression d.result (by grind [MethodDecl.nodes])).bind fun _ => .pure _

theorem blamed_methods {cls : ClassInfo} {ds : List MethodDecl}
    (hns : ds.flatMap MethodDecl.nodes ⊆ ns) : Blamed ns (methods t cls ds) := by
  induction ds with
  | nil => exact .pure _
  | cons d ds ih =>
    refine (blamed_method (by grind)).bind fun _ => ?_
    exact (ih (by grind)).bind fun _ => .pure _

theorem blamed_classes {cs : List ClassDecl} (hns : cs.flatMap ClassDecl.nodes ⊆ ns) :
    Blamed ns (classes t cs) := by
  induction cs with
  | nil => exact .pure _
  | cons c cs ih =>
    have hnodes : c.nodes ⊆ ns := by grind
    unfold classes
    split
    · exact .failAt (.undeclaredClass c.name) (hnodes (by simp [ClassDecl.nodes]))
    · refine (blamed_methods (by grind [ClassDecl.nodes])).bind fun _ => ?_
      exact (ih (by grind)).bind fun _ => .pure _

theorem blamed_main {entry : ClassInfo} {m : MainClass} (hns : m.nodes ⊆ ns) :
    Blamed ns (main t entry m) := by
  unfold main
  split
  · exact .failAt (.noMain m.name) (hns (by simp [MainClass.nodes]))
  · exact (blamed_statements m.body (by grind [MainClass.nodes])).bind fun _ => .pure _

theorem blamed_checkLabels {seen : List (Bytes × Bytes)} {names : List (Bytes × Ident)}
    (hns : ∀ name ∈ names, .var name.2 ∈ ns) : Blamed ns (checkLabels seen names) := by
  induction names generalizing seen with
  | nil => exact .pure _
  | cons name names ih =>
    rw [checkLabels]
    split
    · exact .failAt (.duplicateLabel _ name.1 name.2) (hns name (by simp))
    · exact ih fun name hname => hns name (by simp [hname])

/-- An error in the code of a program with an entry class is the fault of one of its nodes. -/
theorem blamed_program {p : Program} {m : MainClass} (hmain : p.main = some m)
    (hentry : t.entry.isSome) : Blamed p.nodes (program p t) := by
  obtain ⟨entry, hentry⟩ := Option.isSome_iff_exists.mp hentry
  have hclasses : p.classes.flatMap ClassDecl.nodes ⊆ p.nodes := by grind [Program.nodes]
  have hmnodes : m.nodes ⊆ p.nodes := by grind [Program.nodes]
  have hnames : ∀ name ∈ methodNames p, .var name.2 ∈ p.nodes := by
    intro name hname
    obtain ⟨c, hc, hname⟩ := List.mem_flatMap.mp hname
    obtain ⟨d, hd, rfl⟩ := List.mem_map.mp hname
    apply hclasses
    apply List.mem_flatMap.mpr
    exact ⟨c, hc, by grind [ClassDecl.nodes, MethodDecl.nodes]⟩
  unfold program
  rw [hmain, hentry]
  refine (blamed_checkLabels hnames).bind fun _ => ?_
  refine (blamed_main hmnodes).bind fun _ => ?_
  exact (blamed_classes hclasses).bind fun _ => .pure _

/-- An error in the code of a written program is placed at a node of its tree. -/
theorem sited_program {p : Program} (hw : p.Written) (hentry : t.entry.isSome) :
    Sited p.tokens (program p t) := by
  obtain ⟨m, hmain, -⟩ := hw.main
  intro g e g' h
  exact (blamed_program hmain hentry g e g' h).sitedIn hw.reported

end Trees

end Gen

end MiniJava
