import MiniJava.Proofs.ClassTable.Places
import MiniJava.Proofs.Compile.Sites
import MiniJava.Proofs.Compile.Translation
import MiniJava.Proofs.Parse.Places
import MiniJava.Proofs.Token.Places
import MiniJava.Proofs.Tree.Parsed

/-!
# Spacing does not matter

Two sources with the same words, spaced and commented differently, are compiled into the same
assembly or rejected with the same messages.  Places are kept in every token and every error, but
nothing is decided by them.

* **`Gen.Forgets`** — code generation does the same when places are taken away.
* **`CompileError.SameButPlaces`** — errors that differ in their places only.
* **`compile_of_same_words`** — the statement for sources.
-/

namespace MiniJava

open Grammar

/-! ### Errors without places -/

/-- The error without its place. -/
def GenError.unplaced (e : GenError) : GenError := { e with line := 0, column := 0 }

mutual

@[simp] theorem Expr.text_unplaced : ∀ e : Expr, e.unplaced.text = e.text
  | .var _ => rfl
  | .int _ _ => rfl
  | .bool _ _ => rfl
  | .this _ => rfl
  | .unary _ _ e => by simp [Expr.unplaced, Expr.text, e.text_unplaced]
  | .binary _ _ l r => by simp [Expr.unplaced, Expr.text, l.text_unplaced, r.text_unplaced]
  | .index _ a i => by simp [Expr.unplaced, Expr.text, a.text_unplaced, i.text_unplaced]
  | .length _ a => by simp [Expr.unplaced, Expr.text, a.text_unplaced]
  | .call _ recv m args => by
    simp [Expr.unplaced, Expr.text, recv.text_unplaced, Expr.texts_unplaced args, Ident.unplaced]
  | .newArray _ e => by simp [Expr.unplaced, Expr.text, e.text_unplaced]
  | .newObject _ _ => rfl
  | .missing => rfl

@[simp] theorem Expr.texts_unplaced :
    ∀ es : List Expr, Expr.texts (Expr.unplacedAll es) = Expr.texts es
  | [] => rfl
  | e :: es => by simp [Expr.unplacedAll, Expr.texts, e.text_unplaced, Expr.texts_unplaced es]

end

theorem Expr.token?_unplaced (e : Expr) : e.unplaced.token? = e.token?.map Token.unplaced := by
  cases e <;> rfl

@[simp] theorem Expr.literal_unplaced (e : Expr) : e.unplaced.literal = e.literal := by
  unfold Expr.literal
  rw [e.token?_unplaced]
  cases e.token? <;> rfl

theorem GenError.atExpr_unplaced (cause : GenErrorCause) (site : Expr) :
    GenError.atExpr cause site.unplaced = (GenError.atExpr cause site).unplaced := by
  unfold GenError.atExpr
  rw [site.text_unplaced, site.literal_unplaced, site.token?_unplaced]
  cases site.token? with
  | none => rfl
  | some t =>
    have hplaceless : t.unplaced.isPlaced = false := rfl
    simp only [Option.map_some, hplaceless]
    cases t.isPlaced <;> rfl

/-! ### Code -/

namespace Gen

/-- The second step does what the first one does, with an error that has lost its place. -/
def Forgets {α : Type} (x y : Gen α) : Prop :=
  ∀ g, match x g with
    | (.ok a, g') => y g = (.ok a, g')
    | (.error e, _) => (y g).1 = .error e.unplaced

section Rules

variable {α β : Type}

theorem forgets_pure (a : α) : Forgets (pure a : Gen α) (pure a) := fun _ => rfl

theorem forgets_failAt (cause : GenErrorCause) (site : Expr) :
    Forgets (failAt cause site : Gen α) (failAt cause site.unplaced) := by
  intro g
  show Except.error (GenError.atExpr cause site.unplaced) = _
  rw [GenError.atExpr_unplaced]

theorem Forgets.bind {x y : Gen α} {f f' : α → Gen β} (h : Forgets x y)
    (hf : ∀ a, Forgets (f a) (f' a)) : Forgets (x >>= f) (y >>= f') := by
  intro g
  have hg := h g
  show match andThen x f g with
    | (.ok a, g') => andThen y f' g = (.ok a, g')
    | (.error e, _) => (andThen y f' g).1 = .error e.unplaced
  unfold andThen
  rcases hx : x g with ⟨_ | a, g'⟩ <;> rw [hx] at hg
  · rcases hy : y g with ⟨_ | b, g''⟩ <;> rw [hy] at hg
    · exact congrArg Except.error (Except.error.inj hg)
    · cases hg
  · rw [hg]
    exact hf a g'

theorem Forgets.ite {c : Prop} [Decidable c] {x x' y y' : Gen α} (h : Forgets x y)
    (h' : Forgets x' y') : Forgets (if c then x else x') (if c then y else y') := by
  by_cases hc : c
  · simpa only [if_pos hc] using h
  · simpa only [if_neg hc] using h'

/-- The result without places. -/
theorem Forgets.result {x y : Gen α} (h : Forgets x y) (g : Generator) :
    (y g).1 = (x g).1.mapError GenError.unplaced := by
  have hg := h g
  rcases hx : x g with ⟨_ | a, g'⟩ <;> rw [hx] at hg
  · exact hg
  · rw [hg]
    rfl

theorem forgets_newLabel : Forgets newLabel newLabel := fun _ => rfl

theorem forgets_report (e : GenEvent) : Forgets (report e) (report e) := fun _ => rfl

theorem forgets_layout (t : ClassTable) (c : ClassInfo) (site : Expr) :
    Forgets (layout t c site) (layout t c site.unplaced) := by
  rw [layout_eq, layout_eq]
  exact forgets_pure _

end Rules

section Trees

variable {sc : Scope}

theorem forgets_resolve (x : Ident) : Forgets (sc.resolve x) (sc.resolve x.unplaced) := by
  have hname : x.unplaced.name = x.name := rfl
  unfold Scope.resolve
  rw [hname]
  cases sc.lookup? x.name with
  | none => exact forgets_failAt _ (.var x)
  | some v => exact forgets_pure v

theorem forgets_callee (site : Expr) (recv : Ty) (method : Ident) (argCount : Nat) :
    Forgets (callee sc site recv method argCount)
      (callee sc site.unplaced recv method.unplaced argCount) := by
  have hname : method.unplaced.name = method.name := rfl
  unfold callee
  rw [hname]
  cases recv with
  | object c =>
    dsimp only
    cases sc.table.find? c with
    | none => exact forgets_failAt _ site
    | some cls =>
      dsimp only
      cases sc.table.method? cls method.name with
      | none => exact forgets_failAt _ (.var method)
      | some m => exact (forgets_pure m).ite (forgets_failAt _ site)
  | _ => exact forgets_failAt _ site

theorem length_unplacedAll : ∀ es : List Expr, (Expr.unplacedAll es).length = es.length
  | [] => rfl
  | _ :: es => congrArg (· + 1) (length_unplacedAll es)

mutual

theorem forgets_expression : ∀ e : Expr, Forgets (expression sc e) (expression sc e.unplaced)
  | .int t n => by
    simp only [Expr.unplaced, expression]
    exact forgets_pure _
  | .bool t b => by
    simp only [Expr.unplaced, expression]
    exact forgets_pure _
  | .this t => by
    simp only [Expr.unplaced, expression]
    exact (forgets_failAt _ (.this t)).ite (forgets_pure _)
  | .var x => by
    simp only [Expr.unplaced, expression]
    exact (forgets_resolve x).bind fun _ => forgets_pure _
  | .unary t (.other s) e => by
    simp only [Expr.unplaced, expression]
    exact forgets_failAt _ (.unary t (.other s) e)
  | .unary t .not e => by
    simp only [Expr.unplaced, expression]
    exact (forgets_expression e).bind fun _ => forgets_pure _
  | .binary t op l r => by
    simp only [Expr.unplaced, expression]
    refine (forgets_expression l).bind fun (_, _) => (forgets_expression r).bind fun (_, _) => ?_
    dsimp only
    cases combine op with
    | none => exact forgets_failAt _ (.binary t op l r)
    | some result => exact forgets_pure _
  | .index t a i => by
    simp only [Expr.unplaced, expression]
    refine (forgets_expression a).bind fun (_, _) => Forgets.ite ?_ ?_
    · exact (forgets_expression i).bind fun _ => forgets_pure _
    · exact forgets_failAt _ (.index t a i)
  | .length t a => by
    simp only [Expr.unplaced, expression]
    refine (forgets_expression a).bind fun (_, _) => ?_
    exact (forgets_pure _).ite (forgets_failAt _ (.length t a))
  | .newArray t n => by
    simp only [Expr.unplaced, expression]
    exact (forgets_expression n).bind fun _ => forgets_pure _
  | .newObject t c => by
    have hname : c.unplaced.name = c.name := rfl
    simp only [Expr.unplaced, expression, hname]
    cases sc.table.find? c.name with
    | none => exact forgets_failAt _ (.var c)
    | some cls =>
      refine (forgets_failAt _ (.var c)).ite ?_
      refine (forgets_layout _ _ (.newObject t c)).bind fun _ => ?_
      exact forgets_newLabel.bind fun _ => forgets_newLabel.bind fun _ => forgets_pure _
  | .call t recv m args => by
    simp only [Expr.unplaced, expression, length_unplacedAll]
    refine (forgets_expression recv).bind fun (_, _) => ?_
    refine (forgets_callee (.call t recv m args) _ m _).bind fun _ => ?_
    exact (forgets_pushArguments args).bind fun _ => forgets_pure _
  | .missing => by
    simp only [Expr.unplaced, expression]
    exact forgets_failAt _ .missing

theorem forgets_pushArguments : ∀ es : List Expr,
    Forgets (pushArguments sc es) (pushArguments sc (Expr.unplacedAll es))
  | [] => by
    simp only [Expr.unplacedAll, pushArguments]
    exact forgets_pure _
  | e :: es => by
    simp only [Expr.unplacedAll, pushArguments]
    refine (forgets_pushArguments es).bind fun _ => ?_
    exact (forgets_expression e).bind fun _ => forgets_pure _

end

mutual

theorem forgets_statement : ∀ s : Stmt, Forgets (statement sc s) (statement sc s.unplaced)
  | .block t ss => by
    simp only [Stmt.unplaced, statement]
    exact forgets_statements ss
  | .cond t c a b => by
    simp only [Stmt.unplaced, statement]
    refine forgets_newLabel.bind fun _ => forgets_newLabel.bind fun _ => ?_
    refine (forgets_expression c).bind fun _ => (forgets_statement a).bind fun _ => ?_
    exact (forgets_statement b).bind fun _ => forgets_pure _
  | .loop t c b => by
    simp only [Stmt.unplaced, statement]
    refine forgets_newLabel.bind fun _ => forgets_newLabel.bind fun _ => ?_
    refine (forgets_expression c).bind fun _ => ?_
    exact (forgets_statement b).bind fun _ => forgets_pure _
  | .print t e => by
    simp only [Stmt.unplaced, statement]
    exact (forgets_expression e).bind fun _ => forgets_pure _
  | .assign t x e => by
    simp only [Stmt.unplaced, statement]
    refine (forgets_expression e).bind fun _ => ?_
    exact (forgets_resolve x).bind fun _ => forgets_pure _
  | .assignElem t x i e => by
    simp only [Stmt.unplaced, statement]
    refine (forgets_resolve x).bind fun _ => Forgets.ite ?_ (forgets_failAt _ (.var x))
    refine (forgets_expression i).bind fun _ => ?_
    exact (forgets_expression e).bind fun _ => forgets_pure _
  | .missing => by
    simp only [Stmt.unplaced, statement]
    exact forgets_failAt _ .missing

theorem forgets_statements : ∀ ss : List Stmt,
    Forgets (statements sc ss) (statements sc (Stmt.unplacedAll ss))
  | [] => by
    simp only [Stmt.unplacedAll, statements]
    exact forgets_pure _
  | s :: ss => by
    simp only [Stmt.unplacedAll, statements]
    exact (forgets_statement s).bind fun _ => (forgets_statements ss).bind fun _ => forgets_pure _

end

variable {t : ClassTable}

theorem forgets_method (cls : ClassInfo) (d : MethodDecl) :
    Forgets (method t cls d) (method t cls d.unplaced) := by
  have hname : d.unplaced.name.name = d.name.name := rfl
  unfold method
  rw [hname]
  cases cls.ownMethod? d.name.name with
  | none => exact forgets_failAt _ (.var d.name)
  | some m =>
    refine (forgets_report _).bind fun _ => ?_
    refine (forgets_statements d.body).bind fun _ => ?_
    exact (forgets_expression d.result).bind fun _ => forgets_pure _

theorem forgets_methods (cls : ClassInfo) (ds : List MethodDecl) :
    Forgets (methods t cls ds) (methods t cls (ds.map MethodDecl.unplaced)) := by
  induction ds with
  | nil => exact forgets_pure _
  | cons d ds ih =>
    exact (forgets_method cls d).bind fun _ => ih.bind fun _ => forgets_pure _

theorem forgets_classes (cs : List ClassDecl) :
    Forgets (classes t cs) (classes t (cs.map ClassDecl.unplaced)) := by
  induction cs with
  | nil => exact forgets_pure _
  | cons c cs ih =>
    have hname : c.unplaced.name.name = c.name.name := rfl
    simp only [List.map_cons, classes, hname]
    cases t.find? c.name.name with
    | none => exact forgets_failAt _ (.var c.name)
    | some cls =>
      exact (forgets_methods cls c.methods).bind fun _ => ih.bind fun _ => forgets_pure _

theorem forgets_main (entry : ClassInfo) (m : MainClass) :
    Forgets (main t entry m) (main t entry m.unplaced) := by
  unfold main
  cases entry.ownMethod? ClassTable.mainName with
  | none => exact forgets_failAt _ (.var m.name)
  | some info => exact (forgets_statements m.body).bind fun _ => forgets_pure _

/-- The name of a method with that of its class, without its place. -/
def unplacedName (name : Bytes × Ident) : Bytes × Ident := (name.1, name.2.unplaced)

theorem forgets_checkLabels (seen : List (Bytes × Bytes)) (names : List (Bytes × Ident)) :
    Forgets (checkLabels seen names) (checkLabels seen (names.map unplacedName)) := by
  induction names generalizing seen with
  | nil => exact forgets_pure _
  | cons name names ih =>
    obtain ⟨className, m⟩ := name
    have hname : m.unplaced.name = m.name := rfl
    simp only [List.map_cons, unplacedName, checkLabels, hname]
    cases seen.lookup (entryLabel className m.name) with
    | none => exact ih _
    | some first => exact forgets_failAt _ (.var m)

theorem methodNames_unplaced (p : Program) :
    methodNames p.unplaced = (methodNames p).map unplacedName := by
  unfold methodNames
  rw [List.map_flatMap]
  show (p.classes.map ClassDecl.unplaced).flatMap _ = _
  rw [List.flatMap_map]
  refine List.flatMap_congr fun c _ => ?_
  show (c.methods.map MethodDecl.unplaced).map _ = _
  rw [List.map_map, List.map_map]
  rfl

/-- The code of a program does not depend on places. -/
theorem forgets_program (p : Program) : Forgets (program p t) (program p.unplaced t) := by
  have hclasses : p.unplaced.classes = p.classes.map ClassDecl.unplaced := rfl
  have hmain : p.unplaced.main = p.main.map MainClass.unplaced := rfl
  unfold program
  rw [methodNames_unplaced, hclasses, hmain]
  cases p.main with
  | none => exact forgets_failAt _ .missing
  | some m =>
    cases t.entry with
    | none => exact forgets_failAt _ .missing
    | some entry =>
      refine (forgets_checkLabels [] _).bind fun _ => (forgets_main entry m).bind fun _ => ?_
      exact (forgets_classes p.classes).bind fun _ => forgets_pure _

end Trees

end Gen

/-! ### Sources -/

/-- What the tokens of a source are, without their places. -/
def words (source : Bytes) : List (TokenKind × Bytes) :=
  (TokenStream.ofSource source).sentence.map fun t => (t.kind, t.literal)

/-- Two texts that differ at most in the place in front of them. -/
def SameButPlace (s s' : Bytes) : Prop :=
  ∃ line column line' column' message,
    s = Position.tag line column message ∧ s' = Position.tag line' column' message

/-- Errors of one stage and one kind, with messages that differ at most in the places in front of
them. -/
inductive CompileError.SameButPlaces : CompileError → CompileError → Prop
  | parse {es es' : List ParseError} :
      List.Forall₂ (fun e e' => SameButPlace e.text e'.text) es es' →
      SameButPlaces (.parse es) (.parse es')
  | decl {e e' : DeclError} : e.kind = e'.kind → SameButPlace e.message e'.message →
      SameButPlaces (.decl e) (.decl e')
  | gen {e e' : GenError} : e.cause.kind = e'.cause.kind → SameButPlace e.message e'.message →
      SameButPlaces (.gen e) (.gen e')

/-- The same assembly, or errors that differ at most in places. -/
def SameResult : Except CompileError Bytes → Except CompileError Bytes → Prop
  | .ok s, .ok s' => s = s'
  | .error e, .error e' => e.SameButPlaces e'
  | _, _ => False

/-- Sources without NUL bytes that have the same words have the same tokens up to places. -/
theorem unplaced_of_same_words {a b : Bytes} (ha : 0 ∉ a) (hb : 0 ∉ b) (h : words a = words b) :
    (TokenStream.ofSource a).pending.map Token.unplaced =
      (TokenStream.ofSource b).pending.map Token.unplaced := by
  have hwhole : ∀ source : Bytes, 0 ∉ source →
      (TokenStream.ofSource source).sentence = (TokenStream.ofSource source).pending := by
    intro source hnul
    obtain ⟨-, -, heof, -⟩ := tile_rest [] source hnul (.inr ⟨nofun, .inl rfl⟩)
    rw [TokenStream.sentence, List.takeWhile_eq_self_iff]
    intro t ht
    exact bne_iff_ne.mpr (heof t ht)
  have hplace : ∀ ts : List Token, ts.map Token.unplaced =
      (ts.map fun t => (t.kind, t.literal)).map fun w => ⟨w.1, w.2, 0, 0⟩ := by
    intro ts
    rw [List.map_map]
    rfl
  unfold words at h
  rw [hwhole a ha, hwhole b hb] at h
  rw [hplace, hplace, h]

theorem DeclError.SitedIn.message_eq {ts : List Token} {e : DeclError} (h : e.SitedIn ts)
    (hts : ∀ t ∈ ts, t.isPlaced) :
    e.message = Position.tag e.line e.column (DeclError.headline e.kind.text e.name) := by
  obtain ⟨kind, t, ht, -, rfl⟩ := h
  have hplaced := hts t ht
  simp only [Token.isPlaced, Bool.and_eq_true, decide_eq_true_eq] at hplaced
  exact if_pos hplaced.1

theorem GenError.SitedIn.message_eq {ts : List Token} {e : GenError} (h : e.SitedIn ts)
    (hts : ∀ t ∈ ts, t.isPlaced) :
    e.message = Position.tag e.line e.column (quoting e.cause.message e.context) := by
  obtain ⟨cause, site, t, ht, hsite, rfl⟩ := h
  have hplaced := hts t ht
  have hline : (GenError.atExpr cause site).line = t.line := by
    simp only [GenError.atExpr, hsite, hplaced, if_true]
  simp only [Token.isPlaced, Bool.and_eq_true, decide_eq_true_eq] at hplaced
  exact if_pos (by rw [hline]; exact hplaced.1)

theorem generate_result (g : Generator) (p : Program) (t : ClassTable) :
    (g.generate p t).1 = (Gen.program p t g.reset).1.map Code.text := by
  unfold Generator.generate
  rcases Gen.program p t g.reset with ⟨_ | code, g'⟩ <;> rfl

theorem compile_eq (source : Bytes) :
    compile source =
      match analyze source with
      | .error e => .error e
      | .ok (p, t) => (Generator.fresh.generate p t).1.mapError CompileError.gen := by
  unfold compile Generator.compile
  rcases analyze source with e | ⟨p, t⟩
  · rfl
  · dsimp only
    rcases Generator.fresh.generate p t with ⟨_ | text, g⟩ <;> rfl

theorem sameResult_generate {p p' : Program} (hp : p.Written) (hp' : p'.Written)
    (hplaced : ∀ t ∈ p.tokens, t.isPlaced) (hplaced' : ∀ t ∈ p'.tokens, t.isPlaced)
    (h : p.unplaced = p'.unplaced) {t : ClassTable} (hentry : t.entry.isSome) (g : Generator) :
    SameResult ((g.generate p t).1.mapError CompileError.gen)
      ((g.generate p' t).1.mapError CompileError.gen) := by
  have hresult := (Gen.forgets_program (t := t) p).result g.reset
  rw [h, (Gen.forgets_program p').result] at hresult
  have hsited := Gen.sited_program hp hentry g.reset
  have hsited' := Gen.sited_program hp' hentry g.reset
  rw [generate_result, generate_result]
  rcases hx : Gen.program p t g.reset with ⟨e | code, g₁⟩ <;>
    rcases hx' : Gen.program p' t g.reset with ⟨e' | code', g₁'⟩ <;>
    rw [hx, hx'] at hresult
  · have he : e'.unplaced = e.unplaced := Except.error.inj hresult
    obtain ⟨hcause, hcontext, -, -⟩ := GenError.mk.inj he
    refine .gen (congrArg GenErrorCause.kind hcause.symm)
      ⟨e.line, e.column, e'.line, e'.column, quoting e.cause.message e.context,
        (hsited e g₁ hx).message_eq hplaced, ?_⟩
    rw [(hsited' e' g₁' hx').message_eq hplaced', hcause, hcontext]
  · cases hresult
  · cases hresult
  · exact congrArg Code.text (Except.ok.inj hresult).symm

/-- Sources without NUL bytes that have the same words are both compiled into the same assembly, or
both rejected at the same stage with the same kind of error and with messages that are the same once
the places are taken out. -/
theorem compile_of_same_words {a b : Bytes} (ha : 0 ∉ a) (hb : 0 ∉ b) (h : words a = words b) :
    SameResult (compile a) (compile b) := by
  obtain ⟨hprogram, hcomplaints⟩ := Parse.ofTokens_alike (unplaced_of_same_words ha hb h)
  change (Program.parse a).program.unplaced = (Program.parse b).program.unplaced at hprogram
  change (Program.parse a).errors.map (·.complaint) = (Program.parse b).errors.map (·.complaint)
    at hcomplaints
  rw [compile_eq, compile_eq]
  by_cases hread : (Program.parse a).errors = []
  · have hread' : (Program.parse b).errors = [] := by
      rw [hread] at hcomplaints
      exact List.map_eq_nil_iff.mp hcomplaints.symm
    have hplaced : ∀ t ∈ (Program.parse a).program.tokens, t.isPlaced :=
      fun t ht => isPlaced_of_mem_ofSource (tokens_of_parse hread ht)
    have hplaced' : ∀ t ∈ (Program.parse b).program.tokens, t.isPlaced :=
      fun t ht => isPlaced_of_mem_ofSource (tokens_of_parse hread' ht)
    have hw := written_of_parse hread
    have hw' := written_of_parse hread'
    have hbuild := ClassTable.build_unplaced (Program.parse a).program
    rw [hprogram, ClassTable.build_unplaced] at hbuild
    have hsited := ClassTable.sited_build hw
    have hsited' := ClassTable.sited_build hw'
    obtain ⟨m, hmain, -⟩ := hw.main
    unfold analyze
    simp only [hread, hread', List.isEmpty_nil, if_true]
    rcases ht : ClassTable.build (Program.parse a).program with e | t <;>
      rcases ht' : ClassTable.build (Program.parse b).program with e' | t' <;>
      rw [ht, ht'] at hbuild
    · have he : e'.unplaced = e.unplaced := Except.error.inj hbuild
      obtain ⟨hkind, hname, -, -⟩ := DeclError.mk.inj he
      refine .decl hkind.symm
        ⟨e.line, e.column, e'.line, e'.column, DeclError.headline e.kind.text e.name,
          (hsited e ht).message_eq hplaced, ?_⟩
      rw [(hsited' e' ht').message_eq hplaced', hkind, hname]
    · cases hbuild
    · cases hbuild
    · obtain rfl : t' = t := Except.ok.inj hbuild
      have hentry : t'.entry.isSome := by
        rw [(ClassTable.build_spec hmain ht).1]
        rfl
      exact sameResult_generate hw hw' hplaced hplaced' hprogram hentry _
  · have hread' : (Program.parse b).errors ≠ [] := by
      intro hnil
      rw [hnil] at hcomplaints
      exact hread (List.map_eq_nil_iff.mp hcomplaints)
    unfold analyze
    simp only [List.isEmpty_iff, hread, hread', if_false]
    refine .parse ?_
    have hall := List.forall₂_eq_eq_eq ▸ hcomplaints
    rw [List.forall₂_map_left_iff, List.forall₂_map_right_iff] at hall
    exact hall.imp fun e e' he =>
      ⟨e.line, e.column, e'.line, e'.column, e.complaint.message, rfl, by
        rw [he]
        rfl⟩

/-- A program with a name that means nothing. -/
def compact : Bytes := "class A\x7bpublic static void main(String[]a)\x7bx=1;\x7d\x7d"

/-- The same words with white space and comments between them. -/
def spread : Bytes :=
  "/* A */ class A \x7b\n  public static void main(String[ ] a) // no x\n  \x7b x = 1 ; \x7d\n" ++
    "\x7d\n"

theorem compile_of_same_words_spread :
    ∃ e e', compile compact = .error e ∧ compile spread = .error e' ∧ e ≠ e' ∧
      e.SameButPlaces e' := by
  have hsame := compile_of_same_words (a := compact) (b := spread) (by decide +kernel)
    (by decide +kernel) (by decide +kernel)
  have hfail : (match compile compact, compile spread with
      | .error e, .error e' => decide (e ≠ e')
      | _, _ => false) = true := by
    decide +kernel
  rcases hcompact : compile compact with e | s <;> rcases hspread : compile spread with e' | s' <;>
    rw [hcompact, hspread] at hsame hfail
  · exact ⟨e, e', rfl, rfl, of_decide_eq_true hfail, hsame⟩
  · exact hsame.elim
  · exact hsame.elim
  · cases hfail

end MiniJava
