import MiniJava.Proofs.Parse.Complete.Expression

/-!
# Every program is read

Statements, declarations and programs of the grammar are accepted by their readers, which give
the trees of the derivations.  The readers of lists leave the first token after the list current,
and so have to be told that no further item starts there.

* **`statement_reads`** — statements.
* **`methodDecl_reads`**, **`classDecl_reads`**, **`mainClass_reads`** — declarations.
* **`ofTokens_of_programOf`** — a program is read without complaint.
-/

namespace MiniJava.Parse

open Grammar

variable {ts us rest : List Token} {n : Nat}

/-! ### Types and variables -/

theorem typeRef_reads {type : TypeRef} (h : TypeOf ts type) (hrest : frontKind rest ≠ .lbracket) :
    Reads typeRef ts type rest := by
  intro fin errs
  unfold typeRef
  rw [current_bind]
  cases h with
  | int ht =>
    simp only [List.cons_append, List.nil_append, head_cons, ht]
    rw [upcoming_bind, second_cons_kind, if_neg hrest]
    rfl
  | @intArray t l r hk =>
    simp only [kinds, List.map_cons, List.map_nil, List.cons.injEq, and_true] at hk
    obtain ⟨ht, hl, hr⟩ := hk
    simp only [List.cons_append, List.nil_append, head_cons, ht]
    rw [upcoming_bind, second_cons_cons, if_pos hl, advance_bind, advance_view,
      bind_some (hr ▸ expect_view fin errs l r rest)]
    rfl
  | boolean ht => simp only [List.cons_append, head_cons, ht]; rfl
  | object ht => simp only [List.cons_append, head_cons, ht]; rfl

theorem TypeOf.ne_nil {type : TypeRef} (h : TypeOf ts type) : ts ≠ [] := by
  cases h <;> simp

/-- A type is placed at its first token. -/
theorem head_typeOf {type : TypeRef} {fin : Position} (h : TypeOf ts type) :
    TokenStream.head ⟨ts ++ rest, fin⟩ = type.token := by
  cases h <;> rfl

theorem typedName_reads {d : VarDecl} (h : TypedName ts d) : Reads typedName ts d rest := by
  intro fin errs
  cases h with
  | @mk ts x type h hx =>
    have hread : Reads typeRef ts type (x :: rest) :=
      typeRef_reads h (by rw [frontKind_cons, hx]; decide)
    unfold typedName
    rw [current_bind, List.append_assoc, List.singleton_append, bind_some (hread fin errs),
      bind_some (expectIdent_leave (TypeOf.ne_nil h) hx rest), pure_apply, leave_concat,
      head_typeOf h]

theorem typedName_ne_nil {d : VarDecl} (h : TypedName ts d) : ts ≠ [] := by
  cases h
  simp

/-- No declaration of a variable starts here. -/
def NoDecl (ts : List Token) : Prop :=
  frontKind ts ≠ .intWord ∧ frontKind ts ≠ .booleanWord ∧
    (frontKind ts = .ident → frontKind ts.tail ≠ .ident)

theorem atDeclaration_of_noDecl {fin : Position} {errs : List ParseError} (h : NoDecl ts) :
    atDeclaration (view fin errs ts) = (some false, view fin errs ts) := by
  obtain ⟨hint, hbool, hident⟩ := h
  unfold atDeclaration
  rw [current_bind, head_kind]
  cases hk : frontKind ts with
  | intWord => contradiction
  | booleanWord => contradiction
  | ident =>
    cases ts with
    | nil => cases hk
    | cons t ts =>
      simp only
      have hnext : frontKind ts ≠ .ident := hident hk
      rw [upcoming_bind, second_cons_kind, decide_eq_false hnext]
      rfl
  | _ => rfl

theorem atDeclaration_of_typedName {d : VarDecl} {fin : Position} {errs : List ParseError}
    (h : TypedName ts d) :
    atDeclaration (view fin errs (ts ++ rest)) = (some true, view fin errs (ts ++ rest)) := by
  cases h with
  | mk h hx =>
    unfold atDeclaration
    rw [current_bind, head_kind]
    cases h with
    | int ht => simp only [List.cons_append, frontKind_cons, ht]; rfl
    | intArray hk =>
      simp only [kinds, List.map_cons, List.cons.injEq] at hk
      simp only [List.cons_append, frontKind_cons, hk.1]
      rfl
    | boolean ht => simp only [List.cons_append, frontKind_cons, ht]; rfl
    | object ht =>
      simp only [List.cons_append, List.nil_append, frontKind_cons, ht]
      rw [upcoming_bind, second_cons_cons, hx]
      rfl

/-- Declarations are read up to the first token after them. -/
theorem varDecls_reads {ds : List VarDecl} (h : Decls ts ds) (rest : List Token)
    (hrest : NoDecl rest) (n : Nat) (hn : ts.length < n) (fin : Position) (errs : List ParseError) :
    varDecls n (view fin errs (ts ++ rest)) = (some ds, view fin errs rest) := by
  induction h generalizing n with
  | none =>
    obtain ⟨n, rfl⟩ : ∃ m, n = m + 1 := ⟨n - 1, by simp at hn; omega⟩
    rw [List.nil_append, varDecls, bind_some (atDeclaration_of_noDecl hrest)]
    rfl
  | @some ts us t d ds hd ht _ ih =>
    simp only [List.length_append, List.length_cons] at hn
    obtain ⟨n, rfl⟩ : ∃ m, n = m + 1 := ⟨n - 1, by omega⟩
    have hts := typedName_ne_nil hd
    rw [List.append_assoc, List.cons_append, varDecls, bind_some (atDeclaration_of_typedName hd)]
    show (typedName >>= _) _ = _
    rw [bind_some (typedName_reads hd fin errs), bind_some (expect_leave hts ht _), advance_bind,
      advance_view, bind_some (ih n (by omega))]
    rfl

theorem moreParams_reads {ps : List VarDecl} (h : MoreParams us ps) {vs : List Token} {r : Token}
    (hvs : vs ≠ []) (hr : r.kind = .rparen) (hn : us.length < n) (fin : Position)
    (errs : List ParseError) :
    moreParams n (view fin errs (leave vs (us ++ r :: rest))) =
      (some ps, view fin errs (r :: rest)) := by
  induction h generalizing n vs with
  | none =>
    obtain ⟨n, rfl⟩ : ∃ m, n = m + 1 := ⟨n - 1, by simp at hn; omega⟩
    rw [List.nil_append, moreParams, upcoming_bind, second_leave hvs, head_cons, hr,
      if_neg (by decide), bind_some (expect_leave hvs hr rest)]
    rfl
  | @some t ts us d ds ht hd _ ih =>
    simp only [List.cons_append, List.length_append, List.length_cons] at hn
    obtain ⟨n, rfl⟩ : ∃ m, n = m + 1 := ⟨n - 1, by omega⟩
    simp only [List.cons_append, List.append_assoc]
    rw [moreParams, upcoming_bind, second_leave hvs, head_cons, if_pos ht, advance_bind,
      advance_leave hvs, advance_bind, advance_view, bind_some (typedName_reads hd fin errs),
      bind_some (ih (typedName_ne_nil hd) (by omega))]
    rfl

theorem frontKind_typedName {d : VarDecl} (h : TypedName ts d) (rest : List Token) :
    frontKind (ts ++ rest) ≠ .rparen := by
  cases h with
  | mk h hx => cases h <;> simp_all [kinds]

theorem params_reads {ps : List VarDecl} (h : Params us ps) (l : Token) {r : Token}
    (hr : r.kind = .rparen) (rest : List Token) (n : Nat) (hn : us.length < n) (fin : Position)
    (errs : List ParseError) :
    params n (view fin errs (l :: us ++ r :: rest)) = (some ps, view fin errs (r :: rest)) := by
  unfold params
  cases h with
  | none =>
    rw [List.cons_append, List.nil_append, advance_bind, advance_view, current_bind, head_cons,
      if_pos hr]
    rfl
  | some hd hs =>
    simp only [List.length_append] at hn
    rw [List.cons_append, List.append_assoc, advance_bind, advance_view, current_bind, head_kind,
      if_neg (frontKind_typedName hd _), bind_some (typedName_reads hd fin errs),
      bind_some (moreParams_reads hs (typedName_ne_nil hd) hr (by omega) fin errs)]
    rfl

/-! ### Statements -/

/-- What a statement starts with. -/
theorem frontKind_stmtOf {E : List Token → Expr → Prop} {s : Stmt} (h : StmtOf E ts s)
    (rest : List Token) :
    NoDecl (ts ++ rest) ∧ frontKind (ts ++ rest) ≠ .rbrace ∧ frontKind (ts ++ rest) ≠ .eof ∧
      frontKind (ts ++ rest) ≠ .returnWord := by
  cases h with
  | print ho _ _ =>
    obtain ⟨s, d, o, e, p, l, hts, hk, -⟩ := ho
    obtain ⟨rfl, rfl⟩ := List.cons.inj hts
    simp_all [NoDecl, kinds]
  | _ => simp_all [NoDecl, kinds]

theorem stmtOf_ne_nil {E : List Token → Expr → Prop} {s : Stmt} (h : StmtOf E ts s) : ts ≠ [] := by
  cases h <;> simp

/-- Where statements end, no declaration starts either. -/
theorem noDecl_of_stmtsOf {E : List Token → Expr → Prop} {ss : List Stmt} (h : StmtsOf E ts ss)
    (hrest : NoDecl rest) : NoDecl (ts ++ rest) := by
  cases h with
  | none => exact hrest
  | some h _ =>
    rw [List.append_assoc]
    exact (frontKind_stmtOf h _).1

theorem expectWord_view {fin : Position} {errs : List ParseError} {u : Token} {w : Bytes}
    (t : Token) (rest : List Token) (hk : u.kind = .ident) (hw : u.literal = w) :
    expectWord w (view fin errs (t :: u :: rest)) = (some (), view fin errs (u :: rest)) := by
  unfold expectWord
  rw [upcoming_bind, second_cons_cons, if_pos ⟨hk, hw⟩]
  rfl

/-- Statements are read up to the first token after them. -/
theorem statementsUntil_none {stmt : Parse Stmt} {stop : TokenKind} (hn : 0 < n)
    (hrest : frontKind rest = stop ∨ frontKind rest = .rbrace) (fin : Position)
    (errs : List ParseError) :
    statementsUntil stmt stop n (view fin errs rest) = (some [], view fin errs rest) := by
  obtain ⟨n, rfl⟩ : ∃ m, n = m + 1 := ⟨n - 1, by omega⟩
  rw [statementsUntil, current_bind, head_kind, if_pos (hrest.imp_right Or.inl)]
  rfl

theorem statementsUntil_some {E : List Token → Expr → Prop} {stmt : Parse Stmt}
    {stop : TokenKind} {s : Stmt} {ss : List Stmt} (hstop : stop = .rbrace ∨ stop = .returnWord)
    (h : StmtOf E ts s) (hs : ∀ rest, Reads stmt ts s rest) {fin : Position}
    {errs : List ParseError}
    (hss : statementsUntil stmt stop n (view fin errs (us ++ rest)) =
      (some ss, view fin errs rest)) :
    statementsUntil stmt stop (n + 1) (view fin errs (ts ++ us ++ rest)) =
      (some (s :: ss), view fin errs rest) := by
  obtain ⟨hdecl, hbrace, heof, hreturn⟩ := frontKind_stmtOf h (us ++ rest)
  have hgo : ¬ (frontKind (ts ++ (us ++ rest)) = stop ∨ frontKind (ts ++ (us ++ rest)) = .rbrace ∨
      frontKind (ts ++ (us ++ rest)) = .eof) := by
    rintro (h | h | h)
    · rcases hstop with rfl | rfl <;> contradiction
    · contradiction
    · contradiction
  rw [List.append_assoc, statementsUntil, current_bind, head_kind, if_neg hgo,
    bind_some (atDeclaration_of_noDecl hdecl)]
  show (stmt >>= _) _ = _
  rw [bind_some (hs _ fin errs), advance_bind, advance_leave (stmtOf_ne_nil h), bind_some hss]
  rfl

/-- What follows an expression in a statement ends it. -/
theorem tightness_ends {t : Token}
    (h : t.kind = .rparen ∨ t.kind = .rbracket ∨ t.kind = .semicolon) (rest : List Token) :
    tightness (frontKind (t :: rest)) ≤ 1 := by
  rw [frontKind_cons]
  rcases h with h | h | h <;> rw [h] <;> decide

section Forms

variable {t u l r w x : Token} {cs is : List Token} {c i e : Expr} {a b : Stmt}

theorem block_reads {ss : List Stmt} (ht : t.kind = .lbrace) (hu : u.kind = .rbrace)
    (hbody : ∀ fin errs, statementsUntil (statement n) .rbrace n (view fin errs (ts ++ u :: rest)) =
      (some ss, view fin errs (u :: rest))) :
    Reads (statement (n + 1)) (t :: ts ++ [u]) (.block t ss) rest := by
  intro fin errs
  rw [statement, current_bind]
  simp only [List.cons_append, List.append_assoc, List.nil_append, head_cons, ht]
  rw [advance_bind, advance_view, bind_some (hbody fin errs), current_bind, head_cons, if_pos hu,
    pure_apply, ← List.cons_append, leave_concat]

theorem cond_reads (hk : kinds [t, l] = [.ifWord, .lparen]) (hr : r.kind = .rparen)
    (hw : w.kind = .elseWord) (hcs : cs ≠ []) (hts : ts ≠ []) (hus : us ≠ [])
    (hcond : Reads (expression n .lowest) cs c (r :: (ts ++ w :: (us ++ rest))))
    (hthen : Reads (statement n) ts a (w :: (us ++ rest)))
    (helse : Reads (statement n) us b rest) :
    Reads (statement (n + 1)) ([t, l] ++ cs ++ r :: ts ++ w :: us) (.cond t c a b) rest := by
  intro fin errs
  simp only [kinds, List.map_cons, List.map_nil, List.cons.injEq, and_true] at hk
  obtain ⟨ht, hl⟩ := hk
  rw [statement, current_bind]
  simp only [List.cons_append, List.append_assoc, List.nil_append, head_cons, ht]
  rw [bind_some (hl ▸ expect_view fin errs t l _), advance_bind, advance_view,
    bind_some (hcond fin errs), bind_some (expect_leave hcs hr _), advance_bind,
    advance_view, bind_some (hthen fin errs),
    bind_some (expect_leave hts hw _), advance_bind, advance_view,
    bind_some (helse fin errs), pure_apply]
  rw [show t :: l :: (cs ++ r :: (ts ++ w :: us)) = (t :: l :: (cs ++ r :: (ts ++ [w]))) ++ us by
    simp, leave_append _ hus]

theorem loop_reads (hk : kinds [t, l] = [.whileWord, .lparen]) (hr : r.kind = .rparen)
    (hcs : cs ≠ []) (hts : ts ≠ [])
    (hcond : Reads (expression n .lowest) cs c (r :: (ts ++ rest)))
    (hbody : Reads (statement n) ts b rest) :
    Reads (statement (n + 1)) ([t, l] ++ cs ++ r :: ts) (.loop t c b) rest := by
  intro fin errs
  simp only [kinds, List.map_cons, List.map_nil, List.cons.injEq, and_true] at hk
  obtain ⟨ht, hl⟩ := hk
  rw [statement, current_bind]
  simp only [List.cons_append, List.append_assoc, List.nil_append, head_cons, ht]
  rw [bind_some (hl ▸ expect_view fin errs t l _), advance_bind, advance_view,
    bind_some (hcond fin errs), bind_some (expect_leave hcs hr _), advance_bind,
    advance_view, bind_some (hbody fin errs), pure_apply]
  simp only [← List.cons_append, leave_append _ (List.cons_ne_nil r ts), leave_cons r hts]

theorem print_reads {s : Token} {os : List Token} (ho : Opens (t :: os))
    (hk : kinds [r, s] = [.rparen, .semicolon]) (hts : ts ≠ [])
    (hread : Reads (expression n .lowest) ts e (r :: s :: rest)) :
    Reads (statement (n + 1)) (t :: os ++ ts ++ [r, s]) (.print t e) rest := by
  intro fin errs
  obtain ⟨t', d, o, d', p, l, hos, hks, ho, hp⟩ := ho
  obtain ⟨rfl, rfl⟩ := List.cons.inj hos
  simp only [kinds, List.map_cons, List.map_nil, List.cons.injEq, and_true] at hks
  obtain ⟨ht, hd, hoi, hd', hpi, hl⟩ := hks
  have hclose : expectAll [.rparen, .semicolon] (view fin errs (leave ts (r :: s :: rest))) =
      (some (), view fin errs (s :: rest)) :=
    expectAll_leave hts hk (List.cons_ne_nil r [s]) rest
  rw [statement, current_bind]
  simp only [List.cons_append, List.append_assoc, List.nil_append, head_cons, ht]
  rw [bind_some (hd ▸ expect_view fin errs t d _), bind_some (expectWord_view d _ hoi ho),
    bind_some (hd' ▸ expect_view fin errs o d' _), bind_some (expectWord_view d' _ hpi hp),
    bind_some (hl ▸ expect_view fin errs p l _), advance_bind, advance_view,
    bind_some (hread fin errs), bind_some hclose, pure_apply]
  simp only [← List.cons_append, leave_append _ (List.cons_ne_nil r [s])]
  rfl

theorem assign_reads (hk : kinds [x, t] = [.ident, .assign]) (hu : u.kind = .semicolon)
    (hts : ts ≠ []) (hread : Reads (expression n .lowest) ts e (u :: rest)) :
    Reads (statement (n + 1)) ([x, t] ++ ts ++ [u]) (.assign x (ident x) e) rest := by
  intro fin errs
  simp only [kinds, List.map_cons, List.map_nil, List.cons.injEq, and_true] at hk
  obtain ⟨hx, ht⟩ := hk
  rw [statement, current_bind]
  simp only [List.cons_append, List.append_assoc, List.nil_append, head_cons, hx]
  rw [upcoming_bind]
  simp only [second_cons_cons, ht]
  rw [advance_bind, advance_view, advance_bind, advance_view, bind_some (hread fin errs),
    bind_some (expect_leave hts hu rest), pure_apply]
  simp only [← List.cons_append, leave_concat]
  rfl

theorem assignElem_reads (hk : kinds [x, l] = [.ident, .lbracket])
    (hk' : kinds [r, t] = [.rbracket, .assign]) (hu : u.kind = .semicolon) (his : is ≠ [])
    (hts : ts ≠ []) (hindex : Reads (expression n .lowest) is i ([r, t] ++ (ts ++ u :: rest)))
    (hvalue : Reads (expression n .lowest) ts e (u :: rest)) :
    Reads (statement (n + 1)) ([x, l] ++ is ++ [r, t] ++ ts ++ [u]) (.assignElem x (ident x) i e)
      rest := by
  intro fin errs
  simp only [kinds, List.map_cons, List.map_nil, List.cons.injEq, and_true] at hk
  obtain ⟨hx, hl⟩ := hk
  rw [statement, current_bind]
  simp only [List.cons_append, List.append_assoc, List.nil_append, head_cons, hx]
  rw [upcoming_bind]
  simp only [second_cons_cons, hl]
  rw [advance_bind, advance_view, advance_bind, advance_view,
    show is ++ r :: t :: (ts ++ u :: rest) = is ++ ([r, t] ++ (ts ++ u :: rest)) from rfl,
    bind_some (hindex fin errs),
    bind_some (expectAll_leave his hk' (List.cons_ne_nil r [t]) _), advance_bind,
    leave_cons_cons, leave_singleton, advance_view, bind_some (hvalue fin errs),
    bind_some (expect_leave hts hu rest), pure_apply]
  simp only [← List.cons_append, leave_concat, ← List.append_assoc]
  rfl

end Forms

mutual

theorem statement_reads {ts : List Token} {s : Stmt} {n : Nat} (rest : List Token) :
    StmtOf (ExpAt 0) ts s → Small ts → ts.length ≤ n → Reads (statement n) ts s rest
  | @StmtOf.block _ t u ts ss ht hs hu, small, hn => by
    simp only [List.cons_append, List.length_cons, List.length_append, List.length_nil] at hn
    obtain ⟨n, rfl⟩ : ∃ m, n = m + 1 := ⟨n - 1, by omega⟩
    exact block_reads ht hu (statementsUntil_reads n n .rbrace (u :: rest) hs
      (small.part fun t ht => by simp [ht]) (.inl rfl) (.inl hu) (by omega) (by omega))
  | @StmtOf.cond _ t l r w cs ts us c a b hk hc hr ha hw hb, small, hn => by
    simp only [List.cons_append, List.length_cons, List.length_append, List.nil_append] at hn
    obtain ⟨n, rfl⟩ : ∃ m, n = m + 1 := ⟨n - 1, by omega⟩
    exact cond_reads hk hr hw hc.ne_nil (stmtOf_ne_nil ha) (stmtOf_ne_nil hb)
      (expression_reads hc (small.part fun t ht => by simp [ht]) (by omega)
        (tightness_ends (.inl hr) _))
      (statement_reads _ ha (small.part fun t ht => by simp [ht]) (by omega))
      (statement_reads _ hb (small.part fun t ht => by simp [ht]) (by omega))
  | @StmtOf.loop _ t l r cs ts c b hk hc hr hb, small, hn => by
    simp only [List.cons_append, List.length_cons, List.length_append, List.nil_append] at hn
    obtain ⟨n, rfl⟩ : ∃ m, n = m + 1 := ⟨n - 1, by omega⟩
    exact loop_reads hk hr hc.ne_nil (stmtOf_ne_nil hb)
      (expression_reads hc (small.part fun t ht => by simp [ht]) (by omega)
        (tightness_ends (.inl hr) _))
      (statement_reads _ hb (small.part fun t ht => by simp [ht]) (by omega))
  | @StmtOf.print _ t r s os ts e ho he hk, small, hn => by
    simp only [List.cons_append, List.length_cons, List.length_append] at hn
    obtain ⟨n, rfl⟩ : ∃ m, n = m + 1 := ⟨n - 1, by omega⟩
    have hr : r.kind = .rparen := (List.cons.inj hk).1
    exact print_reads ho hk he.ne_nil
      (expression_reads he (small.part fun t ht => by simp [ht]) (by omega)
        (tightness_ends (.inl hr) _))
  | @StmtOf.assign _ x t s ts e hk he hs, small, hn => by
    simp only [List.cons_append, List.length_cons, List.length_append, List.nil_append] at hn
    obtain ⟨n, rfl⟩ : ∃ m, n = m + 1 := ⟨n - 1, by omega⟩
    exact assign_reads hk hs he.ne_nil
      (expression_reads he (small.part fun t ht => by simp [ht]) (by omega)
        (tightness_ends (.inr (.inr hs)) _))
  | @StmtOf.assignElem _ x l r t s is ts i e hk hi hk' he hs, small, hn => by
    simp only [List.cons_append, List.length_cons, List.length_append, List.nil_append] at hn
    obtain ⟨n, rfl⟩ : ∃ m, n = m + 1 := ⟨n - 1, by omega⟩
    have hr : r.kind = .rbracket := (List.cons.inj hk').1
    exact assignElem_reads hk hk' hs hi.ne_nil he.ne_nil
      (expression_reads hi (small.part fun t ht => by simp [ht]) (by omega)
        (tightness_ends (.inr (.inl hr)) _))
      (expression_reads he (small.part fun t ht => by simp [ht]) (by omega)
        (tightness_ends (.inr (.inr hs)) _))

theorem statementsUntil_reads {ts : List Token} {ss : List Stmt} (n turns : Nat)
    (stop : TokenKind) (rest : List Token) :
    StmtsOf (ExpAt 0) ts ss → Small ts → stop = .rbrace ∨ stop = .returnWord →
    frontKind rest = stop ∨ frontKind rest = .rbrace → ts.length ≤ n → ts.length < turns →
    ∀ fin errs, statementsUntil (statement n) stop turns (view fin errs (ts ++ rest)) =
      (some ss, view fin errs rest)
  | .none, _, _, hrest, _, hturns => fun fin errs => statementsUntil_none hturns hrest fin errs
  | .some h hs, small, hstop, hrest, hn, hturns => by
    intro fin errs
    obtain ⟨small, small'⟩ := small_append.mp small
    have hpos := List.length_pos_iff.mpr (stmtOf_ne_nil h)
    simp only [List.length_append] at hn hturns
    obtain ⟨turns, rfl⟩ : ∃ m, turns = m + 1 := ⟨turns - 1, by omega⟩
    exact statementsUntil_some hstop h (fun rest => statement_reads rest h small (by omega))
      (statementsUntil_reads n turns stop rest hs small' hstop hrest (by omega) (by omega) fin errs)

end

/-! ### Classes -/

theorem noDecl_cons {t : Token} (h : t.kind = .rbrace ∨ t.kind = .returnWord ∨ t.kind = .publicWord)
    (rest : List Token) : NoDecl (t :: rest) := by
  rcases h with h | h | h <;> simp [NoDecl, h]

theorem methodDecl_reads {m : MethodDecl} (h : MethodOf (ExpAt 0) ts m) (small : Small ts)
    (hn : ts.length ≤ n) (rest : List Token) : Reads (methodDecl n) ts m rest := by
  intro fin errs
  cases h with
  | @mk t m l r b w s c ts ps ds ss es type params vars body result ht htype hm hps hr hds hss hw
      hes hs =>
    simp only [kinds, List.map_cons, List.map_nil, List.cons.injEq, and_true] at hm hr
    obtain ⟨hm, hl⟩ := hm
    obtain ⟨hr, hb⟩ := hr
    have hsc : s.kind = .semicolon := (List.cons.inj hs).1
    simp only [List.append_assoc, List.cons_append, List.length_cons, List.length_append,
      List.nil_append, List.length_nil] at hn
    have hreturns : Reads typeRef ts type
        (m :: l :: (ps ++ r :: b :: (ds ++ (ss ++ w :: (es ++ s :: c :: rest))))) :=
      typeRef_reads htype (by rw [frontKind_cons, hm]; decide)
    have hparams := params_reads hps l hr (b :: (ds ++ (ss ++ w :: (es ++ s :: c :: rest)))) n
      (by omega) fin errs
    have hvars := varDecls_reads hds (ss ++ w :: (es ++ s :: c :: rest))
      (noDecl_of_stmtsOf hss (noDecl_cons (.inr (.inl hw)) _)) n (by omega) fin errs
    have hbody := statementsUntil_reads n n .returnWord (w :: (es ++ s :: c :: rest)) hss
      (small.part fun t ht => by simp [ht]) (.inr rfl) (.inl hw) (by omega) (by omega) fin errs
    have hresult : Reads (expression n .lowest) es result (s :: c :: rest) :=
      expression_reads hes (small.part fun t ht => by simp [ht]) (by omega)
        (tightness_ends (.inr (.inr hsc)) _)
    have hclose : expectAll [.semicolon, .rbrace] (view fin errs (leave es (s :: c :: rest))) =
        (some (), view fin errs (c :: rest)) :=
      expectAll_leave hes.ne_nil hs (List.cons_ne_nil s [c]) rest
    unfold methodDecl
    simp only [List.append_assoc, List.cons_append, List.nil_append] at hparams ⊢
    rw [current_bind, head_cons, advance_bind, advance_view, bind_some (hreturns fin errs),
      bind_some (expectIdent_leave (TypeOf.ne_nil htype) hm _),
      bind_some (hl ▸ expect_view fin errs m l _), bind_some hparams,
      bind_some (hb ▸ expect_view fin errs r b _), advance_bind, advance_view, bind_some hvars,
      bind_some hbody, current_bind, head_cons, if_pos hw, advance_bind, advance_view,
      bind_some (hresult fin errs), bind_some hclose, pure_apply]
    rw [show t :: (ts ++ m :: l :: (ps ++ r :: b :: (ds ++ (ss ++ w :: (es ++ [s, c]))))) =
      (t :: (ts ++ m :: l :: (ps ++ r :: b :: (ds ++ (ss ++ w :: (es ++ [s])))))) ++ [c] by simp,
      leave_concat]

theorem methodOf_front {E : List Token → Expr → Prop} {m : MethodDecl} (h : MethodOf E ts m)
    (rest : List Token) : ts ≠ [] ∧ frontKind (ts ++ rest) = .publicWord := by
  cases h
  simp_all

/-- Methods are read up to the first token after them. -/
theorem methodDecls_reads {ms : List MethodDecl} (h : MethodsOf (ExpAt 0) ts ms) (small : Small ts)
    (rest : List Token) (hrest : frontKind rest = .rbrace) (n : Nat) (hn : ts.length < n)
    (fin : Position) (errs : List ParseError) :
    methodDecls n (view fin errs (ts ++ rest)) = (some ms, view fin errs rest) := by
  induction h generalizing n with
  | none =>
    obtain ⟨n, rfl⟩ : ∃ m, n = m + 1 := ⟨n - 1, by simp at hn; omega⟩
    rw [List.nil_append, methodDecls, current_bind, head_kind, hrest, if_neg (by decide)]
    rfl
  | @some ts us m ms h _ ih =>
    obtain ⟨small, small'⟩ := small_append.mp small
    obtain ⟨hts, hfront⟩ := methodOf_front h (us ++ rest)
    have hpos := List.length_pos_iff.mpr hts
    simp only [List.length_append] at hn
    obtain ⟨n, rfl⟩ : ∃ m, n = m + 1 := ⟨n - 1, by omega⟩
    rw [List.append_assoc, methodDecls, current_bind, head_kind, if_pos hfront,
      bind_some (methodDecl_reads h small (by omega) _ fin errs), advance_bind, advance_leave hts,
      bind_some (ih small' n (by omega))]
    rfl

/-- Where methods end, no declaration starts either. -/
theorem noDecl_of_methodsOf {E : List Token → Expr → Prop} {ms : List MethodDecl}
    (h : MethodsOf E ts ms) (hrest : NoDecl rest) : NoDecl (ts ++ rest) := by
  cases h with
  | none => exact hrest
  | some h _ =>
    rw [List.append_assoc]
    have hfront := (methodOf_front h (by assumption)).2
    cases h
    simp_all [NoDecl]

theorem parent_reads {p : Option Ident} (h : ParentOf us p) (t : Token) {b : Token}
    (hb : b.kind = .lbrace) (rest : List Token) (fin : Position) (errs : List ParseError) :
    parent (view fin errs (t :: us ++ b :: rest)) =
      (some p, view fin errs (leave (t :: us) (b :: rest))) := by
  unfold parent
  cases h with
  | none =>
    simp only [List.cons_append, List.nil_append]
    rw [upcoming_bind, second_cons_cons, hb, if_neg (by decide)]
    rfl
  | @some e q hk =>
    simp only [kinds, List.map_cons, List.map_nil, List.cons.injEq, and_true] at hk
    simp only [List.cons_append, List.nil_append]
    rw [upcoming_bind, second_cons_cons, if_pos hk.1, advance_bind, advance_view,
      bind_some (expectIdent_view e _ hk.2)]
    rfl

theorem classDecl_reads {c : ClassDecl} (h : ClassOf (ExpAt 0) ts c) (small : Small ts)
    (hn : ts.length ≤ n) (rest : List Token) : Reads (classDecl n) ts c rest := by
  intro fin errs
  cases h with
  | @mk t c b u ps fs ms p fields methods hk hp hb hfs hms hu =>
    simp only [kinds, List.map_cons, List.map_nil, List.cons.injEq, and_true] at hk
    obtain ⟨-, hc⟩ := hk
    simp only [List.append_assoc, List.cons_append, List.length_cons, List.length_append,
      List.nil_append, List.length_nil] at hn
    have hparent := parent_reads hp c hb (fs ++ (ms ++ u :: rest)) fin errs
    have hfields := varDecls_reads hfs (ms ++ u :: rest)
      (noDecl_of_methodsOf hms (noDecl_cons (.inl hu) _)) n (by omega) fin errs
    have hmethods := methodDecls_reads hms (small.part fun t ht => by simp [ht]) (u :: rest) hu n
      (by omega) fin errs
    unfold classDecl
    simp only [List.append_assoc, List.cons_append, List.nil_append] at hparent ⊢
    rw [current_bind, head_cons, bind_some (expectIdent_view t _ hc), bind_some hparent,
      bind_some (expect_leave (List.cons_ne_nil c ps) hb _), advance_bind, advance_view,
      bind_some hfields, bind_some hmethods, current_bind, head_cons, if_pos hu, pure_apply]
    rw [show t :: c :: (ps ++ b :: (fs ++ (ms ++ [u]))) = (t :: c :: (ps ++ b :: (fs ++ ms))) ++ [u]
      by simp, leave_concat]

theorem mainClass_reads {m : MainClass} (h : MainOf (ExpAt 0) ts m) (small : Small ts)
    (hn : ts.length ≤ n) (rest : List Token) : Reads (mainClass n) ts m rest := by
  intro fin errs
  cases h with
  | @mk t c a hs ps ds ss us vars body hk hhs ha hps hds hss hus =>
    simp only [kinds, List.map_cons, List.map_nil, List.cons.injEq, and_true] at hk
    obtain ⟨-, hc⟩ := hk
    obtain ⟨u, us, rfl, hu, hus⟩ := List.map_eq_cons_iff.mp hus
    obtain ⟨v, us, rfl, hv, hus⟩ := List.map_eq_cons_iff.mp hus
    obtain rfl := List.map_eq_nil_iff.mp hus
    simp only [List.append_assoc, List.cons_append, List.length_cons, List.length_append,
      List.nil_append, List.length_nil] at hn
    have hhs' : hs ≠ [] := by rintro rfl; simp [kinds] at hhs
    have hps' : ps ≠ [] := by rintro rfl; simp [kinds] at hps
    have hheader := expectAll_view fin errs c hs (a :: (ps ++ (ds ++ (ss ++ u :: v :: rest)))) hhs
    have hopen := expectAll_view fin errs a ps (ds ++ (ss ++ u :: v :: rest)) hps
    have hvars := varDecls_reads hds (ss ++ u :: v :: rest)
      (noDecl_of_stmtsOf hss (noDecl_cons (.inl hu) _)) n (by omega) fin errs
    have hbody := statementsUntil_reads n n .rbrace (u :: v :: rest) hss
      (small.part fun t ht => by simp [ht]) (.inl rfl) (.inl hu) (by omega) (by omega) fin errs
    unfold mainClass
    simp only [List.append_assoc, List.cons_append, List.nil_append] at hheader hopen ⊢
    rw [current_bind, head_cons, bind_some (expectIdent_view t _ hc), bind_some hheader,
      bind_some (expectIdent_leave (List.cons_ne_nil c hs) ha _), bind_some hopen, advance_bind,
      advance_leave (List.cons_ne_nil a ps), bind_some hvars, bind_some hbody, current_bind,
      head_cons, if_pos hu, bind_some (hv ▸ expect_view fin errs u v rest), pure_apply]
    rw [show t :: c :: (hs ++ a :: (ps ++ (ds ++ (ss ++ [u, v])))) =
      (t :: c :: (hs ++ a :: (ps ++ (ds ++ (ss ++ [u]))))) ++ [v] by simp, leave_concat]

/-! ### Programs -/

theorem classOf_front {E : List Token → Expr → Prop} {c : ClassDecl} (h : ClassOf E ts c)
    (rest : List Token) : ts ≠ [] ∧ frontKind (ts ++ rest) = .classWord := by
  cases h
  simp_all [kinds]

theorem mainOf_front {E : List Token → Expr → Prop} {m : MainClass} (h : MainOf E ts m)
    (rest : List Token) : ts ≠ [] ∧ frontKind (ts ++ rest) = .classWord := by
  cases h
  simp_all [kinds]

/-- Classes are read up to the end of the source. -/
theorem classDecls_reads {cs : List ClassDecl} (h : ClassesOf (ExpAt 0) ts cs) (small : Small ts)
    (rest : List Token) (hrest : frontKind rest = .eof) (n : Nat) (hn : ts.length < n)
    (fin : Position) (errs : List ParseError) :
    classDecls n (view fin errs (ts ++ rest)) = (cs, view fin errs rest) := by
  induction h generalizing n with
  | none =>
    obtain ⟨n, rfl⟩ : ∃ m, n = m + 1 := ⟨n - 1, by simp at hn; omega⟩
    simp only [List.nil_append, classDecls, head_kind, hrest, if_true]
  | @some ts us c cs h _ ih =>
    obtain ⟨small, small'⟩ := small_append.mp small
    obtain ⟨hts, hfront⟩ := classOf_front h (us ++ rest)
    have hpos := List.length_pos_iff.mpr hts
    simp only [List.length_append] at hn
    obtain ⟨n, rfl⟩ : ∃ m, n = m + 1 := ⟨n - 1, by omega⟩
    have hread := classDecl_reads h small (show ts.length ≤ n by omega) (us ++ rest) fin errs
    simp only [List.append_assoc, classDecls, head_kind, hfront, reduceCtorEq, if_false, if_true,
      hread, advance_leave hts, ih small' n (by omega)]

/-- A program in front of the end of the source is read without complaint. -/
theorem ofTokens_of_programOf {p : Program} (h : ProgramOf (ExpAt 0) ts p) (small : Small ts)
    {rest : List Token} (hrest : frontKind rest = .eof) (fin : Position) :
    Program.ofTokens ⟨ts ++ rest, fin⟩ = ⟨p, []⟩ := by
  cases h with
  | @mk ts us m cs hm hcs =>
    obtain ⟨small, small'⟩ := small_append.mp small
    obtain ⟨hts, hfront⟩ := mainOf_front hm (us ++ rest)
    simp only [Program.ofTokens, List.append_assoc, List.length_append]
    have hmain := mainClass_reads hm small
      (show ts.length ≤ ts.length + (us.length + rest.length) + 2 by omega) (us ++ rest) fin []
    have hclasses := classDecls_reads hcs small' rest hrest
      (ts.length + (us.length + rest.length) + 2) (by omega) fin []
    simp only [entry, head_kind, hfront, if_true, hmain, advance_leave hts, hclasses]

end MiniJava.Parse
