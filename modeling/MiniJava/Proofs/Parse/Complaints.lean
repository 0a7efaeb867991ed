import MiniJava.Proofs.Parse.Rounds
import MiniJava.Proofs.Token.Places

/-!
# What complaints are about

A complaint is noted at the place of one of the tokens of the stream, and what it shows is the kind
or the literal of that token.

* **`Complaint.Shows`** — what a complaint says that it found is what the token is.
* **`ParseError.About`** — an error at the place of a token, which it shows.
* **`ParseState.Reaches`** — from one state to a later one, with such errors only.
* **`Parse.Sincere`** — a reader that goes such a way; one lemma for each reader.
* **`about_of_mem_errors`** — every error of a source is about one of its tokens.
-/

namespace MiniJava

/-- What the complaint says that it found is what the token is. -/
def Complaint.Shows : Complaint → Token → Prop
  | expected _ got, t => got = t.kind
  | expectedWord _ got, t => got = t.literal
  | expectedEntryClass got, t => got = t.kind
  | expectedClass got, t => got = t.kind
  | expectedType got, t => got = t.kind
  | unclosedMain got, t => got = t.kind
  | expectedMember got, t => got = t.kind
  | notAStatement got, t => got = t.kind
  | notAnExpression got, t => got = t.kind
  | integerTooLarge literal, t => literal = t.literal
  | expectedCreation got, t => got = t.kind
  | noReturn _, _ => True
  | lateDeclaration, _ => True
  | noAssignment _, _ => True
  | unclosedBlock, _ => True

/-- The error is at the place of the token, and shows it. -/
structure ParseError.About (e : ParseError) (t : Token) : Prop where
  line : e.line = t.line
  column : e.column = t.column
  shows : e.complaint.Shows t

/-! ### The way of a reader -/

section

variable {s s' s'' : ParseState} {t : Token}

/-- From the one state one comes to the other by stepping on, and every error that is noted on the
way is about a token that the stream yields. -/
structure ParseState.Reaches (s s' : ParseState) : Prop where
  steps : ∃ k, s'.input = TokenStream.advance^[k] s.input
  errors : ∃ es, s'.errors = s.errors ++ es ∧ ∀ e ∈ es, ∃ t, s.input.Yields t ∧ e.About t

/-- Steps without errors. -/
theorem ParseState.Reaches.of_steps {k : Nat} (hinput : s'.input = TokenStream.advance^[k] s.input)
    (herrors : s'.errors = s.errors) : s.Reaches s' :=
  ⟨⟨k, hinput⟩, [], by rw [herrors, List.append_nil], fun _ he => absurd he List.not_mem_nil⟩

theorem ParseState.Reaches.refl (s : ParseState) : s.Reaches s := .of_steps (k := 0) rfl rfl

theorem ParseState.Reaches.trans (h : s.Reaches s') (h' : s'.Reaches s'') : s.Reaches s'' := by
  obtain ⟨⟨k, hk⟩, es, hes, habout⟩ := h
  obtain ⟨⟨j, hj⟩, fs, hfs, habout'⟩ := h'
  refine ⟨⟨j + k, ?_⟩, es ++ fs, ?_, fun e he => ?_⟩
  · rw [hj, hk, Function.iterate_add_apply]
  · rw [hfs, hes, List.append_assoc]
  · rcases List.mem_append.mp he with he | he
    · exact habout e he
    · obtain ⟨t, ht, hshows⟩ := habout' e he
      rw [hk] at ht
      exact ⟨t, ht.of_iterate, hshows⟩

theorem ParseState.reaches_advance (s : ParseState) : s.Reaches s.advance :=
  .of_steps (k := 1) rfl rfl

theorem ParseState.reaches_resume (s : ParseState) : s.Reaches s.resume := by
  obtain ⟨k, -, hk⟩ := Parse.exists_iterate_resume s
  exact .of_steps hk rfl

theorem ParseState.reaches_complain {c : Complaint} (ht : s.input.Yields t) (hc : c.Shows t) :
    s.Reaches (s.complain t c) := by
  refine ⟨⟨0, rfl⟩, [⟨t.line, t.column, c⟩], rfl, fun e he => ?_⟩
  rw [List.mem_singleton] at he
  subst he
  exact ⟨t, ht, rfl, rfl, hc⟩

end

namespace Parse

/-- On the way that the reader goes from this state it complains of nothing but tokens it saw. -/
def Sincere {α : Type} (p : Parse α) (s : ParseState) : Prop := s.Reaches (p s).2

section

variable {α β : Type} {s : ParseState} {c : Complaint}

theorem sincere_pure (a : α) (s : ParseState) : Sincere (pure a) s := .refl s

theorem sincere_fail (s : ParseState) : Sincere (α := α) fail s := .refl s

theorem sincere_advance (s : ParseState) : Sincere advance s := s.reaches_advance

theorem Sincere.bind {p : Parse α} {f : α → Parse β} (h : Sincere p s)
    (hf : ∀ a s', Sincere (f a) s') : Sincere (p >>= f) s := by
  unfold Sincere at h ⊢
  cases hp : p s with
  | mk result s' =>
    rw [hp] at h
    cases result with
    | none =>
      rw [bind_none hp]
      exact h
    | some a =>
      rw [bind_some hp]
      exact h.trans (hf a s')

theorem sincere_current {f : Token → Parse α} (h : Sincere (f s.input.head) s) :
    Sincere (current >>= f) s := h

theorem sincere_upcoming {f : Token → Parse α} (h : Sincere (f s.input.second) s) :
    Sincere (upcoming >>= f) s := h

theorem sincere_failAt_head (hc : c.Shows s.input.head) :
    Sincere (α := α) (failAt s.input.head c) s :=
  ParseState.reaches_complain (TokenStream.yields_head _) hc

theorem sincere_failAt_second (hc : c.Shows s.input.second) :
    Sincere (α := α) (failAt s.input.second c) s :=
  ParseState.reaches_complain (TokenStream.yields_second _) hc

theorem Sincere.ite {p q : Parse α} {b : Prop} [Decidable b] (hp : Sincere p s)
    (hq : Sincere q s) : Sincere (if b then p else q) s := by
  split
  · exact hp
  · exact hq

end

/-! ### Steps to expected tokens -/

theorem sincere_expect (k : TokenKind) (s : ParseState) : Sincere (expect k) s :=
  sincere_upcoming (Sincere.ite (sincere_advance s) (sincere_failAt_second rfl))

theorem sincere_expectWord (w : Bytes) (s : ParseState) : Sincere (expectWord w) s :=
  sincere_upcoming (Sincere.ite (sincere_advance s) (sincere_failAt_second rfl))

theorem sincere_expectIdent (s : ParseState) : Sincere expectIdent s :=
  (sincere_expect _ s).bind fun _ s => sincere_current (sincere_pure _ s)

theorem sincere_expectAll (ks : List TokenKind) (s : ParseState) : Sincere (expectAll ks) s := by
  induction ks generalizing s with
  | nil => exact sincere_pure _ s
  | cons k ks ih => exact (sincere_expect k s).bind fun _ s => ih s

/-! ### Expressions -/

section Expressions

variable {expr : Precedence → Parse Expr} (h : ∀ l s, Sincere (expr l) s)

include h

theorem sincere_moreArguments (n : Nat) (s : ParseState) : Sincere (moreArguments expr n) s := by
  induction n generalizing s with
  | zero => exact sincere_fail s
  | succ n ih =>
    refine sincere_upcoming (Sincere.ite ?_ ?_)
    · refine (sincere_advance s).bind fun _ s => (sincere_advance s).bind fun _ s => ?_
      exact (h _ s).bind fun _ s => (ih s).bind fun _ s => sincere_pure _ s
    · exact (sincere_expect _ s).bind fun _ s => sincere_pure _ s

theorem sincere_arguments (n : Nat) (s : ParseState) : Sincere (arguments expr n) s := by
  refine (sincere_advance s).bind fun _ s => sincere_current (Sincere.ite (sincere_pure _ s) ?_)
  exact (h _ s).bind fun _ s => (sincere_moreArguments h n s).bind fun _ s => sincere_pure _ s

theorem sincere_creation (s : ParseState) : Sincere (creation expr) s := by
  refine sincere_current (sincere_upcoming ?_)
  cases hk : s.input.second.kind with
  | intWord =>
    refine (sincere_advance s).bind fun _ s => (sincere_expect _ s).bind fun _ s => ?_
    refine (sincere_advance s).bind fun _ s => (h _ s).bind fun _ s => ?_
    exact (sincere_expect _ s).bind fun _ s => sincere_pure _ s
  | ident =>
    refine (sincere_expectIdent s).bind fun _ s => ?_
    exact (sincere_expectAll _ s).bind fun _ s => sincere_pure _ s
  | _ => exact sincere_failAt_second hk.symm

theorem sincere_operand (s : ParseState) : Sincere (operand expr) s := by
  refine sincere_current ?_
  cases hk : s.input.head.kind with
  | ident | trueWord | falseWord | thisWord => exact sincere_pure _ s
  | int => exact Sincere.ite (sincere_pure _ s) (sincere_failAt_head rfl)
  | bang =>
    exact (sincere_advance s).bind fun _ s => (h _ s).bind fun _ s => sincere_pure _ s
  | lparen =>
    refine (sincere_advance s).bind fun _ s => (h _ s).bind fun _ s => ?_
    exact (sincere_expect _ s).bind fun _ s => sincere_pure _ s
  | newWord => exact sincere_creation h s
  | _ => exact sincere_failAt_head hk.symm

theorem sincere_extend (n : Nat) (left : Expr) (s : ParseState) :
    Sincere (extend expr n left) s := by
  refine sincere_current ?_
  cases s.input.head.kind with
  | lbracket =>
    refine (sincere_advance s).bind fun _ s => (h _ s).bind fun _ s => ?_
    exact (sincere_expect _ s).bind fun _ s => sincere_pure _ s
  | dot =>
    refine sincere_upcoming (Sincere.ite ?_ ?_)
    · exact (sincere_advance s).bind fun _ s => sincere_current (sincere_pure _ s)
    · refine (sincere_expectIdent s).bind fun _ s => (sincere_expect _ s).bind fun _ s => ?_
      exact (sincere_arguments h n s).bind fun _ s => sincere_pure _ s
  | _ => exact (sincere_advance s).bind fun _ s => (h _ s).bind fun _ s => sincere_pure _ s

theorem sincere_climb (level : Precedence) (bound n : Nat) (left : Expr) (s : ParseState) :
    Sincere (climb expr level bound n left) s := by
  induction n generalizing left s with
  | zero => exact sincere_fail s
  | succ n ih =>
    refine sincere_upcoming (Sincere.ite ?_ (sincere_pure _ s))
    refine (sincere_advance s).bind fun _ s => ?_
    exact (sincere_extend h bound left s).bind fun left s => ih left s

end Expressions

theorem sincere_expression (n : Nat) (level : Precedence) (s : ParseState) :
    Sincere (expression n level) s := by
  induction n generalizing level s with
  | zero => exact sincere_fail s
  | succ n ih =>
    exact (sincere_operand ih s).bind fun left s => sincere_climb ih level n (n + 1) left s

/-! ### Statements -/

/-- Whether a declaration starts here is seen without a step. -/
theorem sincere_atDeclaration {α : Type} {f : Bool → Parse α} {s : ParseState}
    (h : ∀ b, Sincere (f b) s) : Sincere (atDeclaration >>= f) s := by
  unfold atDeclaration
  rw [bind_assoc]
  refine sincere_current ?_
  cases s.input.head.kind with
  | ident => exact h _
  | _ => exact h _

theorem sincere_statementsUntil {stmt : Parse Stmt} (h : ∀ s, Sincere stmt s) (stop : TokenKind)
    (n : Nat) (s : ParseState) : Sincere (statementsUntil stmt stop n) s := by
  induction n generalizing s with
  | zero => exact sincere_fail s
  | succ n ih =>
    refine sincere_current (Sincere.ite (sincere_pure _ s) (sincere_atDeclaration fun b => ?_))
    refine Sincere.ite (sincere_failAt_head trivial) ((h s).bind fun _ s => ?_)
    exact (sincere_advance s).bind fun _ s => (ih s).bind fun _ s => sincere_pure _ s

theorem sincere_statement (n : Nat) (s : ParseState) : Sincere (statement n) s := by
  induction n generalizing s with
  | zero => exact sincere_fail s
  | succ n ih =>
    refine sincere_current ?_
    cases hk : s.input.head.kind with
    | lbrace =>
      refine (sincere_advance s).bind fun _ s => (sincere_statementsUntil ih _ n s).bind fun _ s => ?_
      exact sincere_current (Sincere.ite (sincere_pure _ s) (sincere_failAt_head trivial))
    | ifWord =>
      refine (sincere_expect _ s).bind fun _ s => (sincere_advance s).bind fun _ s => ?_
      refine (sincere_expression n _ s).bind fun _ s => (sincere_expect _ s).bind fun _ s => ?_
      refine (sincere_advance s).bind fun _ s => (ih s).bind fun _ s => ?_
      refine (sincere_expect _ s).bind fun _ s => (sincere_advance s).bind fun _ s => ?_
      exact (ih s).bind fun _ s => sincere_pure _ s
    | whileWord =>
      refine (sincere_expect _ s).bind fun _ s => (sincere_advance s).bind fun _ s => ?_
      refine (sincere_expression n _ s).bind fun _ s => (sincere_expect _ s).bind fun _ s => ?_
      exact (sincere_advance s).bind fun _ s => (ih s).bind fun _ s => sincere_pure _ s
    | systemWord =>
      refine (sincere_expect _ s).bind fun _ s => (sincere_expectWord _ s).bind fun _ s => ?_
      refine (sincere_expect _ s).bind fun _ s => (sincere_expectWord _ s).bind fun _ s => ?_
      refine (sincere_expect _ s).bind fun _ s => (sincere_advance s).bind fun _ s => ?_
      refine (sincere_expression n _ s).bind fun _ s => ?_
      exact (sincere_expectAll _ s).bind fun _ s => sincere_pure _ s
    | ident =>
      refine sincere_upcoming ?_
      cases s.input.second.kind with
      | assign =>
        refine (sincere_advance s).bind fun _ s => (sincere_advance s).bind fun _ s => ?_
        refine (sincere_expression n _ s).bind fun _ s => ?_
        exact (sincere_expect _ s).bind fun _ s => sincere_pure _ s
      | lbracket =>
        refine (sincere_advance s).bind fun _ s => (sincere_advance s).bind fun _ s => ?_
        refine (sincere_expression n _ s).bind fun _ s => (sincere_expectAll _ s).bind fun _ s => ?_
        refine (sincere_advance s).bind fun _ s => (sincere_expression n _ s).bind fun _ s => ?_
        exact (sincere_expect _ s).bind fun _ s => sincere_pure _ s
      | _ => exact sincere_failAt_second trivial
    | _ => exact sincere_failAt_head hk.symm

/-! ### Declarations -/

theorem sincere_typeRef (s : ParseState) : Sincere typeRef s := by
  refine sincere_current ?_
  cases hk : s.input.head.kind with
  | intWord =>
    refine sincere_upcoming (Sincere.ite ?_ (sincere_pure _ s))
    refine (sincere_advance s).bind fun _ s => ?_
    exact (sincere_expect _ s).bind fun _ s => sincere_pure _ s
  | booleanWord | ident => exact sincere_pure _ s
  | _ => exact sincere_failAt_head hk.symm

theorem sincere_typedName (s : ParseState) : Sincere typedName s :=
  sincere_current <| (sincere_typeRef s).bind fun _ s =>
    (sincere_expectIdent s).bind fun _ s => sincere_pure _ s

theorem sincere_varDecls (n : Nat) (s : ParseState) : Sincere (varDecls n) s := by
  induction n generalizing s with
  | zero => exact sincere_fail s
  | succ n ih =>
    refine sincere_atDeclaration fun b => Sincere.ite ?_ (sincere_pure _ s)
    refine (sincere_typedName s).bind fun _ s => (sincere_expect _ s).bind fun _ s => ?_
    exact (sincere_advance s).bind fun _ s => (ih s).bind fun _ s => sincere_pure _ s

theorem sincere_moreParams (n : Nat) (s : ParseState) : Sincere (moreParams n) s := by
  induction n generalizing s with
  | zero => exact sincere_fail s
  | succ n ih =>
    refine sincere_upcoming (Sincere.ite ?_ ?_)
    · refine (sincere_advance s).bind fun _ s => (sincere_advance s).bind fun _ s => ?_
      exact (sincere_typedName s).bind fun _ s => (ih s).bind fun _ s => sincere_pure _ s
    · exact (sincere_expect _ s).bind fun _ s => sincere_pure _ s

theorem sincere_params (n : Nat) (s : ParseState) : Sincere (params n) s := by
  refine (sincere_advance s).bind fun _ s => sincere_current (Sincere.ite (sincere_pure _ s) ?_)
  exact (sincere_typedName s).bind fun _ s =>
    (sincere_moreParams n s).bind fun _ s => sincere_pure _ s

theorem sincere_methodDecl (n : Nat) (s : ParseState) : Sincere (methodDecl n) s := by
  refine sincere_current ((sincere_advance s).bind fun _ s => ?_)
  refine (sincere_typeRef s).bind fun _ s => (sincere_expectIdent s).bind fun _ s => ?_
  refine (sincere_expect _ s).bind fun _ s => (sincere_params n s).bind fun _ s => ?_
  refine (sincere_expect _ s).bind fun _ s => (sincere_advance s).bind fun _ s => ?_
  refine (sincere_varDecls n s).bind fun _ s => ?_
  refine (sincere_statementsUntil (sincere_statement n) _ n s).bind fun _ s => ?_
  refine sincere_current (Sincere.ite ?_ (sincere_failAt_head trivial))
  refine (sincere_advance s).bind fun _ s => (sincere_expression n _ s).bind fun _ s => ?_
  exact (sincere_expectAll _ s).bind fun _ s => sincere_pure _ s

theorem sincere_methodDecls (n : Nat) (s : ParseState) : Sincere (methodDecls n) s := by
  induction n generalizing s with
  | zero => exact sincere_fail s
  | succ n ih =>
    refine sincere_current (Sincere.ite ?_ (sincere_pure _ s))
    refine (sincere_methodDecl n s).bind fun _ s => (sincere_advance s).bind fun _ s => ?_
    exact (ih s).bind fun _ s => sincere_pure _ s

theorem sincere_parent (s : ParseState) : Sincere parent s := by
  refine sincere_upcoming (Sincere.ite ?_ (sincere_pure _ s))
  refine (sincere_advance s).bind fun _ s => ?_
  exact (sincere_expectIdent s).bind fun _ s => sincere_pure _ s

theorem sincere_classDecl (n : Nat) (s : ParseState) : Sincere (classDecl n) s := by
  refine sincere_current ((sincere_expectIdent s).bind fun _ s => ?_)
  refine (sincere_parent s).bind fun _ s => (sincere_expect _ s).bind fun _ s => ?_
  refine (sincere_advance s).bind fun _ s => (sincere_varDecls n s).bind fun _ s => ?_
  refine (sincere_methodDecls n s).bind fun _ s => sincere_current ?_
  exact Sincere.ite (sincere_pure _ s) (sincere_failAt_head rfl)

theorem sincere_mainClass (n : Nat) (s : ParseState) : Sincere (mainClass n) s := by
  refine sincere_current ((sincere_expectIdent s).bind fun _ s => ?_)
  refine (sincere_expectAll _ s).bind fun _ s => (sincere_expectIdent s).bind fun _ s => ?_
  refine (sincere_expectAll _ s).bind fun _ s => (sincere_advance s).bind fun _ s => ?_
  refine (sincere_varDecls n s).bind fun _ s => ?_
  refine (sincere_statementsUntil (sincere_statement n) _ n s).bind fun _ s => ?_
  refine sincere_current (Sincere.ite ?_ (sincere_failAt_head rfl))
  exact (sincere_expect _ s).bind fun _ s => sincere_pure _ s

/-! ### Programs -/

/-- A round complains of tokens that it saw, if the reader of the class does. -/
theorem reaches_round {α : Type} {read : Parse α} {stray : TokenKind → Complaint} {s : ParseState}
    (hread : Sincere read s) (hstray : (stray s.input.head.kind).Shows s.input.head) :
    s.Reaches (round read stray s).2 := by
  by_cases hclass : s.input.head.kind = .classWord
  · unfold Sincere at hread
    cases hresult : read s with
    | mk result s' =>
      rw [hresult] at hread
      cases result with
      | some a =>
        rw [round_kept hclass hresult]
        exact hread.trans s'.reaches_advance
      | none =>
        rw [round_givenUp hclass hresult]
        exact hread.trans s'.reaches_resume
  · rw [round_stray hclass]
    exact (ParseState.reaches_complain (TokenStream.yields_head _) hstray).trans
      (ParseState.reaches_resume _)

theorem reaches_classDecls (n : Nat) (s : ParseState) : s.Reaches (classDecls n s).2 := by
  induction n generalizing s with
  | zero => exact .refl s
  | succ n ih =>
    rw [classDecls_succ]
    split
    · exact .refl s
    · have hround : s.Reaches (round (classDecl n) .expectedClass s).2 :=
        reaches_round (sincere_classDecl n s) rfl
      exact hround.trans (ih _)

/-- Every error in a stream of tokens is about one that it yields. -/
theorem about_of_mem_errors {input : TokenStream} {e : ParseError}
    (h : e ∈ (Program.ofTokens input).errors) : ∃ t, input.Yields t ∧ e.About t := by
  have hentry : ParseState.Reaches ⟨input, []⟩ (entry (input.pending.length + 2) ⟨input, []⟩).2 := by
    rw [entry_eq_round]
    exact reaches_round (sincere_mainClass _ _) rfl
  obtain ⟨-, es, herrors, habout⟩ := hentry.trans (reaches_classDecls (input.pending.length + 2) _)
  rw [List.nil_append] at herrors
  exact habout e (herrors ▸ h)

end Parse

end MiniJava
