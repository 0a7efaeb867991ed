import MiniJava.Parse.Program
import MiniJava.Proofs.Tree.Unplaced

/-!
# Reading does not depend on places

Two streams that hold the same tokens up to their places are read alike: into trees that are the
same up to places, and with the same complaints.

* **`Beside`** — two states of reading that differ in places only.
* **`Alike`** — two readers that go from such states to such states, with results that agree; its
  rules follow the way readers are put together.
* **`ofTokens_alike`** — the whole statement for programs.
-/

namespace MiniJava.Parse

/-- The states differ in nothing but places. -/
structure Beside (s s' : ParseState) : Prop where
  words : s.input.pending.map Token.unplaced = s'.input.pending.map Token.unplaced
  complaints : s.errors.map (·.complaint) = s'.errors.map (·.complaint)

/-- From states that differ in nothing but places, the readers reach such states, and their results
agree in what `f` keeps of them. -/
def Alike {α β : Type} (f : α → β) (p q : Parse α) : Prop :=
  ∀ s s', Beside s s' → (p s).1.map f = (q s').1.map f ∧ Beside (p s).2 (q s').2

/-! ### Rules -/

section Rules

variable {α β γ δ : Type}

theorem Alike.bind {f : α → β} {g : γ → δ} {p q : Parse α} {k k' : α → Parse γ}
    (h : Alike f p q) (hk : ∀ a b, f a = f b → Alike g (k a) (k' b)) :
    Alike g (p >>= k) (q >>= k') := by
  intro s s' hs
  obtain ⟨hresult, hnext⟩ := h s s' hs
  show ((andThen p k) s).1.map g = ((andThen q k') s').1.map g ∧
    Beside ((andThen p k) s).2 ((andThen q k') s').2
  unfold andThen
  rcases hp : p s with ⟨_ | a, t⟩ <;> rcases hq : q s' with ⟨_ | b, t'⟩ <;>
    rw [hp, hq] at hresult hnext
  · exact ⟨rfl, hnext⟩
  · cases hresult
  · cases hresult
  · exact hk a b (Option.some.inj hresult) t t' hnext

theorem alike_pure {f : α → β} {a b : α} (h : f a = f b) :
    Alike f (pure a : Parse α) (pure b) := by
  intro s s' hs
  exact ⟨congrArg some h, hs⟩

theorem alike_fail {f : α → β} : Alike f fail fail := fun _ _ hs => ⟨rfl, hs⟩

/-- The same choice is made on both sides. -/
theorem Alike.ite {f : α → β} {c : Prop} [Decidable c] {p q p' q' : Parse α}
    (hp : Alike f p p') (hq : Alike f q q') :
    Alike f (if c then p else q) (if c then p' else q') := by
  by_cases hc : c
  · simpa only [if_pos hc] using hp
  · simpa only [if_neg hc] using hq

theorem kind_eq {t t' : Token} (h : t.unplaced = t'.unplaced) : t.kind = t'.kind :=
  (Token.mk.inj h).1

theorem literal_eq {t t' : Token} (h : t.unplaced = t'.unplaced) : t.literal = t'.literal :=
  (Token.mk.inj h).2.1

end Rules

/-! ### Tokens -/

theorem unplaced_head (s : TokenStream) :
    s.head.unplaced = (s.pending.map Token.unplaced).head?.getD ⟨.eof, [], 0, 0⟩ := by
  obtain ⟨_ | ⟨t, rest⟩, fin⟩ := s <;> rfl

theorem unplaced_second (s : TokenStream) :
    s.second.unplaced = (s.pending.map Token.unplaced).tail.head?.getD ⟨.eof, [], 0, 0⟩ := by
  obtain ⟨_ | ⟨t, _ | ⟨u, rest⟩⟩, fin⟩ := s <;> rfl

theorem pending_advance (s : TokenStream) : s.advance.pending = s.pending.tail := by
  obtain ⟨_ | ⟨t, rest⟩, fin⟩ := s <;> rfl

theorem Beside.head {s s' : ParseState} (hs : Beside s s') :
    s.input.head.unplaced = s'.input.head.unplaced := by
  rw [unplaced_head, unplaced_head, hs.words]

theorem Beside.advance {s s' : ParseState} (hs : Beside s s') : Beside s.advance s'.advance := by
  refine ⟨?_, hs.complaints⟩
  simp only [ParseState.advance, pending_advance, List.map_tail, hs.words]

theorem Beside.complain {s s' : ParseState} (hs : Beside s s') (t t' : Token) (c : Complaint) :
    Beside (s.complain t c) (s'.complain t' c) := by
  refine ⟨hs.words, ?_⟩
  simp only [ParseState.complain, List.map_append, hs.complaints]
  rfl

theorem alike_failAt {α β : Type} {f : α → β} (t t' : Token) (c : Complaint) :
    Alike f (failAt t c) (failAt t' c) :=
  fun _ _ hs => ⟨rfl, hs.complain t t' c⟩

theorem alike_current : Alike Token.unplaced current current :=
  fun _ _ hs => ⟨congrArg some hs.head, hs⟩

theorem alike_upcoming : Alike Token.unplaced upcoming upcoming := by
  intro s s' hs
  refine ⟨congrArg some ?_, hs⟩
  rw [unplaced_second, unplaced_second, hs.words]

theorem alike_advance : Alike (id : Unit → Unit) advance advance :=
  fun _ _ hs => ⟨rfl, hs.advance⟩

theorem alike_expect (k : TokenKind) : Alike (id : Unit → Unit) (expect k) (expect k) := by
  refine alike_upcoming.bind fun t t' ht => ?_
  rw [kind_eq ht]
  exact alike_advance.ite (alike_failAt t t' _)

theorem alike_expectWord (w : Bytes) :
    Alike (id : Unit → Unit) (expectWord w) (expectWord w) := by
  refine alike_upcoming.bind fun t t' ht => ?_
  rw [kind_eq ht, literal_eq ht]
  exact alike_advance.ite (alike_failAt t t' _)

theorem alike_expectIdent : Alike Ident.unplaced expectIdent expectIdent := by
  refine (alike_expect .ident).bind fun _ _ _ => alike_current.bind fun t t' ht => alike_pure ?_
  simp only [Ident.unplaced, ht, literal_eq ht]

theorem alike_expectAll : ∀ ks : List TokenKind,
    Alike (id : Unit → Unit) (expectAll ks) (expectAll ks)
  | [] => alike_pure rfl
  | k :: ks => (alike_expect k).bind fun _ _ _ => alike_expectAll ks

/-! ### Expressions -/

section Expressions

variable {expr : Precedence → Parse Expr}

theorem alike_moreArguments (h : ∀ l, Alike Expr.unplaced (expr l) (expr l)) : ∀ n,
    Alike Expr.unplacedAll (moreArguments expr n) (moreArguments expr n)
  | 0 => alike_fail
  | n + 1 => by
    refine alike_upcoming.bind fun t t' ht => ?_
    rw [kind_eq ht]
    refine Alike.ite ?_ ((alike_expect _).bind fun _ _ _ => alike_pure rfl)
    refine alike_advance.bind fun _ _ _ => alike_advance.bind fun _ _ _ => ?_
    refine (h _).bind fun e e' he => (alike_moreArguments h n).bind fun es es' hes => alike_pure ?_
    simp only [Expr.unplacedAll, he, hes]

theorem alike_arguments (h : ∀ l, Alike Expr.unplaced (expr l) (expr l)) (n : Nat) :
    Alike Expr.unplacedAll (arguments expr n) (arguments expr n) := by
  refine alike_advance.bind fun _ _ _ => alike_current.bind fun t t' ht => ?_
  rw [kind_eq ht]
  refine Alike.ite (alike_pure rfl) ?_
  refine (h _).bind fun e e' he => (alike_moreArguments h n).bind fun es es' hes => alike_pure ?_
  simp only [Expr.unplacedAll, he, hes]

theorem alike_creation (h : ∀ l, Alike Expr.unplaced (expr l) (expr l)) :
    Alike Expr.unplaced (creation expr) (creation expr) := by
  refine alike_current.bind fun t t' ht => alike_upcoming.bind fun next next' hnext => ?_
  rw [kind_eq hnext]
  cases next'.kind with
  | intWord =>
    refine alike_advance.bind fun _ _ _ => (alike_expect _).bind fun _ _ _ => ?_
    refine alike_advance.bind fun _ _ _ => (h _).bind fun e e' he => ?_
    refine (alike_expect _).bind fun _ _ _ => alike_pure ?_
    simp only [Expr.unplaced, ht, he]
  | ident =>
    refine alike_expectIdent.bind fun c c' hc => (alike_expectAll _).bind fun _ _ _ => ?_
    refine alike_pure ?_
    simp only [Expr.unplaced, ht, hc]
  | _ => exact alike_failAt next next' _

theorem alike_operand (h : ∀ l, Alike Expr.unplaced (expr l) (expr l)) :
    Alike Expr.unplaced (operand expr) (operand expr) := by
  refine alike_current.bind fun t t' ht => ?_
  rw [kind_eq ht, literal_eq ht]
  cases t'.kind with
  | ident => exact alike_pure (congrArg Expr.var (by simp only [Ident.unplaced, ht]))
  | int =>
    refine Alike.ite (alike_pure ?_) (alike_failAt t t' _)
    simp only [Expr.unplaced, ht]
  | trueWord => exact alike_pure (by simp only [Expr.unplaced, ht])
  | falseWord => exact alike_pure (by simp only [Expr.unplaced, ht])
  | thisWord => exact alike_pure (by simp only [Expr.unplaced, ht])
  | bang =>
    refine alike_advance.bind fun _ _ _ => (h _).bind fun e e' he => alike_pure ?_
    simp only [Expr.unplaced, ht, he]
  | lparen =>
    refine alike_advance.bind fun _ _ _ => (h _).bind fun e e' he => ?_
    exact (alike_expect _).bind fun _ _ _ => alike_pure he
  | newWord => exact alike_creation h
  | _ => exact alike_failAt t t' _

/-- A token that stands for an operator stands for the same one wherever it is. -/
theorem alike_binary (h : ∀ l, Alike Expr.unplaced (expr l) (expr l)) {t t' : Token}
    (ht : t.unplaced = t'.unplaced) {left left' : Expr} (hleft : left.unplaced = left'.unplaced)
    (k : TokenKind) :
    Alike Expr.unplaced
      (do advance; let right ← expr (.ofToken k); return .binary t (.ofToken t) left right)
      (do advance; let right ← expr (.ofToken k); return .binary t' (.ofToken t') left' right) := by
  refine alike_advance.bind fun _ _ _ => (h _).bind fun e e' he => alike_pure ?_
  simp only [Expr.unplaced, BinaryOp.ofToken, kind_eq ht, literal_eq ht, ht, hleft, he]

theorem alike_extend (h : ∀ l, Alike Expr.unplaced (expr l) (expr l)) (n : Nat)
    {left left' : Expr} (hleft : left.unplaced = left'.unplaced) :
    Alike Expr.unplaced (extend expr n left) (extend expr n left') := by
  refine alike_current.bind fun t t' ht => ?_
  rw [kind_eq ht]
  cases t'.kind with
  | lbracket =>
    refine alike_advance.bind fun _ _ _ => (h _).bind fun e e' he => ?_
    refine (alike_expect _).bind fun _ _ _ => alike_pure ?_
    simp only [Expr.unplaced, ht, hleft, he]
  | dot =>
    refine alike_upcoming.bind fun next next' hnext => ?_
    rw [kind_eq hnext]
    refine Alike.ite ?_ ?_
    · refine alike_advance.bind fun _ _ _ => alike_current.bind fun u u' hu => alike_pure ?_
      simp only [Expr.unplaced, hu, hleft]
    · refine alike_expectIdent.bind fun m m' hm => (alike_expect _).bind fun _ _ _ => ?_
      refine (alike_arguments h n).bind fun es es' hes => alike_pure ?_
      have htoken : m.token.unplaced = m'.token.unplaced := congrArg Ident.token hm
      simp only [Expr.unplaced, htoken, hm, hleft, hes]
  | _ => exact alike_binary h ht hleft _

theorem alike_climb (h : ∀ l, Alike Expr.unplaced (expr l) (expr l)) (level : Precedence)
    (bound : Nat) : ∀ (n : Nat) {left left' : Expr}, left.unplaced = left'.unplaced →
      Alike Expr.unplaced (climb expr level bound n left) (climb expr level bound n left')
  | 0, _, _, _ => alike_fail
  | n + 1, left, left', hleft => by
    refine alike_upcoming.bind fun t t' ht => ?_
    rw [kind_eq ht]
    refine Alike.ite ?_ (alike_pure hleft)
    refine alike_advance.bind fun _ _ _ => (alike_extend h bound hleft).bind fun e e' he => ?_
    exact alike_climb h level bound n he

end Expressions

theorem alike_expression : ∀ (n : Nat) (level : Precedence),
    Alike Expr.unplaced (expression n level) (expression n level)
  | 0, _ => alike_fail
  | n + 1, level => by
    refine (alike_operand (alike_expression n)).bind fun e e' he => ?_
    exact alike_climb (alike_expression n) level n (n + 1) he

/-! ### Statements -/

theorem alike_atDeclaration : Alike (id : Bool → Bool) atDeclaration atDeclaration := by
  refine alike_current.bind fun t t' ht => ?_
  rw [kind_eq ht]
  cases t'.kind with
  | ident =>
    refine alike_upcoming.bind fun u u' hu => ?_
    rw [kind_eq hu]
    exact alike_pure rfl
  | _ => exact alike_pure rfl

theorem alike_statementsUntil {stmt : Parse Stmt} (h : Alike Stmt.unplaced stmt stmt)
    (stop : TokenKind) : ∀ n,
      Alike Stmt.unplacedAll (statementsUntil stmt stop n) (statementsUntil stmt stop n)
  | 0 => alike_fail
  | n + 1 => by
    refine alike_current.bind fun t t' ht => ?_
    rw [kind_eq ht]
    refine Alike.ite (alike_pure rfl) (alike_atDeclaration.bind fun b b' hb => ?_)
    obtain rfl : b = b' := hb
    refine Alike.ite (alike_failAt t t' _) (h.bind fun s s' hs => ?_)
    refine alike_advance.bind fun _ _ _ => ?_
    refine (alike_statementsUntil h stop n).bind fun ss ss' hss => alike_pure ?_
    simp only [Stmt.unplacedAll, hs, hss]

theorem alike_statement : ∀ n, Alike Stmt.unplaced (statement n) (statement n)
  | 0 => alike_fail
  | n + 1 => by
    refine alike_current.bind fun t t' ht => ?_
    rw [kind_eq ht]
    cases t'.kind with
    | lbrace =>
      refine alike_advance.bind fun _ _ _ => ?_
      refine (alike_statementsUntil (alike_statement n) _ n).bind fun ss ss' hss => ?_
      refine alike_current.bind fun u u' hu => ?_
      rw [kind_eq hu]
      refine Alike.ite (alike_pure ?_) (alike_failAt u u' _)
      simp only [Stmt.unplaced, ht, hss]
    | ifWord =>
      refine (alike_expect _).bind fun _ _ _ => alike_advance.bind fun _ _ _ => ?_
      refine (alike_expression n _).bind fun c c' hc => ?_
      refine (alike_expect _).bind fun _ _ _ => alike_advance.bind fun _ _ _ => ?_
      refine (alike_statement n).bind fun a a' ha => ?_
      refine (alike_expect _).bind fun _ _ _ => alike_advance.bind fun _ _ _ => ?_
      refine (alike_statement n).bind fun b b' hb => alike_pure ?_
      simp only [Stmt.unplaced, ht, hc, ha, hb]
    | whileWord =>
      refine (alike_expect _).bind fun _ _ _ => alike_advance.bind fun _ _ _ => ?_
      refine (alike_expression n _).bind fun c c' hc => ?_
      refine (alike_expect _).bind fun _ _ _ => alike_advance.bind fun _ _ _ => ?_
      refine (alike_statement n).bind fun b b' hb => alike_pure ?_
      simp only [Stmt.unplaced, ht, hc, hb]
    | systemWord =>
      refine (alike_expect _).bind fun _ _ _ => (alike_expectWord _).bind fun _ _ _ => ?_
      refine (alike_expect _).bind fun _ _ _ => (alike_expectWord _).bind fun _ _ _ => ?_
      refine (alike_expect _).bind fun _ _ _ => alike_advance.bind fun _ _ _ => ?_
      refine (alike_expression n _).bind fun e e' he => ?_
      refine (alike_expectAll _).bind fun _ _ _ => alike_pure ?_
      simp only [Stmt.unplaced, ht, he]
    | ident =>
      refine alike_upcoming.bind fun next next' hnext => ?_
      rw [kind_eq hnext, literal_eq ht]
      have hx : Ident.unplaced ⟨t, t'.literal⟩ = Ident.unplaced ⟨t', t'.literal⟩ := by
        simp only [Ident.unplaced, ht]
      cases next'.kind with
      | assign =>
        refine alike_advance.bind fun _ _ _ => alike_advance.bind fun _ _ _ => ?_
        refine (alike_expression n _).bind fun e e' he => ?_
        refine (alike_expect _).bind fun _ _ _ => alike_pure ?_
        simp only [Stmt.unplaced, ht, hx, he]
      | lbracket =>
        refine alike_advance.bind fun _ _ _ => alike_advance.bind fun _ _ _ => ?_
        refine (alike_expression n _).bind fun i i' hi => ?_
        refine (alike_expectAll _).bind fun _ _ _ => alike_advance.bind fun _ _ _ => ?_
        refine (alike_expression n _).bind fun e e' he => ?_
        refine (alike_expect _).bind fun _ _ _ => alike_pure ?_
        simp only [Stmt.unplaced, ht, hx, hi, he]
      | _ => exact alike_failAt next next' _
    | _ => exact alike_failAt t t' _

/-! ### Declarations -/

theorem alike_typeRef : Alike TypeRef.unplaced typeRef typeRef := by
  refine alike_current.bind fun t t' ht => ?_
  rw [kind_eq ht, literal_eq ht]
  cases t'.kind with
  | intWord =>
    refine alike_upcoming.bind fun next next' hnext => ?_
    rw [kind_eq hnext]
    refine Alike.ite ?_ (alike_pure (by simp only [TypeRef.unplaced, ht]))
    refine alike_advance.bind fun _ _ _ => (alike_expect _).bind fun _ _ _ => alike_pure ?_
    simp only [TypeRef.unplaced, ht]
  | booleanWord => exact alike_pure (by simp only [TypeRef.unplaced, ht])
  | ident => exact alike_pure (by simp only [TypeRef.unplaced, ht])
  | _ => exact alike_failAt t t' _

theorem alike_typedName : Alike VarDecl.unplaced typedName typedName := by
  refine alike_current.bind fun t t' ht => alike_typeRef.bind fun r r' hr => ?_
  refine alike_expectIdent.bind fun x x' hx => alike_pure ?_
  simp only [VarDecl.unplaced, ht, hr, hx]

theorem alike_varDecls : ∀ n, Alike (List.map VarDecl.unplaced) (varDecls n) (varDecls n)
  | 0 => alike_fail
  | n + 1 => by
    refine alike_atDeclaration.bind fun b b' hb => ?_
    obtain rfl : b = b' := hb
    refine Alike.ite ?_ (alike_pure rfl)
    refine alike_typedName.bind fun d d' hd => (alike_expect _).bind fun _ _ _ => ?_
    refine alike_advance.bind fun _ _ _ => (alike_varDecls n).bind fun ds ds' hds => alike_pure ?_
    simp only [List.map_cons, hd, hds]

theorem alike_moreParams : ∀ n, Alike (List.map VarDecl.unplaced) (moreParams n) (moreParams n)
  | 0 => alike_fail
  | n + 1 => by
    refine alike_upcoming.bind fun t t' ht => ?_
    rw [kind_eq ht]
    refine Alike.ite ?_ ((alike_expect _).bind fun _ _ _ => alike_pure rfl)
    refine alike_advance.bind fun _ _ _ => alike_advance.bind fun _ _ _ => ?_
    refine alike_typedName.bind fun d d' hd => (alike_moreParams n).bind fun ds ds' hds => ?_
    refine alike_pure ?_
    simp only [List.map_cons, hd, hds]

theorem alike_params (n : Nat) : Alike (List.map VarDecl.unplaced) (params n) (params n) := by
  refine alike_advance.bind fun _ _ _ => alike_current.bind fun t t' ht => ?_
  rw [kind_eq ht]
  refine Alike.ite (alike_pure rfl) ?_
  refine alike_typedName.bind fun d d' hd => (alike_moreParams n).bind fun ds ds' hds => ?_
  refine alike_pure ?_
  simp only [List.map_cons, hd, hds]

theorem alike_methodDecl (n : Nat) :
    Alike MethodDecl.unplaced (methodDecl n) (methodDecl n) := by
  refine alike_current.bind fun t t' ht => alike_advance.bind fun _ _ _ => ?_
  refine alike_typeRef.bind fun r r' hr => alike_expectIdent.bind fun m m' hm => ?_
  refine (alike_expect _).bind fun _ _ _ => (alike_params n).bind fun ps ps' hps => ?_
  refine (alike_expect _).bind fun _ _ _ => alike_advance.bind fun _ _ _ => ?_
  refine (alike_varDecls n).bind fun ds ds' hds => ?_
  refine (alike_statementsUntil (alike_statement n) _ n).bind fun ss ss' hss => ?_
  refine alike_current.bind fun u u' hu => ?_
  have hname : m.name = m'.name := (Ident.mk.inj hm).2
  rw [kind_eq hu, hname]
  refine Alike.ite ?_ (alike_failAt u u' _)
  refine alike_advance.bind fun _ _ _ => (alike_expression n _).bind fun e e' he => ?_
  refine (alike_expectAll _).bind fun _ _ _ => alike_pure ?_
  simp only [MethodDecl.unplaced, ht, hr, hm, hps, hds, hss, he]

theorem alike_methodDecls : ∀ n,
    Alike (List.map MethodDecl.unplaced) (methodDecls n) (methodDecls n)
  | 0 => alike_fail
  | n + 1 => by
    refine alike_current.bind fun t t' ht => ?_
    rw [kind_eq ht]
    refine Alike.ite ?_ (alike_pure rfl)
    refine (alike_methodDecl n).bind fun m m' hm => alike_advance.bind fun _ _ _ => ?_
    refine (alike_methodDecls n).bind fun ms ms' hms => alike_pure ?_
    simp only [List.map_cons, hm, hms]

theorem alike_parent : Alike (Option.map Ident.unplaced) parent parent := by
  refine alike_upcoming.bind fun t t' ht => ?_
  rw [kind_eq ht]
  refine Alike.ite ?_ (alike_pure rfl)
  refine alike_advance.bind fun _ _ _ => alike_expectIdent.bind fun p p' hp => alike_pure ?_
  simp only [Option.map_some, hp]

theorem alike_classDecl (n : Nat) : Alike ClassDecl.unplaced (classDecl n) (classDecl n) := by
  refine alike_current.bind fun t t' ht => alike_expectIdent.bind fun c c' hc => ?_
  refine alike_parent.bind fun p p' hp => (alike_expect _).bind fun _ _ _ => ?_
  refine alike_advance.bind fun _ _ _ => (alike_varDecls n).bind fun fs fs' hfs => ?_
  refine (alike_methodDecls n).bind fun ms ms' hms => alike_current.bind fun u u' hu => ?_
  rw [kind_eq hu]
  refine Alike.ite (alike_pure ?_) (alike_failAt u u' _)
  simp only [ClassDecl.unplaced, ht, hc, hp, hfs, hms]

theorem alike_mainClass (n : Nat) : Alike MainClass.unplaced (mainClass n) (mainClass n) := by
  refine alike_current.bind fun t t' ht => alike_expectIdent.bind fun c c' hc => ?_
  refine (alike_expectAll _).bind fun _ _ _ => alike_expectIdent.bind fun a a' ha => ?_
  refine (alike_expectAll _).bind fun _ _ _ => alike_advance.bind fun _ _ _ => ?_
  refine (alike_varDecls n).bind fun ds ds' hds => ?_
  refine (alike_statementsUntil (alike_statement n) _ n).bind fun ss ss' hss => ?_
  refine alike_current.bind fun u u' hu => ?_
  rw [kind_eq hu]
  refine Alike.ite ((alike_expect _).bind fun _ _ _ => alike_pure ?_) (alike_failAt u u' _)
  simp only [MainClass.unplaced, ht, hc, ha, hds, hss, Option.map_some]

/-! ### Programs -/

theorem Beside.resume {s s' : ParseState} (hs : Beside s s') : Beside s.resume s'.resume := by
  refine ⟨?_, hs.complaints⟩
  have hwords := hs.advance.words
  simp only [ParseState.advance] at hwords
  have hdrop := congrArg
    (List.dropWhile fun t : Token => t.kind != .eof && t.kind != .classWord) hwords
  rw [List.dropWhile_map, List.dropWhile_map] at hdrop
  exact hdrop

theorem alike_entry (n : Nat) : Alike MainClass.unplaced (entry n) (entry n) := by
  intro s s' hs
  unfold entry
  simp only [kind_eq hs.head]
  by_cases hk : s'.input.head.kind = .classWord
  · obtain ⟨hresult, hnext⟩ := alike_mainClass n s s' hs
    simp only [hk, if_true]
    rcases hp : mainClass n s with ⟨_ | m, t⟩ <;> rcases hq : mainClass n s' with ⟨_ | m', t'⟩ <;>
      rw [hp, hq] at hresult hnext
    · exact ⟨rfl, hnext.resume⟩
    · cases hresult
    · cases hresult
    · exact ⟨hresult, hnext.advance⟩
  · simp only [hk, if_false]
    exact ⟨trivial, (hs.complain _ _ _).resume⟩

theorem alike_classDecls : ∀ (n : Nat) {s s' : ParseState}, Beside s s' →
    (classDecls n s).1.map ClassDecl.unplaced = (classDecls n s').1.map ClassDecl.unplaced ∧
      Beside (classDecls n s).2 (classDecls n s').2
  | 0, _, _, hs => ⟨rfl, hs⟩
  | n + 1, s, s', hs => by
    unfold classDecls
    simp only [kind_eq hs.head]
    by_cases heof : s'.input.head.kind = .eof
    · simp only [heof, if_true]
      exact ⟨trivial, hs⟩
    simp only [heof, if_false]
    by_cases hk : s'.input.head.kind = .classWord
    · obtain ⟨hresult, hnext⟩ := alike_classDecl n s s' hs
      simp only [hk, if_true]
      rcases hp : classDecl n s with ⟨_ | c, t⟩ <;> rcases hq : classDecl n s' with ⟨_ | c', t'⟩ <;>
        rw [hp, hq] at hresult hnext
      · exact alike_classDecls n hnext.resume
      · cases hresult
      · cases hresult
      · obtain ⟨hclasses, hend⟩ := alike_classDecls n hnext.advance
        refine ⟨?_, hend⟩
        rw [List.map_cons, List.map_cons, hclasses]
        exact congrArg (· :: _) (Option.some.inj hresult)
    · simp only [hk, if_false]
      exact alike_classDecls n (hs.complain _ _ _).resume

/-- Streams with the same tokens up to places are read as the same program up to places, with the
same complaints. -/
theorem ofTokens_alike {s s' : TokenStream}
    (h : s.pending.map Token.unplaced = s'.pending.map Token.unplaced) :
    (Program.ofTokens s).program.unplaced = (Program.ofTokens s').program.unplaced ∧
      (Program.ofTokens s).errors.map (·.complaint) =
        (Program.ofTokens s').errors.map (·.complaint) := by
  have hlength : s.pending.length = s'.pending.length := by
    simpa only [List.length_map] using congrArg List.length h
  obtain ⟨hmain, hrest⟩ := alike_entry (s.pending.length + 2) ⟨s, []⟩ ⟨s', []⟩ ⟨h, rfl⟩
  obtain ⟨hclasses, hend⟩ := alike_classDecls (s.pending.length + 2) hrest
  simp only [Program.ofTokens, Program.unplaced, ← hlength]
  exact ⟨by rw [hmain, hclasses], hend.complaints⟩

end MiniJava.Parse
