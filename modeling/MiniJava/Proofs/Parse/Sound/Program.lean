import MiniJava.Proofs.Parse.Sound.Expression

/-!
# Whatever is read is a program

The readers of statements and declarations give only phrases of the grammar, and give up only
with a complaint.  So a source that is read without complaint is a program.

* **`statement_gives`** — statements.
* **`methodDecl_gives`**, **`classDecl_gives`**, **`mainClass_gives`** — declarations.
* **`programOf_of_ofTokens`** — what is read without complaint is a program.
-/

namespace MiniJava.Parse

open Grammar

section

variable {fin : Position} {errs : List ParseError} {pending : List Token} {t : Token}

/-! ### Types and variables -/

theorem typeRef_gives : Gives typeRef fin errs pending (Phrase TypeOf pending) := by
  unfold typeRef
  refine gives_current ?_
  cases pending with
  | nil => exact gives_failAt _ _
  | cons t rest =>
    rw [head_cons]
    cases hk : t.kind with
    | intWord =>
      refine gives_upcoming ?_
      rw [second_cons_kind]
      by_cases hl : frontKind rest = .lbracket
      · rw [if_pos hl]
        cases rest with
        | nil => cases hl
        | cons l rest =>
          refine gives_advance (gives_expect (by decide) fun r rest hr hkr => gives_pure ?_)
          subst hr
          have hkinds : kinds [t, l, r] = [.intWord, .lbracket, .rbracket] := by
            simp [kinds, hk, hkr, show l.kind = .lbracket from hl]
          exact ⟨[t, l, r], rest, rfl, rfl, by simp, .intArray hkinds,
            small_of_kinds (by simp [hkinds])⟩
      · rw [if_neg hl]
        exact gives_pure ⟨[t], rest, rfl, rfl, by simp, .int hk, small_of_kinds (by simp [kinds, hk])⟩
    | booleanWord =>
      exact gives_pure
        ⟨[t], rest, rfl, rfl, by simp, .boolean hk, small_of_kinds (by simp [kinds, hk])⟩
    | ident =>
      exact gives_pure
        ⟨[t], rest, rfl, rfl, by simp, .object hk, small_of_kinds (by simp [kinds, hk])⟩
    | _ => exact gives_failAt _ _

theorem typedName_gives : Gives typedName fin errs pending (Phrase TypedName pending) := by
  unfold typedName
  refine gives_current (typeRef_gives.phrase ?_)
  rintro type ts v rest rfl - htype small
  refine gives_expectIdent fun x rest hx hk => gives_pure ?_
  subst hx
  have hhead : TokenStream.head ⟨ts ++ x :: rest, fin⟩ = type.token := by cases htype <;> rfl
  rw [hhead]
  exact ⟨ts ++ [x], rest, by simp, by simp, by simp, .mk htype hk,
    small_append.mpr ⟨small, small_of_kinds (by simp [kinds, hk])⟩⟩

theorem atDeclaration_gives :
    Gives atDeclaration fin errs pending fun _ left => left = pending := by
  unfold atDeclaration
  refine gives_current ?_
  cases (TokenStream.head ⟨pending, fin⟩).kind with
  | ident => exact gives_upcoming (gives_pure rfl)
  | _ => exact gives_pure rfl

theorem varDecls_gives {n : Nat} (hn : pending.length < n) :
    Gives (varDecls n) fin errs pending (Passed Decls pending) := by
  induction n generalizing pending with
  | zero => omega
  | succ n ih =>
    rw [varDecls]
    refine atDeclaration_gives.bind fun b left hleft => ?_
    subst hleft
    cases b with
    | false => exact gives_pure ⟨[], rfl, .none, fun x hx => by simp at hx⟩
    | true =>
      refine typedName_gives.phrase ?_
      rintro d ts v rest rfl - hd small
      refine gives_expect (by decide) fun u rest hu hk => gives_advance ?_
      subst hu
      simp only [List.length_append, List.length_cons] at hn
      refine (ih (by omega)).bind fun ds left hds => gives_pure ?_
      obtain ⟨us, rfl, hds, small'⟩ := hds
      exact ⟨ts ++ u :: us, by simp, .some hd hk hds, small_append.mpr
        ⟨small, small_cons.mpr ⟨small_of_kinds (by simp [kinds, hk]), small'⟩⟩⟩

theorem moreParams_gives {n : Nat} (hn : pending.length < n) :
    Gives (moreParams n) fin errs (t :: pending) fun ps left =>
      ∃ us r rest, pending = us ++ r :: rest ∧ left = r :: rest ∧ r.kind = .rparen ∧
        MoreParams us ps ∧ Small us := by
  induction n generalizing t pending with
  | zero => omega
  | succ n ih =>
    rw [moreParams]
    refine gives_upcoming ?_
    rw [second_cons_kind]
    by_cases hcomma : frontKind pending = .comma
    · rw [if_pos hcomma]
      cases pending with
      | nil => cases hcomma
      | cons c pending =>
        refine gives_advance (gives_advance (typedName_gives.phrase ?_))
        rintro d ts v rest rfl - hd small
        simp only [List.length_append, List.length_cons] at hn
        refine (ih (by omega)).bind fun ps left hps => gives_pure ?_
        obtain ⟨us, r, rest, rfl, rfl, hr, hps, small'⟩ := hps
        have hc : Small [c] := small_of_kinds (by simp [kinds, show c.kind = .comma from hcomma])
        exact ⟨c :: ts ++ us, r, rest, by simp, rfl, hr, .some hcomma hd hps,
          small_append.mpr ⟨small_cons.mpr ⟨hc, small⟩, small'⟩⟩
    · rw [if_neg hcomma]
      refine gives_expect (by decide) fun u rest hu hk => gives_pure ?_
      exact ⟨[], u, rest, hu, rfl, hk, .none, fun x hx => by simp at hx⟩

theorem params_gives {n : Nat} (hn : pending.length < n) :
    Gives (params n) fin errs (t :: pending) fun ps left =>
      ∃ us r rest, pending = us ++ r :: rest ∧ left = r :: rest ∧ r.kind = .rparen ∧
        Params us ps ∧ Small us := by
  unfold params
  refine gives_advance (gives_current ?_)
  rw [head_kind]
  by_cases hr : frontKind pending = .rparen
  · rw [if_pos hr]
    cases pending with
    | nil => cases hr
    | cons r rest => exact gives_pure ⟨[], r, rest, rfl, rfl, hr, .none, fun x hx => by simp at hx⟩
  · rw [if_neg hr]
    refine typedName_gives.phrase ?_
    rintro d ts v rest rfl - hd small
    simp only [List.length_append] at hn
    refine (moreParams_gives (by omega)).bind fun ps left hps => gives_pure ?_
    obtain ⟨us, r, rest, rfl, rfl, hr, hps, small'⟩ := hps
    exact ⟨ts ++ us, r, rest, by simp, rfl, hr, .some hd hps, small_append.mpr ⟨small, small'⟩⟩

/-! ### Statements -/

theorem lowest_gives {n : Nat} (hn : pending.length < n) :
    Gives (expression n .lowest) fin errs pending (Phrase (ExpAt 0) pending) :=
  (expression_gives fin errs n).lowest hn

theorem statementsUntil_gives {stmt : Parse Stmt} {stop : TokenKind} {n turns : Nat}
    (hstmt : ∀ pending : List Token, pending.length < n →
      Gives stmt fin errs pending (Phrase (StmtOf (ExpAt 0)) pending))
    (hn : pending.length < n) (hturns : pending.length < turns) :
    Gives (statementsUntil stmt stop turns) fin errs pending
      (Passed (StmtsOf (ExpAt 0)) pending) := by
  induction turns generalizing pending with
  | zero => omega
  | succ turns ih =>
    rw [statementsUntil]
    refine gives_current ?_
    split
    · exact gives_pure ⟨[], rfl, .none, fun x hx => by simp at hx⟩
    · refine atDeclaration_gives.bind fun b left hleft => ?_
      subst hleft
      cases b with
      | true => exact gives_failAt _ _
      | false =>
        refine (hstmt left hn).phrase ?_
        rintro s ts v rest rfl hts hs small
        have hpos := List.length_pos_iff.mpr hts
        simp only [List.length_append] at hn hturns
        refine gives_advance ((ih (by omega) (by omega)).bind fun ss left hss => gives_pure ?_)
        obtain ⟨us, rfl, hss, small'⟩ := hss
        exact ⟨ts ++ us, by simp, .some hs hss, small_append.mpr ⟨small, small'⟩⟩

/-- The reader of statements with the bound `n` gives statements. -/
def GivesStatements (fin : Position) (errs : List ParseError) (n : Nat) : Prop :=
  ∀ pending : List Token, pending.length < n →
    Gives (statement n) fin errs pending (Phrase (StmtOf (ExpAt 0)) pending)

/-! ### The forms of statements -/

section Forms

variable {n : Nat} {a l : Token}

theorem block_gives (hstmt : GivesStatements fin errs n) (ht : t.kind = .lbrace)
    (hn : pending.length < n) :
    Gives (statement (n + 1)) fin errs (t :: pending) (Phrase (StmtOf (ExpAt 0)) (t :: pending)) := by
  rw [statement]
  refine gives_current ?_
  simp only [head_cons, ht]
  refine gives_advance ((statementsUntil_gives hstmt hn hn).bind
    fun ss left hss => gives_current ?_)
  obtain ⟨ts, rfl, hss, small⟩ := hss
  rw [head_kind]
  by_cases hu : frontKind left = .rbrace
  · rw [if_pos hu]
    cases left with
    | nil => cases hu
    | cons u rest =>
      have hsmall : Small (t :: ts ++ [u]) :=
        small_append.mpr ⟨small_cons.mpr ⟨small_of_kinds (by simp [kinds, ht]), small⟩,
          small_of_kinds (by simp [kinds, show u.kind = .rbrace from hu])⟩
      exact gives_pure ⟨t :: ts ++ [u], rest, by simp, by rw [leave_concat], by simp,
        .block ht hss hu, hsmall⟩
  · rw [if_neg hu]
    exact gives_failAt _ _

theorem cond_gives (hstmt : GivesStatements fin errs n) (ht : t.kind = .ifWord)
    (hn : pending.length < n) :
    Gives (statement (n + 1)) fin errs (t :: pending) (Phrase (StmtOf (ExpAt 0)) (t :: pending)) := by
  rw [statement]
  refine gives_current ?_
  simp only [head_cons, ht]
  refine gives_expect (by decide) fun l rest hl hkl => gives_advance ?_
  subst hl
  simp only [List.length_cons] at hn
  refine (lowest_gives (by omega)).phrase ?_
  rintro c cs v rest rfl - hc smallc
  refine gives_expect (by decide) fun r rest hr hkr => gives_advance ?_
  subst hr
  simp only [List.length_append, List.length_cons] at hn
  refine (hstmt _ (by omega)).phrase ?_
  rintro a ts v rest rfl - ha smalla
  refine gives_expect (by decide) fun w rest hw hkw => gives_advance ?_
  subst hw
  simp only [List.length_append, List.length_cons] at hn
  refine (hstmt _ (by omega)).bind fun b left hb => gives_pure ?_
  obtain ⟨us, rest, rfl, rfl, hus, hb, smallb⟩ := hb
  have hkinds : kinds [t, l] = [.ifWord, .lparen] := by simp [kinds, ht, hkl]
  have hsmall : Small ([t, l] ++ cs ++ r :: ts ++ w :: us) :=
    small_append.mpr ⟨small_append.mpr ⟨small_append.mpr
      ⟨small_of_kinds (by simp [hkinds]), smallc⟩,
      small_cons.mpr ⟨small_of_kinds (by simp [kinds, hkr]), smalla⟩⟩,
      small_cons.mpr ⟨small_of_kinds (by simp [kinds, hkw]), smallb⟩⟩
  refine ⟨[t, l] ++ cs ++ r :: ts ++ w :: us, rest, by simp, ?_, by simp,
    .cond hkinds hc hkr ha hkw hb, hsmall⟩
  rw [leave_append _ (List.cons_ne_nil w us), leave_cons w hus]

theorem loop_gives (hstmt : GivesStatements fin errs n) (ht : t.kind = .whileWord)
    (hn : pending.length < n) :
    Gives (statement (n + 1)) fin errs (t :: pending) (Phrase (StmtOf (ExpAt 0)) (t :: pending)) := by
  rw [statement]
  refine gives_current ?_
  simp only [head_cons, ht]
  refine gives_expect (by decide) fun l rest hl hkl => gives_advance ?_
  subst hl
  simp only [List.length_cons] at hn
  refine (lowest_gives (by omega)).phrase ?_
  rintro c cs v rest rfl - hc smallc
  refine gives_expect (by decide) fun r rest hr hkr => gives_advance ?_
  subst hr
  simp only [List.length_append, List.length_cons] at hn
  refine (hstmt _ (by omega)).bind fun b left hb => gives_pure ?_
  obtain ⟨ts, rest, rfl, rfl, hts, hb, smallb⟩ := hb
  have hkinds : kinds [t, l] = [.whileWord, .lparen] := by simp [kinds, ht, hkl]
  have hsmall : Small ([t, l] ++ cs ++ r :: ts) :=
    small_append.mpr ⟨small_append.mpr ⟨small_of_kinds (by simp [hkinds]), smallc⟩,
      small_cons.mpr ⟨small_of_kinds (by simp [kinds, hkr]), smallb⟩⟩
  refine ⟨[t, l] ++ cs ++ r :: ts, rest, by simp, ?_, by simp, .loop hkinds hc hkr hb, hsmall⟩
  rw [leave_append _ (List.cons_ne_nil r ts), leave_cons r hts]

theorem print_gives (ht : t.kind = .systemWord) (hn : pending.length < n) :
    Gives (statement (n + 1)) fin errs (t :: pending) (Phrase (StmtOf (ExpAt 0)) (t :: pending)) := by
  rw [statement]
  refine gives_current ?_
  simp only [head_cons, ht]
  refine gives_expect (by decide) fun d rest hd hkd => ?_
  subst hd
  refine gives_expectWord fun o rest ho hko hlo => ?_
  subst ho
  refine gives_expect (by decide) fun d' rest hd hkd' => ?_
  subst hd
  refine gives_expectWord fun p rest hp hkp hlp => ?_
  subst hp
  refine gives_expect (by decide) fun l rest hl hkl => gives_advance ?_
  subst hl
  simp only [List.length_cons] at hn
  refine (lowest_gives (by omega)).phrase ?_
  rintro e ts v rest rfl - he small
  refine gives_expectAll (by decide) fun us rest hus hkinds => gives_pure ?_
  subst hus
  obtain ⟨r, us, rfl, hr, hrest⟩ := List.map_eq_cons_iff.mp hkinds
  obtain ⟨s, us, rfl, hs, hrest⟩ := List.map_eq_cons_iff.mp hrest
  obtain rfl := List.map_eq_nil_iff.mp hrest
  have hopen : kinds [t, d, o, d', p, l] =
      [.systemWord, .dot, .ident, .dot, .ident, .lparen] := by
    simp [kinds, ht, hkd, hko, hkd', hkp, hkl]
  have hsmall : Small (t :: [d, o, d', p, l] ++ ts ++ [r, s]) :=
    small_append.mpr ⟨small_append.mpr ⟨small_of_kinds (by simp [hopen]), small⟩,
      small_of_kinds (by simp [hkinds])⟩
  exact ⟨t :: [d, o, d', p, l] ++ ts ++ [r, s], rest, by simp,
    (leave_append _ (List.cons_ne_nil r [s]) rest).symm, by simp,
    .print ⟨t, d, o, d', p, l, rfl, hopen, hlo, hlp⟩ he hkinds, hsmall⟩

theorem assign_gives (ht : t.kind = .ident) (ha : a.kind = .assign) (hn : pending.length < n) :
    Gives (statement (n + 1)) fin errs (t :: a :: pending)
      (Phrase (StmtOf (ExpAt 0)) (t :: a :: pending)) := by
  rw [statement]
  refine gives_current ?_
  simp only [head_cons, ht]
  refine gives_upcoming ?_
  simp only [second_cons_cons, ha]
  refine gives_advance (gives_advance ((lowest_gives hn).phrase ?_))
  rintro e ts v rest rfl - he small
  refine gives_expect (by decide) fun s rest hs hks => gives_pure ?_
  subst hs
  have hkinds : kinds [t, a] = [.ident, .assign] := by simp [kinds, ht, ha]
  have hsmall : Small ([t, a] ++ ts ++ [s]) :=
    small_append.mpr ⟨small_append.mpr ⟨small_of_kinds (by simp [hkinds]), small⟩,
      small_of_kinds (by simp [kinds, hks])⟩
  exact ⟨[t, a] ++ ts ++ [s], rest, by simp, by rw [leave_concat], by simp,
    .assign hkinds he hks, hsmall⟩

theorem assignElem_gives (ht : t.kind = .ident) (hl : l.kind = .lbracket)
    (hn : pending.length < n) :
    Gives (statement (n + 1)) fin errs (t :: l :: pending)
      (Phrase (StmtOf (ExpAt 0)) (t :: l :: pending)) := by
  rw [statement]
  refine gives_current ?_
  simp only [head_cons, ht]
  refine gives_upcoming ?_
  simp only [second_cons_cons, hl]
  refine gives_advance (gives_advance ((lowest_gives hn).phrase ?_))
  rintro i is v rest rfl - hi smalli
  refine gives_expectAll (by decide) fun us rest hus hclose => ?_
  subst hus
  obtain ⟨r, us, rfl, hr, hrest⟩ := List.map_eq_cons_iff.mp hclose
  obtain ⟨a, us, rfl, ha, hrest⟩ := List.map_eq_cons_iff.mp hrest
  obtain rfl := List.map_eq_nil_iff.mp hrest
  simp only [List.length_append, List.length_cons, List.length_nil] at hn
  refine gives_advance ((lowest_gives (by omega)).phrase ?_)
  rintro e ts v rest rfl - he small
  refine gives_expect (by decide) fun s rest hs hks => gives_pure ?_
  subst hs
  have hkinds : kinds [t, l] = [.ident, .lbracket] := by simp [kinds, ht, hl]
  have hsmall : Small ([t, l] ++ is ++ [r, a] ++ ts ++ [s]) :=
    small_append.mpr ⟨small_append.mpr ⟨small_append.mpr ⟨small_append.mpr
      ⟨small_of_kinds (by simp [hkinds]), smalli⟩, small_of_kinds (by simp [hclose])⟩,
      small⟩, small_of_kinds (by simp [kinds, hks])⟩
  exact ⟨[t, l] ++ is ++ [r, a] ++ ts ++ [s], rest, by simp, by rw [leave_concat],
    by simp, .assignElem hkinds hi hclose he hks, hsmall⟩

/-- What starts with a name is an assignment. -/
theorem named_gives (ht : t.kind = .ident) (hn : pending.length < n) :
    Gives (statement (n + 1)) fin errs (t :: pending) (Phrase (StmtOf (ExpAt 0)) (t :: pending)) := by
  cases hnext : frontKind pending with
  | assign =>
    cases pending with
    | nil => cases hnext
    | cons a rest => exact assign_gives ht hnext (Nat.lt_of_succ_lt hn)
  | lbracket =>
    cases pending with
    | nil => cases hnext
    | cons l rest => exact assignElem_gives ht hnext (Nat.lt_of_succ_lt hn)
  | _ =>
    rw [statement]
    refine gives_current ?_
    simp only [head_cons, ht]
    refine gives_upcoming ?_
    simp only [second_cons_kind, hnext]
    exact gives_failAt _ _

end Forms

/-- Whatever the reader of statements gives is a statement. -/
theorem statement_gives {n : Nat} (hn : pending.length < n) :
    Gives (statement n) fin errs pending (Phrase (StmtOf (ExpAt 0)) pending) := by
  induction n generalizing pending with
  | zero => omega
  | succ n ih =>
    have hstmt : GivesStatements fin errs n := fun _ h => ih h
    cases pending with
    | nil =>
      rw [statement]
      exact gives_current (gives_failAt _ _)
    | cons t rest =>
      have hrest : rest.length < n := Nat.lt_of_succ_lt_succ hn
      cases hk : t.kind with
      | lbrace => exact block_gives hstmt hk hrest
      | ifWord => exact cond_gives hstmt hk hrest
      | whileWord => exact loop_gives hstmt hk hrest
      | systemWord => exact print_gives hk hrest
      | ident => exact named_gives hk hrest
      | _ =>
        rw [statement]
        refine gives_current ?_
        simp only [head_cons, hk]
        exact gives_failAt _ _

/-! ### Classes -/

theorem methodDecl_gives {n : Nat} (ht : t.kind = .publicWord) (hn : pending.length < n) :
    Gives (methodDecl n) fin errs (t :: pending)
      (Phrase (MethodOf (ExpAt 0)) (t :: pending)) := by
  unfold methodDecl
  refine gives_current (gives_advance (typeRef_gives.phrase ?_))
  rintro type ts v rest rfl - htype smallt
  refine gives_expectIdent fun m rest hm hkm => ?_
  subst hm
  refine gives_expect (by decide) fun l rest hl hkl => ?_
  subst hl
  simp only [List.length_append, List.length_cons] at hn
  refine (params_gives (by omega)).bind fun ps left hps => ?_
  obtain ⟨us, r, rest, rfl, rfl, hkr, hps, smallp⟩ := hps
  refine gives_expect (by decide) fun b rest hb hkb => gives_advance ?_
  subst hb
  simp only [List.length_append, List.length_cons] at hn
  refine (varDecls_gives (by omega)).bind fun ds left hds => ?_
  obtain ⟨vs, rfl, hds, smalld⟩ := hds
  simp only [List.length_append] at hn
  refine (statementsUntil_gives (fun pending h => statement_gives h) (by omega)
    (by omega)).bind fun ss left hss => gives_current ?_
  obtain ⟨ws, rfl, hss, smalls⟩ := hss
  rw [head_kind]
  by_cases hw : frontKind left = .returnWord
  · rw [if_pos hw]
    cases left with
    | nil => cases hw
    | cons w left =>
      simp only [List.length_append, List.length_cons] at hn
      refine gives_advance ((lowest_gives (by omega)).phrase ?_)
      rintro e es v rest rfl - he smalle
      refine gives_expectAll (by decide) fun xs rest hxs hclose => gives_pure ?_
      subst hxs
      obtain ⟨s, xs, rfl, hs, hrest⟩ := List.map_eq_cons_iff.mp hclose
      obtain ⟨c, xs, rfl, hc, hrest⟩ := List.map_eq_cons_iff.mp hrest
      obtain rfl := List.map_eq_nil_iff.mp hrest
      have hkinds : kinds [m, l] = [.ident, .lparen] := by simp [kinds, hkm, hkl]
      have hopen : kinds [r, b] = [.rparen, .lbrace] := by simp [kinds, hkr, hkb]
      have hmethod := MethodOf.mk ht htype hkinds hps hopen hds hss hw he hclose
      refine ⟨_, rest, by simp, ?_, by simp, hmethod, ?_⟩
      · rw [leave_append _ (List.cons_ne_nil s [c])]
        rfl
      · simp only [small_append]
        refine ⟨⟨⟨⟨⟨⟨⟨small_cons.mpr ⟨?_, smallt⟩, ?_⟩, smallp⟩, ?_⟩, smalld⟩, smalls⟩,
          small_cons.mpr ⟨?_, smalle⟩⟩, ?_⟩
        · exact small_of_kinds (by simp [kinds, ht])
        · exact small_of_kinds (by simp [hkinds])
        · exact small_of_kinds (by simp [hopen])
        · exact small_of_kinds (by simp [kinds, show w.kind = .returnWord from hw])
        · exact small_of_kinds (by simp [hclose])
  · rw [if_neg hw]
    exact gives_failAt _ _

theorem methodDecls_gives {n : Nat} (hn : pending.length < n) :
    Gives (methodDecls n) fin errs pending (Passed (MethodsOf (ExpAt 0)) pending) := by
  induction n generalizing pending with
  | zero => omega
  | succ n ih =>
    rw [methodDecls]
    refine gives_current ?_
    rw [head_kind]
    by_cases hk : frontKind pending = .publicWord
    · rw [if_pos hk]
      cases pending with
      | nil => cases hk
      | cons t rest =>
        simp only [List.length_cons] at hn
        refine (methodDecl_gives hk (by omega)).phrase ?_
        intro m ts v rest' heq hts hm small
        have hlen := congrArg List.length heq
        have hpos := List.length_pos_iff.mpr hts
        simp only [List.length_cons, List.length_append] at hlen
        refine gives_advance ((ih (by omega)).bind fun ms left hms => gives_pure ?_)
        obtain ⟨us, rfl, hms, small'⟩ := hms
        exact ⟨ts ++ us, by simp [heq], .some hm hms, small_append.mpr ⟨small, small'⟩⟩
    · rw [if_neg hk]
      exact gives_pure ⟨[], rfl, .none, fun x hx => by simp at hx⟩

theorem parent_gives :
    Gives parent fin errs (t :: pending) fun p left =>
      ∃ us rest, pending = us ++ rest ∧ left = leave (t :: us) rest ∧ ParentOf us p ∧
        Small us := by
  unfold parent
  refine gives_upcoming ?_
  rw [second_cons_kind]
  by_cases hk : frontKind pending = .extendsWord
  · rw [if_pos hk]
    cases pending with
    | nil => cases hk
    | cons e pending =>
      refine gives_advance (gives_expectIdent fun p rest hp hkp => gives_pure ?_)
      subst hp
      have hkinds : kinds [e, p] = [.extendsWord, .ident] := by
        simp [kinds, hkp, show e.kind = .extendsWord from hk]
      exact ⟨[e, p], rest, rfl, rfl, .some hkinds, small_of_kinds (by simp [hkinds])⟩
  · rw [if_neg hk]
    exact gives_pure ⟨[], pending, rfl, rfl, .none, fun x hx => by simp at hx⟩

theorem classDecl_gives {n : Nat} (ht : t.kind = .classWord) (hn : pending.length < n) :
    Gives (classDecl n) fin errs (t :: pending) (Phrase (ClassOf (ExpAt 0)) (t :: pending)) := by
  unfold classDecl
  refine gives_current (gives_expectIdent fun c rest hc hkc => ?_)
  subst hc
  refine parent_gives.bind fun p left hp => ?_
  obtain ⟨us, rest, rfl, rfl, hp, smallp⟩ := hp
  obtain ⟨v, -, hv⟩ := exists_leave (List.cons_ne_nil c us)
  rw [hv]
  refine gives_expect (by decide) fun b rest hb hkb => gives_advance ?_
  subst hb
  simp only [List.length_cons, List.length_append] at hn
  refine (varDecls_gives (by omega)).bind fun fs left hfs => ?_
  obtain ⟨vs, rfl, hfs, smallf⟩ := hfs
  simp only [List.length_append] at hn
  refine (methodDecls_gives (by omega)).bind fun ms left hms => gives_current ?_
  obtain ⟨ws, rfl, hms, smallm⟩ := hms
  rw [head_kind]
  by_cases hu : frontKind left = .rbrace
  · rw [if_pos hu]
    cases left with
    | nil => cases hu
    | cons u rest =>
      have hkinds : kinds [t, c] = [.classWord, .ident] := by simp [kinds, ht, hkc]
      refine gives_pure ⟨_, rest, by simp, ?_, by simp, .mk hkinds hp hkb hfs hms hu, ?_⟩
      · rw [leave_concat]
      · simp only [small_append]
        refine ⟨⟨⟨⟨?_, smallp⟩, small_cons.mpr ⟨?_, smallf⟩⟩, smallm⟩, ?_⟩
        · exact small_of_kinds (by simp [hkinds])
        · exact small_of_kinds (by simp [kinds, hkb])
        · exact small_of_kinds (by simp [kinds, show u.kind = .rbrace from hu])
  · rw [if_neg hu]
    exact gives_failAt _ _

theorem mainClass_gives {n : Nat} (ht : t.kind = .classWord) (hn : pending.length < n) :
    Gives (mainClass n) fin errs (t :: pending) (Phrase (MainOf (ExpAt 0)) (t :: pending)) := by
  unfold mainClass
  refine gives_current (gives_expectIdent fun c rest hc hkc => ?_)
  subst hc
  refine gives_expectAll (by decide) fun hs rest hhs hheader => ?_
  subst hhs
  obtain ⟨v, -, hv⟩ := exists_leave (List.cons_ne_nil c hs)
  rw [hv]
  refine gives_expectIdent fun a rest ha hka => ?_
  subst ha
  refine gives_expectAll (by decide) fun ps rest hps hopen => ?_
  subst hps
  obtain ⟨v, -, hv⟩ := exists_leave (List.cons_ne_nil a ps)
  rw [hv]
  simp only [List.length_cons, List.length_append] at hn
  refine gives_advance ((varDecls_gives (by omega)).bind fun ds left hds => ?_)
  obtain ⟨vs, rfl, hds, smalld⟩ := hds
  simp only [List.length_append] at hn
  refine (statementsUntil_gives (fun pending h => statement_gives h) (by omega)
    (by omega)).bind fun ss left hss => gives_current ?_
  obtain ⟨ws, rfl, hss, smalls⟩ := hss
  rw [head_kind]
  by_cases hu : frontKind left = .rbrace
  · rw [if_pos hu]
    cases left with
    | nil => cases hu
    | cons u rest =>
      refine gives_expect (by decide) fun w rest hw hkw => gives_pure ?_
      subst hw
      have hkinds : kinds [t, c] = [.classWord, .ident] := by simp [kinds, ht, hkc]
      have hclose : kinds [u, w] = [.rbrace, .rbrace] := by
        simp [kinds, hkw, show u.kind = .rbrace from hu]
      refine ⟨_, rest, by simp, ?_, by simp, .mk hkinds hheader hka hopen hds hss hclose, ?_⟩
      · rw [leave_append _ (List.cons_ne_nil u [w])]
        rfl
      · simp only [small_append]
        refine ⟨⟨⟨⟨⟨?_, ?_⟩, small_cons.mpr ⟨?_, ?_⟩⟩, smalld⟩, smalls⟩, ?_⟩
        · exact small_of_kinds (by simp [hkinds])
        · exact small_of_kinds (by simp [hheader])
        · exact small_of_kinds (by simp [kinds, hka])
        · exact small_of_kinds (by simp [hopen])
        · exact small_of_kinds (by simp [hclose])
  · rw [if_neg hu]
    exact gives_failAt _ _

end

/-! ### Programs -/

/-- Going on at the next class leaves at least one token behind. -/
theorem length_resume (s : ParseState) :
    s.resume.input.pending.length ≤ s.input.pending.length - 1 ∧ s.resume.errors = s.errors := by
  refine ⟨?_, rfl⟩
  show (List.dropWhile _ s.input.advance.pending).length ≤ s.input.pending.length - 1
  refine Nat.le_trans (List.dropWhile_sublist _).length_le ?_
  unfold TokenStream.advance
  cases s.input.pending <;> simp

theorem length_complain (s : ParseState) (t : Token) (c : Complaint) :
    (s.complain t c).errors.length = s.errors.length + 1 :=
  List.length_append

/-- Errors are kept, and when none is noted then all up to the end of the source are classes. -/
theorem classDecls_gives {n : Nat} (s : ParseState) (hn : s.input.pending.length < n) :
    s.errors.length ≤ (classDecls n s).2.errors.length ∧
      ((classDecls n s).2.errors.length = s.errors.length → ∃ ts rest,
        s.input.pending = ts ++ rest ∧ frontKind rest = .eof ∧
          ClassesOf (ExpAt 0) ts (classDecls n s).1 ∧ Small ts) := by
  induction n generalizing s with
  | zero => omega
  | succ n ih =>
    obtain ⟨⟨pending, fin⟩, errs⟩ := s
    replace hn : pending.length < n + 1 := hn
    simp only [classDecls, head_kind]
    by_cases heof : frontKind pending = .eof
    · rw [if_pos heof]
      exact ⟨Nat.le_refl _, fun _ => ⟨[], pending, rfl, heof, .none, fun x hx => by simp at hx⟩⟩
    rw [if_neg heof]
    cases pending with
    | nil => exact absurd rfl heof
    | cons t pending =>
      simp only [List.length_cons] at hn
      by_cases hclass : t.kind = .classWord
      · rw [frontKind_cons, if_pos hclass]
        have hgives : Gives (classDecl n) fin errs (t :: pending)
            (Phrase (ClassOf (ExpAt 0)) (t :: pending)) := classDecl_gives hclass (by omega)
        unfold Gives at hgives
        cases hread : classDecl n (view fin errs (t :: pending)) with
        | mk result s =>
          rw [hread] at hgives
          cases result with
          | none =>
            obtain ⟨hlen, hreset⟩ := length_resume s
            obtain ⟨hle, -⟩ := ih s.resume (by
              have := hgives.2
              simp only [List.length_cons] at this
              omega)
            rw [hreset] at hle
            exact ⟨by simp only; omega, fun h => absurd h (by simp only; omega)⟩
          | some c =>
            obtain ⟨left, rfl, -, ts, rest, heq, rfl, hts, hc, small⟩ := hgives
            have hpos := List.length_pos_iff.mpr hts
            have hlen := congrArg List.length heq
            simp only [List.length_cons, List.length_append] at hlen
            simp only [advance_leave hts]
            obtain ⟨hle, hrest⟩ := ih (view fin errs rest) (by simp only; omega)
            refine ⟨hle, fun h => ?_⟩
            obtain ⟨us, rest', rfl, hend, hcs, small'⟩ := hrest h
            exact ⟨ts ++ us, rest', by simp [heq], hend, .some hc hcs,
              small_append.mpr ⟨small, small'⟩⟩
      · rw [frontKind_cons, if_neg hclass]
        obtain ⟨hlen, hreset⟩ := length_resume
          ((view fin errs (t :: pending)).complain t (.expectedClass t.kind))
        replace hlen : (ParseState.resume _).input.pending.length ≤ pending.length := hlen
        obtain ⟨hle, -⟩ := ih _ (Nat.lt_of_le_of_lt hlen (by omega))
        rw [hreset, length_complain] at hle
        exact ⟨Nat.le_of_lt hle, fun h => absurd h (Nat.ne_of_gt hle)⟩

/-- The reader of the entry class either gives one or has complained. -/
theorem entry_gives {n : Nat} (s : ParseState) (hn : s.input.pending.length < n) :
    match entry n s with
    | (some m, s') => s'.errors = s.errors ∧ ∃ ts, s.input.pending = ts ++ s'.input.pending ∧
        MainOf (ExpAt 0) ts m ∧ Small ts
    | (none, s') => s.errors.length < s'.errors.length ∧ s'.input.pending.length < n := by
  obtain ⟨⟨pending, fin⟩, errs⟩ := s
  replace hn : pending.length < n := hn
  simp only [entry, head_kind]
  by_cases hclass : frontKind pending = .classWord
  · rw [if_pos hclass]
    cases pending with
    | nil => cases hclass
    | cons t pending =>
      have hgives : Gives (mainClass n) fin errs (t :: pending)
          (Phrase (MainOf (ExpAt 0)) (t :: pending)) :=
        mainClass_gives hclass (by simp only [List.length_cons] at hn; omega)
      unfold Gives at hgives
      cases hread : mainClass n (view fin errs (t :: pending)) with
      | mk result s =>
        rw [hread] at hgives
        cases result with
        | none =>
          obtain ⟨hlen, hreset⟩ := length_resume s
          refine ⟨by simp only [hreset]; exact hgives.1, ?_⟩
          exact Nat.lt_of_le_of_lt (Nat.le_trans hlen (Nat.sub_le _ _))
            (Nat.lt_of_le_of_lt hgives.2 hn)
        | some m =>
          obtain ⟨left, rfl, -, ts, rest, heq, rfl, hts, hm, small⟩ := hgives
          simp only [advance_leave hts]
          exact ⟨trivial, ts, heq, hm, small⟩
  · rw [if_neg hclass]
    obtain ⟨hlen, hreset⟩ := length_resume ((view fin errs pending).complain
      (TokenStream.head ⟨pending, fin⟩) (.expectedEntryClass (frontKind pending)))
    refine ⟨?_, Nat.lt_of_le_of_lt (Nat.le_trans hlen (Nat.sub_le _ _)) hn⟩
    rw [hreset, length_complain]
    exact Nat.lt_succ_self _

/-- What is read without complaint is a program, up to the end of the source. -/
theorem programOf_of_ofTokens {input : TokenStream} (h : (Program.ofTokens input).errors = []) :
    ∃ ts rest, input.pending = ts ++ rest ∧ frontKind rest = .eof ∧
      ProgramOf (ExpAt 0) ts (Program.ofTokens input).program ∧ Small ts := by
  have hentry := entry_gives (n := input.pending.length + 2) ⟨input, []⟩ (by simp only; omega)
  simp only [Program.ofTokens] at h ⊢
  cases hread : entry (input.pending.length + 2) ⟨input, []⟩ with
  | mk result s =>
    rw [hread] at hentry
    simp only [hread] at h ⊢
    cases result with
    | none =>
      obtain ⟨hle, -⟩ := classDecls_gives s hentry.2
      have hpos : 0 < s.errors.length := hentry.1
      rw [h] at hle
      simp only [List.length_nil] at hle
      omega
    | some m =>
      obtain ⟨herrors, ts, hpending, hm, small⟩ := hentry
      replace hpending : input.pending = ts ++ s.input.pending := hpending
      have hlen := congrArg List.length hpending
      simp only [List.length_append] at hlen
      obtain ⟨-, hclasses⟩ := classDecls_gives s
        (show s.input.pending.length < input.pending.length + 2 by omega)
      obtain ⟨us, rest, heq, hend, hcs, small'⟩ := hclasses (by rw [h, herrors])
      exact ⟨ts ++ us, rest, by rw [hpending, heq, List.append_assoc], hend, .mk hm hcs,
        small_append.mpr ⟨small, small'⟩⟩

end MiniJava.Parse
