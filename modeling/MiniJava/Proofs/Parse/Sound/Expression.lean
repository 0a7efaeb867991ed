import MiniJava.Proofs.Parse.Complete.Expression

/-!
# Whatever is read is an expression

A reader of expressions that gives a tree has stepped through a phrase of that tree, and one that
gives up has complained.  The bound on nesting never shows: it is above the number of tokens to
come, and every step that lowers it has read a token.

* **`ClimbsFrom`** — what the loop over operators does from a given left side on.
* **`expression_gives`** — expressions at every level that is ever asked for.
-/

namespace MiniJava.Parse

open Grammar

/-- The stratum of the expressions that are read at a level. -/
def stratum (level : Nat) : Nat := min (level - 1) 4

/-- Between `pending` and `left` lies an expression whose operators bind more tightly than
`level`, and no such operator follows. -/
def ReadAt (level : Nat) (pending : List Token) (e : Expr) (left : List Token) : Prop :=
  ∃ ts rest, pending = ts ++ rest ∧ left = leave ts rest ∧ ExpAt (stratum level) ts e ∧
    Small ts ∧ tightness (frontKind rest) ≤ level

/-- The reader of expressions with the bound `n` gives expressions. -/
def GivesExpressions (fin : Position) (errs : List ParseError) (n : Nat) : Prop :=
  ∀ (level : Nat) (pending : List Token), 1 ≤ level → level ≤ 6 → pending.length < n →
    Gives (expression n level) fin errs pending (ReadAt level pending)

/-- At the lowest level any expression is read. -/
theorem GivesExpressions.lowest {fin : Position} {errs : List ParseError} {n : Nat}
    (hexpr : GivesExpressions fin errs n) {pending : List Token} (hn : pending.length < n) :
    Gives (expression n .lowest) fin errs pending (Phrase (ExpAt 0) pending) := by
  refine (hexpr 1 pending (by omega) (by omega) hn).mono fun e left he => ?_
  obtain ⟨ts, rest, hpending, hleft, he, small, -⟩ := he
  exact ⟨ts, rest, hpending, hleft, he.ne_nil, he, small⟩

/-! ### Arguments -/

section

variable {fin : Position} {errs : List ParseError} {n : Nat} (hexpr : GivesExpressions fin errs n)

include hexpr

theorem moreArguments_gives {turns : Nat}
    {t : Token} {pending : List Token} (hn : pending.length ≤ n) (hturns : pending.length < turns) :
    Gives (moreArguments (expression n) turns) fin errs (t :: pending) fun es left =>
      ∃ us r rest, pending = us ++ r :: rest ∧ left = r :: rest ∧ r.kind = .rparen ∧
        MoreArgsAt us es ∧ Small us := by
  induction turns generalizing t pending with
  | zero => omega
  | succ turns ih =>
    rw [moreArguments]
    refine gives_upcoming ?_
    rw [second_cons_kind]
    by_cases hcomma : frontKind pending = .comma
    · rw [if_pos hcomma]
      cases pending with
      | nil => cases hcomma
      | cons c pending =>
        simp only [List.length_cons] at hn hturns
        refine gives_advance (gives_advance ?_)
        refine (hexpr.lowest (by omega)).phrase ?_
        rintro e ts u rest rfl hts he small
        have hpos := List.length_pos_iff.mpr hts
        simp only [List.length_append] at hn hturns
        refine (ih (by omega) (by omega)).bind fun es left hes => ?_
        obtain ⟨us, r, rest, rfl, rfl, hr, hes, small'⟩ := hes
        have hc : Small [c] := small_of_kinds (by simp [kinds, show c.kind = .comma from hcomma])
        exact gives_pure ⟨c :: ts ++ us, r, rest, by simp, rfl, hr, .some hcomma he hes,
          small_append.mpr ⟨small_cons.mpr ⟨hc, small⟩, small'⟩⟩
    · rw [if_neg hcomma]
      refine gives_expect (by decide) fun u rest hu hk => gives_pure ?_
      exact ⟨[], u, rest, hu, rfl, hk, .none, fun x hx => by simp at hx⟩

theorem arguments_gives {turns : Nat} {t : Token} {pending : List Token} (hn : pending.length < n)
    (hturns : pending.length < turns) :
    Gives (arguments (expression n) turns) fin errs (t :: pending) fun es left =>
      ∃ us r rest, pending = us ++ r :: rest ∧ left = r :: rest ∧ r.kind = .rparen ∧
        ArgsAt us es ∧ Small us := by
  unfold arguments
  refine gives_advance (gives_current ?_)
  rw [head_kind]
  by_cases hr : frontKind pending = .rparen
  · rw [if_pos hr]
    cases pending with
    | nil => cases hr
    | cons r rest => exact gives_pure ⟨[], r, rest, rfl, rfl, hr, .none, fun x hx => by simp at hx⟩
  · rw [if_neg hr]
    refine (hexpr.lowest hn).phrase ?_
    rintro e ts u rest rfl hts he small
    have hpos := List.length_pos_iff.mpr hts
    simp only [List.length_append] at hn hturns
    refine (moreArguments_gives hexpr (by omega) (by omega)).bind fun es left hes => ?_
    obtain ⟨us, r, rest, rfl, rfl, hr, hes, small'⟩ := hes
    exact gives_pure ⟨ts ++ us, r, rest, by simp, rfl, hr, .some he hes,
      small_append.mpr ⟨small, small'⟩⟩

/-! ### Operands -/

/-- Between `pending` and `left` lies an operand, a phrase of stratum `k` that what follows does
not become part of. -/
def OperandAt (pending : List Token) (e : Expr) (left : List Token) : Prop :=
  ∃ k ts rest, pending = ts ++ rest ∧ left = leave ts rest ∧ prefixStratum ≤ k ∧ ExpAt k ts e ∧
    Small ts ∧ tightness (frontKind rest) ≤ ceiling k

omit hexpr in
/-- A phrase of the last stratum is an operand whatever follows. -/
theorem operandAt_suffixed {ts : List Token} {e : Expr} (h : ExpAt postfixStratum ts e)
    (small : Small ts) (rest : List Token) : OperandAt (ts ++ rest) e (leave ts rest) :=
  ⟨postfixStratum, ts, rest, rfl, rfl, by decide, h, small, tightness_le _⟩

theorem creation_gives {t : Token} {pending : List Token} (ht : t.kind = .newWord)
    (hn : pending.length ≤ n) :
    Gives (creation (expression n)) fin errs (t :: pending) (OperandAt (t :: pending)) := by
  unfold creation
  refine gives_current (gives_upcoming ?_)
  simp only [head_cons, second_cons_kind]
  cases hk : frontKind pending with
  | intWord =>
    cases pending with
    | nil => cases hk
    | cons i pending =>
      refine gives_advance (gives_expect (by decide) fun b rest hb hkb => ?_)
      subst hb
      simp only [List.length_cons] at hn
      refine gives_advance ((hexpr.lowest (by omega)).phrase ?_)
      rintro e ts v rest rfl - he small
      refine gives_expect (by decide) fun u rest hu hku => ?_
      subst hu
      have hkinds : kinds [t, i, b] = [.newWord, .intWord, .lbracket] := by
        simp [kinds, ht, hkb, show i.kind = .intWord from hk]
      have hsmall : Small ([t, i, b] ++ ts ++ [u]) :=
        small_append.mpr ⟨small_append.mpr ⟨small_of_kinds (by simp [hkinds]), small⟩,
          small_of_kinds (by simp [kinds, hku])⟩
      have hoperand := operandAt_suffixed (.newArray hkinds he hku) hsmall rest
      rw [leave_concat] at hoperand
      exact gives_pure (by simpa using hoperand)
  | ident =>
    cases pending with
    | nil => cases hk
    | cons c pending =>
      refine gives_expectIdent fun c' rest hc hkc => ?_
      obtain ⟨rfl, rfl⟩ := List.cons.inj hc
      refine gives_expectAll (by decide) fun us rest hus hkinds => ?_
      subst hus
      obtain ⟨l, us, rfl, hl, hkinds⟩ := List.map_eq_cons_iff.mp hkinds
      obtain ⟨r, us, rfl, hr, hkinds⟩ := List.map_eq_cons_iff.mp hkinds
      obtain rfl := List.map_eq_nil_iff.mp hkinds
      have hkinds : kinds [t, c, l, r] = [.newWord, .ident, .lparen, .rparen] := by
        simp [kinds, ht, hl, hr, hkc]
      exact gives_pure
        (operandAt_suffixed (.newObject hkinds) (small_of_kinds (by simp [hkinds])) rest)
  | _ => exact gives_failAt _ _

omit hexpr in
/-- A token that is an expression by itself is an operand. -/
theorem gives_atom {t : Token} {e : Expr} {rest : List Token} (h : Atom t e) (small : Small [t]) :
    Gives (pure e) fin errs (t :: rest) (OperandAt (t :: rest)) :=
  gives_pure (operandAt_suffixed (.atom h) small rest)

theorem operand_gives {pending : List Token} (hn : pending.length ≤ n) :
    Gives (operand (expression n)) fin errs pending (OperandAt pending) := by
  unfold operand
  refine gives_current ?_
  cases pending with
  | nil => exact gives_failAt _ _
  | cons t rest =>
    simp only [List.length_cons] at hn
    rw [head_cons]
    cases hk : t.kind with
    | ident => exact gives_atom (.var hk) (small_of_kinds (by simp [kinds, hk]))
    | int =>
      by_cases hsmall : digitsValue t.literal ≤ intMax
      · simp only
        rw [if_pos hsmall]
        refine gives_atom (.int hk) fun u hu _ => ?_
        rw [List.mem_singleton.mp hu]
        exact hsmall
      · simp only
        rw [if_neg hsmall]
        exact gives_failAt _ _
    | trueWord => exact gives_atom (.true hk) (small_of_kinds (by simp [kinds, hk]))
    | falseWord => exact gives_atom (.false hk) (small_of_kinds (by simp [kinds, hk]))
    | thisWord => exact gives_atom (.this hk) (small_of_kinds (by simp [kinds, hk]))
    | bang =>
      refine gives_advance ((hexpr 6 rest (by omega) (by omega) (by omega)).bind fun e left he => ?_)
      obtain ⟨ts, rest, rfl, rfl, he, small, hrest⟩ := he
      have ht : Small [t] := small_of_kinds (by simp [kinds, hk])
      exact gives_pure ⟨prefixStratum, t :: ts, rest, rfl, (leave_cons t he.ne_nil rest).symm,
        Nat.le_refl _, .not hk he, small_cons.mpr ⟨ht, small⟩, hrest⟩
    | lparen =>
      refine gives_advance ((hexpr.lowest (by omega)).phrase ?_)
      rintro e ts v rest rfl - he small
      refine gives_expect (by decide) fun u rest hu hku => ?_
      subst hu
      have hsmall : Small (t :: ts ++ [u]) :=
        small_append.mpr ⟨small_cons.mpr ⟨small_of_kinds (by simp [kinds, hk]), small⟩,
          small_of_kinds (by simp [kinds, hku])⟩
      have hoperand := operandAt_suffixed (.paren hk he hku) hsmall rest
      rw [leave_concat] at hoperand
      exact gives_pure (by simpa using hoperand)
    | newWord => exact creation_gives hexpr hk (by omega)
    | _ => exact gives_failAt _ _

/-! ### Operators -/

omit hexpr in
/-- Which stratum the operators of a level belong to. -/
theorem stratum_of_tightness {k : Nat} {t : TokenKind} {op : BinaryOp} (h : Operator k t op) :
    tightness t = k + 2 ∧ k < 4 ∧ stratum (k + 2) = k + 1 := by
  cases h <;> decide

omit hexpr in
/-- A token that binds at all and is no postfix operator is a binary operator. -/
theorem operator_of_tightness {t : TokenKind} (ht : 1 < tightness t) (hb : t ≠ .lbracket)
    (hd : t ≠ .dot) : ∃ k op, Operator k t op := by
  cases t with
  | andAnd => exact ⟨_, _, .and⟩
  | less => exact ⟨_, _, .less⟩
  | plus => exact ⟨_, _, .plus⟩
  | minus => exact ⟨_, _, .minus⟩
  | star => exact ⟨_, _, .times⟩
  | lbracket => contradiction
  | dot => contradiction
  | _ => exact absurd ht (by simp [tightness, Precedence.ofToken, Precedence.lowest])

/-- What one turn of the loop over operators does to the left side `ts`: the operator `t` and the
tokens `us` after it become part of it. -/
def ExtendsBy (ts : List Token) (t : Token) (pending : List Token) (e : Expr) (left : List Token) :
    Prop :=
  ∃ us rest, pending = us ++ rest ∧ left = leave (t :: us) rest ∧
    ExpAt (min (tightness t.kind - 2) postfixStratum) (ts ++ t :: us) e ∧ Small (t :: us) ∧
    tightness (frontKind rest) ≤ ceiling (min (tightness t.kind - 2) postfixStratum)

omit hexpr in
/-- At a postfix operator, the left side is one of the last stratum. -/
theorem expAt_suffixed {k : Nat} {ts : List Token} {e : Expr} (h : ExpAt k ts e)
    (hk : 7 ≤ ceiling k) : ExpAt postfixStratum ts e := by
  refine h.loosen ?_
  unfold ceiling at hk
  split at hk <;> simp only [postfixStratum] <;> omega

section Extension

variable {k turns : Nat} {ts pending : List Token} {t : Token} {e : Expr}

theorem index_gives (he : ExpAt postfixStratum ts e) (ht : t.kind = .lbracket)
    (hn : pending.length < n) :
    Gives (extend (expression n) turns e) fin errs (t :: pending) (ExtendsBy ts t pending) := by
  unfold extend
  refine gives_current ?_
  simp only [head_cons, ht]
  have hlevel : tightness t.kind = 7 := by rw [ht]; rfl
  refine gives_advance ((hexpr.lowest hn).phrase ?_)
  rintro i us v rest rfl - hi small
  refine gives_expect (by decide) fun u rest hu hku => gives_pure ?_
  subst hu
  have hindex := ExpAt.index he ht hi hku
  have hsmall : Small (t :: (us ++ [u])) :=
    small_cons.mpr ⟨small_of_kinds (by simp [kinds, ht]),
      small_append.mpr ⟨small, small_of_kinds (by simp [kinds, hku])⟩⟩
  refine ⟨us ++ [u], rest, by simp, ?_, ?_, hsmall, ?_⟩
  · rw [← List.cons_append, leave_concat]
  · rw [hlevel]
    exact hindex
  · rw [hlevel]
    exact tightness_le _

omit hexpr in
theorem length_gives {u : Token} (he : ExpAt postfixStratum ts e) (ht : t.kind = .dot)
    (hu : u.kind = .lengthWord) :
    Gives (extend (expression n) turns e) fin errs (t :: u :: pending)
      (ExtendsBy ts t (u :: pending)) := by
  unfold extend
  refine gives_current ?_
  simp only [head_cons, ht]
  have hlevel : tightness t.kind = 8 := by rw [ht]; rfl
  refine gives_upcoming ?_
  rw [second_cons_cons, if_pos hu]
  have hkinds : kinds [t, u] = [.dot, .lengthWord] := by simp [kinds, ht, hu]
  refine gives_advance (gives_current (gives_pure ?_))
  refine ⟨[u], pending, rfl, rfl, ?_, small_of_kinds (by simp [hkinds]), ?_⟩
  · rw [hlevel]
    exact .length he hkinds
  · rw [hlevel]
    exact tightness_le _

theorem call_gives (he : ExpAt postfixStratum ts e) (ht : t.kind = .dot)
    (hl : frontKind pending ≠ .lengthWord) (hn : pending.length < n)
    (hturns : pending.length < turns) :
    Gives (extend (expression n) turns e) fin errs (t :: pending) (ExtendsBy ts t pending) := by
  unfold extend
  refine gives_current ?_
  simp only [head_cons, ht]
  have hlevel : tightness t.kind = 8 := by rw [ht]; rfl
  refine gives_upcoming ?_
  rw [second_cons_kind, if_neg hl]
  refine gives_expectIdent fun m rest hm hkm => ?_
  subst hm
  refine gives_expect (by decide) fun l rest hl hkl => ?_
  subst hl
  simp only [List.length_cons] at hn hturns
  refine (arguments_gives hexpr (by omega) (by omega)).bind fun es left hes => ?_
  obtain ⟨us, r, rest, rfl, rfl, hr, hes, small⟩ := hes
  have hkinds : kinds [t, m, l] = [.dot, .ident, .lparen] := by simp [kinds, ht, hkm, hkl]
  have hcall := ExpAt.call he hkinds hes hr
  have hsmall : Small ([t, m, l] ++ us ++ [r]) :=
    small_append.mpr ⟨small_append.mpr ⟨small_of_kinds (by simp [hkinds]), small⟩,
      small_of_kinds (by simp [kinds, hr])⟩
  refine gives_pure ⟨m :: l :: us ++ [r], rest, by simp, ?_, ?_, hsmall, ?_⟩
  · rw [← List.cons_append, leave_concat]
  · rw [hlevel]
    exact hcall
  · rw [hlevel]
    exact tightness_le _

/-- The right side of an operator binds more tightly than the operator. -/
theorem binary_gives {j : Nat} {op : BinaryOp} (he : ExpAt k ts e) (hop : Operator j t.kind op)
    (hceil : tightness t.kind ≤ ceiling k) (hn : pending.length < n) :
    Gives (extend (expression n) turns e) fin errs (t :: pending) (ExtendsBy ts t pending) := by
  obtain ⟨hlevel, hj, hstratum⟩ := stratum_of_tightness hop
  have hjk : j ≤ k := by unfold ceiling at hceil; split at hceil <;> omega
  have hmin : min (tightness t.kind - 2) postfixStratum = j := by
    rw [hlevel, Nat.add_sub_cancel]
    simp only [postfixStratum]
    omega
  have hright := hexpr (j + 2) pending (by omega) (by omega) hn
  have hgives : Gives (expression n (j + 2) >>= fun right => pure (.binary t op e right)) fin
      errs pending (ExtendsBy ts t pending) := by
    refine hright.bind fun r left hr => gives_pure ?_
    obtain ⟨us, rest, rfl, rfl, hr, small, hrest⟩ := hr
    have hkind : .int ∉ kinds [t] := by
      rw [show kinds [t] = [t.kind] from rfl]
      cases hop' : t.kind <;> rw [hop'] at hop <;> cases hop <;> decide
    refine ⟨us, rest, rfl, (leave_cons t hr.ne_nil rest).symm, ?_,
      small_cons.mpr ⟨small_of_kinds hkind, small⟩, ?_⟩
    · rw [hmin]
      exact .binary (he.loosen hjk) hop (hstratum ▸ hr)
    · rw [hmin]
      unfold ceiling
      rw [if_pos (by omega)]
      exact hrest
  exact hgives.step (extend_operator hop (expression n) turns fin errs pending)

theorem extend_gives (he : ExpAt k ts e) (ht : 1 < tightness t.kind)
    (hceil : tightness t.kind ≤ ceiling k) (hn : pending.length < n)
    (hturns : pending.length < turns) :
    Gives (extend (expression n) turns e) fin errs (t :: pending) (ExtendsBy ts t pending) := by
  by_cases hb : t.kind = .lbracket
  · have hlevel : tightness t.kind = 7 := by rw [hb]; rfl
    exact index_gives hexpr (expAt_suffixed he (by omega)) hb hn
  · by_cases hd : t.kind = .dot
    · have hlevel : tightness t.kind = 8 := by rw [hd]; rfl
      have he := expAt_suffixed he (by omega)
      by_cases hl : frontKind pending = .lengthWord
      · cases pending with
        | nil => cases hl
        | cons u rest => exact length_gives he hd hl
      · exact call_gives hexpr he hd hl hn hturns
    · obtain ⟨j, op, hop⟩ := operator_of_tightness ht hb hd
      exact binary_gives hexpr he hop hceil hn

end Extension

/-! ### The loop over operators -/

omit hexpr in
/-- An operator of a tighter level belongs to no looser stratum. -/
theorem stratum_le {level q : Nat} (hlevel : level ≤ 6) (hq : level < q) :
    stratum level ≤ min (q - 2) postfixStratum := by
  simp only [stratum, postfixStratum]
  omega

/-- From the left side `ts` on, the loop reads further operators up to one that does not bind more
tightly than `level`. -/
theorem climb_gives {level turns k : Nat} {ts rest : List Token} {e : Expr} (hlevel : 1 ≤ level)
    (hlevel' : level ≤ 6) (he : ExpAt k ts e) (small : Small ts) (hk : stratum level ≤ k)
    (hrest : tightness (frontKind rest) ≤ ceiling k) (hn : rest.length ≤ n)
    (hturns : rest.length < turns) :
    Gives (climb (expression n) level n turns e) fin errs (leave ts rest)
      (ReadAt level (ts ++ rest)) := by
  induction turns generalizing k ts rest e with
  | zero => omega
  | succ turns ih =>
    obtain ⟨v, -, hv⟩ := exists_leave he.ne_nil
    rw [climb]
    refine gives_upcoming ?_
    rw [second_leave he.ne_nil, head_kind]
    by_cases hgo : level < tightness (frontKind rest)
    · rw [if_pos (show level < Precedence.ofToken (frontKind rest) from hgo)]
      cases rest with
      | nil =>
        have hend : tightness (frontKind []) = 1 := rfl
        omega
      | cons t rest =>
        simp only [List.length_cons] at hn hturns
        rw [frontKind_cons] at hgo hrest
        rw [hv]
        refine gives_advance ((extend_gives hexpr he (by omega) hrest (by omega)
          (by omega)).bind fun e' left he' => ?_)
        obtain ⟨us, rest, rfl, rfl, he', small', hrest'⟩ := he'
        simp only [List.length_append] at hn hturns
        rw [← leave_append ts (List.cons_ne_nil t us), show ts ++ t :: (us ++ rest) =
          (ts ++ t :: us) ++ rest by simp]
        exact ih he' (small_append.mpr ⟨small, small'⟩) (stratum_le hlevel' hgo) hrest'
          (by omega) (by omega)
    · rw [if_neg (show ¬ level < Precedence.ofToken (frontKind rest) from hgo)]
      exact gives_pure ⟨ts, rest, rfl, rfl, he.loosen hk, small, by omega⟩

end

/-- Whatever the reader of expressions gives is an expression, and it gives up only with a
complaint, as long as its bound is above the number of tokens to come. -/
theorem expression_gives (fin : Position) (errs : List ParseError) (n : Nat) :
    GivesExpressions fin errs n := by
  induction n with
  | zero =>
    intro level pending _ _ hn
    omega
  | succ n ih =>
    intro level pending hlevel hlevel' hn
    rw [expression]
    refine (operand_gives ih (by omega)).bind fun e left he => ?_
    obtain ⟨k, ts, rest, rfl, rfl, hk, he, small, hrest⟩ := he
    have hpos := List.length_pos_iff.mpr he.ne_nil
    simp only [List.length_append] at hn
    have hstratum : stratum level ≤ k := Nat.le_trans (Nat.min_le_right _ _) hk
    exact climb_gives ih hlevel hlevel' he small hstratum hrest (by omega) (by omega)

end MiniJava.Parse
