import MiniJava.Proofs.Parse.Reading

/-!
# Every expression is read

What the grammar in strata derives, the reader of expressions accepts, and it gives the tree of
the derivation.  The statement has to say where in the loop over operators the reader stands: a
phrase of stratum `k` brings it from the first operand to the point where the tree of the phrase
is the left side of whatever operator comes next.

* **`Climbs`** — that statement; there is one lemma for each way to form an expression.
* **`Climbs.reads`** — such a phrase is read when no tighter operator follows.
* **`expression_reads`** — hence every expression is read.
-/

namespace MiniJava.Parse

open Grammar

/-! ### Strata and levels -/

/-- The highest level at which a phrase of stratum `k` may be read. -/
def ground (k : Nat) : Nat := if k < 4 then k + 1 else 6

/-- The level of the tightest operator that may follow a phrase of stratum `k` without becoming
part of it. -/
def ceiling (k : Nat) : Nat := if k < 5 then k + 2 else 8

theorem ground_le_succ (k : Nat) : ground k ≤ ground (k + 1) := by
  unfold ground
  split <;> split <;> omega

theorem ceiling_le_succ (k : Nat) : ceiling k ≤ ceiling (k + 1) := by
  unfold ceiling
  split <;> split <;> omega

theorem ground_le_ceiling (k : Nat) : ground k ≤ ceiling k := by
  unfold ground ceiling
  split <;> split <;> omega

/-- How tightly the operator that a token stands for binds. -/
def tightness (k : TokenKind) : Nat := Precedence.ofToken k

theorem tightness_le (k : TokenKind) : tightness k ≤ 8 := by
  cases k <;> simp [tightness, Precedence.ofToken, Precedence.lowest]

/-- The operators of stratum `k` have level `k + 2`. -/
theorem tightness_operator {k : Nat} {t : TokenKind} {op : BinaryOp} (h : Operator k t op) :
    tightness t = k + 2 ∧ k < 4 := by
  cases h <;> decide

/-! ### The loop over operators -/

/-- Reading the phrase `ts` from its first operand on comes to the point where its tree is the
left side of what follows.  Of the turns that the loop may take, no more are used up than the
phrase has tokens. -/
def Climbs (k : Nat) (ts : List Token) (e : Expr) : Prop :=
  ∀ (n level : Nat) (rest : List Token) (fin : Position) (errs : List ParseError),
    level ≤ ground k → tightness (frontKind rest) ≤ ceiling k → ts.length ≤ n + 1 →
    ∃ turns, n + 2 ≤ turns + ts.length ∧
      expression (n + 1) level (view fin errs (ts ++ rest)) =
        climb (expression n) level n turns e (view fin errs (leave ts rest))

/-- The loop ends at an operator that does not bind more tightly. -/
theorem climb_stop {expr : Precedence → Parse Expr} {level bound turns : Nat} {e : Expr}
    {ts rest : List Token} {fin : Position} {errs : List ParseError} (hts : ts ≠ [])
    (hturns : 1 ≤ turns) (h : tightness (frontKind rest) ≤ level) :
    climb expr level bound turns e (view fin errs (leave ts rest)) =
      (some e, view fin errs (leave ts rest)) := by
  obtain ⟨turns, rfl⟩ : ∃ m, turns = m + 1 := ⟨turns - 1, by omega⟩
  obtain ⟨t, -, ht⟩ := exists_leave hts
  have hstop : ¬ level < Precedence.ofToken (frontKind rest) := Nat.not_lt.mpr h
  rw [ht, climb, upcoming_bind, second_cons_kind, if_neg hstop]
  rfl

/-- The loop takes a turn at an operator that binds more tightly. -/
theorem climb_turn {expr : Precedence → Parse Expr} {level bound turns : Nat} {e : Expr}
    {ts rest : List Token} {t : Token} {fin : Position} {errs : List ParseError} (hts : ts ≠ [])
    (h : level < tightness t.kind) :
    climb expr level bound (turns + 1) e (view fin errs (leave ts (t :: rest))) =
      (extend expr bound e >>= climb expr level bound turns) (view fin errs (t :: rest)) := by
  obtain ⟨u, -, hu⟩ := exists_leave hts
  have hgo : level < Precedence.ofToken t.kind := h
  rw [hu, climb, upcoming_bind, second_cons_cons, if_pos hgo]
  rfl

/-- A phrase that climbs is read when what follows does not bind more tightly. -/
theorem Climbs.reads {k : Nat} {ts : List Token} {e : Expr} (h : Climbs k ts e) (hts : ts ≠ [])
    {n level : Nat} {rest : List Token} (hlevel : level ≤ ground k)
    (hrest : tightness (frontKind rest) ≤ level) (hn : ts.length ≤ n) :
    Reads (expression n level) ts e rest := by
  intro fin errs
  have hpos : 1 ≤ ts.length := List.length_pos_iff.mpr hts
  obtain ⟨n, rfl⟩ : ∃ m, n = m + 1 := ⟨n - 1, by omega⟩
  have hceil := ground_le_ceiling k
  obtain ⟨turns, hturns, heq⟩ := h n level rest fin errs hlevel (by omega) hn
  rw [heq, climb_stop hts (by omega) hrest]

/-- One more turn of the loop: the tree so far is extended to `e'` by the tokens `t :: us`. -/
theorem Climbs.extend {k k' : Nat} {ts us : List Token} {t : Token} {e e' : Expr}
    (h : Climbs k ts e) (hts : ts ≠ []) (hground : ground k' ≤ ground k)
    (ht : ground k' < tightness t.kind) (hceil : tightness t.kind ≤ ceiling k)
    (hextend : ∀ (n : Nat) (rest : List Token), tightness (frontKind rest) ≤ ceiling k' →
      us.length + 1 ≤ n → Reads (Parse.extend (expression n) n e) (t :: us) e' rest) :
    Climbs k' (ts ++ t :: us) e' := by
  intro n level rest fin errs hlevel hrest hn
  have hpos : 1 ≤ ts.length := List.length_pos_iff.mpr hts
  simp only [List.length_append, List.length_cons] at hn
  obtain ⟨turns, hturns, heq⟩ := h n level (t :: us ++ rest) fin errs (by omega) hceil (by omega)
  obtain ⟨turns, rfl⟩ : ∃ m, turns = m + 1 := ⟨turns - 1, by omega⟩
  refine ⟨turns, by simp only [List.length_append, List.length_cons]; omega, ?_⟩
  rw [List.append_assoc, heq, List.cons_append, climb_turn hts (by omega), ← List.cons_append,
    bind_some (hextend n rest hrest (by omega) fin errs), leave_append ts (List.cons_ne_nil t us)]

/-- An operand by itself climbs. -/
theorem Climbs.operand {k : Nat} {ts : List Token} {e : Expr} (hts : ts ≠ [])
    (h : ∀ (n : Nat) (rest : List Token), tightness (frontKind rest) ≤ ceiling k →
      ts.length ≤ n + 1 → Reads (Parse.operand (expression n)) ts e rest) : Climbs k ts e := by
  intro n level rest fin errs _ hrest hn
  have hpos : 1 ≤ ts.length := List.length_pos_iff.mpr hts
  refine ⟨n + 1, by omega, ?_⟩
  rw [expression, bind_some (h n rest hrest hn fin errs)]

/-! ### Operands -/

section

variable {ts us : List Token} {t u : Token} {e : Expr}

theorem climbs_atom (h : Atom t e) (small : Small [t]) : Climbs postfixStratum [t] e := by
  refine Climbs.operand (List.cons_ne_nil t []) fun n rest _ _ fin errs => ?_
  have hsmall : t.kind = .int → digitsValue t.literal ≤ intMax := small t (by simp)
  unfold operand
  rw [current_bind]
  cases h with
  | int hk => simp [hk, hsmall hk, List.cons_append]
  | var hk => simp only [List.cons_append, head_cons, hk]; rfl
  | true hk => simp only [List.cons_append, head_cons, hk]; rfl
  | false hk => simp only [List.cons_append, head_cons, hk]; rfl
  | this hk => simp only [List.cons_append, head_cons, hk]; rfl

theorem climbs_paren (ht : t.kind = .lparen) (hts : ts ≠ []) (h : Climbs 0 ts e)
    (hu : u.kind = .rparen) : Climbs postfixStratum (t :: ts ++ [u]) e := by
  refine Climbs.operand (by simp) fun n rest _ hn fin errs => ?_
  have hread : Reads (expression n .lowest) ts e (u :: rest) :=
    h.reads hts (by decide) (by rw [frontKind_cons, hu]; decide) (by simp at hn; omega)
  unfold operand
  rw [current_bind]
  simp only [List.cons_append, List.append_assoc, List.nil_append, head_cons, ht]
  rw [advance_bind, advance_view, bind_some (hread fin errs), bind_some (expect_leave hts hu rest),
    pure_apply, ← List.cons_append, leave_concat]

theorem climbs_newArray {i b : Token} (hk : kinds [t, i, b] = [.newWord, .intWord, .lbracket])
    (hts : ts ≠ []) (h : Climbs 0 ts e) (hu : u.kind = .rbracket) :
    Climbs postfixStratum ([t, i, b] ++ ts ++ [u]) (.newArray t e) := by
  refine Climbs.operand (by simp) fun n rest _ hn fin errs => ?_
  have hread : Reads (expression n .lowest) ts e (u :: rest) :=
    h.reads hts (by decide) (by rw [frontKind_cons, hu]; decide) (by simp at hn; omega)
  simp only [kinds, List.map_cons, List.map_nil, List.cons.injEq, and_true] at hk
  obtain ⟨ht, hi, hb⟩ := hk
  unfold operand
  rw [current_bind]
  simp only [List.cons_append, List.append_assoc, List.nil_append, head_cons, ht]
  unfold creation
  rw [current_bind, upcoming_bind]
  simp only [head_cons, second_cons_cons, hi]
  rw [advance_bind, advance_view, bind_some (hb ▸ expect_view fin errs i b _), advance_bind,
    advance_view, bind_some (hread fin errs), bind_some (expect_leave hts hu rest), pure_apply]
  simp only [← List.cons_append, leave_concat]

theorem climbs_newObject {c l r : Token}
    (hk : kinds [t, c, l, r] = [.newWord, .ident, .lparen, .rparen]) :
    Climbs postfixStratum [t, c, l, r] (.newObject t (ident c)) := by
  refine Climbs.operand (by simp) fun n rest _ hn fin errs => ?_
  simp only [kinds, List.map_cons, List.map_nil, List.cons.injEq, and_true] at hk
  obtain ⟨ht, hc, hl, hr⟩ := hk
  unfold operand
  rw [current_bind]
  simp only [List.cons_append, List.nil_append, head_cons, ht]
  unfold creation
  rw [current_bind, upcoming_bind]
  simp only [head_cons, second_cons_cons, hc]
  have hparens : expectAll [.lparen, .rparen] (view fin errs (c :: l :: r :: rest)) =
      (some (), view fin errs (r :: rest)) :=
    expectAll_view fin errs c [l, r] rest (by simp [kinds, hl, hr])
  rw [bind_some (expectIdent_view t _ hc), bind_some hparens, pure_apply]
  rfl

theorem climbs_not (ht : t.kind = .bang) (hts : ts ≠ []) (h : Climbs prefixStratum ts e) :
    Climbs prefixStratum (t :: ts) (.unary t .not e) := by
  refine Climbs.operand (by simp) fun n rest hrest hn fin errs => ?_
  have hread : Reads (expression n .negation) ts e rest :=
    h.reads hts (by decide) hrest (by simp at hn; omega)
  unfold operand
  rw [current_bind]
  simp only [List.cons_append, head_cons, ht]
  rw [advance_bind, advance_view, bind_some (hread fin errs), pure_apply, leave_cons t hts]

end

/-! ### Operators -/

section

variable {ts us : List Token} {t u : Token} {e e' : Expr}

theorem climbs_tighter {k : Nat} (h : Climbs (k + 1) ts e) : Climbs k ts e := by
  intro n level rest fin errs hlevel hrest hn
  exact h n level rest fin errs (Nat.le_trans hlevel (ground_le_succ k))
    (Nat.le_trans hrest (ceiling_le_succ k)) hn

/-- At the token of a binary operator, the right side is read at the level of the operator. -/
theorem extend_operator {k : Nat} {op : BinaryOp} (h : Operator k t.kind op)
    (expr : Precedence → Parse Expr) (n : Nat) (fin : Position) (errs : List ParseError)
    (rest : List Token) :
    extend expr n e (view fin errs (t :: rest)) =
      (expr (k + 2) >>= fun right => pure (.binary t op e right)) (view fin errs rest) := by
  unfold extend
  rw [current_bind]
  simp only [head_cons]
  cases ht : t.kind <;> rw [ht] at h <;> cases h <;>
    simp only [BinaryOp.ofToken, ht] <;> rfl

theorem climbs_binary {k : Nat} {op : BinaryOp} (hts : ts ≠ []) (h : Climbs k ts e)
    (hop : Operator k t.kind op) (hus : us ≠ []) (h' : Climbs (k + 1) us e') :
    Climbs k (ts ++ t :: us) (.binary t op e e') := by
  obtain ⟨ht, hk⟩ := tightness_operator hop
  have hground : ground k = k + 1 := if_pos hk
  have hceil : ceiling k = k + 2 := if_pos (by omega)
  have hlevel : k + 2 ≤ ground (k + 1) := by unfold ground; split <;> omega
  refine h.extend hts (Nat.le_refl _) (by omega) (by omega) fun n rest hrest hn fin errs => ?_
  have hread : Reads (expression n (k + 2)) us e' rest := h'.reads hus hlevel (by omega) (by omega)
  rw [List.cons_append, extend_operator hop, bind_some (hread fin errs), pure_apply,
    leave_cons t hus]

theorem climbs_index (hts : ts ≠ []) (h : Climbs postfixStratum ts e) (ht : t.kind = .lbracket)
    (hus : us ≠ []) (h' : Climbs 0 us e') (hu : u.kind = .rbracket) :
    Climbs postfixStratum (ts ++ (t :: us ++ [u])) (.index t e e') := by
  show Climbs postfixStratum (ts ++ t :: (us ++ [u])) (.index t e e')
  refine h.extend hts (Nat.le_refl _) (by rw [ht]; decide) (by rw [ht]; decide)
    fun n rest _ hn fin errs => ?_
  have hread : Reads (expression n .lowest) us e' (u :: rest) :=
    h'.reads hus (by decide) (by rw [frontKind_cons, hu]; decide) (by simp at hn; omega)
  unfold extend
  rw [current_bind]
  simp only [List.cons_append, List.append_assoc, List.nil_append, head_cons, ht]
  rw [advance_bind, advance_view, bind_some (hread fin errs), bind_some (expect_leave hus hu rest),
    pure_apply, ← List.cons_append, leave_concat]

theorem climbs_length (hts : ts ≠ []) (h : Climbs postfixStratum ts e)
    (hk : kinds [t, u] = [.dot, .lengthWord]) :
    Climbs postfixStratum (ts ++ [t, u]) (.length u e) := by
  simp only [kinds, List.map_cons, List.map_nil, List.cons.injEq, and_true] at hk
  obtain ⟨ht, hu⟩ := hk
  refine h.extend hts (Nat.le_refl _) (by rw [ht]; decide) (by rw [ht]; decide)
    fun n rest _ _ fin errs => ?_
  unfold extend
  rw [current_bind]
  simp only [List.cons_append, List.nil_append, head_cons, ht]
  rw [upcoming_bind, second_cons_cons, if_pos hu]
  rfl

end

/-! ### Calls -/

/-- The further arguments `us`, of which the first comma comes next, are read up to the closing
parenthesis. -/
def ReadsMore (us : List Token) (es : List Expr) : Prop :=
  ∀ (n turns : Nat) (ts : List Token) (r : Token) (rest : List Token) (fin : Position)
    (errs : List ParseError), ts ≠ [] → r.kind = .rparen → us.length ≤ n → us.length < turns →
    moreArguments (expression n) turns (view fin errs (leave ts (us ++ r :: rest))) =
      (some es, view fin errs (r :: rest))

/-- The arguments `us` are read from the opening to the closing parenthesis. -/
def ReadsArgs (us : List Token) (es : List Expr) : Prop :=
  ∀ (n turns : Nat) (l r : Token) (rest : List Token) (fin : Position) (errs : List ParseError),
    r.kind = .rparen → us.length ≤ n → us.length < turns →
    arguments (expression n) turns (view fin errs (l :: us ++ r :: rest)) =
      (some es, view fin errs (r :: rest))

/-- What follows an argument ends it. -/
theorem tightness_rparen {r : Token} (h : r.kind = .rparen) (rest : List Token) :
    tightness (frontKind (r :: rest)) ≤ 1 := by
  rw [frontKind_cons, h]
  decide

theorem readsMore_none : ReadsMore [] [] := by
  intro n turns ts r rest fin errs hts hr _ hturns
  obtain ⟨turns, rfl⟩ : ∃ m, turns = m + 1 := ⟨turns - 1, by simp at hturns; omega⟩
  rw [List.nil_append, moreArguments, upcoming_bind, second_leave hts, head_cons, hr,
    if_neg (by decide), bind_some (expect_leave hts hr rest)]
  rfl

/-- Either another argument or the end follows an argument. -/
theorem tightness_moreArgs {us : List Token} {es : List Expr} (h : MoreArgsAt us es) {r : Token}
    (hr : r.kind = .rparen) (rest : List Token) :
    tightness (frontKind (us ++ r :: rest)) ≤ 1 := by
  cases h with
  | none => exact tightness_rparen hr rest
  | some ht _ _ =>
    rw [List.append_assoc, List.cons_append, frontKind_cons, ht]
    decide

theorem readsMore_some {t : Token} {ts us : List Token} {e : Expr} {es : List Expr}
    (ht : t.kind = .comma) (hts : ts ≠ []) (h : Climbs 0 ts e) (more : MoreArgsAt us es)
    (hmore : ReadsMore us es) : ReadsMore (t :: ts ++ us) (e :: es) := by
  intro n turns vs r rest fin errs hvs hr hn hturns
  simp only [List.cons_append, List.length_cons, List.length_append] at hn hturns
  obtain ⟨turns, rfl⟩ : ∃ m, turns = m + 1 := ⟨turns - 1, by omega⟩
  have hread : Reads (expression n .lowest) ts e (us ++ r :: rest) :=
    h.reads hts (by decide) (tightness_moreArgs more hr rest) (by omega)
  simp only [List.cons_append, List.append_assoc]
  rw [moreArguments, upcoming_bind, second_leave hvs, head_cons, if_pos ht, advance_bind,
    advance_leave hvs, advance_bind, advance_view, bind_some (hread fin errs),
    bind_some (hmore n turns ts r rest fin errs hts hr (by omega) (by omega))]
  rfl

theorem readsArgs_none : ReadsArgs [] [] := by
  intro n turns l r rest fin errs hr _ _
  unfold arguments
  rw [List.cons_append, List.nil_append, advance_bind, advance_view, current_bind, head_cons,
    if_pos hr]
  rfl

/-- An expression does not start with a closing parenthesis. -/
theorem frontKind_expAt {k : Nat} {ts : List Token} {e : Expr} (rest : List Token) :
    ExpAt k ts e → frontKind (ts ++ rest) ≠ .rparen
  | .tighter h => frontKind_expAt rest h
  | .binary h _ _ => by rw [List.append_assoc]; exact frontKind_expAt _ h
  | .index h _ _ _ => by rw [List.append_assoc]; exact frontKind_expAt _ h
  | .length h _ => by rw [List.append_assoc]; exact frontKind_expAt _ h
  | .call h _ _ _ => by rw [List.append_assoc]; exact frontKind_expAt _ h
  | .not h _ => by simp [h]
  | .atom h => by cases h <;> simp_all
  | .paren h _ _ => by simp [h]
  | .newArray h _ _ => by simp_all [kinds]
  | .newObject h => by simp_all [kinds]

theorem readsArgs_some {ts us : List Token} {e : Expr} {es : List Expr} (d : ExpAt 0 ts e)
    (h : Climbs 0 ts e) (more : MoreArgsAt us es) (hmore : ReadsMore us es) :
    ReadsArgs (ts ++ us) (e :: es) := by
  intro n turns l r rest fin errs hr hn hturns
  have hts := d.ne_nil
  simp only [List.length_append] at hn hturns
  have hread : Reads (expression n .lowest) ts e (us ++ r :: rest) :=
    h.reads hts (by decide) (tightness_moreArgs more hr rest) (by omega)
  unfold arguments
  rw [List.cons_append, List.append_assoc, advance_bind, advance_view, current_bind, head_kind,
    if_neg (frontKind_expAt _ d), bind_some (hread fin errs),
    bind_some (hmore n turns ts r rest fin errs hts hr (by omega) (by omega))]
  rfl

theorem climbs_call {t m l r : Token} {ts us : List Token} {e : Expr} {es : List Expr}
    (hts : ts ≠ []) (h : Climbs postfixStratum ts e)
    (hk : kinds [t, m, l] = [.dot, .ident, .lparen]) (hargs : ReadsArgs us es)
    (hr : r.kind = .rparen) :
    Climbs postfixStratum (ts ++ ([t, m, l] ++ us ++ [r])) (.call m e (ident m) es) := by
  simp only [kinds, List.map_cons, List.map_nil, List.cons.injEq, and_true] at hk
  obtain ⟨ht, hm, hl⟩ := hk
  show Climbs postfixStratum (ts ++ t :: (m :: l :: us ++ [r])) _
  refine h.extend hts (Nat.le_refl _) (by rw [ht]; decide) (by rw [ht]; decide)
    fun n rest _ hn fin errs => ?_
  simp only [List.cons_append, List.length_cons, List.length_append, List.length_nil] at hn
  unfold extend
  rw [current_bind]
  simp only [List.cons_append, List.append_assoc, List.nil_append, head_cons, ht]
  rw [upcoming_bind, second_cons_cons, if_neg (by rw [hm]; decide),
    bind_some (expectIdent_view t _ hm), bind_some (hl ▸ expect_view fin errs m l _),
    ← List.cons_append, bind_some (hargs n n l r rest fin errs hr (by omega) (by omega)),
    pure_apply]
  simp only [← List.cons_append, leave_concat]
  rfl

/-! ### Expressions -/

mutual

theorem climbs_of_expAt {k : Nat} {ts : List Token} {e : Expr} :
    ExpAt k ts e → Small ts → Climbs k ts e
  | .tighter h, small => climbs_tighter (climbs_of_expAt h small)
  | .binary h hop h', small => by
    obtain ⟨small, small'⟩ := small_append.mp small
    exact climbs_binary h.ne_nil (climbs_of_expAt h small) hop h'.ne_nil
      (climbs_of_expAt h' (small_cons.mp small').2)
  | .not ht h, small => climbs_not ht h.ne_nil (climbs_of_expAt h (small_cons.mp small).2)
  | .atom h, small => climbs_atom h small
  | .paren ht h hu, small =>
    climbs_paren ht h.ne_nil (climbs_of_expAt h (small_append.mp (small_cons.mp small).2).1) hu
  | .newArray hk h hu, small =>
    climbs_newArray hk h.ne_nil
      (climbs_of_expAt h (small_append.mp (small_append.mp small).1).2) hu
  | .newObject hk, _ => climbs_newObject hk
  | .index h ht h' hu, small => by
    obtain ⟨small, small'⟩ := small_append.mp small
    exact climbs_index h.ne_nil (climbs_of_expAt h small) ht h'.ne_nil
      (climbs_of_expAt h' (small_append.mp (small_cons.mp small').2).1) hu
  | .length h hk, small => climbs_length h.ne_nil (climbs_of_expAt h (small_append.mp small).1) hk
  | .call h hk hs hr, small => by
    obtain ⟨small, small'⟩ := small_append.mp small
    exact climbs_call h.ne_nil (climbs_of_expAt h small) hk
      (readsArgs_of_argsAt hs (small_append.mp (small_append.mp small').1).2) hr

theorem readsArgs_of_argsAt {us : List Token} {es : List Expr} :
    ArgsAt us es → Small us → ReadsArgs us es
  | .none, _ => readsArgs_none
  | .some h hs, small => by
    obtain ⟨small, small'⟩ := small_append.mp small
    exact readsArgs_some h (climbs_of_expAt h small) hs (readsMore_of_moreArgsAt hs small')

theorem readsMore_of_moreArgsAt {us : List Token} {es : List Expr} :
    MoreArgsAt us es → Small us → ReadsMore us es
  | .none, _ => readsMore_none
  | .some ht h hs, small => by
    obtain ⟨small, small'⟩ := small_append.mp small
    exact readsMore_some ht h.ne_nil (climbs_of_expAt h (small_cons.mp small).2) hs
      (readsMore_of_moreArgsAt hs small')

end

/-- An expression is read when no operator follows it. -/
theorem expression_reads {ts : List Token} {e : Expr} (h : ExpAt 0 ts e) (small : Small ts)
    {n : Nat} (hn : ts.length ≤ n) {rest : List Token} (hrest : tightness (frontKind rest) ≤ 1) :
    Reads (expression n .lowest) ts e rest :=
  (climbs_of_expAt h small).reads h.ne_nil (by decide) hrest hn

end MiniJava.Parse
