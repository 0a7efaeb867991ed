import MiniJava.Proofs.Grammar

/-!
# Precedence forbids nothing

The grammar in strata gives each phrase fewer trees than the grammar without precedence, but it
has the same phrases.  To see this, the phrases of the strata are shown to be closed under the
rules of the other grammar: two of them with an operator between them, one with a postfix operator
after it, and one with a prefix operator in front of it, are phrases again.

* **`exists_expAt_operator`**, **`exists_expAt_suffixed`**, **`exists_expAt_not`** — the closure.
* **`exists_expAt_of_exp`** — every expression has a tree in strata.
* **`ProgramOf.transfer`** — a change of the grammar of expressions carries over to programs.
-/

namespace MiniJava.Grammar

/-! ### An operator between two phrases -/

theorem Operator.lt_prefixStratum {k : Nat} {t : TokenKind} {op : BinaryOp} (h : Operator k t op) :
    k < prefixStratum := by
  cases h <;> decide

/-- An operator and an operand without binary operators, after any phrase.  The operator takes
only as much of the phrase as binds more tightly. -/
theorem exists_expAt_operand {j k : Nat} {op : BinaryOp} {t : Token} {ts us : List Token}
    {l r : Expr} (hop : Operator k t.kind op) (hr : ExpAt prefixStratum us r)
    (hl : ExpAt j ts l) : ∃ e, ExpAt (min j k) (ts ++ t :: us) e := by
  have hk := hop.lt_prefixStratum
  by_cases hjk : k ≤ j
  · rw [Nat.min_eq_right hjk]
    exact ⟨_, .binary (hl.loosen hjk) hop (hr.loosen hk)⟩
  · have hj : j < prefixStratum := by omega
    rw [Nat.min_eq_left (by omega)]
    match hl with
    | .tighter hl =>
      obtain ⟨e, he⟩ := exists_expAt_operand hop hr hl
      exact ⟨e, he.loosen (by omega)⟩
    | .binary hl' hop' hr' =>
      obtain ⟨e, he⟩ := exists_expAt_operand hop hr hr'
      rw [List.append_assoc, List.cons_append]
      exact ⟨_, .binary hl' hop' (he.loosen (by omega))⟩
    | .not _ _ => exact absurd hj (by decide)
    | .atom _ => exact absurd hj (by decide)
    | .paren _ _ _ => exact absurd hj (by decide)
    | .newArray _ _ _ => exact absurd hj (by decide)
    | .newObject _ => exact absurd hj (by decide)
    | .index _ _ _ _ => exact absurd hj (by decide)
    | .length _ _ => exact absurd hj (by decide)
    | .call _ _ _ _ => exact absurd hj (by decide)

/-- The same when the operand has no operators at all. -/
theorem exists_expAt_last {k : Nat} {op : BinaryOp} {t : Token} {ts us : List Token} {l r : Expr}
    (hl : ExpAt 0 ts l) (hop : Operator k t.kind op) (hr : ExpAt postfixStratum us r) :
    ∃ e, ExpAt 0 (ts ++ t :: us) e := by
  obtain ⟨e, he⟩ := exists_expAt_operand hop (hr.loosen (by decide)) hl
  exact ⟨e, he.loosen (Nat.zero_le _)⟩

/-- Two phrases with an operator between them. -/
theorem exists_expAt_operator {j k : Nat} {op : BinaryOp} {t : Token} {ts us : List Token}
    {l r : Expr} (hl : ExpAt 0 ts l) (hop : Operator k t.kind op) (hr : ExpAt j us r) :
    ∃ e, ExpAt 0 (ts ++ t :: us) e := by
  match hr with
  | .tighter hr => exact exists_expAt_operator hl hop hr
  | @ExpAt.binary _ _ t' us us' _ _ hl' hop' hr' =>
    obtain ⟨e, he⟩ := exists_expAt_operator hl hop hl'
    rw [show ts ++ t :: (us ++ t' :: us') = (ts ++ t :: us) ++ t' :: us' by simp]
    exact exists_expAt_operator he hop' hr'
  | .not ht hr =>
    obtain ⟨e, he⟩ := exists_expAt_operand hop (.not ht hr) hl
    exact ⟨e, he.loosen (Nat.zero_le _)⟩
  | .atom h => exact exists_expAt_last hl hop (.atom h)
  | .paren ht h hu => exact exists_expAt_last hl hop (.paren ht h hu)
  | .newArray hk h hu => exact exists_expAt_last hl hop (.newArray hk h hu)
  | .newObject hk => exact exists_expAt_last hl hop (.newObject hk)
  | .index h ht h' hu => exact exists_expAt_last hl hop (.index h ht h' hu)
  | .length h hk => exact exists_expAt_last hl hop (.length h hk)
  | .call h hk hs hr => exact exists_expAt_last hl hop (.call h hk hs hr)

/-! ### Other operators -/

/-- A postfix operator, written `post`, after any phrase: it belongs to the last operand. -/
theorem exists_expAt_suffixed {k : Nat} {ts post : List Token} {e : Expr}
    (hpost : ∀ us a, ExpAt postfixStratum us a → ∃ a', ExpAt postfixStratum (us ++ post) a')
    (h : ExpAt k ts e) : ∃ e', ExpAt k (ts ++ post) e' := by
  match h with
  | .tighter h =>
    obtain ⟨e', he⟩ := exists_expAt_suffixed hpost h
    exact ⟨e', .tighter he⟩
  | .binary hl hop hr =>
    obtain ⟨r', hr⟩ := exists_expAt_suffixed hpost hr
    rw [List.append_assoc, List.cons_append]
    exact ⟨_, .binary hl hop hr⟩
  | .not ht h =>
    obtain ⟨e', he⟩ := exists_expAt_suffixed hpost h
    exact ⟨_, .not ht he⟩
  | .atom h => exact hpost _ _ (.atom h)
  | .paren ht h hu => exact hpost _ _ (.paren ht h hu)
  | .newArray hk h hu => exact hpost _ _ (.newArray hk h hu)
  | .newObject hk => exact hpost _ _ (.newObject hk)
  | .index h ht h' hu => exact hpost _ _ (.index h ht h' hu)
  | .length h hk => exact hpost _ _ (.length h hk)
  | .call h hk hs hr => exact hpost _ _ (.call h hk hs hr)

/-- A negation in front of any phrase: it belongs to the first operand. -/
theorem exists_expAt_not {k : Nat} {t : Token} {ts : List Token} {e : Expr}
    (ht : t.kind = .bang) (h : ExpAt k ts e) : ∃ e', ExpAt (min k prefixStratum) (t :: ts) e' := by
  by_cases hk : prefixStratum ≤ k
  · rw [Nat.min_eq_right hk]
    exact ⟨_, .not ht (h.loosen hk)⟩
  · have hk' : k < prefixStratum := by omega
    rw [Nat.min_eq_left (by omega)]
    match h with
    | .tighter h =>
      obtain ⟨e', he⟩ := exists_expAt_not ht h
      exact ⟨e', he.loosen (by omega)⟩
    | .binary hl hop hr =>
      obtain ⟨l', hl⟩ := exists_expAt_not ht hl
      rw [Nat.min_eq_left (by omega)] at hl
      exact ⟨_, .binary hl hop hr⟩
    | .not _ _ => exact absurd hk' (by decide)
    | .atom _ => exact absurd hk' (by decide)
    | .paren _ _ _ => exact absurd hk' (by decide)
    | .newArray _ _ _ => exact absurd hk' (by decide)
    | .newObject _ => exact absurd hk' (by decide)
    | .index _ _ _ _ => exact absurd hk' (by decide)
    | .length _ _ => exact absurd hk' (by decide)
    | .call _ _ _ _ => exact absurd hk' (by decide)

/-! ### Expressions -/

mutual

/-- Every expression has a tree in strata. -/
theorem exists_expAt_of_exp {ts : List Token} {e : Expr} : Exp ts e → ∃ e', ExpAt 0 ts e'
  | .atom h => ⟨_, (ExpAt.atom h).loosen (by decide)⟩
  | .paren ht h hu => by
    obtain ⟨e', he⟩ := exists_expAt_of_exp h
    exact ⟨_, (ExpAt.paren ht he hu).loosen (by decide)⟩
  | .newArray hk h hu => by
    obtain ⟨e', he⟩ := exists_expAt_of_exp h
    exact ⟨_, (ExpAt.newArray hk he hu).loosen (by decide)⟩
  | .newObject hk => ⟨_, (ExpAt.newObject hk).loosen (by decide)⟩
  | .not ht h => by
    obtain ⟨e', he⟩ := exists_expAt_of_exp h
    exact exists_expAt_not ht he
  | .binary hl hop hr => by
    obtain ⟨l', hl⟩ := exists_expAt_of_exp hl
    obtain ⟨r', hr⟩ := exists_expAt_of_exp hr
    exact exists_expAt_operator hl hop hr
  | .index ha ht hi hu => by
    obtain ⟨a', ha⟩ := exists_expAt_of_exp ha
    obtain ⟨i', hi⟩ := exists_expAt_of_exp hi
    exact exists_expAt_suffixed (fun _ _ h => ⟨_, .index h ht hi hu⟩) ha
  | .length ha hk => by
    obtain ⟨a', ha⟩ := exists_expAt_of_exp ha
    exact exists_expAt_suffixed (fun _ _ h => ⟨_, .length h hk⟩) ha
  | .call ha hk hs hr => by
    obtain ⟨a', ha⟩ := exists_expAt_of_exp ha
    obtain ⟨es', hs⟩ := exists_argsAt_of_args hs
    exact exists_expAt_suffixed (fun _ _ h => ⟨_, .call h hk hs hr⟩) ha

theorem exists_argsAt_of_args {us : List Token} {es : List Expr} : Args us es → ∃ es', ArgsAt us es'
  | .none => ⟨_, .none⟩
  | .some h hs => by
    obtain ⟨e', he⟩ := exists_expAt_of_exp h
    obtain ⟨es', hs⟩ := exists_moreArgsAt_of_moreArgs hs
    exact ⟨_, .some he hs⟩

theorem exists_moreArgsAt_of_moreArgs {us : List Token} {es : List Expr} :
    MoreArgs us es → ∃ es', MoreArgsAt us es'
  | .none => ⟨_, .none⟩
  | .some ht h hs => by
    obtain ⟨e', he⟩ := exists_expAt_of_exp h
    obtain ⟨es', hs⟩ := exists_moreArgsAt_of_moreArgs hs
    exact ⟨_, .some ht he hs⟩

end

mutual

/-- A tree in strata is one of the trees without precedence. -/
theorem exp_of_expAt {k : Nat} {ts : List Token} {e : Expr} : ExpAt k ts e → Exp ts e
  | .tighter h => exp_of_expAt h
  | .binary hl hop hr => .binary (exp_of_expAt hl) hop (exp_of_expAt hr)
  | .not ht h => .not ht (exp_of_expAt h)
  | .atom h => .atom h
  | .paren ht h hu => .paren ht (exp_of_expAt h) hu
  | .newArray hk h hu => .newArray hk (exp_of_expAt h) hu
  | .newObject hk => .newObject hk
  | .index h ht h' hu => .index (exp_of_expAt h) ht (exp_of_expAt h') hu
  | .length h hk => .length (exp_of_expAt h) hk
  | .call h hk hs hr => .call (exp_of_expAt h) hk (args_of_argsAt hs) hr

theorem args_of_argsAt {us : List Token} {es : List Expr} : ArgsAt us es → Args us es
  | .none => .none
  | .some h hs => .some (exp_of_expAt h) (moreArgs_of_moreArgsAt hs)

theorem moreArgs_of_moreArgsAt {us : List Token} {es : List Expr} :
    MoreArgsAt us es → MoreArgs us es
  | .none => .none
  | .some ht h hs => .some ht (exp_of_expAt h) (moreArgs_of_moreArgsAt hs)

end

/-! ### Programs -/

section

variable {E E' : List Token → Expr → Prop}

mutual

theorem StmtOf.transfer (hE : ∀ ts e, E ts e → ∃ e', E' ts e') {ts : List Token} {s : Stmt} :
    StmtOf E ts s → ∃ s', StmtOf E' ts s'
  | .block ht hs hu => by
    obtain ⟨ss', hs⟩ := StmtsOf.transfer hE hs
    exact ⟨_, .block ht hs hu⟩
  | .cond hk hc hr ha hw hb => by
    obtain ⟨c', hc⟩ := hE _ _ hc
    obtain ⟨a', ha⟩ := StmtOf.transfer hE ha
    obtain ⟨b', hb⟩ := StmtOf.transfer hE hb
    exact ⟨_, .cond hk hc hr ha hw hb⟩
  | .loop hk hc hr hb => by
    obtain ⟨c', hc⟩ := hE _ _ hc
    obtain ⟨b', hb⟩ := StmtOf.transfer hE hb
    exact ⟨_, .loop hk hc hr hb⟩
  | .print ho he hk => by
    obtain ⟨e', he⟩ := hE _ _ he
    exact ⟨_, .print ho he hk⟩
  | .assign hk he hs => by
    obtain ⟨e', he⟩ := hE _ _ he
    exact ⟨_, .assign hk he hs⟩
  | .assignElem hk hi hk' he hs => by
    obtain ⟨i', hi⟩ := hE _ _ hi
    obtain ⟨e', he⟩ := hE _ _ he
    exact ⟨_, .assignElem hk hi hk' he hs⟩

theorem StmtsOf.transfer (hE : ∀ ts e, E ts e → ∃ e', E' ts e') {ts : List Token}
    {ss : List Stmt} :
    StmtsOf E ts ss → ∃ ss', StmtsOf E' ts ss'
  | .none => ⟨_, .none⟩
  | .some h hs => by
    obtain ⟨s', h⟩ := StmtOf.transfer hE h
    obtain ⟨ss', hs⟩ := StmtsOf.transfer hE hs
    exact ⟨_, .some h hs⟩

end

variable (hE : ∀ ts e, E ts e → ∃ e', E' ts e')

include hE

theorem MethodsOf.transfer {ts : List Token} {ms : List MethodDecl} (h : MethodsOf E ts ms) :
    ∃ ms', MethodsOf E' ts ms' := by
  induction h with
  | none => exact ⟨_, .none⟩
  | some h _ ih =>
    obtain ⟨ms', hs⟩ := ih
    cases h with
    | mk ht htype hm hps hr hds hss hw he hs' =>
      obtain ⟨ss', hss⟩ := StmtsOf.transfer hE hss
      obtain ⟨e', he⟩ := hE _ _ he
      exact ⟨_, .some (.mk ht htype hm hps hr hds hss hw he hs') hs⟩

theorem ClassesOf.transfer {ts : List Token} {cs : List ClassDecl} (h : ClassesOf E ts cs) :
    ∃ cs', ClassesOf E' ts cs' := by
  induction h with
  | none => exact ⟨_, .none⟩
  | some h _ ih =>
    obtain ⟨cs', hs⟩ := ih
    cases h with
    | mk hk hp hb hfs hms hu =>
      obtain ⟨ms', hms⟩ := MethodsOf.transfer hE hms
      exact ⟨_, .some (.mk hk hp hb hfs hms hu) hs⟩

/-- What every expression can be turned into, every program can be turned into. -/
theorem ProgramOf.transfer {ts : List Token} {p : Program} (h : ProgramOf E ts p) :
    ∃ p', ProgramOf E' ts p' := by
  cases h with
  | mk hm hcs =>
    obtain ⟨cs', hcs⟩ := ClassesOf.transfer hE hcs
    cases hm with
    | mk hk hh ha hps hds hss hus =>
      obtain ⟨ss', hss⟩ := StmtsOf.transfer hE hss
      exact ⟨_, .mk (.mk hk hh ha hps hds hss hus) hcs⟩

end

end MiniJava.Grammar
