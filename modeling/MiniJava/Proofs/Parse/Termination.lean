import MiniJava.Proofs.Parse.Rounds
import MiniJava.Proofs.Token.Calls
import MiniJava.Proofs.Tree.Weight

/-!
# Reading ends

Every source is read to an end, with no more calls of the scanner than its bytes allow.  A call of
the scanner that is not at the end reads bytes; a round, a turn of a loop and a nested construct
read tokens.

* **`NeverBound`** — a reader that would not notice if its bound were taken away.
* **`Consumes`** — a reader that reads a token each time a loop calls it.
* **`parse_terminates`** — the whole statement.
-/

namespace MiniJava.Parse

/-! ### Bounds that are never met -/

/-- On any tokens all bounds above their number do the same.  And none of them is met: a reader
that meets its bound gives up in silence. -/
def NeverBound {α : Type} (p : Nat → Parse α) : Prop :=
  ∀ (s : ParseState) (m n : Nat), s.input.pending.length < m → s.input.pending.length < n →
    p m s = p n s ∧ Honest (p m) s

/-- The step past an item that was read leaves fewer tokens than there were in front of it. -/
def Consumes {α : Type} (p : Nat → Parse α) : Prop :=
  ∀ (s s' : ParseState) (n : Nat) (a : α), s.input.pending.length < n → p n s = (some a, s') →
    s'.advance.input.pending.length < s.input.pending.length

section

variable {α : Type} {p : Nat → Parse α}

theorem neverBound_of_proceeds {Q : List Token → Prop}
    (h : ∀ (fin : Position) (pending : List Token) (m n : Nat), pending.length < m →
      pending.length < n → Proceeds (p m) (p n) fin pending Q) : NeverBound p :=
  fun s m n hm hn =>
    have hstep := h s.input.finish s.input.pending m n hm hn
    ⟨hstep.eq s.errors, hstep.honest s.errors⟩

theorem neverBound_of_roundSpec
    (h : ∀ (fin : Position) (pending : List Token) (m n : Nat), pending.length < m →
      pending.length < n → RoundSpec (p m) (p n) fin pending) : NeverBound p :=
  fun s m n hm hn =>
    have hstep := h s.input.finish s.input.pending m n hm hn
    ⟨hstep.eq s.errors, hstep.honest s.errors⟩

/-- A reader that leaves the last token of an item has read at least that one. -/
theorem Proceeds.length_advance_lt {q r : Parse α} {fin : Position} {pending : List Token}
    (h : Proceeds q r fin pending Clear) {errs : List ParseError} {a : α} {s' : ParseState}
    (hread : q (view fin errs pending) = (some a, s')) :
    s'.advance.input.pending.length < pending.length := by
  cases h with
  | gives b left walk holds fst snd =>
    rw [fst] at hread
    obtain ⟨-, rfl⟩ := Prod.mk.inj hread
    obtain ⟨t, rest, rfl, -⟩ := holds.exists_cons
    exact walk.length_le
  | stops e left _ fst snd =>
    rw [fst] at hread
    cases hread

theorem consumes_of_proceeds
    (h : ∀ (fin : Position) (pending : List Token) (n : Nat), pending.length < n →
      Proceeds (p n) (p n) fin pending Clear) : Consumes p :=
  fun s _ n _ hn hread => (h s.input.finish s.input.pending n hn).length_advance_lt hread

end

/-- Reading declared classes depends on no bound either. -/
theorem classDecls_eq {s : ParseState} {m n : Nat} (hm : s.input.pending.length < m)
    (hn : s.input.pending.length < n) : classDecls m s = classDecls n s := by
  obtain ⟨kept, hrounds, hkept⟩ := classDecls_rounds hm
  obtain ⟨kept', hrounds', hkept'⟩ := classDecls_rounds hn
  obtain ⟨rfl, hlast⟩ := hrounds.unique hrounds'
  exact Prod.ext (hkept.trans hkept'.symm) hlast

/-- No reader recurses or goes round a loop without reading a token. -/
structure ReadersEnd : Prop where
  expression : ∀ level, 1 ≤ level → NeverBound (expression · level)
  statement : NeverBound statement
  statements : ∀ stop, NeverBound fun n => statementsUntil (Parse.statement n) stop n
  declarations : NeverBound varDecls
  methods : NeverBound methodDecls
  entry : NeverBound entry
  classDecl : NeverBound fun n => round (Parse.classDecl n) .expectedClass
  classDecls : ∀ (s : ParseState) (m n : Nat), s.input.pending.length < m →
    s.input.pending.length < n → Parse.classDecls m s = Parse.classDecls n s
  eachExpression : ∀ level, 1 ≤ level → Consumes (Parse.expression · level)
  eachStatement : Consumes Parse.statement
  eachDeclaration : Consumes fun _ => typedName
  eachMethod : ∀ (s s' : ParseState) (n : Nat) (m : MethodDecl), s.input.head.kind = .publicWord →
    s.input.pending.length ≤ n → methodDecl n s = (some m, s') →
    s'.advance.input.pending.length < s.input.pending.length

theorem readersEnd : ReadersEnd where
  expression level hlevel := neverBound_of_proceeds fun _ _ _ _ hm hn =>
    expression_proceeds hlevel hm hn
  statement := neverBound_of_proceeds fun _ _ _ _ hm hn => statement_proceeds hm hn
  statements stop := neverBound_of_proceeds fun _ _ _ _ hm hn =>
    statementsUntil_proceeds (fun _ hle => statement_proceeds (by omega) (by omega)) hm hn
  declarations := neverBound_of_proceeds fun _ _ _ _ hm hn => varDecls_proceeds hm hn
  methods := neverBound_of_proceeds fun _ _ _ _ hm hn => methodDecls_proceeds hm hn
  entry := neverBound_of_roundSpec fun _ _ m n hm hn =>
    (round_mainClass_spec (Nat.le_of_lt hm) (Nat.le_of_lt hn)).congr (fun _ => entry_eq_round m _)
      fun _ => entry_eq_round n _
  classDecl := neverBound_of_roundSpec fun _ _ _ _ hm hn =>
    round_classDecl_spec (Nat.le_of_lt hm) (Nat.le_of_lt hn)
  classDecls _ _ _ hm hn := classDecls_eq hm hn
  eachExpression level hlevel := consumes_of_proceeds fun _ _ _ hn =>
    expression_proceeds hlevel hn hn
  eachStatement := consumes_of_proceeds fun _ _ _ hn => statement_proceeds hn hn
  eachDeclaration := consumes_of_proceeds fun _ _ _ _ => typedName_proceeds
  eachMethod s s' n m hk hn hread := by
    have hclear : Clear s.input.pending :=
      clear_of_kind ((head_kind s.input.pending s.input.finish).symm.trans hk) (by decide)
    exact (methodDecl_proceeds hclear hn hn).length_advance_lt hread

/-! ### Whole sources -/

/-- The second token in view is the one that the call after next yields. -/
theorem second_stream (s : Scanner) : s.stream.second = s.next.2.next.1 := by
  rw [← (Scanner.stream_next s.next.2).1, ← (Scanner.stream_next s).2]
  obtain ⟨pending, fin⟩ := s.stream
  match pending with
  | [] => rfl
  | [t] => rfl
  | t :: u :: rest => rfl

/-- Reading ends on every source.

A call of the scanner reads bytes as long as there are any, and yields `eof` from then on; the
tokens that the parser sees are what the calls yield, in order.  The parser reads the entry class,
and then classes in rounds that each leave fewer tokens than they found.  When it stops, at an
`eof`, it has stepped on at most once more than the source has bytes; since it looks at two tokens
at a time, the scanner was called two times more than that.  Inside of a class no reader recurses or
goes round a loop without reading a token. -/
theorem parse_terminates (source : Bytes) :
    (∀ k, let s := (Scanner.start source).calls k
      (s.rest ≠ [] → ∃ text, text ≠ [] ∧ s.rest = text ++ s.next.2.rest) ∧
      (s.rest = [] → s.next.1.kind = .eof ∧ s.next.2.rest = []) ∧
      (TokenStream.advance^[k] (TokenStream.ofSource source)).head = s.next.1 ∧
      (TokenStream.advance^[k] (TokenStream.ofSource source)).second = s.next.2.next.1) ∧
    (∃ kept last, Rounds (opening ⟨TokenStream.ofSource source, []⟩).2 kept last ∧
      Program.parse source =
        ⟨⟨(opening ⟨TokenStream.ofSource source, []⟩).1, kept.reduceOption⟩, last.errors⟩ ∧
      last.input.head.kind = .eof ∧ kept.length ≤ source.length ∧
      ∃ k ≤ source.length + 1,
        last.input = TokenStream.advance^[k] (TokenStream.ofSource source)) ∧
    (∀ s : ParseState, s.input.head.kind ≠ .eof →
      (turn s).2.input.pending.length < s.input.pending.length) ∧
    ReadersEnd := by
  refine ⟨fun k => ?_, ?_, fun s => length_turn_lt, readersEnd⟩
  · have hstream := Scanner.stream_calls k (Scanner.start source)
    rw [Scanner.stream_start] at hstream
    refine ⟨Scanner.exists_read _, Scanner.next_of_end _, ?_, ?_⟩
    · rw [← hstream]
      exact (Scanner.stream_next _).1
    · rw [← hstream]
      exact second_stream _
  · obtain ⟨kept, last, hrounds, hparse⟩ := ofTokens_rounds (TokenStream.ofSource source)
    obtain ⟨k, hk, hlast⟩ := hrounds.exists_iterate_opening
    obtain ⟨j, -, hopening⟩ := (opening_spec (TokenStream.ofSource source).finish
      (TokenStream.ofSource source).pending).exists_iterate []
    have hbytes := length_ofSource_le source
    have hrest := hrounds.length_le
    rw [hopening, length_iterate_advance] at hrest
    exact ⟨kept, last, hrounds, hparse, hrounds.head_eof,
      Nat.le_trans (Nat.le_trans hrest (Nat.sub_le _ _)) hbytes, k, by omega, hlast⟩

end MiniJava.Parse
