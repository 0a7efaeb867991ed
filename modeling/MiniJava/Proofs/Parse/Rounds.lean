import MiniJava.Proofs.Parse.Complete.Program
import MiniJava.Proofs.Parse.Progress
import MiniJava.Proofs.Parse.Sound.Program
import Mathlib.Data.List.ReduceOption
import Mathlib.Logic.Function.Iterate

/-!
# Reading in rounds

At the top level a source is read in rounds.  A round reads one class and keeps it, or it gives up
with exactly one complaint and goes on at the next landmark.  The rounds end at the first landmark
that ends the source; every round leaves fewer tokens than it found, so that there are no more
rounds than tokens, and the bound on nesting is never met.

* **`round`** — one round, for the entry class or for a declared class.
* **`RoundSpec`** — everything a round can do.
* **`Rounds`** — the rounds from one state to the end, with what each of them kept.
* **`Rounds.errors`**, **`Rounds.length_errors`** — there is one error for every round that kept
  nothing.
* **`Rounds.exists_iterate`** — how often the rounds step on to the next token.
* **`ofTokens_rounds`** — a program is what its rounds keep.
-/

namespace MiniJava.Parse

open Grammar

/-! ### One round -/

/-- Read a class if one starts here, and step past it.  What cannot be read is given up, and the
next landmark becomes current. -/
def round {α : Type} (read : Parse α) (stray : TokenKind → Complaint) (s : ParseState) :
    Option α × ParseState :=
  let t := s.input.head
  if t.kind = .classWord then
    match read s with
    | (some a, s) => (some a, s.advance)
    | (none, s) => (none, s.resume)
  else (none, (s.complain t (stray t.kind)).resume)

section

variable {α : Type} {read : Parse α} {stray : TokenKind → Complaint} {s s' : ParseState}

theorem round_kept {a : α} (h : s.input.head.kind = .classWord) (hread : read s = (some a, s')) :
    round read stray s = (some a, s'.advance) := by
  simp only [round, if_pos h, hread]

theorem round_givenUp (h : s.input.head.kind = .classWord) (hread : read s = (none, s')) :
    round read stray s = (none, s'.resume) := by
  simp only [round, if_pos h, hread]

theorem round_stray (h : s.input.head.kind ≠ .classWord) :
    round read stray s = (none, (s.complain s.input.head (stray s.input.head.kind)).resume) :=
  if_neg h

end

theorem entry_eq_round (n : Nat) (s : ParseState) :
    entry n s = round (mainClass n) .expectedEntryClass s := by
  simp only [entry, round]
  split
  · cases hread : mainClass n s with
    | mk result s' => cases result <;> rfl
  · rfl

theorem classDecls_succ (n : Nat) (s : ParseState) :
    classDecls (n + 1) s =
      if s.input.head.kind = .eof then ([], s)
      else
        ((round (classDecl n) .expectedClass s).1.toList ++
            (classDecls n (round (classDecl n) .expectedClass s).2).1,
          (classDecls n (round (classDecl n) .expectedClass s).2).2) := by
  rw [classDecls, round]
  by_cases heof : s.input.head.kind = .eof
  · rw [if_pos heof, if_pos heof]
  · rw [if_neg heof, if_neg heof]
    by_cases hclass : s.input.head.kind = .classWord
    · simp only [if_pos hclass]
      cases hread : classDecl n s with
      | mk result s' => cases result <;> rfl
    · simp only [if_neg hclass]
      rfl

/-- Everything a round can do on the tokens `pending`, said of two rounds `p` and `q` at once: both
keep the same class and leave the tokens after it, or both note the same complaint and go on at
the next landmark after the token where they gave up. -/
inductive RoundSpec {α : Type} (p q : ParseState → Option α × ParseState) (fin : Position)
    (pending : List Token) : Prop
  | keeps (a : α) (left : List Token) (nonempty : pending ≠ []) (walk : Walk pending.tail left)
      (fst : ∀ errs, p (view fin errs pending) = (some a, view fin errs left))
      (snd : ∀ errs, q (view fin errs pending) = (some a, view fin errs left))
  | skips (e : ParseError) (left : List Token) (walk : left = pending ∨ Walk pending.tail left)
      (fst : ∀ errs, p (view fin errs pending) = (none, (view fin (errs ++ [e]) left).resume))
      (snd : ∀ errs, q (view fin errs pending) = (none, (view fin (errs ++ [e]) left).resume))

/-- Only what the rounds do on these tokens matters. -/
theorem RoundSpec.congr {α : Type} {p q p' q' : ParseState → Option α × ParseState}
    {fin : Position} {pending : List Token} (h : RoundSpec p q fin pending)
    (hp : ∀ errs, p' (view fin errs pending) = p (view fin errs pending))
    (hq : ∀ errs, q' (view fin errs pending) = q (view fin errs pending)) :
    RoundSpec p' q' fin pending := by
  cases h with
  | keeps a left hne walk fst snd =>
    exact .keeps a left hne walk (fun errs => (hp errs).trans (fst errs))
      fun errs => (hq errs).trans (snd errs)
  | skips e left walk fst snd =>
    exact .skips e left walk (fun errs => (hp errs).trans (fst errs))
      fun errs => (hq errs).trans (snd errs)

theorem RoundSpec.eq {α : Type} {p q : ParseState → Option α × ParseState} {fin : Position}
    {pending : List Token} (h : RoundSpec p q fin pending) (errs : List ParseError) :
    p (view fin errs pending) = q (view fin errs pending) := by
  cases h with
  | keeps a left _ _ fst snd => rw [fst, snd]
  | skips e left _ fst snd => rw [fst, snd]

/-- A round that keeps a class notes nothing, and one that keeps none notes one complaint. -/
theorem RoundSpec.honest {α : Type} {p q : ParseState → Option α × ParseState} {fin : Position}
    {pending : List Token} (h : RoundSpec p q fin pending) (errs : List ParseError) :
    Honest p (view fin errs pending) := by
  unfold Honest
  cases h with
  | keeps a left _ _ fst _ => rw [fst]
  | skips e left _ fst _ => rw [fst]; exact ⟨e, (length_resume _).2⟩

theorem round_spec {α : Type} {p q : Parse α} {stray : TokenKind → Complaint} {fin : Position}
    {pending : List Token} (h : ∀ t rest, pending = t :: rest → Opens p q fin t rest) :
    RoundSpec (round p stray) (round q stray) fin pending := by
  by_cases hclass : frontKind pending = .classWord
  · cases pending with
    | nil => cases hclass
    | cons t rest =>
      have hfront : ∀ errs, (view fin errs (t :: rest)).input.head.kind = .classWord :=
        fun _ => hclass
      cases h t rest rfl with
      | gives a left walk holds fst snd =>
        obtain ⟨u, left, rfl, hu⟩ := holds.exists_cons
        exact .keeps a left (List.cons_ne_nil t rest) (walk.trans (.cons hu (.refl left)))
          (fun errs => round_kept (hfront errs) (fst errs))
          fun errs => round_kept (hfront errs) (snd errs)
      | stops e left walk fst snd =>
        exact .skips e left walk (fun errs => round_givenUp (hfront errs) (fst errs))
          fun errs => round_givenUp (hfront errs) (snd errs)
  · have hstray : ∀ (read : Parse α) errs, round read stray (view fin errs pending) =
        (none, ((view fin errs pending).complain (TokenStream.head ⟨pending, fin⟩)
          (stray (TokenStream.head ⟨pending, fin⟩).kind)).resume) :=
      fun _ _ => round_stray (by simpa using hclass)
    exact .skips _ pending (.inl rfl) (hstray p) (hstray q)

theorem round_mainClass_spec {fin : Position} {pending : List Token} {m n : Nat}
    (hm : pending.length ≤ m) (hn : pending.length ≤ n) :
    RoundSpec (round (mainClass m) .expectedEntryClass) (round (mainClass n) .expectedEntryClass)
      fin pending := by
  refine round_spec fun t rest hpending => ?_
  subst hpending
  exact mainClass_opens hm hn

theorem round_classDecl_spec {fin : Position} {pending : List Token} {m n : Nat}
    (hm : pending.length ≤ m) (hn : pending.length ≤ n) :
    RoundSpec (round (classDecl m) .expectedClass) (round (classDecl n) .expectedClass)
      fin pending := by
  refine round_spec fun t rest hpending => ?_
  subst hpending
  exact classDecl_opens hm hn

/-! ### Steps over tokens -/

section

variable {α : Type} {p q : ParseState → Option α × ParseState} {fin : Position}
  {pending left : List Token}

theorem iterate_advance_append (ts left : List Token) (fin : Position) :
    TokenStream.advance^[ts.length] ⟨ts ++ left, fin⟩ = ⟨left, fin⟩ := by
  induction ts with
  | nil => rfl
  | cons t ts ih => exact ih

theorem length_iterate_advance (k : Nat) (input : TokenStream) :
    (TokenStream.advance^[k] input).pending.length = input.pending.length - k := by
  induction k generalizing input with
  | zero => rfl
  | succ k ih =>
    obtain ⟨pending, fin⟩ := input
    rw [Function.iterate_succ_apply, ih]
    cases pending with
    | nil => simp [TokenStream.advance]
    | cons t rest => simp [TokenStream.advance]

theorem iterate_advance_subset (k : Nat) (input : TokenStream) :
    (TokenStream.advance^[k] input).pending ⊆ input.pending := by
  induction k generalizing input with
  | zero => exact List.Subset.refl _
  | succ k ih =>
    obtain ⟨pending, fin⟩ := input
    rw [Function.iterate_succ_apply]
    refine List.Subset.trans (ih _) ?_
    cases pending with
    | nil => exact List.Subset.refl _
    | cons t rest => exact List.subset_cons_self t rest

/-- The tokens that are left out on the way to the next landmark. -/
abbrev skippable (t : Token) : Bool := t.kind != .eof && t.kind != .classWord

/-- Going on at the next landmark takes at least one step. -/
theorem exists_iterate_resume (s : ParseState) :
    ∃ k ≤ s.input.pending.length, s.resume.input = TokenStream.advance^[k + 1] s.input := by
  obtain ⟨⟨pending, fin⟩, errs⟩ := s
  refine ⟨(pending.tail.takeWhile skippable).length, ?_, ?_⟩
  · exact Nat.le_trans (List.takeWhile_sublist _).length_le (by simp)
  · rw [Function.iterate_succ_apply]
    cases pending with
    | nil => rfl
    | cons t rest =>
      have hsteps :=
        iterate_advance_append (rest.takeWhile skippable) (rest.dropWhile skippable) fin
      rw [List.takeWhile_append_dropWhile] at hsteps
      exact hsteps.symm

/-- A round steps on at least once, and at most once more than there are tokens to come. -/
theorem RoundSpec.exists_iterate (h : RoundSpec p q fin pending) (errs : List ParseError) :
    ∃ k ≤ pending.length,
      (p (view fin errs pending)).2.input = TokenStream.advance^[k + 1] ⟨pending, fin⟩ := by
  have htail : ∀ {left : List Token}, Walk pending.tail left → pending ≠ [] →
      ∃ k, k + left.length < pending.length ∧
        TokenStream.advance^[k + 1] ⟨pending, fin⟩ = ⟨left, fin⟩ := by
    rintro left ⟨ts, hts, -⟩ hne
    obtain ⟨t, rest, rfl⟩ := List.exists_cons_of_ne_nil hne
    rw [List.tail_cons] at hts
    subst hts
    exact ⟨ts.length, by simp, iterate_advance_append (t :: ts) left fin⟩
  cases h with
  | keeps a left hne walk fst snd =>
    obtain ⟨k, hk, hsteps⟩ := htail walk hne
    exact ⟨k, by omega, by rw [fst, hsteps]⟩
  | skips e left walk fst snd =>
    obtain ⟨j, hj, hresume⟩ := exists_iterate_resume (view fin (errs ++ [e]) left)
    rw [fst, hresume]
    by_cases hleft : left = pending
    · subst hleft
      exact ⟨j, hj, rfl⟩
    · have walk := walk.resolve_left hleft
      have hne : pending ≠ [] := by
        rintro rfl
        exact hleft (List.length_eq_zero_iff.mp (Nat.le_zero.mp walk.length_le))
      obtain ⟨k, hk, hsteps⟩ := htail walk hne
      replace hj : j ≤ left.length := hj
      refine ⟨j + 1 + k, by omega, ?_⟩
      rw [show j + 1 + k + 1 = (j + 1) + (k + 1) by omega,
        Function.iterate_add_apply _ (j + 1) (k + 1), hsteps]

/-- A round brings no token back. -/
theorem RoundSpec.subset (h : RoundSpec p q fin pending) (errs : List ParseError) :
    (p (view fin errs pending)).2.input.pending ⊆ pending := by
  obtain ⟨k, -, hk⟩ := h.exists_iterate errs
  rw [hk]
  exact iterate_advance_subset _ _

end

/-! ### All rounds -/

/-- The round that reads a declared class.  The bound on nesting is above what is needed. -/
def turn (s : ParseState) : Option ClassDecl × ParseState :=
  round (classDecl s.input.pending.length) .expectedClass s

theorem turn_spec (fin : Position) (pending : List Token) :
    RoundSpec turn turn fin pending :=
  (round_classDecl_spec (Nat.le_refl _) (Nat.le_refl _)).congr (fun _ => rfl) fun _ => rfl

/-- Any bound above the number of tokens to come does as well. -/
theorem round_classDecl_eq {n : Nat} {s : ParseState} (hn : s.input.pending.length ≤ n) :
    round (classDecl n) .expectedClass s = turn s :=
  (round_classDecl_spec hn (Nat.le_refl _)).eq s.errors

/-- A class in front of anything else is kept, and the round ends after it. -/
theorem turn_reads {ts : List Token} {c : ClassDecl} (h : ClassOf (ExpAt 0) ts c) (small : Small ts)
    (rest : List Token) (fin : Position) (errs : List ParseError) :
    turn (view fin errs (ts ++ rest)) = (some c, view fin errs rest) := by
  obtain ⟨hts, hfront⟩ := classOf_front h rest
  have hread := classDecl_reads h small (n := (ts ++ rest).length) (by simp) rest fin errs
  rw [← advance_leave hts rest]
  exact round_kept (by simpa using hfront) hread

/-- Whatever a round keeps is a class, and the round ends after it. -/
theorem turn_keeps {pending left : List Token} {c : ClassDecl} {fin : Position}
    {errs : List ParseError} (h : turn (view fin errs pending) = (some c, view fin errs left)) :
    ∃ ts, pending = ts ++ left ∧ ClassOf (ExpAt 0) ts c ∧ Small ts := by
  by_cases hclass : frontKind pending = .classWord
  · cases pending with
    | nil => cases hclass
    | cons t rest =>
      have hgives : Gives (classDecl (t :: rest).length) fin errs (t :: rest)
          (Phrase (ClassOf (ExpAt 0)) (t :: rest)) := classDecl_gives hclass (by simp)
      unfold Gives at hgives
      cases hread : classDecl (t :: rest).length (view fin errs (t :: rest)) with
      | mk result s =>
        rw [hread] at hgives
        cases result with
        | none => cases h.symm.trans (round_givenUp hclass hread)
        | some d =>
          obtain ⟨after, rfl, -, ts, us, hpending, rfl, hts, hd, small⟩ := hgives
          have hkept := h.symm.trans (round_kept hclass hread)
          rw [advance_leave hts] at hkept
          obtain ⟨hdecl, hleft⟩ := Prod.mk.inj hkept
          obtain rfl := Option.some.inj hdecl
          obtain rfl : left = us := congrArg (fun s => s.input.pending) hleft
          exact ⟨ts, hpending, hd, small⟩
  · cases h.symm.trans (round_stray (by simpa using hclass))

/-- The rounds from a state up to the end of the source, with what each of them kept. -/
inductive Rounds : ParseState → List (Option ClassDecl) → ParseState → Prop
  | done {s : ParseState} : s.input.head.kind = .eof → Rounds s [] s
  | step {s s' : ParseState} {kept : List (Option ClassDecl)} : s.input.head.kind ≠ .eof →
      Rounds (turn s).2 kept s' → Rounds s ((turn s).1 :: kept) s'

/-- Every round leaves fewer tokens than it found. -/
theorem length_turn_lt {s : ParseState} (h : s.input.head.kind ≠ .eof) :
    (turn s).2.input.pending.length < s.input.pending.length := by
  obtain ⟨⟨pending, fin⟩, errs⟩ := s
  obtain ⟨k, -, hk⟩ := (turn_spec fin pending).exists_iterate errs
  have hne : pending ≠ [] := by
    rintro rfl
    exact h rfl
  rw [hk, length_iterate_advance]
  exact Nat.sub_lt (List.length_pos_iff.mpr hne) (Nat.succ_pos k)

/-- Reading classes up to the end of the source is reading in rounds, with any bound above the
number of tokens to come. -/
theorem classDecls_rounds {n : Nat} {s : ParseState} (hn : s.input.pending.length < n) :
    ∃ kept, Rounds s kept (classDecls n s).2 ∧ (classDecls n s).1 = kept.reduceOption := by
  induction n generalizing s with
  | zero => omega
  | succ n ih =>
    rw [classDecls_succ, round_classDecl_eq (by omega)]
    by_cases heof : s.input.head.kind = .eof
    · rw [if_pos heof]
      exact ⟨[], .done heof, rfl⟩
    · rw [if_neg heof]
      have hlt := length_turn_lt heof
      obtain ⟨kept, hrounds, hkept⟩ := ih (s := (turn s).2) (by omega)
      refine ⟨(turn s).1 :: kept, .step heof hrounds, ?_⟩
      rw [hkept]
      cases (turn s).1 <;> simp [List.reduceOption]

/-- The rounds are determined by where they start. -/
theorem Rounds.unique {s s₁ s₂ : ParseState} {kept₁ kept₂ : List (Option ClassDecl)}
    (h₁ : Rounds s kept₁ s₁) (h₂ : Rounds s kept₂ s₂) : kept₁ = kept₂ ∧ s₁ = s₂ := by
  induction h₁ generalizing kept₂ with
  | done heof =>
    cases h₂ with
    | done => exact ⟨rfl, rfl⟩
    | step hne => exact absurd heof hne
  | step hne _ ih =>
    cases h₂ with
    | done heof => exact absurd heof hne
    | step _ hrest =>
      obtain ⟨hkept, hs⟩ := ih hrest
      exact ⟨by rw [hkept], hs⟩

/-- At the end of the source there are no rounds. -/
theorem Rounds.eq_nil {s s' : ParseState} {kept : List (Option ClassDecl)}
    (h : Rounds s kept s') (heof : s.input.head.kind = .eof) : kept = [] := by
  cases h with
  | done => rfl
  | step hne => exact absurd heof hne

theorem Rounds.head_eof {s s' : ParseState} {kept : List (Option ClassDecl)}
    (h : Rounds s kept s') : s'.input.head.kind = .eof := by
  induction h with
  | done heof => exact heof
  | step _ _ ih => exact ih

/-- Past the last token there is no further round, and so no further step. -/
theorem steps_le {j k : Nat} {pending : List Token} {fin : Position} (hj : j ≤ pending.length)
    (hk : k ≤ (TokenStream.advance^[j + 1] ⟨pending, fin⟩).pending.length + 1)
    (hstop : (TokenStream.advance^[j + 1] ⟨pending, fin⟩).head.kind = .eof → k = 0) :
    k + (j + 1) ≤ pending.length + 1 := by
  rw [length_iterate_advance] at hk
  replace hk : k ≤ pending.length - (j + 1) + 1 := hk
  by_cases hlast : j = pending.length
  · have hnil : (TokenStream.advance^[j + 1] ⟨pending, fin⟩).pending = [] := by
      rw [← List.length_eq_zero_iff, length_iterate_advance, hlast]
      exact Nat.sub_eq_zero_of_le (Nat.le_succ _)
    have hk : k = 0 := hstop (by rw [TokenStream.head, hnil]; rfl)
    omega
  · omega

/-- The rounds step on at most once more than there are tokens to come. -/
theorem Rounds.exists_iterate {s s' : ParseState} {kept : List (Option ClassDecl)}
    (h : Rounds s kept s') :
    ∃ k ≤ s.input.pending.length + 1, s'.input = TokenStream.advance^[k] s.input ∧
      (s.input.head.kind = .eof → k = 0) := by
  induction h with
  | done heof => exact ⟨0, Nat.zero_le _, rfl, fun _ => rfl⟩
  | @step s s' kept hne _ ih =>
    obtain ⟨⟨pending, fin⟩, errs⟩ := s
    obtain ⟨j, hj, hturn⟩ := (turn_spec fin pending).exists_iterate errs
    obtain ⟨k, hk, hrest, hstop⟩ := ih
    rw [hturn] at hk hrest hstop
    exact ⟨k + (j + 1), steps_le hj hk hstop,
      hrest.trans (Function.iterate_add_apply _ k (j + 1) _).symm, fun h => absurd h hne⟩

/-- There are no more rounds than tokens. -/
theorem Rounds.length_le {s s' : ParseState} {kept : List (Option ClassDecl)}
    (h : Rounds s kept s') : kept.length ≤ s.input.pending.length := by
  induction h with
  | done => exact Nat.zero_le _
  | step hne _ ih =>
    have hlt := length_turn_lt hne
    rw [List.length_cons]
    omega

/-- Errors are kept, and there is one more for every round that kept nothing. -/
theorem Rounds.errors {s s' : ParseState} {kept : List (Option ClassDecl)}
    (h : Rounds s kept s') :
    ∃ more, s'.errors = s.errors ++ more ∧ more.length = kept.countP (·.isNone) := by
  induction h with
  | done => exact ⟨[], by simp, rfl⟩
  | @step s s' kept hne _ ih =>
    obtain ⟨more, herrors, hcount⟩ := ih
    have hturn := (turn_spec s.input.finish s.input.pending).honest s.errors
    unfold Honest at hturn
    cases hresult : turn s with
    | mk result next =>
      rw [hresult] at herrors hturn
      cases result with
      | some c => exact ⟨more, by rw [herrors, hturn], by simp [hcount]⟩
      | none =>
        obtain ⟨e, he⟩ := hturn
        exact ⟨e :: more, by rw [herrors, he, List.append_assoc]; rfl, by simp [hcount]⟩

/-! ### Whole programs -/

/-- The round that reads the entry class. -/
def opening (s : ParseState) : Option MainClass × ParseState :=
  round (mainClass s.input.pending.length) .expectedEntryClass s

theorem opening_spec (fin : Position) (pending : List Token) :
    RoundSpec opening opening fin pending :=
  (round_mainClass_spec (Nat.le_refl _) (Nat.le_refl _)).congr (fun _ => rfl) fun _ => rfl

theorem entry_eq_opening {n : Nat} {s : ParseState} (hn : s.input.pending.length ≤ n) :
    entry n s = opening s :=
  (entry_eq_round n s).trans ((round_mainClass_spec hn (Nat.le_refl _)).eq s.errors)

/-- An entry class in front of anything else is kept, and the round ends after it. -/
theorem opening_reads {ts : List Token} {m : MainClass} (h : MainOf (ExpAt 0) ts m)
    (small : Small ts) (rest : List Token) (fin : Position) (errs : List ParseError) :
    opening (view fin errs (ts ++ rest)) = (some m, view fin errs rest) := by
  obtain ⟨hts, hfront⟩ := mainOf_front h rest
  have hread := mainClass_reads h small (n := (ts ++ rest).length) (by simp) rest fin errs
  rw [← advance_leave hts rest]
  exact round_kept (by simpa using hfront) hread

/-- Whatever is kept as the entry class is one. -/
theorem opening_keeps {s s' : ParseState} {m : MainClass} (h : opening s = (some m, s')) :
    ∃ ts, s.input.pending = ts ++ s'.input.pending ∧ MainOf (ExpAt 0) ts m ∧ Small ts := by
  have hgives := entry_gives s (Nat.lt_succ_self s.input.pending.length)
  rw [entry_eq_opening (Nat.le_succ _), h] at hgives
  exact hgives.2

/-- The state after the round for the entry class, and then the rounds for all other classes. -/
theorem ofTokens_rounds (input : TokenStream) :
    ∃ kept last, Rounds (opening ⟨input, []⟩).2 kept last ∧
      Program.ofTokens input = ⟨⟨(opening ⟨input, []⟩).1, kept.reduceOption⟩, last.errors⟩ := by
  obtain ⟨pending, fin⟩ := input
  obtain ⟨j, -, hopening⟩ := (opening_spec fin pending).exists_iterate []
  have hbound : (opening ⟨⟨pending, fin⟩, []⟩).2.input.pending.length < pending.length + 2 := by
    rw [hopening, length_iterate_advance]
    exact Nat.lt_succ_of_le (Nat.le_succ_of_le (Nat.sub_le _ _))
  obtain ⟨kept, hrounds, hkept⟩ := classDecls_rounds hbound
  refine ⟨kept, _, hrounds, ?_⟩
  simp only [Program.ofTokens]
  rw [entry_eq_opening (show pending.length ≤ pending.length + 2 by omega), ← hkept]

/-- Reading a program steps on at most once more than there are tokens. -/
theorem Rounds.exists_iterate_opening {input : TokenStream} {kept : List (Option ClassDecl)}
    {last : ParseState} (h : Rounds (opening ⟨input, []⟩).2 kept last) :
    ∃ k ≤ input.pending.length + 1, last.input = TokenStream.advance^[k] input := by
  obtain ⟨pending, fin⟩ := input
  obtain ⟨j, hj, hopening⟩ := (opening_spec fin pending).exists_iterate []
  obtain ⟨k, hk, hrest, hstop⟩ := h.exists_iterate
  rw [hopening] at hk hrest hstop
  exact ⟨k + (j + 1), steps_le hj hk hstop,
    hrest.trans (Function.iterate_add_apply _ k (j + 1) _).symm⟩

/-- There is one error for every round that kept nothing, the round for the entry class included. -/
theorem Rounds.length_errors {input : TokenStream} {kept : List (Option ClassDecl)}
    {last : ParseState} (h : Rounds (opening ⟨input, []⟩).2 kept last) :
    last.errors.length =
      (opening ⟨input, []⟩).1.isNone.toNat + kept.countP (·.isNone) := by
  obtain ⟨pending, fin⟩ := input
  obtain ⟨more, herrors, hcount⟩ := h.errors
  cases opening_spec fin pending with
  | keeps m left _ _ fst _ =>
    rw [fst] at herrors ⊢
    simp [herrors, hcount]
  | skips e left _ fst _ =>
    rw [fst] at herrors ⊢
    rw [herrors, (length_resume _).2, List.length_append, hcount]
    simp

end MiniJava.Parse
