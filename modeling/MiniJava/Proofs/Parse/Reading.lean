import MiniJava.Parse.Program
import MiniJava.Proofs.Grammar

/-!
# What readers see and leave

A reader starts on the first token of its phrase and leaves the last one current.  So after the
phrase `ts` in front of `rest`, the tokens to come are the last one of `ts` and then `rest`:

```
  before    ts ++ rest
  after     leave ts rest
```

* **`view`** — the state with given tokens to come.
* **`leave`** — the tokens to come after a phrase.
* **`Reads`** — a reader accepts a phrase and gives its tree.
* **`Gives`** — what a reader leaves when it gives a result; one that gives up has complained.
-/

namespace MiniJava.Parse

/-! ### Tokens to come -/

/-- The state with the given tokens to come, the end of the source, and the errors so far. -/
abbrev view (fin : Position) (errs : List ParseError) (pending : List Token) : ParseState :=
  ⟨⟨pending, fin⟩, errs⟩

/-- The last of the tokens `ts`, and `rest` after it. -/
def leave : List Token → List Token → List Token
  | [], rest => rest
  | [t], rest => t :: rest
  | _ :: t :: ts, rest => leave (t :: ts) rest

/-- The kind of the first token to come; after the last one it is `eof`. -/
def frontKind : List Token → TokenKind
  | [] => .eof
  | t :: _ => t.kind

@[simp] theorem frontKind_cons (t : Token) (ts : List Token) : frontKind (t :: ts) = t.kind := rfl

@[simp] theorem leave_singleton (t : Token) (rest : List Token) : leave [t] rest = t :: rest := rfl

@[simp] theorem leave_cons_cons (t u : Token) (ts rest : List Token) :
    leave (t :: u :: ts) rest = leave (u :: ts) rest := rfl

/-- Only the last part of a phrase matters, unless it is empty. -/
theorem leave_append (ts : List Token) {us : List Token} (h : us ≠ []) (rest : List Token) :
    leave (ts ++ us) rest = leave us rest := by
  induction ts with
  | nil => rfl
  | cons t ts ih =>
    cases hts : ts ++ us with
    | nil => simp_all
    | cons u vs =>
      show leave (t :: (ts ++ us)) rest = leave us rest
      rw [hts, leave_cons_cons, ← hts, ih]

@[simp] theorem leave_concat (ts : List Token) (t : Token) (rest : List Token) :
    leave (ts ++ [t]) rest = t :: rest :=
  leave_append ts (List.cons_ne_nil t []) rest

theorem leave_cons (t : Token) {ts : List Token} (h : ts ≠ []) (rest : List Token) :
    leave (t :: ts) rest = leave ts rest :=
  leave_append [t] h rest

/-- A phrase leaves one token of its own. -/
theorem exists_leave {ts : List Token} (h : ts ≠ []) :
    ∃ t, t ∈ ts ∧ ∀ rest, leave ts rest = t :: rest := by
  obtain ⟨us, t, rfl⟩ := List.eq_nil_or_concat ts |>.resolve_left h
  exact ⟨t, by simp, fun rest => by simp⟩

@[simp] theorem head_cons (t : Token) (ts : List Token) (fin : Position) :
    TokenStream.head ⟨t :: ts, fin⟩ = t := rfl

@[simp] theorem second_cons_cons (t u : Token) (ts : List Token) (fin : Position) :
    TokenStream.second ⟨t :: u :: ts, fin⟩ = u := rfl

@[simp] theorem head_kind (ts : List Token) (fin : Position) :
    (TokenStream.head ⟨ts, fin⟩).kind = frontKind ts := by
  cases ts <;> rfl

theorem second_cons (t : Token) (ts : List Token) (fin : Position) :
    TokenStream.second ⟨t :: ts, fin⟩ = TokenStream.head ⟨ts, fin⟩ := by
  cases ts <;> rfl

@[simp] theorem second_cons_kind (t : Token) (ts : List Token) (fin : Position) :
    (TokenStream.second ⟨t :: ts, fin⟩).kind = frontKind ts := by
  rw [second_cons, head_kind]

@[simp] theorem advance_view (fin : Position) (errs : List ParseError) (t : Token)
    (ts : List Token) : (view fin errs (t :: ts)).advance = view fin errs ts := rfl

/-! ### Readers one after another -/

theorem bind_some {α β : Type} {p : Parse α} {f : α → Parse β} {s s' : ParseState} {a : α}
    (h : p s = (some a, s')) : (p >>= f) s = f a s' := by
  show andThen p f s = f a s'
  simp only [andThen, h]

theorem bind_none {α β : Type} {p : Parse α} {f : α → Parse β} {s s' : ParseState}
    (h : p s = (none, s')) : (p >>= f) s = (none, s') := by
  show andThen p f s = (none, s')
  simp only [andThen, h]

@[simp] theorem pure_apply {α : Type} (a : α) (s : ParseState) :
    (pure a : Parse α) s = (some a, s) := rfl

@[simp] theorem current_bind {β : Type} (f : Token → Parse β) (s : ParseState) :
    (current >>= f) s = f s.input.head s := rfl

@[simp] theorem upcoming_bind {β : Type} (f : Token → Parse β) (s : ParseState) :
    (upcoming >>= f) s = f s.input.second s := rfl

@[simp] theorem advance_bind {β : Type} (f : Unit → Parse β) (s : ParseState) :
    (advance >>= f) s = f () s.advance := rfl

/-- A token of the right kind is stepped to. -/
theorem expect_view (fin : Position) (errs : List ParseError) (t u : Token) (rest : List Token) :
    expect u.kind (view fin errs (t :: u :: rest)) = (some (), view fin errs (u :: rest)) := by
  simp [expect, advance]

theorem expectIdent_view {fin : Position} {errs : List ParseError} {u : Token} (t : Token)
    (rest : List Token) (h : u.kind = .ident) :
    expectIdent (view fin errs (t :: u :: rest)) =
      (some (Grammar.ident u), view fin errs (u :: rest)) := by
  unfold expectIdent
  rw [bind_some (h ▸ expect_view fin errs t u rest)]
  rfl

theorem expectAll_view (fin : Position) (errs : List ParseError) {ks : List TokenKind} (t : Token)
    (ts rest : List Token) (h : Grammar.kinds ts = ks) :
    expectAll ks (view fin errs (t :: ts ++ rest)) =
      (some (), view fin errs (leave (t :: ts) rest)) := by
  induction ts generalizing t ks with
  | nil =>
    subst h
    rfl
  | cons u ts ih =>
    subst h
    show (expect u.kind >>= fun _ => expectAll (Grammar.kinds ts)) _ = _
    rw [show t :: u :: ts ++ rest = t :: u :: (ts ++ rest) from rfl,
      bind_some (expect_view fin errs t u _)]
    exact ih u rfl

/-! ### Steps after a phrase -/

section

variable {fin : Position} {errs : List ParseError} {ts : List Token}

theorem advance_leave (hts : ts ≠ []) (rest : List Token) :
    (view fin errs (leave ts rest)).advance = view fin errs rest := by
  obtain ⟨t, -, ht⟩ := exists_leave hts
  rw [ht, advance_view]

theorem second_leave (hts : ts ≠ []) (rest : List Token) :
    TokenStream.second ⟨leave ts rest, fin⟩ = TokenStream.head ⟨rest, fin⟩ := by
  obtain ⟨t, -, ht⟩ := exists_leave hts
  rw [ht, second_cons]

theorem expect_leave {u : Token} {k : TokenKind} (hts : ts ≠ []) (h : u.kind = k)
    (rest : List Token) :
    expect k (view fin errs (leave ts (u :: rest))) = (some (), view fin errs (u :: rest)) := by
  obtain ⟨t, -, ht⟩ := exists_leave hts
  rw [ht, ← h, expect_view]

theorem expectIdent_leave {u : Token} (hts : ts ≠ []) (h : u.kind = .ident) (rest : List Token) :
    expectIdent (view fin errs (leave ts (u :: rest))) =
      (some (Grammar.ident u), view fin errs (u :: rest)) := by
  obtain ⟨t, -, ht⟩ := exists_leave hts
  rw [ht, expectIdent_view t rest h]

theorem expectAll_leave {us : List Token} {ks : List TokenKind} (hts : ts ≠ [])
    (h : Grammar.kinds us = ks) (hus : us ≠ []) (rest : List Token) :
    expectAll ks (view fin errs (leave ts (us ++ rest))) =
      (some (), view fin errs (leave us rest)) := by
  obtain ⟨t, -, ht⟩ := exists_leave hts
  rw [ht, ← List.cons_append, expectAll_view fin errs t us rest h, leave_cons t hus]

end

/-! ### Accepted phrases -/

/-- The reader accepts the phrase `ts` in front of `rest` and gives `a`. -/
def Reads {α : Type} (p : Parse α) (ts : List Token) (a : α) (rest : List Token) : Prop :=
  ∀ fin errs, p (view fin errs (ts ++ rest)) = (some a, view fin errs (leave ts rest))

/-! ### What a reader has read -/

/-- What a reader does that starts with the tokens `pending`: if it gives `a` then it has noted no
complaint and leaves tokens of which `Q a` holds; if it gives up then it has complained.  It never
leaves more tokens than it found. -/
def Gives {α : Type} (p : Parse α) (fin : Position) (errs : List ParseError)
    (pending : List Token) (Q : α → List Token → Prop) : Prop :=
  match p (view fin errs pending) with
  | (some a, s) => ∃ left, s = view fin errs left ∧ left.length ≤ pending.length ∧ Q a left
  | (none, s) => errs.length < s.errors.length ∧ s.input.pending.length ≤ pending.length

section

variable {α β : Type} {fin : Position} {errs : List ParseError} {pending : List Token}
  {Q : α → List Token → Prop} {R : β → List Token → Prop}

theorem Gives.bind {p : Parse α} {f : α → Parse β} (hp : Gives p fin errs pending Q)
    (hf : ∀ a left, Q a left → Gives (f a) fin errs left R) :
    Gives (p >>= f) fin errs pending R := by
  unfold Gives at hp ⊢
  cases h : p (view fin errs pending) with
  | mk result s =>
    rw [h] at hp
    cases result with
    | none =>
      rw [bind_none h]
      exact hp
    | some a =>
      obtain ⟨left, rfl, hle, hq⟩ := hp
      rw [bind_some h]
      have hrest := hf a left hq
      unfold Gives at hrest
      cases h' : f a (view fin errs left) with
      | mk result s =>
        rw [h'] at hrest
        cases result with
        | none => exact ⟨hrest.1, Nat.le_trans hrest.2 hle⟩
        | some b =>
          obtain ⟨left', hs, hle', hr⟩ := hrest
          exact ⟨left', hs, Nat.le_trans hle' hle, hr⟩

theorem Gives.mono {p : Parse α} {Q' : α → List Token → Prop} (hp : Gives p fin errs pending Q)
    (hq : ∀ a left, Q a left → Q' a left) : Gives p fin errs pending Q' := by
  unfold Gives at hp ⊢
  cases h : p (view fin errs pending) with
  | mk result s =>
    rw [h] at hp
    cases result with
    | none => exact hp
    | some a =>
      obtain ⟨left, hs, hle, h⟩ := hp
      exact ⟨left, hs, hle, hq a left h⟩

/-- A step to the next token, and a reader that goes on from there. -/
theorem Gives.step {p q : Parse α} {t : Token} (h : Gives p fin errs pending Q)
    (hq : q (view fin errs (t :: pending)) = p (view fin errs pending)) :
    Gives q fin errs (t :: pending) Q := by
  unfold Gives at h ⊢
  rw [hq]
  cases h' : p (view fin errs pending) with
  | mk result s =>
    rw [h'] at h
    cases result with
    | none => exact ⟨h.1, Nat.le_succ_of_le h.2⟩
    | some a =>
      obtain ⟨left, hs, hle, h⟩ := h
      exact ⟨left, hs, Nat.le_succ_of_le hle, h⟩

theorem gives_pure {a : α} (h : Q a pending) : Gives (pure a) fin errs pending Q :=
  ⟨pending, rfl, Nat.le_refl _, h⟩

theorem gives_failAt (t : Token) (c : Complaint) : Gives (failAt t c) fin errs pending Q := by
  show errs.length < (errs ++ [_]).length ∧ pending.length ≤ pending.length
  simp

theorem gives_current {f : Token → Parse α}
    (h : Gives (f (TokenStream.head ⟨pending, fin⟩)) fin errs pending Q) :
    Gives (current >>= f) fin errs pending Q := h

theorem gives_upcoming {f : Token → Parse α}
    (h : Gives (f (TokenStream.second ⟨pending, fin⟩)) fin errs pending Q) :
    Gives (upcoming >>= f) fin errs pending Q := h

theorem gives_advance {f : Unit → Parse α} {t : Token} (h : Gives (f ()) fin errs pending Q) :
    Gives (advance >>= f) fin errs (t :: pending) Q :=
  h.step rfl

/-- The next token is stepped to if it is of the right kind, and complained about if not. -/
theorem gives_expect {f : Unit → Parse α} {t : Token} {k : TokenKind} (hk : k ≠ .eof)
    (h : ∀ u rest, pending = u :: rest → u.kind = k → Gives (f ()) fin errs (u :: rest) Q) :
    Gives (expect k >>= f) fin errs (t :: pending) Q := by
  have hexpect : Gives (expect k) fin errs (t :: pending)
      (fun _ left => left = pending ∧ ∃ u rest, pending = u :: rest ∧ u.kind = k) := by
    unfold expect
    refine gives_upcoming ?_
    cases pending with
    | nil =>
      rw [if_neg (show ¬ (TokenStream.second ⟨[t], fin⟩).kind = k from fun e => hk e.symm)]
      exact gives_failAt _ _
    | cons u rest =>
      rw [second_cons_cons]
      by_cases hu : u.kind = k
      · rw [if_pos hu]
        exact ⟨u :: rest, rfl, Nat.le_succ _, rfl, u, rest, rfl, hu⟩
      · rw [if_neg hu]
        exact gives_failAt _ _
  refine hexpect.bind fun _ left hleft => ?_
  obtain ⟨rfl, u, rest, hu, hk⟩ := hleft
  rw [hu]
  exact h u rest hu hk

theorem gives_expectIdent {f : Ident → Parse α} {t : Token}
    (h : ∀ u rest, pending = u :: rest → u.kind = .ident →
      Gives (f (Grammar.ident u)) fin errs (u :: rest) Q) :
    Gives (expectIdent >>= f) fin errs (t :: pending) Q := by
  unfold expectIdent
  rw [bind_assoc]
  refine gives_expect (by decide) fun u rest hu hk => ?_
  rw [bind_assoc]
  exact gives_current (h u rest hu hk)

theorem gives_expectWord {f : Unit → Parse α} {t : Token} {w : Bytes}
    (h : ∀ u rest, pending = u :: rest → u.kind = .ident → u.literal = w →
      Gives (f ()) fin errs (u :: rest) Q) :
    Gives (expectWord w >>= f) fin errs (t :: pending) Q := by
  unfold expectWord
  rw [bind_assoc]
  refine gives_upcoming ?_
  by_cases hw : (TokenStream.second ⟨t :: pending, fin⟩).kind = .ident ∧
      (TokenStream.second ⟨t :: pending, fin⟩).literal = w
  · rw [if_pos hw]
    cases pending with
    | nil => cases hw.1
    | cons u rest => exact gives_advance (h u rest rfl hw.1 hw.2)
  · rw [if_neg hw]
    show errs.length < (errs ++ [_]).length ∧ (t :: pending).length ≤ (t :: pending).length
    simp

theorem gives_expectAll {f : Unit → Parse α} {t : Token} {ks : List TokenKind} (hks : .eof ∉ ks)
    (h : ∀ us rest, pending = us ++ rest → Grammar.kinds us = ks →
      Gives (f ()) fin errs (leave (t :: us) rest) Q) :
    Gives (expectAll ks >>= f) fin errs (t :: pending) Q := by
  induction ks generalizing t pending with
  | nil => exact h [] pending rfl rfl
  | cons k ks ih =>
    simp only [List.mem_cons, not_or] at hks
    unfold expectAll
    rw [bind_assoc]
    refine gives_expect (Ne.symm hks.1) fun u rest hu hk => ?_
    refine ih hks.2 fun us rest' hus hkinds => ?_
    have := h (u :: us) rest' (by rw [hu, hus]; rfl) (by rw [← hk, ← hkinds]; rfl)
    exact this

end

/-- Between `pending` and `left` lies a phrase for which `P` holds; its last token is current. -/
def Phrase {α : Type} (P : List Token → α → Prop) (pending : List Token) (a : α)
    (left : List Token) : Prop :=
  ∃ ts rest, pending = ts ++ rest ∧ left = leave ts rest ∧ ts ≠ [] ∧ P ts a ∧ Grammar.Small ts

/-- A reader that goes on after a phrase has the last token of it current. -/
theorem Gives.phrase {α β : Type} {fin : Position} {errs : List ParseError} {pending : List Token}
    {P : List Token → α → Prop} {R : β → List Token → Prop} {p : Parse α} {f : α → Parse β}
    (hp : Gives p fin errs pending (Phrase P pending))
    (hf : ∀ a ts u rest, pending = ts ++ rest → ts ≠ [] → P ts a → Grammar.Small ts →
      Gives (f a) fin errs (u :: rest) R) :
    Gives (p >>= f) fin errs pending R := by
  refine hp.bind fun a left ha => ?_
  obtain ⟨ts, rest, hpending, rfl, hts, hphrase, small⟩ := ha
  obtain ⟨u, -, hu⟩ := exists_leave hts
  rw [hu]
  exact hf a ts u rest hpending hts hphrase small

/-- Between `pending` and `left` lies a list of phrases for which `P` holds; the first token after
it is current. -/
def Passed {α : Type} (P : List Token → α → Prop) (pending : List Token) (a : α)
    (left : List Token) : Prop :=
  ∃ ts, pending = ts ++ left ∧ P ts a ∧ Grammar.Small ts

end MiniJava.Parse
