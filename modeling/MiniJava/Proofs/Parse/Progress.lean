import MiniJava.Proofs.Parse.Reading

/-!
# How readers go forward

A reader only ever goes forward, and it stops in front of landmarks: the word that starts a class
and the end of the source, which is also what a NUL byte stands for.  When it gives up it has
noted exactly one complaint; otherwise it has noted none.  None of this depends on what was noted
before, and none of it on the bound on nesting, as long as the bound is above the number of tokens
to come: every step that lowers the bound has read a token.

All this is said at once, of two readers that differ in their bounds only.

* **`TokenKind.Landmark`** — the kinds of the tokens that readers stop in front of.
* **`Walk`** — the way from some tokens to come to later ones, past no landmark.
* **`Proceeds`** — two readers go the same way, in step.
* **`expression_proceeds`**, **`statement_proceeds`**, **`methodDecls_proceeds`** — the readers
  inside of a class.
* **`Opens`**, **`classDecl_opens`**, **`mainClass_opens`** — the readers of whole classes, which
  start on a landmark.
* **`Honest`** — one complaint for what is given up, and none for what is read.
-/

namespace MiniJava

/-- The kinds of the tokens that no reader steps past on its own: the start of a class and the end
of the source. -/
def TokenKind.Landmark (k : TokenKind) : Prop := k = .eof ∨ k = .classWord

instance : DecidablePred TokenKind.Landmark := fun k =>
  inferInstanceAs (Decidable (k = .eof ∨ k = .classWord))

namespace Parse

/-! ### Ways past no landmark -/

/-- The first token to come is no landmark. -/
def Clear (pending : List Token) : Prop := ¬ (frontKind pending).Landmark

/-- From `pending` on, stepping past no landmark, one comes to `left`. -/
def Walk (pending left : List Token) : Prop :=
  ∃ ts, pending = ts ++ left ∧ ∀ t ∈ ts, ¬ t.kind.Landmark

section

variable {pending mid left rest : List Token} {t : Token}

theorem Clear.exists_cons (h : Clear pending) :
    ∃ t rest, pending = t :: rest ∧ ¬ t.kind.Landmark := by
  cases pending with
  | nil => exact absurd (.inl rfl) h
  | cons t rest => exact ⟨t, rest, rfl, h⟩

theorem Clear.length_pos (h : Clear pending) : 0 < pending.length := by
  obtain ⟨t, rest, rfl, -⟩ := h.exists_cons
  simp

theorem clear_of_kind {k : TokenKind} (h : frontKind pending = k) (hk : ¬ k.Landmark) :
    Clear pending := by
  unfold Clear
  rwa [h]

@[simp] theorem Walk.refl (pending : List Token) : Walk pending pending := ⟨[], rfl, by simp⟩

theorem Walk.trans (h : Walk pending mid) (h' : Walk mid left) : Walk pending left := by
  obtain ⟨ts, rfl, hts⟩ := h
  obtain ⟨us, rfl, hus⟩ := h'
  exact ⟨ts ++ us, by simp, fun t ht => (List.mem_append.mp ht).elim (hts t) (hus t)⟩

theorem Walk.cons (ht : ¬ t.kind.Landmark) (h : Walk rest left) : Walk (t :: rest) left := by
  obtain ⟨ts, rfl, hts⟩ := h
  exact ⟨t :: ts, rfl, List.forall_mem_cons.mpr ⟨ht, hts⟩⟩

theorem Walk.length_le (h : Walk pending left) : left.length ≤ pending.length := by
  obtain ⟨ts, rfl, -⟩ := h
  simp

end

/-! ### Two readers in step -/

/-- On the tokens `pending` the readers `p` and `q` do the same, whatever was noted before: either
both give the same result, leave the same tokens, of which `Q` holds, and note nothing, or both
give up, leave the same tokens and note the same complaint.  On the way they pass no landmark. -/
inductive Proceeds {α : Type} (p q : Parse α) (fin : Position) (pending : List Token)
    (Q : List Token → Prop) : Prop
  | gives (a : α) (left : List Token) (walk : Walk pending left) (holds : Q left)
      (fst : ∀ errs, p (view fin errs pending) = (some a, view fin errs left))
      (snd : ∀ errs, q (view fin errs pending) = (some a, view fin errs left))
  | stops (e : ParseError) (left : List Token) (walk : Walk pending left)
      (fst : ∀ errs, p (view fin errs pending) = (none, view fin (errs ++ [e]) left))
      (snd : ∀ errs, q (view fin errs pending) = (none, view fin (errs ++ [e]) left))

section

variable {α β : Type} {fin : Position} {pending : List Token} {Q R : List Token → Prop}

/-- Only what the readers do on these tokens matters. -/
theorem Proceeds.congr {p q p' q' : Parse α} {pending' : List Token}
    (h : Proceeds p q fin pending Q) (walk : Walk pending' pending)
    (hp : ∀ errs, p' (view fin errs pending') = p (view fin errs pending))
    (hq : ∀ errs, q' (view fin errs pending') = q (view fin errs pending)) :
    Proceeds p' q' fin pending' Q := by
  cases h with
  | gives a left walk' holds fst snd =>
    exact .gives a left (walk.trans walk') holds (fun errs => (hp errs).trans (fst errs))
      fun errs => (hq errs).trans (snd errs)
  | stops e left walk' fst snd =>
    exact .stops e left (walk.trans walk') (fun errs => (hp errs).trans (fst errs))
      fun errs => (hq errs).trans (snd errs)

theorem Proceeds.eq {p q : Parse α} (h : Proceeds p q fin pending Q) (errs : List ParseError) :
    p (view fin errs pending) = q (view fin errs pending) := by
  cases h with
  | gives a left _ _ fst snd => rw [fst, snd]
  | stops e left _ fst snd => rw [fst, snd]

theorem Proceeds.bind {p q : Parse α} {f g : α → Parse β} (h : Proceeds p q fin pending Q)
    (hfg : ∀ a left, left.length ≤ pending.length → Q left → Proceeds (f a) (g a) fin left R) :
    Proceeds (p >>= f) (q >>= g) fin pending R := by
  cases h with
  | gives a left walk holds fst snd =>
    exact (hfg a left walk.length_le holds).congr walk (fun errs => bind_some (fst errs))
      fun errs => bind_some (snd errs)
  | stops e left walk fst snd =>
    exact .stops e left walk (fun errs => bind_none (fst errs)) fun errs => bind_none (snd errs)

theorem proceeds_pure {a : α} (h : Q pending) : Proceeds (pure a) (pure a) fin pending Q :=
  .gives a pending (.refl _) h (fun _ => rfl) fun _ => rfl

theorem proceeds_failAt (t : Token) (c : Complaint) :
    Proceeds (failAt (α := α) t c) (failAt t c) fin pending Q :=
  .stops ⟨t.line, t.column, c⟩ pending (.refl _) (fun _ => rfl) fun _ => rfl

section

variable {f g : Token → Parse α}

theorem proceeds_current
    (h : Proceeds (f (TokenStream.head ⟨pending, fin⟩)) (g (TokenStream.head ⟨pending, fin⟩)) fin
      pending Q) :
    Proceeds (current >>= f) (current >>= g) fin pending Q :=
  h.congr (.refl _) (fun _ => rfl) fun _ => rfl

theorem proceeds_upcoming
    (h : Proceeds (f (TokenStream.second ⟨pending, fin⟩)) (g (TokenStream.second ⟨pending, fin⟩))
      fin pending Q) :
    Proceeds (upcoming >>= f) (upcoming >>= g) fin pending Q :=
  h.congr (.refl _) (fun _ => rfl) fun _ => rfl

end

section

variable {f g : Unit → Parse α}

theorem proceeds_step {t : Token} (ht : ¬ t.kind.Landmark)
    (h : Proceeds (f ()) (g ()) fin pending Q) :
    Proceeds (advance >>= f) (advance >>= g) fin (t :: pending) Q :=
  h.congr (.cons ht (.refl _)) (fun _ => rfl) fun _ => rfl

theorem proceeds_advance (hpending : Clear pending)
    (h : ∀ left, left.length < pending.length → Proceeds (f ()) (g ()) fin left Q) :
    Proceeds (advance >>= f) (advance >>= g) fin pending Q := by
  obtain ⟨t, rest, rfl, ht⟩ := hpending.exists_cons
  exact proceeds_step ht (h rest (by simp))

/-- The next token is stepped to if it is of the right kind, and complained about if not. -/
theorem proceeds_expect {k : TokenKind} (hk : ¬ k.Landmark) (hpending : Clear pending)
    (h : ∀ left, left.length < pending.length → Clear left → Proceeds (f ()) (g ()) fin left Q) :
    Proceeds (expect k >>= f) (expect k >>= g) fin pending Q := by
  obtain ⟨t, rest, rfl, ht⟩ := hpending.exists_cons
  unfold expect
  rw [bind_assoc, bind_assoc]
  refine proceeds_upcoming ?_
  rw [second_cons_kind]
  by_cases hnext : frontKind rest = k
  · rw [if_pos hnext]
    exact (h rest (by simp) (clear_of_kind hnext hk)).congr (.cons ht (.refl _)) (fun _ => rfl)
      fun _ => rfl
  · rw [if_neg hnext]
    exact (proceeds_failAt (Q := fun _ => False) _ _).bind fun _ _ _ h => h.elim

theorem proceeds_expectWord {w : Bytes} (hpending : Clear pending)
    (h : ∀ left, left.length < pending.length → Clear left → Proceeds (f ()) (g ()) fin left Q) :
    Proceeds (expectWord w >>= f) (expectWord w >>= g) fin pending Q := by
  obtain ⟨t, rest, rfl, ht⟩ := hpending.exists_cons
  unfold expectWord
  rw [bind_assoc, bind_assoc]
  refine proceeds_upcoming ?_
  split
  · rename_i hnext
    rw [second_cons_kind] at hnext
    exact (h rest (by simp) (clear_of_kind hnext.1 (by decide))).congr (.cons ht (.refl _))
      (fun _ => rfl) fun _ => rfl
  · exact (proceeds_failAt (Q := fun _ => False) _ _).bind fun _ _ _ h => h.elim

theorem proceeds_expectAll {ks : List TokenKind} (hks : ∀ k ∈ ks, ¬ k.Landmark)
    (hpending : Clear pending)
    (h : ∀ left, left.length ≤ pending.length → Clear left → Proceeds (f ()) (g ()) fin left Q) :
    Proceeds (expectAll ks >>= f) (expectAll ks >>= g) fin pending Q := by
  induction ks generalizing pending with
  | nil => exact h pending (Nat.le_refl _) hpending
  | cons k ks ih =>
    obtain ⟨hk, hks⟩ := List.forall_mem_cons.mp hks
    unfold expectAll
    rw [bind_assoc, bind_assoc]
    exact proceeds_expect hk hpending fun left hleft hclear => ih hks hclear fun left' hle =>
      h left' (by omega)

end

theorem proceeds_expectIdent {f g : Ident → Parse α} (hpending : Clear pending)
    (h : ∀ x left, left.length < pending.length → Clear left → Proceeds (f x) (g x) fin left Q) :
    Proceeds (expectIdent >>= f) (expectIdent >>= g) fin pending Q := by
  unfold expectIdent
  simp only [bind_assoc]
  have hident : ¬ TokenKind.ident.Landmark := by decide
  refine proceeds_expect hident hpending fun left hleft hclear => ?_
  exact proceeds_current (h _ left hleft hclear)

end

/-! ### Expressions -/

/-- The readers of expressions `f` and `g` are in step on fewer than `n` tokens. -/
def InStep (f g : Precedence → Parse Expr) (fin : Position) (n : Nat) : Prop :=
  ∀ (level : Nat) (pending : List Token), 1 ≤ level → pending.length < n →
    Proceeds (f level) (g level) fin pending Clear

/-- No token binds more loosely than the end of an expression. -/
theorem one_le_ofToken (k : TokenKind) : 1 ≤ Precedence.ofToken k := by
  unfold Precedence.ofToken Precedence.lowest
  split <;> decide

/-- A token that binds more tightly than some level is an operator. -/
theorem not_landmark_of_lt {k : TokenKind} {level : Nat} (hlevel : 1 ≤ level)
    (h : level < Precedence.ofToken k) : ¬ k.Landmark := by
  rintro (rfl | rfl) <;> exact absurd h (Nat.not_lt.mpr hlevel)

section

variable {f g : Precedence → Parse Expr} {fin : Position} {N : Nat} (hfg : InStep f g fin N)

include hfg

theorem moreArguments_proceeds {pending : List Token} {m n : Nat} (hpending : Clear pending)
    (hN : pending.length ≤ N) (hm : pending.length ≤ m) (hn : pending.length ≤ n) :
    Proceeds (moreArguments f m) (moreArguments g n) fin pending Clear := by
  induction m generalizing n pending with
  | zero => exact absurd hpending.length_pos (by omega)
  | succ m ih =>
    obtain ⟨n, rfl⟩ : ∃ k, n = k + 1 := ⟨n - 1, by have := hpending.length_pos; omega⟩
    obtain ⟨t, rest, rfl, ht⟩ := hpending.exists_cons
    simp only [List.length_cons] at hN hm hn
    rw [moreArguments, moreArguments]
    refine proceeds_upcoming ?_
    rw [second_cons_kind]
    by_cases hcomma : frontKind rest = .comma
    · rw [if_pos hcomma, if_pos hcomma]
      refine proceeds_step ht (proceeds_advance (clear_of_kind hcomma (by decide))
        fun left hleft => ?_)
      refine (hfg 1 left (by omega) (by omega)).bind fun e left hle hclear => ?_
      exact (ih hclear (by omega) (by omega) (by omega)).bind fun es left _ hclear =>
        proceeds_pure hclear
    · rw [if_neg hcomma, if_neg hcomma]
      exact proceeds_expect (by decide) ht fun left _ hclear => proceeds_pure hclear

theorem arguments_proceeds {pending : List Token} {m n : Nat} (hpending : Clear pending)
    (hN : pending.length ≤ N) (hm : pending.length ≤ m) (hn : pending.length ≤ n) :
    Proceeds (arguments f m) (arguments g n) fin pending Clear := by
  unfold arguments
  refine proceeds_advance hpending fun left hleft => proceeds_current ?_
  rw [head_kind]
  by_cases hr : frontKind left = .rparen
  · rw [if_pos hr, if_pos hr]
    exact proceeds_pure (clear_of_kind hr (by decide))
  · rw [if_neg hr, if_neg hr]
    refine (hfg 1 left (by omega) (by omega)).bind fun e left hle hclear => ?_
    exact (moreArguments_proceeds hfg hclear (by omega) (by omega) (by omega)).bind
      fun es left _ hclear => proceeds_pure hclear

theorem creation_proceeds {pending : List Token} (hpending : Clear pending)
    (hN : pending.length ≤ N) : Proceeds (creation f) (creation g) fin pending Clear := by
  obtain ⟨t, rest, rfl, ht⟩ := hpending.exists_cons
  simp only [List.length_cons] at hN
  unfold creation
  refine proceeds_current (proceeds_upcoming ?_)
  simp only [second_cons_kind]
  cases hk : frontKind rest with
  | intWord =>
    refine proceeds_step ht (proceeds_expect (by decide) (clear_of_kind hk (by decide))
      fun left hleft hclear => proceeds_advance hclear fun left hleft => ?_)
    refine (hfg 1 left (by omega) (by omega)).bind fun e left hle hclear => ?_
    exact proceeds_expect (by decide) hclear fun left _ hclear => proceeds_pure hclear
  | ident =>
    exact proceeds_expectIdent ht fun x left _ hclear =>
      proceeds_expectAll (by decide) hclear fun left _ hclear => proceeds_pure hclear
  | _ => exact proceeds_failAt _ _

theorem operand_proceeds {pending : List Token} (hN : pending.length ≤ N) :
    Proceeds (operand f) (operand g) fin pending Clear := by
  unfold operand
  refine proceeds_current ?_
  have hclear : ∀ {k : TokenKind}, (TokenStream.head ⟨pending, fin⟩).kind = k → ¬ k.Landmark →
      Clear pending := fun h hk => clear_of_kind (head_kind pending fin ▸ h) hk
  cases hk : (TokenStream.head ⟨pending, fin⟩).kind with
  | ident => exact proceeds_pure (hclear hk (by decide))
  | int =>
    dsimp only
    split
    · exact proceeds_pure (hclear hk (by decide))
    · exact proceeds_failAt _ _
  | trueWord => exact proceeds_pure (hclear hk (by decide))
  | falseWord => exact proceeds_pure (hclear hk (by decide))
  | thisWord => exact proceeds_pure (hclear hk (by decide))
  | bang =>
    refine proceeds_advance (hclear hk (by decide)) fun left hleft => ?_
    exact (hfg _ left (by decide) (by omega)).bind fun e left _ hclear => proceeds_pure hclear
  | lparen =>
    refine proceeds_advance (hclear hk (by decide)) fun left hleft => ?_
    refine (hfg 1 left (by omega) (by omega)).bind fun e left hle hclear => ?_
    exact proceeds_expect (by decide) hclear fun left _ hclear => proceeds_pure hclear
  | newWord => exact creation_proceeds hfg (hclear hk (by decide)) hN
  | _ => exact proceeds_failAt _ _

theorem extend_proceeds {pending : List Token} {m n : Nat} (hpending : Clear pending)
    (hN : pending.length ≤ N) (hm : pending.length ≤ m) (hn : pending.length ≤ n) (left : Expr) :
    Proceeds (extend f m left) (extend g n left) fin pending Clear := by
  obtain ⟨t, rest, rfl, ht⟩ := hpending.exists_cons
  unfold extend
  refine proceeds_current ?_
  rw [head_cons]
  cases hk : t.kind with
  | lbracket =>
    refine proceeds_advance hpending fun left hleft => ?_
    refine (hfg 1 left (by omega) (by omega)).bind fun i left hle hclear => ?_
    exact proceeds_expect (by decide) hclear fun left _ hclear => proceeds_pure hclear
  | dot =>
    refine proceeds_upcoming ?_
    rw [second_cons_kind]
    by_cases hlength : frontKind rest = .lengthWord
    · rw [if_pos hlength, if_pos hlength]
      exact proceeds_step ht (proceeds_current
        (proceeds_pure (clear_of_kind hlength (by decide))))
    · rw [if_neg hlength, if_neg hlength]
      refine proceeds_expectIdent hpending fun x left hleft hclear =>
        proceeds_expect (by decide) hclear fun left hleft' hclear => ?_
      exact (arguments_proceeds hfg hclear (by omega) (by omega) (by omega)).bind
        fun args left _ hclear => proceeds_pure hclear
  | _ =>
    refine proceeds_advance hpending fun left hleft => ?_
    exact (hfg _ left (one_le_ofToken _) (by omega)).bind fun e left _ hclear =>
      proceeds_pure hclear

theorem climb_proceeds {pending : List Token} {level bound bound' m n : Nat} (hlevel : 1 ≤ level)
    (hpending : Clear pending) (hN : pending.length ≤ N) (hb : pending.length ≤ bound)
    (hb' : pending.length ≤ bound') (hm : pending.length ≤ m) (hn : pending.length ≤ n)
    (left : Expr) :
    Proceeds (climb f level bound m left) (climb g level bound' n left) fin pending Clear := by
  induction m generalizing n pending left with
  | zero => exact absurd hpending.length_pos (by omega)
  | succ m ih =>
    obtain ⟨n, rfl⟩ : ∃ k, n = k + 1 := ⟨n - 1, by have := hpending.length_pos; omega⟩
    obtain ⟨t, rest, rfl, ht⟩ := hpending.exists_cons
    simp only [List.length_cons] at hN hb hb' hm hn
    rw [climb, climb]
    refine proceeds_upcoming ?_
    rw [second_cons_kind]
    by_cases htight : level < Precedence.ofToken (frontKind rest)
    · rw [if_pos htight, if_pos htight]
      refine proceeds_step ht ?_
      refine (extend_proceeds hfg (not_landmark_of_lt hlevel htight) (by omega) (by omega)
        (by omega) left).bind fun left' after hle hclear => ?_
      exact ih hclear (by omega) (by omega) (by omega) (by omega) (by omega) left'
    · rw [if_neg htight, if_neg htight]
      exact proceeds_pure ht

end

/-- Readers of expressions whose bounds are above the number of tokens to come are in step. -/
theorem expression_proceeds {fin : Position} {pending : List Token} {level m n : Nat}
    (hlevel : 1 ≤ level) (hm : pending.length < m) (hn : pending.length < n) :
    Proceeds (expression m level) (expression n level) fin pending Clear := by
  induction m generalizing n pending level with
  | zero => omega
  | succ m ih =>
    obtain ⟨n, rfl⟩ : ∃ k, n = k + 1 := ⟨n - 1, by omega⟩
    -- what is nested starts after the first token
    have hnested : InStep (expression m) (expression n) fin pending.length :=
      fun level pending' hlevel hlt => ih hlevel (by omega) (by omega)
    rw [expression, expression]
    refine (operand_proceeds hnested (Nat.le_refl _)).bind fun left rest hle hclear => ?_
    exact climb_proceeds hnested hlevel hclear hle (by omega) (by omega) (by omega) (by omega) left

/-! ### Types and variables -/

section

variable {fin : Position} {pending : List Token}

theorem typeRef_proceeds : Proceeds typeRef typeRef fin pending Clear := by
  unfold typeRef
  refine proceeds_current ?_
  cases pending with
  | nil => exact proceeds_failAt _ _
  | cons t rest =>
    rw [head_cons]
    have hclear : ∀ {k : TokenKind}, t.kind = k → ¬ k.Landmark → Clear (t :: rest) :=
      fun h hk => clear_of_kind h hk
    cases hk : t.kind with
    | intWord =>
      have ht := hclear hk (by decide)
      refine proceeds_upcoming ?_
      rw [second_cons_kind]
      by_cases hl : frontKind rest = .lbracket
      · rw [if_pos hl]
        exact proceeds_step ht (proceeds_expect (by decide) (clear_of_kind hl (by decide))
          fun left _ hclear => proceeds_pure hclear)
      · rw [if_neg hl]
        exact proceeds_pure ht
    | booleanWord => exact proceeds_pure (hclear hk (by decide))
    | ident => exact proceeds_pure (hclear hk (by decide))
    | _ => exact proceeds_failAt _ _

theorem typedName_proceeds : Proceeds typedName typedName fin pending Clear := by
  unfold typedName
  refine proceeds_current (typeRef_proceeds.bind fun type left hle hclear => ?_)
  exact proceeds_expectIdent hclear fun x left _ hclear => proceeds_pure hclear

theorem atDeclaration_proceeds :
    Proceeds atDeclaration atDeclaration fin pending fun left => left = pending := by
  unfold atDeclaration
  refine proceeds_current ?_
  cases (TokenStream.head ⟨pending, fin⟩).kind with
  | ident => exact proceeds_upcoming (proceeds_pure rfl)
  | _ => exact proceeds_pure rfl

theorem varDecls_proceeds {m n : Nat} (hm : pending.length < m) (hn : pending.length < n) :
    Proceeds (varDecls m) (varDecls n) fin pending fun _ => True := by
  induction m generalizing n pending with
  | zero => omega
  | succ m ih =>
    obtain ⟨n, rfl⟩ : ∃ k, n = k + 1 := ⟨n - 1, by omega⟩
    rw [varDecls, varDecls]
    refine atDeclaration_proceeds.bind fun b left hle hleft => ?_
    subst hleft
    cases b with
    | false => exact proceeds_pure trivial
    | true =>
      refine typedName_proceeds.bind fun d left hle hclear => ?_
      refine proceeds_expect (by decide) hclear fun left hlt hclear =>
        proceeds_advance hclear fun left hlt => ?_
      exact (ih (by omega) (by omega)).bind fun ds left _ _ => proceeds_pure trivial

theorem moreParams_proceeds {m n : Nat} (hpending : Clear pending) (hm : pending.length ≤ m)
    (hn : pending.length ≤ n) : Proceeds (moreParams m) (moreParams n) fin pending Clear := by
  induction m generalizing n pending with
  | zero => exact absurd hpending.length_pos (by omega)
  | succ m ih =>
    obtain ⟨n, rfl⟩ : ∃ k, n = k + 1 := ⟨n - 1, by have := hpending.length_pos; omega⟩
    obtain ⟨t, rest, rfl, ht⟩ := hpending.exists_cons
    simp only [List.length_cons] at hm hn
    rw [moreParams, moreParams]
    refine proceeds_upcoming ?_
    rw [second_cons_kind]
    by_cases hcomma : frontKind rest = .comma
    · rw [if_pos hcomma, if_pos hcomma]
      refine proceeds_step ht (proceeds_advance (clear_of_kind hcomma (by decide))
        fun left hleft => ?_)
      refine typedName_proceeds.bind fun p left hle hclear => ?_
      exact (ih hclear (by omega) (by omega)).bind fun ps left _ hclear => proceeds_pure hclear
    · rw [if_neg hcomma, if_neg hcomma]
      exact proceeds_expect (by decide) ht fun left _ hclear => proceeds_pure hclear

theorem params_proceeds {m n : Nat} (hpending : Clear pending) (hm : pending.length ≤ m)
    (hn : pending.length ≤ n) : Proceeds (params m) (params n) fin pending Clear := by
  unfold params
  refine proceeds_advance hpending fun left hleft => proceeds_current ?_
  rw [head_kind]
  by_cases hr : frontKind left = .rparen
  · rw [if_pos hr, if_pos hr]
    exact proceeds_pure (clear_of_kind hr (by decide))
  · rw [if_neg hr, if_neg hr]
    refine typedName_proceeds.bind fun p left hle hclear => ?_
    exact (moreParams_proceeds hclear (by omega) (by omega)).bind fun ps left _ hclear =>
      proceeds_pure hclear

end

/-! ### Statements -/

section

variable {fin : Position} {pending : List Token}

theorem lowest_proceeds {m n : Nat} (hm : pending.length < m) (hn : pending.length < n) :
    Proceeds (expression m .lowest) (expression n .lowest) fin pending Clear :=
  expression_proceeds (Nat.le_refl 1) hm hn

theorem statementsUntil_proceeds {stmt stmt' : Parse Stmt} {stop : TokenKind} {m n : Nat}
    (hstmt : ∀ left : List Token, left.length ≤ pending.length →
      Proceeds stmt stmt' fin left Clear)
    (hm : pending.length < m) (hn : pending.length < n) :
    Proceeds (statementsUntil stmt stop m) (statementsUntil stmt' stop n) fin pending
      fun _ => True := by
  induction m generalizing n pending with
  | zero => omega
  | succ m ih =>
    obtain ⟨n, rfl⟩ : ∃ k, n = k + 1 := ⟨n - 1, by omega⟩
    rw [statementsUntil, statementsUntil]
    refine proceeds_current ?_
    split
    · exact proceeds_pure trivial
    · refine atDeclaration_proceeds.bind fun b left hle hleft => ?_
      subst hleft
      cases b with
      | true => exact proceeds_failAt _ _
      | false =>
        refine (hstmt left (Nat.le_refl _)).bind fun s after hle' hclear => ?_
        refine proceeds_advance hclear fun rest hlt => ?_
        exact (ih (fun left h => hstmt left (by omega)) (by omega) (by omega)).bind
          fun ss left _ _ => proceeds_pure trivial

section Forms

variable {t : Token} {rest : List Token} {m n : Nat} (ht : Clear (t :: rest))
  (hm : rest.length < m) (hn : rest.length < n)

/-- The readers of statements with these two bounds are in step on fewer tokens. -/
def StatementsInStep (fin : Position) (m n : Nat) : Prop :=
  ∀ left : List Token, left.length < m → left.length < n →
    Proceeds (statement m) (statement n) fin left Clear

variable (hstmt : StatementsInStep fin m n)

include ht hm hn

theorem print_proceeds (hk : t.kind = .systemWord) :
    Proceeds (statement (m + 1)) (statement (n + 1)) fin (t :: rest) Clear := by
  rw [statement, statement]
  refine proceeds_current ?_
  simp only [head_cons, hk]
  refine proceeds_expect (by decide) ht fun left hlt₁ hclear =>
    proceeds_expectWord hclear fun left hlt₂ hclear =>
    proceeds_expect (by decide) hclear fun left hlt₃ hclear =>
    proceeds_expectWord hclear fun left hlt₄ hclear =>
    proceeds_expect (by decide) hclear fun left hlt₅ hclear =>
    proceeds_advance hclear fun left hlt₆ => ?_
  simp only [List.length_cons] at hlt₁
  refine (lowest_proceeds (by omega) (by omega)).bind fun e left hle hclear => ?_
  exact proceeds_expectAll (by decide) hclear fun left _ hclear => proceeds_pure hclear

/-- A statement that starts with a name is an assignment. -/
theorem named_proceeds (hk : t.kind = .ident) :
    Proceeds (statement (m + 1)) (statement (n + 1)) fin (t :: rest) Clear := by
  rw [statement, statement]
  refine proceeds_current ?_
  simp only [head_cons, hk]
  refine proceeds_upcoming ?_
  rw [second_cons_kind]
  cases hnext : frontKind rest with
  | assign =>
    refine proceeds_step ht (proceeds_advance (clear_of_kind hnext (by decide))
      fun left hlt => ?_)
    refine (lowest_proceeds (by omega) (by omega)).bind fun e left hle hclear => ?_
    exact proceeds_expect (by decide) hclear fun left _ hclear => proceeds_pure hclear
  | lbracket =>
    refine proceeds_step ht (proceeds_advance (clear_of_kind hnext (by decide))
      fun left hlt => ?_)
    refine (lowest_proceeds (by omega) (by omega)).bind fun i left hle hclear => ?_
    refine proceeds_expectAll (by decide) hclear fun left hle hclear =>
      proceeds_advance hclear fun left hlt => ?_
    refine (lowest_proceeds (by omega) (by omega)).bind fun e left hle hclear => ?_
    exact proceeds_expect (by decide) hclear fun left _ hclear => proceeds_pure hclear
  | _ => exact proceeds_failAt _ _

include hstmt

theorem block_proceeds (hk : t.kind = .lbrace) :
    Proceeds (statement (m + 1)) (statement (n + 1)) fin (t :: rest) Clear := by
  rw [statement, statement]
  refine proceeds_current ?_
  simp only [head_cons, hk]
  refine proceeds_step ht ?_
  refine (statementsUntil_proceeds (fun left hle => hstmt left (by omega) (by omega)) hm hn).bind
    fun ss left hle _ => proceeds_current ?_
  rw [head_kind]
  by_cases hu : frontKind left = .rbrace
  · rw [if_pos hu]
    exact proceeds_pure (clear_of_kind hu (by decide))
  · rw [if_neg hu]
    exact proceeds_failAt _ _

theorem cond_proceeds (hk : t.kind = .ifWord) :
    Proceeds (statement (m + 1)) (statement (n + 1)) fin (t :: rest) Clear := by
  rw [statement, statement]
  refine proceeds_current ?_
  simp only [head_cons, hk]
  refine proceeds_expect (by decide) ht fun left hlt hclear =>
    proceeds_advance hclear fun left hlt' => ?_
  simp only [List.length_cons] at hlt
  refine (lowest_proceeds (by omega) (by omega)).bind fun c left hle hclear => ?_
  refine proceeds_expect (by decide) hclear fun left hlt hclear =>
    proceeds_advance hclear fun left hlt' => ?_
  refine (hstmt left (by omega) (by omega)).bind fun a left hle hclear => ?_
  refine proceeds_expect (by decide) hclear fun left hlt hclear =>
    proceeds_advance hclear fun left hlt' => ?_
  exact (hstmt left (by omega) (by omega)).bind fun b left hle hclear => proceeds_pure hclear

theorem loop_proceeds (hk : t.kind = .whileWord) :
    Proceeds (statement (m + 1)) (statement (n + 1)) fin (t :: rest) Clear := by
  rw [statement, statement]
  refine proceeds_current ?_
  simp only [head_cons, hk]
  refine proceeds_expect (by decide) ht fun left hlt hclear =>
    proceeds_advance hclear fun left hlt' => ?_
  simp only [List.length_cons] at hlt
  refine (lowest_proceeds (by omega) (by omega)).bind fun c left hle hclear => ?_
  refine proceeds_expect (by decide) hclear fun left hlt hclear =>
    proceeds_advance hclear fun left hlt' => ?_
  exact (hstmt left (by omega) (by omega)).bind fun b left hle hclear => proceeds_pure hclear

end Forms

/-- Readers of statements whose bounds are above the number of tokens to come are in step. -/
theorem statement_proceeds {m n : Nat} (hm : pending.length < m) (hn : pending.length < n) :
    Proceeds (statement m) (statement n) fin pending Clear := by
  induction m generalizing n pending with
  | zero => omega
  | succ m ih =>
    obtain ⟨n, rfl⟩ : ∃ k, n = k + 1 := ⟨n - 1, by omega⟩
    have hstmt : StatementsInStep fin m n := fun left hm hn => ih hm hn
    cases pending with
    | nil =>
      rw [statement, statement]
      exact proceeds_current (proceeds_failAt _ _)
    | cons t rest =>
      simp only [List.length_cons, Nat.add_lt_add_iff_right] at hm hn
      have hclear {k : TokenKind} (h : t.kind = k) (hk : ¬ k.Landmark) : Clear (t :: rest) :=
        clear_of_kind h hk
      cases hk : t.kind with
      | lbrace => exact block_proceeds (hclear hk (by decide)) hm hn hstmt hk
      | ifWord => exact cond_proceeds (hclear hk (by decide)) hm hn hstmt hk
      | whileWord => exact loop_proceeds (hclear hk (by decide)) hm hn hstmt hk
      | systemWord => exact print_proceeds (hclear hk (by decide)) hm hn hk
      | ident => exact named_proceeds (hclear hk (by decide)) hm hn hk
      | _ =>
        rw [statement, statement]
        refine proceeds_current ?_
        simp only [head_cons, hk]
        exact proceeds_failAt _ _

/-! ### Methods -/

theorem methodDecl_proceeds {m n : Nat} (hpending : Clear pending) (hm : pending.length ≤ m)
    (hn : pending.length ≤ n) : Proceeds (methodDecl m) (methodDecl n) fin pending Clear := by
  unfold methodDecl
  refine proceeds_current (proceeds_advance hpending fun left hlt => ?_)
  refine typeRef_proceeds.bind fun type left hle hclear => ?_
  refine proceeds_expectIdent hclear fun name left hlt hclear =>
    proceeds_expect (by decide) hclear fun left hlt hclear => ?_
  refine (params_proceeds hclear (by omega) (by omega)).bind fun ps left hle hclear => ?_
  refine proceeds_expect (by decide) hclear fun left hlt hclear =>
    proceeds_advance hclear fun left hlt => ?_
  refine (varDecls_proceeds (by omega) (by omega)).bind fun ds left hle _ => ?_
  refine (statementsUntil_proceeds (fun left h => statement_proceeds (by omega) (by omega))
    (by omega) (by omega)).bind fun ss left hle _ => proceeds_current ?_
  rw [head_kind]
  by_cases hw : frontKind left = .returnWord
  · rw [if_pos hw, if_pos hw]
    refine proceeds_advance (clear_of_kind hw (by decide)) fun left hlt => ?_
    refine (lowest_proceeds (by omega) (by omega)).bind fun e left hle hclear => ?_
    exact proceeds_expectAll (by decide) hclear fun left _ hclear => proceeds_pure hclear
  · rw [if_neg hw, if_neg hw]
    exact proceeds_failAt _ _

theorem methodDecls_proceeds {m n : Nat} (hm : pending.length < m) (hn : pending.length < n) :
    Proceeds (methodDecls m) (methodDecls n) fin pending fun _ => True := by
  induction m generalizing n pending with
  | zero => omega
  | succ m ih =>
    obtain ⟨n, rfl⟩ : ∃ k, n = k + 1 := ⟨n - 1, by omega⟩
    rw [methodDecls, methodDecls]
    refine proceeds_current ?_
    rw [head_kind]
    by_cases hk : frontKind pending = .publicWord
    · rw [if_pos hk, if_pos hk]
      refine (methodDecl_proceeds (clear_of_kind hk (by decide)) (by omega) (by omega)).bind
        fun d left hle hclear => proceeds_advance hclear fun left hlt => ?_
      exact (ih (by omega) (by omega)).bind fun ds left _ _ => proceeds_pure trivial
    · rw [if_neg hk, if_neg hk]
      exact proceeds_pure trivial

theorem parent_proceeds (hpending : Clear pending) : Proceeds parent parent fin pending Clear := by
  obtain ⟨t, rest, rfl, ht⟩ := hpending.exists_cons
  unfold parent
  refine proceeds_upcoming ?_
  rw [second_cons_kind]
  by_cases hk : frontKind rest = .extendsWord
  · rw [if_pos hk]
    exact proceeds_step ht (proceeds_expectIdent (clear_of_kind hk (by decide))
      fun p left _ hclear => proceeds_pure hclear)
  · rw [if_neg hk]
    exact proceeds_pure ht

end

/-! ### Whole classes -/

/-- On the token `t` and the tokens `pending` after it the readers `p` and `q` do the same,
whatever was noted before.  The token `t` may be a landmark: either the readers give up on it at
once, or they step past it and then past no further landmark. -/
inductive Opens {α : Type} (p q : Parse α) (fin : Position) (t : Token) (pending : List Token) :
    Prop
  | gives (a : α) (left : List Token) (walk : Walk pending left) (holds : Clear left)
      (fst : ∀ errs, p (view fin errs (t :: pending)) = (some a, view fin errs left))
      (snd : ∀ errs, q (view fin errs (t :: pending)) = (some a, view fin errs left))
  | stops (e : ParseError) (left : List Token) (walk : left = t :: pending ∨ Walk pending left)
      (fst : ∀ errs, p (view fin errs (t :: pending)) = (none, view fin (errs ++ [e]) left))
      (snd : ∀ errs, q (view fin errs (t :: pending)) = (none, view fin (errs ++ [e]) left))

section

variable {α : Type} {fin : Position} {t : Token} {pending : List Token}

theorem opens_current {f g : Token → Parse α} (h : Opens (f t) (g t) fin t pending) :
    Opens (current >>= f) (current >>= g) fin t pending := by
  cases h with
  | gives a left walk holds fst snd => exact .gives a left walk holds fst snd
  | stops e left walk fst snd => exact .stops e left walk fst snd

/-- What was stepped past at the start may have been a landmark. -/
theorem Opens.of_proceeds {p q p' q' : Parse α} (h : Proceeds p q fin pending Clear)
    (hp : ∀ errs, p' (view fin errs (t :: pending)) = p (view fin errs pending))
    (hq : ∀ errs, q' (view fin errs (t :: pending)) = q (view fin errs pending)) :
    Opens p' q' fin t pending := by
  cases h with
  | gives a left walk holds fst snd =>
    exact .gives a left walk holds (fun errs => (hp errs).trans (fst errs))
      fun errs => (hq errs).trans (snd errs)
  | stops e left walk fst snd =>
    exact .stops e left (.inr walk) (fun errs => (hp errs).trans (fst errs))
      fun errs => (hq errs).trans (snd errs)

/-- The name after the word that starts a class. -/
theorem opens_expectIdent {f g : Ident → Parse α}
    (h : ∀ x, Clear pending → Proceeds (f x) (g x) fin pending Clear) :
    Opens (expectIdent >>= f) (expectIdent >>= g) fin t pending := by
  by_cases hk : frontKind pending = .ident
  · obtain ⟨c, rest, rfl, -⟩ := (clear_of_kind hk (by decide)).exists_cons
    have hread : ∀ {f : Ident → Parse α} errs,
        (expectIdent >>= f) (view fin errs (t :: c :: rest)) =
          f (Grammar.ident c) (view fin errs (c :: rest)) :=
      fun errs => bind_some (expectIdent_view t rest hk)
    exact .of_proceeds (h (Grammar.ident c) (clear_of_kind hk (by decide))) hread hread
  · have hstop : ∀ {f : Ident → Parse α} errs, (expectIdent >>= f) (view fin errs (t :: pending)) =
        (none, (view fin errs (t :: pending)).complain (TokenStream.second ⟨t :: pending, fin⟩)
          (.expected .ident (frontKind pending))) := by
      intro f errs
      refine bind_none (bind_none ?_)
      rw [expect, upcoming_bind, second_cons_kind, if_neg hk]
      rfl
    exact .stops _ _ (.inl rfl) hstop hstop

theorem classDecl_opens {m n : Nat} (hm : pending.length < m) (hn : pending.length < n) :
    Opens (classDecl m) (classDecl n) fin t pending := by
  unfold classDecl
  refine opens_current (opens_expectIdent fun name hclear => ?_)
  refine (parent_proceeds hclear).bind fun p left hle hclear => ?_
  refine proceeds_expect (by decide) hclear fun left hlt hclear =>
    proceeds_advance hclear fun left hlt => ?_
  refine (varDecls_proceeds (by omega) (by omega)).bind fun fs left hle _ => ?_
  refine (methodDecls_proceeds (by omega) (by omega)).bind fun ms left hle _ =>
    proceeds_current ?_
  rw [head_kind]
  by_cases hu : frontKind left = .rbrace
  · rw [if_pos hu]
    exact proceeds_pure (clear_of_kind hu (by decide))
  · rw [if_neg hu]
    exact proceeds_failAt _ _

theorem mainClass_opens {m n : Nat} (hm : pending.length < m) (hn : pending.length < n) :
    Opens (mainClass m) (mainClass n) fin t pending := by
  unfold mainClass
  refine opens_current (opens_expectIdent fun name hclear => ?_)
  refine proceeds_expectAll (by decide) hclear fun left hle hclear => ?_
  refine proceeds_expectIdent hclear fun arg left hlt hclear => ?_
  refine proceeds_expectAll (by decide) hclear fun left hle hclear =>
    proceeds_advance hclear fun left hlt => ?_
  refine (varDecls_proceeds (by omega) (by omega)).bind fun ds left hle _ => ?_
  refine (statementsUntil_proceeds (fun left h => statement_proceeds (by omega) (by omega))
    (by omega) (by omega)).bind fun ss left hle _ => proceeds_current ?_
  rw [head_kind]
  by_cases hu : frontKind left = .rbrace
  · rw [if_pos hu]
    exact proceeds_expect (by decide) (clear_of_kind hu (by decide)) fun left _ hclear =>
      proceeds_pure hclear
  · rw [if_neg hu]
    exact proceeds_failAt _ _

end

/-! ### Complaints -/

/-- The reader notes nothing when it gives a result, and exactly one complaint when it gives up. -/
def Honest {α : Type} (p : Parse α) (s : ParseState) : Prop :=
  match p s with
  | (some _, s') => s'.errors = s.errors
  | (none, s') => ∃ e, s'.errors = s.errors ++ [e]

section

variable {α β : Type} {p q : Parse α} {fin : Position} {pending : List Token}

theorem Honest.bind {s : ParseState} {f : α → Parse β} (h : Honest p s)
    (hf : ∀ a s', Honest (f a) s') : Honest (p >>= f) s := by
  unfold Honest at h ⊢
  cases hread : p s with
  | mk result s' =>
    rw [hread] at h
    cases result with
    | none =>
      rw [bind_none hread]
      exact h
    | some a =>
      rw [bind_some hread]
      have hrest := hf a s'
      unfold Honest at hrest
      rwa [show s'.errors = s.errors from h] at hrest

theorem honest_failAt (t : Token) (c : Complaint) (s : ParseState) :
    Honest (failAt (α := α) t c) s := ⟨_, rfl⟩

theorem honest_advance (s : ParseState) : Honest advance s := rfl

theorem honest_expect (k : TokenKind) (s : ParseState) : Honest (expect k) s := by
  unfold expect
  refine Honest.bind (p := upcoming) rfl fun t s => ?_
  split
  · exact honest_advance s
  · exact honest_failAt t _ s

theorem honest_expectWord (w : Bytes) (s : ParseState) : Honest (expectWord w) s := by
  unfold expectWord
  refine Honest.bind (p := upcoming) rfl fun t s => ?_
  split
  · exact honest_advance s
  · exact honest_failAt t _ s

theorem honest_expectIdent (s : ParseState) : Honest expectIdent s := by
  unfold expectIdent
  exact (honest_expect .ident s).bind fun _ _ => rfl

theorem honest_expectAll (ks : List TokenKind) (s : ParseState) : Honest (expectAll ks) s := by
  induction ks generalizing s with
  | nil => rfl
  | cons k ks ih =>
    unfold expectAll
    exact (honest_expect k s).bind fun _ s => ih s

theorem Proceeds.honest {Q : List Token → Prop} (h : Proceeds p q fin pending Q)
    (errs : List ParseError) : Honest p (view fin errs pending) := by
  unfold Honest
  cases h with
  | gives a left _ _ fst _ => rw [fst]
  | stops e left _ fst _ => rw [fst]; exact ⟨e, rfl⟩

theorem Opens.honest {t : Token} (h : Opens p q fin t pending) (errs : List ParseError) :
    Honest p (view fin errs (t :: pending)) := by
  unfold Honest
  cases h with
  | gives a left _ _ fst _ => rw [fst]
  | stops e left _ fst _ => rw [fst]; exact ⟨e, rfl⟩

end

end Parse

end MiniJava
