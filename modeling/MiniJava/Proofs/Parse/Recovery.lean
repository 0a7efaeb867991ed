import MiniJava.Proofs.Parse.Rounds
import MiniJava.Proofs.Token.Calls

/-!
# Reading on after broken classes

A source falls into chunks, each of which starts where a class starts.  A chunk that is a class is
kept whenever reading reaches it, and reading reaches it unless the chunk in front of it was given
up only on the first token after it: reading goes on behind the token where it gave up, and so
passes over the class that starts there.

* **`Chunk`** — the word that starts a class and the tokens up to the next landmark.
* **`Declares`**, **`Begins`** — a chunk is a class, or a class with stray tokens behind it.
* **`overruns`** — the chunk is given up only on the first token after it.
* **`reached`**, **`lost`** — the chunks that are read, and those that are passed over.
* **`classes_of_chunks`** — what is kept, and when no class is lost.
-/

namespace MiniJava.Parse

open Grammar

/-! ### Chunks -/

/-- The word that starts a class, and the tokens behind it up to a landmark. -/
def Chunk (c : List Token) : Prop :=
  ∃ t ts, c = t :: ts ∧ t.kind = .classWord ∧ ∀ u ∈ ts, ¬ u.kind.Landmark

theorem chunk_iff (c : List Token) :
    Chunk c ↔ (∃ t ∈ c.head?, t.kind = .classWord) ∧ ∀ u ∈ c.tail, ¬ u.kind.Landmark := by
  cases c with
  | nil => simp [Chunk]
  | cons t ts => simp [Chunk]

instance : DecidablePred Chunk := fun c => decidable_of_iff' _ (chunk_iff c)

/-- The chunk is the declaration `d`. -/
def Declares (c : List Token) (d : ClassDecl) : Prop := ClassOf (ExpAt 0) c d ∧ Small c

/-- The chunk is the declaration `d`, perhaps with stray tokens behind it. -/
def Begins (c : List Token) (d : ClassDecl) : Prop :=
  ∃ ts stray, c = ts ++ stray ∧ Declares ts d

/-- What `P` finds in some chunks, in their order; a chunk in which it finds nothing is skipped. -/
inductive Listed (P : List Token → ClassDecl → Prop) : List (List Token) → List ClassDecl → Prop
  | nil : Listed P [] []
  | found {c : List Token} {d : ClassDecl} {cs : List (List Token)} {ds : List ClassDecl} :
      P c d → Listed P cs ds → Listed P (c :: cs) (d :: ds)
  | skipped {c : List Token} {cs : List (List Token)} {ds : List ClassDecl} :
      (∀ d, ¬ P c d) → Listed P cs ds → Listed P (c :: cs) ds

/-- The class at the front of `chunk ++ next` is given up, and the first token of `next` is then
current. -/
def overruns (fin : Position) (chunk next : List Token) : Bool :=
  match classDecl (chunk ++ next).length (view fin [] (chunk ++ next)) with
  | (some _, _) => false
  | (none, s) => s.input.pending == next

/-- The chunks that are read.  The first of them is read if `current` says so; one behind a chunk
that is read is read too, unless that chunk overran. -/
def reached (fin : Position) : (current : Bool) → List (List Token) → List (List Token)
  | _, [] => []
  | false, _ :: cs => reached fin true cs
  | true, c :: cs => c :: reached fin (!overruns fin c cs.flatten) cs

/-- The chunks that are passed over. -/
def lost (fin : Position) : (current : Bool) → List (List Token) → List (List Token)
  | _, [] => []
  | false, c :: cs => c :: lost fin true cs
  | true, c :: cs => lost fin (!overruns fin c cs.flatten) cs

theorem Declares.begins {c : List Token} {d : ClassDecl} (h : Declares c d) : Begins c d :=
  ⟨c, [], by simp, h⟩

/-- A chunk is one class at most. -/
theorem Begins.unique {c : List Token} {d d' : ClassDecl} (h : Begins c d) (h' : Begins c d') :
    d = d' := by
  obtain ⟨ts, stray, rfl, hd, small⟩ := h
  obtain ⟨ts', stray', hts, hd', small'⟩ := h'
  have hread := turn_reads hd small stray .start []
  rw [hts, turn_reads hd' small' stray' .start []] at hread
  exact (Option.some.inj (Prod.mk.inj hread).1).symm

/-- A class is reported at the first of its tokens. -/
theorem Begins.token_mem {c : List Token} {d : ClassDecl} (h : Begins c d) : d.token ∈ c := by
  obtain ⟨ts, stray, rfl, hd, -⟩ := h
  cases hd
  simp

theorem landmark_flatten {cs : List (List Token)} (h : ∀ c ∈ cs, Chunk c) :
    (frontKind cs.flatten).Landmark := by
  cases cs with
  | nil => exact .inl rfl
  | cons c cs =>
    obtain ⟨t, ts, rfl, ht, -⟩ := h c (by simp)
    exact .inr ht

/-! ### Going on at the next chunk -/

section

variable {fin : Position} {errs : List ParseError} {t : Token} {ts next : List Token}

theorem dropWhile_skippable (hts : ∀ u ∈ ts, ¬ u.kind.Landmark)
    (hnext : (frontKind next).Landmark) : (ts ++ next).dropWhile skippable = next := by
  have hskip : ∀ u ∈ ts, skippable u := fun u hu => by
    simpa [skippable, TokenKind.Landmark] using hts u hu
  rw [List.dropWhile_append_of_pos hskip]
  cases next with
  | nil => rfl
  | cons u next =>
    refine List.dropWhile_cons_of_neg ?_
    rcases hnext with hu | hu <;> simp_all [skippable]

/-- From within a chunk reading goes on at the next one. -/
theorem resume_view (hts : ∀ u ∈ ts, ¬ u.kind.Landmark) (hnext : (frontKind next).Landmark) :
    (view fin errs (t :: ts ++ next)).resume = view fin errs next := by
  show view fin errs ((ts ++ next).dropWhile skippable) = _
  rw [dropWhile_skippable hts hnext]

/-- A walk that starts in a chunk ends in it or in front of the next one. -/
theorem Walk.exists_suffix {left : List Token} (h : Walk (ts ++ next) left)
    (hnext : (frontKind next).Landmark) : ∃ us, us <:+ ts ∧ left = us ++ next := by
  obtain ⟨xs, hxs, hclear⟩ := h
  rcases List.append_eq_append_iff.mp hxs with ⟨ys, rfl, hys⟩ | ⟨ys, rfl, hys⟩
  · -- the walk would have to leave the chunk
    cases ys with
    | nil => exact ⟨[], List.nil_suffix, hys.symm⟩
    | cons y ys =>
      subst hys
      exact absurd hnext (hclear y (by simp))
  · exact ⟨ys, List.suffix_append xs ys, hys⟩

/-- Stray tokens cost one round, which keeps nothing. -/
theorem Rounds.stray {kept : List (Option ClassDecl)} {last : ParseState}
    (hts : ∀ u ∈ ts, ¬ u.kind.Landmark) (hnext : (frontKind next).Landmark)
    (h : Rounds (view fin errs (ts ++ next)) kept last) :
    ∃ errs' kept', kept.reduceOption = kept'.reduceOption ∧
      Rounds (view fin errs' next) kept' last := by
  cases ts with
  | nil => exact ⟨errs, kept, rfl, h⟩
  | cons u us =>
    obtain ⟨hu, hus⟩ := List.forall_mem_cons.mp hts
    have hclass : (view fin errs (u :: us ++ next)).input.head.kind ≠ .classWord :=
      fun e => hu (.inr e)
    cases h with
    | done heof => exact absurd (.inl heof) hu
    | step _ hrest =>
      have hturn : turn (view fin errs (u :: us ++ next)) =
          (none, view fin (errs ++ [⟨u.line, u.column, .expectedClass u.kind⟩]) next) :=
        (round_stray hclass).trans (congrArg (Prod.mk none) (resume_view hus hnext))
      rw [hturn] at hrest ⊢
      exact ⟨_, _, by simp [List.reduceOption], hrest⟩

/-- Reading went on after it was given up on the tokens `us` of a chunk: at the next chunk, unless
none of the chunk was left. -/
theorem Rounds.resumed {us : List Token} {kept : List (Option ClassDecl)} {last : ParseState}
    (hus : ∀ u ∈ us.tail, ¬ u.kind.Landmark) (hnext : (frontKind next).Landmark)
    (h : Rounds (view fin errs (us ++ next)).resume kept last) :
    Rounds (if us ++ next == next then (view fin errs next).resume else view fin errs next)
      kept last := by
  cases us with
  | nil => simpa using h
  | cons u us =>
    have hne : u :: us ++ next ≠ next := fun heq => by
      have := congrArg List.length heq
      simp only [List.length_append, List.length_cons] at this
      omega
    rw [beq_eq_false_iff_ne.mpr hne, if_neg Bool.false_ne_true]
    rw [List.tail_cons] at hus
    rwa [resume_view hus hnext] at h

theorem overruns_of_some {c : List Token} {d : ClassDecl} {s : ParseState}
    (h : classDecl (c ++ next).length (view fin [] (c ++ next)) = (some d, s)) :
    overruns fin c next = false := by
  simp only [overruns, h]

theorem overruns_of_none {c : List Token} {s : ParseState}
    (h : classDecl (c ++ next).length (view fin [] (c ++ next)) = (none, s)) :
    overruns fin c next = (s.input.pending == next) := by
  simp only [overruns, h]

/-- A chunk of which a round keeps nothing does not begin with a class. -/
theorem not_begins_of_turn {c : List Token} {s : ParseState}
    (h : turn (view fin errs (c ++ next)) = (none, s)) (d : ClassDecl) : ¬ Begins c d := by
  rintro ⟨xs, stray, rfl, hd, small⟩
  have hkept := turn_reads hd small (stray ++ next) fin errs
  rw [← List.append_assoc, h] at hkept
  cases hkept

/-- What the rounds do with a chunk: they keep the class at its front, or there is none, and then
they go on at the next chunk, unless this one overran. -/
theorem Rounds.chunk {c : List Token} (hc : Chunk c) (hnext : (frontKind next).Landmark)
    {kept : List (Option ClassDecl)} {last : ParseState}
    (h : Rounds (view fin errs (c ++ next)) kept last) :
    (∃ d errs' kept', Begins c d ∧ overruns fin c next = false ∧
      kept.reduceOption = d :: kept'.reduceOption ∧ Rounds (view fin errs' next) kept' last) ∨
    ((∀ d, ¬ Begins c d) ∧ ∃ errs' kept', kept.reduceOption = kept'.reduceOption ∧
      Rounds (if overruns fin c next then (view fin errs' next).resume else view fin errs' next)
        kept' last) := by
  obtain ⟨t, ts, rfl, ht, hts⟩ := hc
  cases h with
  | done heof => exact absurd (ht.symm.trans heof) (by decide)
  | @step _ _ kept' _ hrest =>
    have hclass : (view fin errs (t :: ts ++ next)).input.head.kind = .classWord := ht
    have hopens : Opens (classDecl (t :: ts ++ next).length) (classDecl (t :: ts ++ next).length)
        fin t (ts ++ next) := classDecl_opens (by simp) (by simp)
    cases hopens with
    | gives d left walk holds fst _ =>
      obtain ⟨v, left, rfl, hv⟩ := holds.exists_cons
      have hturn : turn (view fin errs (t :: ts ++ next)) = (some d, view fin errs left) :=
        round_kept hclass (fst errs)
      obtain ⟨xs, hxs, hd, small⟩ := turn_keeps hturn
      -- what is left of the chunk is stray
      obtain ⟨us, hus, rfl⟩ := (walk.trans (.cons hv (.refl left))).exists_suffix hnext
      rw [hturn] at hrest ⊢
      obtain ⟨errs', kept', hkept, hrest⟩ := hrest.stray (fun u hu => hts u (hus.mem hu)) hnext
      rw [← List.append_assoc] at hxs
      exact .inl ⟨d, errs', kept', ⟨xs, us, List.append_cancel_right hxs, hd, small⟩,
        overruns_of_some (fst []), congrArg (d :: ·) hkept, hrest⟩
    | stops e left walk fst _ =>
      have hturn : turn (view fin errs (t :: ts ++ next)) =
          (none, (view fin (errs ++ [e]) left).resume) := round_givenUp hclass (fst errs)
      -- it was given up on its first token, in front of the next chunk, or on a token in between
      obtain ⟨us, hus, rfl⟩ : ∃ us, (∀ u ∈ us.tail, ¬ u.kind.Landmark) ∧ left = us ++ next := by
        rcases walk with rfl | walk
        · exact ⟨t :: ts, hts, rfl⟩
        · obtain ⟨us, hus, rfl⟩ := walk.exists_suffix hnext
          exact ⟨us, fun u hu => hts u (hus.mem (List.mem_of_mem_tail hu)), rfl⟩
      rw [hturn] at hrest ⊢
      refine .inr ⟨not_begins_of_turn hturn, errs ++ [e], kept', rfl, ?_⟩
      rw [overruns_of_none (fst [])]
      exact hrest.resumed hus hnext

end

/-! ### All chunks -/

section

variable {fin : Position} {cs : List (List Token)}

/-- The rounds keep what is at the front of the chunks that are reached. -/
theorem Rounds.chunks (hcs : ∀ c ∈ cs, Chunk c) (current : Bool) {errs : List ParseError}
    {kept : List (Option ClassDecl)} {last : ParseState}
    (h : Rounds (view fin errs (if current then cs else cs.tail).flatten) kept last) :
    Listed Begins (reached fin current cs) kept.reduceOption := by
  induction cs generalizing current errs kept with
  | nil =>
    obtain rfl := h.eq_nil (by cases current <;> rfl)
    cases current <;> exact .nil
  | cons c cs ih =>
    obtain ⟨hc, hcs⟩ := List.forall_mem_cons.mp hcs
    cases current with
    | false => exact ih hcs true h
    | true =>
      replace h : Rounds (view fin errs (c ++ cs.flatten)) kept last := h
      rcases h.chunk hc (landmark_flatten hcs) with
        ⟨d, errs', kept', hd, hover, hkept, hrest⟩ | ⟨hnone, errs', kept', hkept, hrest⟩
      · rw [reached, hover, hkept]
        exact .found hd (ih hcs true hrest)
      · rw [reached, hkept]
        refine .skipped hnone ?_
        cases hover : overruns fin c cs.flatten with
        | false =>
          rw [hover] at hrest
          exact ih hcs true hrest
        | true =>
          rw [hover, if_pos rfl] at hrest
          cases cs with
          | nil =>
            obtain rfl := hrest.eq_nil rfl
            exact .nil
          | cons c' cs =>
            obtain ⟨t, ts, rfl, -, hts⟩ := hcs c' (by simp)
            rw [List.flatten_cons, resume_view hts
              (landmark_flatten fun c hc => hcs c (by simp [hc]))] at hrest
            exact ih hcs false hrest

theorem exists_listed (P : List Token → ClassDecl → Prop) (cs : List (List Token)) :
    ∃ ds, Listed P cs ds := by
  induction cs with
  | nil => exact ⟨[], .nil⟩
  | cons c cs ih =>
    obtain ⟨ds, hds⟩ := ih
    by_cases hc : ∃ d, P c d
    · obtain ⟨d, hd⟩ := hc
      exact ⟨d :: ds, .found hd hds⟩
    · exact ⟨ds, .skipped (not_exists.mp hc) hds⟩

theorem Listed.exists_mem {P : List Token → ClassDecl → Prop} {ds : List ClassDecl}
    (h : Listed P cs ds) {d : ClassDecl} (hd : d ∈ ds) : ∃ c ∈ cs, P c d := by
  induction h with
  | nil => cases hd
  | found hP _ ih =>
    cases hd with
    | head => exact ⟨_, by simp, hP⟩
    | tail _ hd =>
      obtain ⟨c, hc, hP⟩ := ih hd
      exact ⟨c, by simp [hc], hP⟩
  | skipped _ _ ih =>
    obtain ⟨c, hc, hP⟩ := ih hd
    exact ⟨c, by simp [hc], hP⟩

/-- A chunk in which something is found is in the list with something. -/
theorem Listed.exists_of_mem {P : List Token → ClassDecl → Prop} {ds : List ClassDecl}
    (h : Listed P cs ds) {c : List Token} (hc : c ∈ cs) {d : ClassDecl} (hd : P c d) :
    ∃ d' ∈ ds, P c d' := by
  induction h with
  | nil => cases hc
  | found hP _ ih =>
    cases hc with
    | head => exact ⟨_, by simp, hP⟩
    | tail _ hc =>
      obtain ⟨d', hd', hP⟩ := ih hc
      exact ⟨d', by simp [hd'], hP⟩
  | skipped hnone _ ih =>
    cases hc with
    | head => exact absurd hd (hnone d)
    | tail _ hc => exact ih hc

/-- The chunks that are classes are among those that begin with one. -/
theorem Listed.sublist {ds es : List ClassDecl} (hds : Listed Declares cs ds)
    (hes : Listed Begins cs es) : ds.Sublist es := by
  induction hds generalizing es with
  | nil =>
    cases hes
    exact .slnil
  | found hd _ ih =>
    cases hes with
    | found hd' hes =>
      obtain rfl := hd.begins.unique hd'
      exact (ih hes).cons_cons _
    | skipped hnone _ => exact absurd hd.begins (hnone _)
  | skipped _ _ ih =>
    cases hes with
    | found _ hes => exact (ih hes).cons _
    | skipped _ hes => exact ih hes

/-- Where no class is lost, the classes among the chunks are those among the chunks that are
reached. -/
theorem Listed.of_lost {current : Bool} {ds : List ClassDecl} (h : Listed Declares cs ds)
    (hlost : ∀ c ∈ lost fin current cs, ∀ d, ¬ Declares c d) :
    Listed Declares (reached fin current cs) ds := by
  induction h generalizing current with
  | nil => cases current <;> exact .nil
  | found hd _ ih =>
    cases current with
    | false => exact absurd hd (hlost _ (by simp [lost]) _)
    | true => exact .found hd (ih hlost)
  | skipped hnone _ ih =>
    cases current with
    | false => exact ih fun c hc => hlost c (by simp [lost, hc])
    | true => exact .skipped hnone (ih hlost)

/-- Every chunk is either reached or lost. -/
theorem reached_append_lost_perm (fin : Position) (current : Bool) (cs : List (List Token)) :
    (reached fin current cs ++ lost fin current cs).Perm cs := by
  induction cs generalizing current with
  | nil => cases current <;> exact .nil
  | cons c cs ih =>
    cases current with
    | false => exact List.perm_middle.trans ((ih true).cons c)
    | true => exact (ih _).cons c

/-- A lost class is not kept, as long as no token comes twice. -/
theorem not_mem_of_lost {current : Bool} {es : List ClassDecl} {c : List Token} {d : ClassDecl}
    (hnodup : cs.flatten.Nodup) (hes : Listed Begins (reached fin current cs) es)
    (hc : c ∈ lost fin current cs) (hd : Declares c d) : d ∉ es := by
  intro hmem
  obtain ⟨c', hc', hd'⟩ := hes.exists_mem hmem
  have hperm := (reached_append_lost_perm fin current cs).flatten
  have hapart := (List.nodup_append.mp (List.flatten_append ▸ hperm.nodup_iff.mpr hnodup)).2.2
  exact hapart _ (List.mem_flatten_of_mem hc' hd'.token_mem) _
    (List.mem_flatten_of_mem hc hd.begins.token_mem) rfl

end

/-! ### Whole sources -/

/-- The entry class is kept, and so are the classes at the front of the chunks behind it that are
reached.  So every chunk that is a class is kept in its order exactly if no such chunk is lost:
if none of them comes right behind a chunk that was reached and overran. -/
theorem classes_of_chunks {source : Bytes} {entry : List Token} {m : MainClass}
    {chunks : List (List Token)} (hentry : MainOf (ExpAt 0) entry m) (small : Small entry)
    (hchunks : ∀ c ∈ chunks, Chunk c)
    (htokens : (TokenStream.ofSource source).pending = entry ++ chunks.flatten) :
    (Program.parse source).program.main = some m ∧
    Listed Begins (reached (TokenStream.ofSource source).finish true chunks)
      (Program.parse source).program.classes ∧
    ((∀ ds, Listed Declares chunks ds → ds.Sublist (Program.parse source).program.classes) ↔
      ∀ c ∈ lost (TokenStream.ofSource source).finish true chunks, ∀ d, ¬ Declares c d) := by
  have hnodup := nodup_ofSource source
  rw [htokens] at hnodup
  obtain ⟨kept, last, hrounds, hparse⟩ := ofTokens_rounds (TokenStream.ofSource source)
  have hopening : opening ⟨TokenStream.ofSource source, []⟩ =
      (some m, view (TokenStream.ofSource source).finish [] chunks.flatten) := by
    rw [← opening_reads hentry small, ← htokens]
  rw [hopening] at hrounds hparse
  have hlisted := Rounds.chunks hchunks true hrounds
  have hprogram : (Program.parse source).program = ⟨some m, kept.reduceOption⟩ :=
    congrArg ParseResult.program hparse
  rw [hprogram]
  refine ⟨rfl, hlisted, fun hall c hc d hd => ?_, fun hlost ds hds => ?_⟩
  · obtain ⟨ds, hds⟩ := exists_listed Declares chunks
    have hmem : c ∈ chunks := (reached_append_lost_perm _ true chunks).subset
      (List.mem_append_right _ hc)
    obtain ⟨d', hd', hdecl⟩ := hds.exists_of_mem hmem hd
    exact not_mem_of_lost (List.nodup_append.mp hnodup).2.1 hlisted hc hdecl
      ((hall ds hds).subset hd')
  · exact (hds.of_lost hlost).sublist hlisted

/-- What the first round tells of a source: the entry class in front of `rest`. -/
theorem exists_entry (source : Bytes) (rest : List Token)
    (h : (opening ⟨TokenStream.ofSource source, []⟩).1.isSome ∧
      (opening ⟨TokenStream.ofSource source, []⟩).2.input.pending = rest) :
    ∃ entry m, MainOf (ExpAt 0) entry m ∧ Small entry ∧
      (TokenStream.ofSource source).pending = entry ++ rest ∧
      (Program.parse source).program.main = some m := by
  obtain ⟨m, hm⟩ := Option.isSome_iff_exists.mp h.1
  obtain ⟨entry, htokens, hentry, small⟩ := opening_keeps (Prod.ext hm rfl)
  obtain ⟨kept, last, -, hparse⟩ := ofTokens_rounds (TokenStream.ofSource source)
  refine ⟨entry, m, hentry, small, by rw [← h.2]; exact htokens, ?_⟩
  rw [← hm]
  exact congrArg (fun r => r.program.main) hparse

/-- What a round tells of a chunk: it is a class if nothing of it is left. -/
theorem exists_declares (c : List Token)
    (h : (turn (view .start [] c)).1.isSome ∧ (turn (view .start [] c)).2 = view .start [] []) :
    ∃ d, Declares c d := by
  obtain ⟨d, hd⟩ := Option.isSome_iff_exists.mp h.1
  obtain ⟨ts, hts, hdecl⟩ := turn_keeps (Prod.ext hd h.2)
  rw [List.append_nil] at hts
  exact ⟨d, hts ▸ hdecl⟩

/-- A source in which a class that cannot be read is in front of one that can. -/
def brokenThenWhole : Bytes :=
  "class M\x7bpublic static void main(String[] a)\x7b\x7d\x7dclass A\x7bint;\x7dclass B\x7b\x7d"

theorem classes_of_chunks_broken_then_whole :
    ∃ entry m c c' d, MainOf (ExpAt 0) entry m ∧ Small entry ∧ (∀ x ∈ [c, c'], Chunk x) ∧
      (TokenStream.ofSource brokenThenWhole).pending = entry ++ [c, c'].flatten ∧
      Declares c' d ∧ (Program.parse brokenThenWhole).program.main = some m ∧
      d ∈ (Program.parse brokenThenWhole).program.classes := by
  let rest := (TokenStream.ofSource brokenThenWhole).pending.drop 16
  obtain ⟨entry, m, hentry, small, htokens, -⟩ :=
    exists_entry brokenThenWhole [rest.take 6, rest.drop 6].flatten (by decide +kernel)
  obtain ⟨d, hd⟩ := exists_declares (rest.drop 6) (by decide +kernel)
  have hchunks : ∀ x ∈ [rest.take 6, rest.drop 6], Chunk x := by decide +kernel
  have hlost : lost (TokenStream.ofSource brokenThenWhole).finish true
      [rest.take 6, rest.drop 6] = [] := by decide +kernel
  obtain ⟨hmain, -, hkept⟩ := classes_of_chunks hentry small hchunks htokens
  obtain ⟨ds, hds⟩ := exists_listed Declares [rest.take 6, rest.drop 6]
  obtain ⟨d', hd', hdecl⟩ := hds.exists_of_mem (List.mem_cons_of_mem _ (by simp)) hd
  exact ⟨entry, m, rest.take 6, rest.drop 6, d', hentry, small, hchunks, htokens, hdecl, hmain,
    (hkept.mpr (by simp [hlost]) ds hds).subset hd'⟩

/-- A source in which a class is cut off where the next one starts. -/
def cutOff : Bytes :=
  "class M\x7bpublic static void main(String[] a)\x7b\x7d\x7dclass A\x7bclass B\x7b\x7d"

/-- The class behind the one that is cut off is whole, but nothing is kept. -/
theorem whole_class_lost :
    ∃ entry m c c' d, MainOf (ExpAt 0) entry m ∧ Small entry ∧ (∀ x ∈ [c, c'], Chunk x) ∧
      (TokenStream.ofSource cutOff).pending = entry ++ [c, c'].flatten ∧
      Declares c' d ∧ (Program.parse cutOff).program.main = some m ∧
      (Program.parse cutOff).program.classes = [] := by
  let rest := (TokenStream.ofSource cutOff).pending.drop 16
  obtain ⟨entry, m, hentry, small, htokens, hmain⟩ :=
    exists_entry cutOff [rest.take 3, rest.drop 3].flatten (by decide +kernel)
  obtain ⟨d, hd⟩ := exists_declares (rest.drop 3) (by decide +kernel)
  have hchunks : ∀ x ∈ [rest.take 3, rest.drop 3], Chunk x := by decide +kernel
  have hnothing : (Program.parse cutOff).program.classes.isEmpty := by decide +kernel
  exact ⟨entry, m, rest.take 3, rest.drop 3, d, hentry, small, hchunks, htokens, hd, hmain,
    List.isEmpty_iff.mp hnothing⟩

end MiniJava.Parse
