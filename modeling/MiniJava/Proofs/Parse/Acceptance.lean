import MiniJava.Proofs.Grammar.Strata
import MiniJava.Proofs.Parse.Complete.Program
import MiniJava.Proofs.Parse.Sound.Program

/-!
# Sources that are read without complaint

A source is read without complaint exactly when its tokens, up to the first `eof`, are a program
of the grammar and its integer literals are small; and what is read then is the one tree that the
grammar in strata gives it.

* **`TokenStream.sentence`** — the tokens that count.
* **`ofTokens_eq_iff`** — reading and the grammar in strata agree on trees.
* **`parse_accepts_exactly_grammar`** — the whole statement, for sources.
-/

namespace MiniJava

/-- The tokens in front of the first `eof`. -/
def TokenStream.sentence (s : TokenStream) : List Token := s.pending.takeWhile (·.kind != .eof)

namespace Parse

open Grammar

/-! ### Where a program ends -/

/-- No token of a phrase is `eof`. -/
def NoEof (ts : List Token) : Prop := ∀ t ∈ ts, t.kind ≠ .eof

theorem noEof_append {ts us : List Token} : NoEof (ts ++ us) ↔ NoEof ts ∧ NoEof us := by
  simp only [NoEof, List.mem_append, or_imp, forall_and]

theorem noEof_cons {t : Token} {ts : List Token} :
    NoEof (t :: ts) ↔ t.kind ≠ .eof ∧ NoEof ts := by
  simp only [NoEof, List.mem_cons, forall_eq_or_imp]

theorem noEof_of_kinds {ts : List Token} (h : .eof ∉ kinds ts) : NoEof ts := by
  intro t ht hk
  exact h (hk ▸ List.mem_map_of_mem ht)

theorem noEof_operator {k : Nat} {op : BinaryOp} {t : Token} (h : Operator k t.kind op) :
    t.kind ≠ .eof := by
  intro ht
  rw [ht] at h
  cases h

mutual

theorem noEof_expAt {k : Nat} {ts : List Token} {e : Expr} : ExpAt k ts e → NoEof ts
  | .tighter h => noEof_expAt h
  | .binary h hop h' =>
    noEof_append.mpr ⟨noEof_expAt h, noEof_cons.mpr ⟨noEof_operator hop, noEof_expAt h'⟩⟩
  | .not ht h => noEof_cons.mpr ⟨by simp [ht], noEof_expAt h⟩
  | .atom h => noEof_of_kinds (by cases h <;> simp_all [kinds])
  | .paren ht h hu => by
    simp only [noEof_append, noEof_cons]
    exact ⟨⟨by simp [ht], noEof_expAt h⟩, by simp [hu], noEof_of_kinds (by simp [kinds])⟩
  | .newArray hk h hu => by
    simp only [noEof_append]
    exact ⟨⟨noEof_of_kinds (by simp [hk]), noEof_expAt h⟩, noEof_of_kinds (by simp [kinds, hu])⟩
  | .newObject hk => noEof_of_kinds (by simp [hk])
  | .index h ht h' hu => by
    simp only [noEof_append, noEof_cons]
    exact ⟨noEof_expAt h, ⟨by simp [ht], noEof_expAt h'⟩, by simp [hu],
      noEof_of_kinds (by simp [kinds])⟩
  | .length h hk => noEof_append.mpr ⟨noEof_expAt h, noEof_of_kinds (by simp [hk])⟩
  | .call h hk hs hr => by
    simp only [noEof_append]
    exact ⟨noEof_expAt h, ⟨noEof_of_kinds (by simp [hk]), noEof_argsAt hs⟩,
      noEof_of_kinds (by simp [kinds, hr])⟩

theorem noEof_argsAt {us : List Token} {es : List Expr} : ArgsAt us es → NoEof us
  | .none => noEof_of_kinds (by simp [kinds])
  | .some h hs => noEof_append.mpr ⟨noEof_expAt h, noEof_moreArgsAt hs⟩

theorem noEof_moreArgsAt {us : List Token} {es : List Expr} : MoreArgsAt us es → NoEof us
  | .none => noEof_of_kinds (by simp [kinds])
  | .some ht h hs =>
    noEof_append.mpr ⟨noEof_cons.mpr ⟨by simp [ht], noEof_expAt h⟩, noEof_moreArgsAt hs⟩

end

mutual

theorem noEof_stmtOf {ts : List Token} {s : Stmt} : StmtOf (ExpAt 0) ts s → NoEof ts
  | .block ht hs hu => by
    simp only [noEof_append, noEof_cons]
    exact ⟨⟨by simp [ht], noEof_stmtsOf hs⟩, by simp [hu], noEof_of_kinds (by simp [kinds])⟩
  | .cond hk hc hr ha hw hb => by
    simp only [noEof_append, noEof_cons]
    exact ⟨⟨⟨⟨by simp_all [kinds], by simp_all [kinds], noEof_of_kinds (by simp [kinds])⟩,
      noEof_expAt hc⟩, by simp [hr], noEof_stmtOf ha⟩, by simp [hw], noEof_stmtOf hb⟩
  | .loop hk hc hr hb => by
    simp only [noEof_append, noEof_cons]
    exact ⟨⟨⟨by simp_all [kinds], by simp_all [kinds], noEof_of_kinds (by simp [kinds])⟩,
      noEof_expAt hc⟩, by simp [hr], noEof_stmtOf hb⟩
  | .print ho he hk => by
    obtain ⟨s, d, o, e, p, l, hts, hopen, -⟩ := ho
    refine noEof_append.mpr ⟨noEof_append.mpr ⟨noEof_of_kinds ?_, noEof_expAt he⟩,
      noEof_of_kinds (by simp [hk])⟩
    rw [hopen]
    decide
  | .assign hk he hs => by
    simp only [noEof_append]
    exact ⟨⟨noEof_of_kinds (by simp [hk]), noEof_expAt he⟩, noEof_of_kinds (by simp [kinds, hs])⟩
  | .assignElem hk hi hk' he hs => by
    simp only [noEof_append]
    exact ⟨⟨⟨⟨noEof_of_kinds (by simp [hk]), noEof_expAt hi⟩, noEof_of_kinds (by simp [hk'])⟩,
      noEof_expAt he⟩, noEof_of_kinds (by simp [kinds, hs])⟩

theorem noEof_stmtsOf {ts : List Token} {ss : List Stmt} : StmtsOf (ExpAt 0) ts ss → NoEof ts
  | .none => noEof_of_kinds (by simp [kinds])
  | .some h hs => noEof_append.mpr ⟨noEof_stmtOf h, noEof_stmtsOf hs⟩

end

theorem noEof_typeOf {ts : List Token} {type : TypeRef} (h : TypeOf ts type) : NoEof ts := by
  refine noEof_of_kinds ?_
  cases h with
  | intArray hk => simp [hk]
  | _ => simp_all [kinds]

theorem noEof_typedName {ts : List Token} {d : VarDecl} (h : TypedName ts d) : NoEof ts := by
  cases h with
  | mk h hx => exact noEof_append.mpr ⟨noEof_typeOf h, noEof_of_kinds (by simp [kinds, hx])⟩

theorem noEof_decls {ts : List Token} {ds : List VarDecl} (h : Decls ts ds) : NoEof ts := by
  induction h with
  | none => exact noEof_of_kinds (by simp [kinds])
  | some hd ht _ ih =>
    exact noEof_append.mpr ⟨noEof_typedName hd, noEof_cons.mpr ⟨by simp [ht], ih⟩⟩

theorem noEof_moreParams {ts : List Token} {ds : List VarDecl} (h : MoreParams ts ds) :
    NoEof ts := by
  induction h with
  | none => exact noEof_of_kinds (by simp [kinds])
  | some ht hd _ ih =>
    exact noEof_append.mpr ⟨noEof_cons.mpr ⟨by simp [ht], noEof_typedName hd⟩, ih⟩

theorem noEof_params {ts : List Token} {ds : List VarDecl} (h : Params ts ds) : NoEof ts := by
  cases h with
  | none => exact noEof_of_kinds (by simp [kinds])
  | some hd hs => exact noEof_append.mpr ⟨noEof_typedName hd, noEof_moreParams hs⟩

theorem noEof_methodsOf {ts : List Token} {ms : List MethodDecl} (h : MethodsOf (ExpAt 0) ts ms) :
    NoEof ts := by
  induction h with
  | none => exact noEof_of_kinds (by simp [kinds])
  | some h _ ih =>
    refine noEof_append.mpr ⟨?_, ih⟩
    cases h with
    | mk ht htype hm hps hr hds hss hw he hs =>
      simp only [noEof_append]
      exact ⟨⟨⟨⟨⟨⟨⟨noEof_cons.mpr ⟨by simp [ht], noEof_typeOf htype⟩,
        noEof_of_kinds (by simp [hm])⟩, noEof_params hps⟩, noEof_of_kinds (by simp [hr])⟩,
        noEof_decls hds⟩, noEof_stmtsOf hss⟩, noEof_cons.mpr ⟨by simp [hw], noEof_expAt he⟩⟩,
        noEof_of_kinds (by simp [hs])⟩

theorem noEof_parentOf {ts : List Token} {p : Option Ident} (h : ParentOf ts p) : NoEof ts := by
  cases h with
  | none => exact noEof_of_kinds (by simp [kinds])
  | some hk => exact noEof_of_kinds (by simp [hk])

theorem noEof_classesOf {ts : List Token} {cs : List ClassDecl} (h : ClassesOf (ExpAt 0) ts cs) :
    NoEof ts := by
  induction h with
  | none => exact noEof_of_kinds (by simp [kinds])
  | some h _ ih =>
    refine noEof_append.mpr ⟨?_, ih⟩
    cases h with
    | mk hk hp hb hfs hms hu =>
      simp only [noEof_append]
      exact ⟨⟨⟨⟨noEof_of_kinds (by simp [hk]), noEof_parentOf hp⟩,
        noEof_cons.mpr ⟨by simp [hb], noEof_decls hfs⟩⟩, noEof_methodsOf hms⟩,
        noEof_of_kinds (by simp [kinds, hu])⟩

theorem noEof_programOf {ts : List Token} {p : Program} (h : ProgramOf (ExpAt 0) ts p) :
    NoEof ts := by
  cases h with
  | mk hm hcs =>
    refine noEof_append.mpr ⟨?_, noEof_classesOf hcs⟩
    cases hm with
    | mk hk hh ha hps hds hss hus =>
      simp only [noEof_append]
      exact ⟨⟨⟨⟨⟨noEof_of_kinds (by simp [hk]), noEof_of_kinds (by simp [hh])⟩,
        noEof_cons.mpr ⟨by simp [ha], noEof_of_kinds (by simp [hps])⟩⟩, noEof_decls hds⟩,
        noEof_stmtsOf hss⟩, noEof_of_kinds (by simp [hus])⟩

/-- Tokens without `eof` in front of one are the sentence. -/
theorem takeWhile_sentence {ts rest : List Token} (h : NoEof ts) (hrest : frontKind rest = .eof) :
    (ts ++ rest).takeWhile (·.kind != .eof) = ts := by
  rw [List.takeWhile_append_of_pos (by simpa [NoEof] using h)]
  cases rest with
  | nil => simp
  | cons t rest => simp [show t.kind = .eof from hrest]

/-- After the sentence comes `eof`. -/
theorem exists_sentence (s : TokenStream) :
    ∃ rest, s.pending = s.sentence ++ rest ∧ frontKind rest = .eof := by
  refine ⟨s.pending.dropWhile (·.kind != .eof), List.takeWhile_append_dropWhile.symm, ?_⟩
  cases hdrop : s.pending.dropWhile (·.kind != .eof) with
  | nil => rfl
  | cons t rest =>
    have hhead := List.head?_dropWhile_not (fun t : Token => t.kind != .eof) s.pending
    rw [hdrop] at hhead
    simpa using hhead

/-! ### Acceptance -/

/-- Reading gives a tree without complaint exactly when the grammar in strata does. -/
theorem ofTokens_eq_iff (s : TokenStream) (p : Program) :
    Program.ofTokens s = ⟨p, []⟩ ↔ ProgramOf (ExpAt 0) s.sentence p ∧ Small s.sentence := by
  constructor
  · intro h
    obtain ⟨ts, rest, hpending, hrest, hp, small⟩ := programOf_of_ofTokens (by rw [h])
    have hts : s.sentence = ts := by
      rw [TokenStream.sentence, hpending, takeWhile_sentence (noEof_programOf hp) hrest]
    rw [hts]
    rw [h] at hp
    exact ⟨hp, small⟩
  · rintro ⟨hp, small⟩
    obtain ⟨rest, hpending, hrest⟩ := exists_sentence s
    obtain ⟨pending, fin⟩ := s
    replace hpending : pending = TokenStream.sentence ⟨pending, fin⟩ ++ rest := hpending
    have hread := ofTokens_of_programOf hp small hrest fin
    rw [← hpending] at hread
    exact hread

/-- Having a tree in strata and having one without precedence come to the same. -/
theorem exists_programOf_iff (ts : List Token) :
    (∃ p, ProgramOf Exp ts p) ↔ ∃ p, ProgramOf (ExpAt 0) ts p := by
  constructor
  · rintro ⟨p, hp⟩
    exact hp.transfer fun ts e he => exists_expAt_of_exp he
  · rintro ⟨p, hp⟩
    exact hp.transfer fun ts e he => ⟨e, exp_of_expAt he⟩

/-- A source is read without complaint exactly when its tokens up to the first `eof` are a program
of the grammar with small integer literals; and the tree that is read without complaint is the
only one that the grammar in strata has for them. -/
theorem parse_accepts_exactly_grammar (source : Bytes) :
    ((Program.parse source).errors = [] ↔
      (∃ p, ProgramOf Exp (TokenStream.ofSource source).sentence p) ∧
        Small (TokenStream.ofSource source).sentence) ∧
    ∀ p, Program.parse source = ⟨p, []⟩ ↔
      ProgramOf (ExpAt 0) (TokenStream.ofSource source).sentence p ∧
        Small (TokenStream.ofSource source).sentence := by
  refine ⟨?_, ofTokens_eq_iff (TokenStream.ofSource source)⟩
  rw [exists_programOf_iff]
  constructor
  · intro h
    have hparse : Program.parse source = ⟨(Program.parse source).program, []⟩ := by rw [← h]
    obtain ⟨hp, small⟩ := (ofTokens_eq_iff _ _).mp hparse
    exact ⟨⟨_, hp⟩, small⟩
  · rintro ⟨⟨p, hp⟩, small⟩
    have hparse : Program.parse source = ⟨p, []⟩ := (ofTokens_eq_iff _ _).mpr ⟨hp, small⟩
    rw [hparse]

end Parse

end MiniJava
