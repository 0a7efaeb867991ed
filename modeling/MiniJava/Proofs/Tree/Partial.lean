import MiniJava.Proofs.Compile.Acceptance
import MiniJava.Proofs.Parse.Rounds
import MiniJava.Proofs.Tree.RoundTrip

/-!
# What is kept of any source

Whatever is kept of a source, with errors or without, is whole: nothing is missing in it.  What is
not kept has been complained about, so that a source without errors has lost nothing, and the
later stages never come across a hole.

* **`Rounds.exists_phrase`** — every class that is kept is a phrase of the source.
* **`ReadersHonest`** — no reader gives up in silence.
* **`parse_keeps_whole_nodes`** — the whole statement.
-/

namespace MiniJava

namespace Parse

open Grammar

/-! ### What rounds keep -/

/-- A class that a round keeps is a phrase of the tokens that were to come. -/
theorem exists_phrase_of_turn {s : ParseState} {c : ClassDecl} (h : (turn s).1 = some c) :
    ∃ ts, ts ⊆ s.input.pending ∧ ClassOf (ExpAt 0) ts c ∧ Small ts := by
  obtain ⟨⟨pending, fin⟩, errs⟩ := s
  cases turn_spec fin pending with
  | keeps d left _ _ fst _ =>
    have hturn := fst errs
    obtain ⟨ts, hts, hd, small⟩ := turn_keeps hturn
    obtain rfl : d = c := Option.some.inj ((congrArg Prod.fst hturn).symm.trans h)
    exact ⟨ts, by rw [hts]; exact List.subset_append_left _ _, hd, small⟩
  | skips e left _ fst _ => cases (congrArg Prod.fst (fst errs)).symm.trans h

/-- Every class that is kept is a phrase of the tokens that were to come. -/
theorem Rounds.exists_phrase {s s' : ParseState} {kept : List (Option ClassDecl)}
    (h : Rounds s kept s') {c : ClassDecl} (hc : some c ∈ kept) :
    ∃ ts, ts ⊆ s.input.pending ∧ ClassOf (ExpAt 0) ts c ∧ Small ts := by
  induction h with
  | done => cases hc
  | @step s s' kept _ _ ih =>
    rcases List.mem_cons.mp hc with hc | hc
    · exact exists_phrase_of_turn hc.symm
    · obtain ⟨ts, hts, hclass, small⟩ := ih hc
      have hsubset := (turn_spec s.input.finish s.input.pending).subset s.errors
      exact ⟨ts, List.Subset.trans hts hsubset, hclass, small⟩

/-! ### Complaints -/

/-- No reader gives up in silence, and none complains of what it reads.  The readers that start
with a step are not called on a landmark, and no bound is below the number of tokens to come. -/
structure ReadersHonest : Prop where
  expect : ∀ s k, Honest (expect k) s
  expectWord : ∀ s w, Honest (expectWord w) s
  expectIdent : ∀ s, Honest expectIdent s
  expectAll : ∀ s ks, Honest (expectAll ks) s
  arguments : ∀ s n, Clear s.input.pending → s.input.pending.length ≤ n →
    Honest (arguments (expression n) n) s
  creation : ∀ s n, Clear s.input.pending → s.input.pending.length ≤ n →
    Honest (creation (expression n)) s
  operand : ∀ s n, s.input.pending.length ≤ n → Honest (operand (expression n)) s
  extend : ∀ s n left, Clear s.input.pending → s.input.pending.length ≤ n →
    Honest (extend (expression n) n left) s
  climb : ∀ s n level left, 1 ≤ level → Clear s.input.pending → s.input.pending.length ≤ n →
    Honest (climb (expression n) level n (n + 1) left) s
  expression : ∀ s n level, 1 ≤ level → s.input.pending.length < n →
    Honest (Parse.expression n level) s
  statementsUntil : ∀ s n stop, s.input.pending.length < n →
    Honest (statementsUntil (statement n) stop n) s
  statement : ∀ s n, s.input.pending.length < n → Honest (Parse.statement n) s
  typeRef : ∀ s, Honest typeRef s
  typedName : ∀ s, Honest typedName s
  varDecls : ∀ s n, s.input.pending.length < n → Honest (varDecls n) s
  params : ∀ s n, Clear s.input.pending → s.input.pending.length ≤ n → Honest (params n) s
  methodDecl : ∀ s n, Clear s.input.pending → s.input.pending.length ≤ n →
    Honest (methodDecl n) s
  methodDecls : ∀ s n, s.input.pending.length < n → Honest (methodDecls n) s
  parent : ∀ s, Clear s.input.pending → Honest parent s
  classDecl : ∀ s n, s.input.pending ≠ [] → s.input.pending.length ≤ n → Honest (classDecl n) s
  mainClass : ∀ s n, s.input.pending ≠ [] → s.input.pending.length ≤ n → Honest (mainClass n) s

/-- Readers of nested expressions are in step with themselves. -/
theorem inStep_expression (fin : Position) (n : Nat) :
    InStep (expression n) (expression n) fin n :=
  fun _ _ hlevel hlt => expression_proceeds hlevel hlt hlt

theorem readersHonest : ReadersHonest where
  expect s k := honest_expect k s
  expectWord s w := honest_expectWord w s
  expectIdent s := honest_expectIdent s
  expectAll s ks := honest_expectAll ks s
  arguments s n hclear hn :=
    (arguments_proceeds (inStep_expression s.input.finish n) hclear hn hn hn).honest s.errors
  creation s n hclear hn :=
    (creation_proceeds (inStep_expression s.input.finish n) hclear hn).honest s.errors
  operand s n hn := (operand_proceeds (inStep_expression s.input.finish n) hn).honest s.errors
  extend s n left hclear hn :=
    (extend_proceeds (inStep_expression s.input.finish n) hclear hn hn hn left).honest s.errors
  climb s n level left hlevel hclear hn :=
    (climb_proceeds (inStep_expression s.input.finish n) hlevel hclear hn hn hn
      (Nat.le_succ_of_le hn) (Nat.le_succ_of_le hn) left).honest s.errors
  expression s n level hlevel hn := (expression_proceeds hlevel hn hn).honest s.errors
  statementsUntil s n stop hn :=
    (statementsUntil_proceeds (fun _ hle => statement_proceeds (Nat.lt_of_le_of_lt hle hn)
      (Nat.lt_of_le_of_lt hle hn)) hn hn).honest s.errors
  statement s n hn := (statement_proceeds hn hn).honest s.errors
  typeRef s := typeRef_proceeds.honest s.errors
  typedName s := typedName_proceeds.honest s.errors
  varDecls s n hn := (varDecls_proceeds hn hn).honest s.errors
  params s n hclear hn := (params_proceeds hclear hn hn).honest s.errors
  methodDecl s n hclear hn := (methodDecl_proceeds hclear hn hn).honest s.errors
  methodDecls s n hn := (methodDecls_proceeds hn hn).honest s.errors
  parent s hclear := (parent_proceeds hclear).honest s.errors
  classDecl := by
    rintro ⟨⟨pending, fin⟩, errs⟩ n hne hn
    obtain ⟨t, rest, rfl⟩ := List.exists_cons_of_ne_nil hne
    exact (classDecl_opens hn hn).honest errs
  mainClass := by
    rintro ⟨⟨pending, fin⟩, errs⟩ n hne hn
    obtain ⟨t, rest, rfl⟩ := List.exists_cons_of_ne_nil hne
    exact (mainClass_opens hn hn).honest errs

end Parse

/-! ### Whole sources -/

open Grammar Parse

/-- Small phrases of the tokens of a source are genuine. -/
theorem genuine_of_subset {source : Bytes} {ts : List Token} (small : Small ts)
    (h : ts ⊆ (TokenStream.ofSource source).pending) : Genuine ts :=
  fun t ht => ⟨spelled_of_mem_ofSource (h ht), small t ht⟩

/-- The text of a tree that can be written is read without complaint, as a tree that differs from
it in places only. -/
theorem parse_text_of_written {p : Program} (h : p.Written) :
    (Program.parse p.text).errors = [] ∧
      (Program.parse p.text).program.unplaced = p.unplaced := by
  obtain ⟨ts, hsealed, hphrase, small⟩ := Program.text_says h
  have hscan : scan p.text = ts := by simpa using hsealed []
  have hwords : (TokenStream.ofSource p.text).pending.map Token.unplaced =
      ts.map Token.unplaced := by
    rw [← hscan, ← map_unplaced_ofSource, List.map_map]
    rfl
  obtain ⟨hprogram, hcomplaints⟩ := @ofTokens_alike _ ⟨ts, .start⟩ hwords
  rw [ofTokens_phrase hphrase small .start] at hprogram hcomplaints
  exact ⟨List.map_eq_nil_iff.mp hcomplaints, hprogram.trans (Program.unplaced_unplaced _)⟩

/-- Everything that is kept of a source can be written. -/
theorem written_of_kept (source : Bytes) :
    (∀ m, (Program.parse source).program.main = some m → m.Written) ∧
      ∀ c ∈ (Program.parse source).program.classes, c.Written := by
  obtain ⟨kept, last, hrounds, hparse⟩ := ofTokens_rounds (TokenStream.ofSource source)
  replace hparse : Program.parse source = _ := hparse
  rw [hparse]
  constructor
  · intro m hm
    obtain ⟨ts, hts, hmain, small⟩ := opening_keeps (Prod.ext hm rfl)
    have hsubset : ts ⊆ (TokenStream.ofSource source).pending :=
      fun t ht => hts ▸ List.mem_append_left _ ht
    exact written_of_mainOf hmain (genuine_of_subset small hsubset)
  · intro c hc
    obtain ⟨ts, hts, hclass, small⟩ := hrounds.exists_phrase (List.reduceOption_mem_iff.mp hc)
    have hsubset := (opening_spec (TokenStream.ofSource source).finish
      (TokenStream.ofSource source).pending).subset []
    exact written_of_classOf hclass (genuine_of_subset small (List.Subset.trans hts hsubset))

/-- What is kept of any source is whole, and what is not kept has been complained about.

* Nothing is missing in the entry class and in the classes that are kept.
* A reader that gives up notes a complaint, and a round that keeps nothing is one error; so without
  an entry class there is an error, and without an error the program is all that the source says.
* The text of what is kept is a program's text, with any entry class in front of it.
* Without an error the generator does not come across a hole. -/
theorem parse_keeps_whole_nodes (source : Bytes) :
    (∀ m, (Program.parse source).program.main = some m → m.Written) ∧
    (∀ c ∈ (Program.parse source).program.classes, c.Written) ∧
    ReadersHonest ∧
    (∃ kept last, Rounds (opening ⟨TokenStream.ofSource source, []⟩).2 kept last ∧
      Program.parse source =
        ⟨⟨(opening ⟨TokenStream.ofSource source, []⟩).1, kept.reduceOption⟩, last.errors⟩ ∧
      (Program.parse source).errors.length =
        (opening ⟨TokenStream.ofSource source, []⟩).1.isNone.toNat + kept.countP (·.isNone)) ∧
    ((Program.parse source).program.main = none → (Program.parse source).errors ≠ []) ∧
    ((Program.parse source).errors = [] → (Program.parse source).program.Written ∧
      ProgramOf (ExpAt 0) (TokenStream.ofSource source).sentence (Program.parse source).program) ∧
    (∀ m : MainClass, m.Written →
      (Program.parse (Program.text ⟨some m, (Program.parse source).program.classes⟩)).errors = [] ∧
      (Program.parse
          (Program.text ⟨some m, (Program.parse source).program.classes⟩)).program.unplaced =
        Program.unplaced ⟨some m, (Program.parse source).program.classes⟩) ∧
    ((Program.parse source).errors = [] →
      ∀ t, ClassTable.build (Program.parse source).program = .ok t → ∀ (g : Generator) e,
        (g.generate (Program.parse source).program t).1 = .error e →
        e.cause.kind ≠ .unsupportedNode) := by
  obtain ⟨hmain, hclasses⟩ := written_of_kept source
  obtain ⟨kept, last, hrounds, hparse⟩ := ofTokens_rounds (TokenStream.ofSource source)
  replace hparse : Program.parse source = _ := hparse
  have hcount := hrounds.length_errors
  refine ⟨hmain, hclasses, readersHonest, ⟨kept, last, hrounds, hparse, by rw [hparse, hcount]⟩,
    fun hnone herrors => ?_, fun herrors => ⟨written_of_parse herrors,
      (programOf_of_parse herrors).1⟩, fun m hm => parse_text_of_written ⟨⟨m, rfl, hm⟩, hclasses⟩,
    fun herrors t hbuild g e he hkind => ?_⟩
  · rw [hparse] at hnone herrors
    replace hnone : (opening ⟨TokenStream.ofSource source, []⟩).1 = none := hnone
    replace herrors : last.errors = [] := herrors
    rw [hnone, herrors] at hcount
    simp only [Option.isNone_none, Bool.toNat_true, List.length_nil] at hcount
    omega
  · have hwritten := written_of_parse herrors
    obtain ⟨m, hprogram, -⟩ := hwritten.main
    obtain ⟨rfl, -⟩ := ClassTable.build_spec hprogram hbuild
    obtain ⟨g', herror⟩ := program_of_generate_error he
    have hmem := failsWell_program hprogram hwritten _ _ e g' herror
    rw [hkind] at hmem
    exact absurd hmem (by decide)

end MiniJava
