import MiniJava.Proofs.Compile.Acceptance
import MiniJava.Proofs.Token.Places

/-!
# Errors point at the source

Where a source that is read without complaint has an error, the line and the column of the error lead
to the text that it is about: to the name that is declared wrongly, or to the token of the node that
no code can be generated for.

* **`GenErrorCause.word?`** — the word that is wrong, where the error says which.
* **`DeclError.SitedIn.pointsAt`** — errors in declarations.
* **`GenError.BlamedOn.pointsAt`** — errors in bodies.
* **`static_errors_point_at_source`** — the errors of a source.
-/

namespace MiniJava

open Gen ClassTable

/-- The word that is wrong, where the error says which: the name that means nothing, the name of the
method that is called, the start of the operation that does not fit. -/
def GenErrorCause.word? : GenErrorCause → Option Bytes
  | .unresolved name _ _ => some name
  | .notInstantiable className => some className
  | .undeclaredClass className => some className
  | .noMethod _ method => some method
  | .undeclaredMethod _ method => some method
  | .noMain className => some className
  | .thisInMain _ => some "this"
  | .arity _ method _ _ => some method
  | .notObject method _ => some method
  | .notIndexable _ => some "["
  | .noLength _ => some "length"
  | .notArray name _ => some name
  | _ => none

/-- The word that is wrong is the one that the node is reported at. -/
theorem GenErrorCause.Blames.literal_eq {cause : GenErrorCause} {site : Expr}
    (h : cause.Blames site) (hw : site.Written) {word : Bytes} (hword : cause.word? = some word) :
    site.literal = word := by
  have hcall : ∀ {t : Token} {recv : Expr} {m : Ident} {args : List Expr},
      (Expr.call t recv m args).Written → t.literal = m.name := by
    rintro t recv m args ⟨rfl, -, hm, -⟩
    exact hm.literal
  cases h with
  | unresolved x | notInstantiable x | undeclaredClass x | noMethod _ x | undeclaredMethod _ x
  | noMain x | notArray x =>
    exact (Ident.Written.literal hw).trans (Option.some.inj hword)
  | arity | notObject => exact (hcall hw).trans (Option.some.inj hword)
  | thisInMain => exact (congrArg Token.literal hw).trans (Option.some.inj hword)
  | notIndexable | noLength => exact (congrArg Token.literal hw.1).trans (Option.some.inj hword)
  | unknownReceiver | duplicateLabel | missingExpression | missingStatement | unknownUnary
  | unknownBinary => cases hword

section Errors

variable {source : Bytes} {ts : List Token}

theorem pointsAt_of_mem_ofSource {t : Token} (h : t ∈ (TokenStream.ofSource source).pending)
    (hkind : t.kind ≠ .illegal) : PointsAt source t.line t.column t.literal := by
  obtain ⟨offset, hoffset⟩ := standsAt_of_mem_ofSource h hkind
  exact hoffset.pointsAt

theorem DeclError.SitedIn.pointsAt {e : DeclError} (h : e.SitedIn ts)
    (hts : ts ⊆ (TokenStream.ofSource source).pending) :
    PointsAt source e.line e.column e.name := by
  obtain ⟨kind, t, ht, hident, rfl⟩ := h
  exact pointsAt_of_mem_ofSource (hts ht) (ne_of_eq_of_ne hident nofun)

/-- An error is at the place of the token of its node. -/
theorem GenError.place_atExpr (cause : GenErrorCause) {site : Expr} {t : Token}
    (htoken : site.token? = some t) (hplaced : t.isPlaced) :
    (GenError.atExpr cause site).line = t.line ∧ (GenError.atExpr cause site).column = t.column := by
  simp only [GenError.atExpr, htoken, hplaced, if_true, and_self]

/-- The token of the node that is blamed is one of the source, and the error is at its place. -/
theorem GenError.BlamedOn.pointsAt {e : GenError} {ns : List Expr} (h : e.BlamedOn ns)
    (hns : ReportedAmong ts ns) (hts : ts ⊆ (TokenStream.ofSource source).pending) :
    ∃ site ∈ ns, e.cause.Blames site ∧ (∀ word, e.cause.word? = some word → site.literal = word) ∧
      ∃ t ∈ (TokenStream.ofSource source).pending,
        t.literal = site.literal ∧ t.line = e.line ∧ t.column = e.column ∧
          PointsAt source e.line e.column site.literal := by
  obtain ⟨site, hsite, hblames, he⟩ := h
  obtain ⟨hwritten, t, ht, htoken⟩ := hns site hsite
  have hliteral : t.literal = site.literal := by
    rw [Expr.literal, htoken]
  obtain ⟨hline, hcolumn⟩ :=
    GenError.place_atExpr e.cause htoken (isPlaced_of_mem_ofSource (hts ht))
  rw [← he] at hline hcolumn
  refine ⟨site, hsite, hblames, fun _ => hblames.literal_eq hwritten, t, hts ht, hliteral,
    hline.symm, hcolumn.symm, ?_⟩
  rw [hline, hcolumn, ← hliteral]
  exact pointsAt_of_mem_ofSource (hts ht) (hwritten.legal htoken)

end Errors

/-- For a source that is read without complaint: an error in its declarations points at the name it
is about, and where its declarations are right, an error in generating code points at the token of
the node it is the fault of, which is the word that the error says is wrong. -/
theorem static_errors_point_at_source {source : Bytes}
    (hread : (Program.parse source).errors = []) :
    (∀ e, build (Program.parse source).program = .error e →
      PointsAt source e.line e.column e.name) ∧
    ∀ t, build (Program.parse source).program = .ok t → ∀ (g : Generator) e,
      (g.generate (Program.parse source).program t).1 = .error e →
      ∃ site ∈ (Program.parse source).program.nodes, e.cause.Blames site ∧
        (∀ word, e.cause.word? = some word → site.literal = word) ∧
        ∃ t ∈ (TokenStream.ofSource source).pending,
          t.literal = site.literal ∧ t.line = e.line ∧ t.column = e.column ∧
            PointsAt source e.line e.column site.literal := by
  have hwritten := written_of_parse hread
  have htokens := tokens_of_parse hread
  obtain ⟨m, hmain, -⟩ := hwritten.main
  constructor
  · intro e he
    exact (sited_build hwritten e he).pointsAt htokens
  · intro t ht g e he
    obtain ⟨rfl, -⟩ := build_spec hmain ht
    obtain ⟨g', herror⟩ := program_of_generate_error he
    exact (blamed_program hmain rfl _ e g' herror).pointsAt hwritten.reported htokens

/-- A program with a variable of a class that there is not. -/
def misdeclaring : Bytes :=
  "class A\x7bpublic static void main(String[] a)\x7b\n  int x;B y;\x7d\x7d"

/-- A program that calls a method with one argument too many. -/
def miscalling : Bytes :=
  "class A\x7bpublic static void main(String[] a)\x7b\n  System.out.println(new B().m(1));\x7d\x7d" ++
    "class B\x7bpublic int m()\x7breturn 0;\x7d\x7d"

theorem static_errors_point_at_source_two :
    build (Program.parse misdeclaring).program = .error ⟨.unknownType, "B", 2, 9⟩ ∧
      PointsAt misdeclaring 2 9 "B" ∧
      ∃ t, build (Program.parse miscalling).program = .ok t ∧
        (Generator.fresh.generate (Program.parse miscalling).program t).1 =
          .error ⟨.arity "B" "m" 0 1, "new B().m(1)", 2, 30⟩ ∧ PointsAt miscalling 2 30 "m" := by
  have hread : (Program.parse misdeclaring).errors = [] := by decide +kernel
  have hread' : (Program.parse miscalling).errors = [] := by decide +kernel
  have hbuild : build (Program.parse misdeclaring).program =
      .error ⟨.unknownType, "B", 2, 9⟩ := by decide +kernel
  have hcheck : (build (Program.parse miscalling).program).toOption.any fun t =>
      (Generator.fresh.generate (Program.parse miscalling).program t).1 =
        .error ⟨.arity "B" "m" 0 1, "new B().m(1)", 2, 30⟩ := by decide +kernel
  refine ⟨hbuild, (static_errors_point_at_source hread).1 _ hbuild, ?_⟩
  cases ht : build (Program.parse miscalling).program with
  | error e =>
    rw [ht] at hcheck
    cases hcheck
  | ok t =>
    rw [ht] at hcheck
    simp only [Except.toOption, Option.any_some, decide_eq_true_eq] at hcheck
    obtain ⟨site, -, -, hword, -, -, -, -, -, hpoints⟩ :=
      (static_errors_point_at_source hread').2 t ht _ _ hcheck
    rw [hword "m" rfl] at hpoints
    exact ⟨t, rfl, hcheck, hpoints⟩

end MiniJava
