import MiniJava.Proofs.Compile.Bodies
import MiniJava.Proofs.Compile.Sites

/-!
# Programs that are compiled

A generator yields code exactly for the programs whose bodies mean something and whose methods
have labels of their own.

* **`nodup_entryLabels_iff`** — when methods have labels of their own.
* **`program_succeeds_iff`** — when there is code.
* **`failsWell_program`** — what is wrong where there is none.
* **`generate_accepts_exactly`** — the whole statement.
-/

namespace MiniJava

open Gen ClassTable

/-! ### Declarations -/

section Declarations

variable {m : MainClass} {cs : List ClassDecl}

theorem proper_of_mainCode (hw : WellDeclared m cs) (hm : m.Written) {n n' : Nat} {code : Code}
    (h : MainCode (tableOf m cs) m.info n m code n') : AllProper m cs m.context m.body := by
  cases h with
  | mk hinfo hbody => exact allProper_of_stmtsCode hw (agrees_main hw hinfo) hbody hm.body

theorem proper_of_methodsCode (hw : WellDeclared m cs) {c : ClassDecl} (hc : c ∈ cs)
    (hwritten : c.Written) {k n n' : Nat} {ds : List MethodDecl} {code : Code}
    (h : MethodsCode (tableOf m cs) (c.info cs k) n ds code n') (hsub : ds ⊆ c.methods) :
    ∀ d ∈ ds, AllProper m cs (d.context c) d.body ∧
      ∃ type, HasType m cs (d.context c) d.result type := by
  induction h with
  | nil => exact fun d hd => nomatch hd
  | cons hfirst _ ih =>
    obtain ⟨hd, hrest⟩ := List.cons_subset.mp hsub
    refine List.forall_mem_cons.mpr ⟨?_, ih hrest⟩
    cases hfirst with
    | mk hown hbody hresult =>
      rw [ownMethod?_of_mem hw hc hd k] at hown
      obtain rfl := Option.some.inj hown
      have ha := agrees_method hw hc hd k
      have hmethod := hwritten.methods _ hd
      exact ⟨allProper_of_stmtsCode hw ha hbody hmethod.body, _,
        hasType_of_exprCode hw ha hresult hmethod.result⟩

theorem proper_of_classesCode (hw : WellDeclared m cs) (hwritten : ∀ c ∈ cs, c.Written)
    {n n' : Nat} {rest : List ClassDecl} {code : Code}
    (h : ClassesCode (tableOf m cs) n rest code n') (hsub : rest ⊆ cs) :
    ∀ c ∈ rest, ∀ d ∈ c.methods, AllProper m cs (d.context c) d.body ∧
      ∃ type, HasType m cs (d.context c) d.result type := by
  induction h with
  | nil => exact fun c hc => nomatch hc
  | cons hfind hmethods _ ih =>
    obtain ⟨hc, hrest⟩ := List.cons_subset.mp hsub
    refine List.forall_mem_cons.mpr ⟨?_, ih hrest⟩
    obtain ⟨k, -, -, hfind'⟩ := tableOf_find? hw (declOf_of_mem hw hc)
    rw [hfind'] at hfind
    obtain rfl := Option.some.inj hfind
    exact proper_of_methodsCode hw hc (hwritten _ hc) hmethods (List.Subset.refl _)

theorem succeeds_main (hw : WellDeclared m cs) (h : AllProper m cs m.context m.body) :
    Succeeds (Gen.main (tableOf m cs) m.info m) fun _ => True := by
  have hinfo : m.info.ownMethod? ClassTable.mainName =
      some ⟨ClassTable.mainName, m.name.name, [], slots .localVar 0 m.vars, .int⟩ := by
    simp [ClassInfo.ownMethod?, MainClass.info]
  rw [Gen.main, hinfo]
  refine (statements_of_allProper hw (agrees_main hw hinfo) h).bind fun body _ => ?_
  exact .pure trivial

theorem succeeds_methods (hw : WellDeclared m cs) (h : Resolvable m cs) {c : ClassDecl}
    (hc : c ∈ cs) (k : Nat) {ds : List MethodDecl} (hsub : ds ⊆ c.methods) :
    Succeeds (methods (tableOf m cs) (c.info cs k) ds) fun _ => True := by
  induction ds with
  | nil =>
    rw [methods]
    exact .pure trivial
  | cons d ds ih =>
    obtain ⟨hd, hrest⟩ := List.cons_subset.mp hsub
    have ha := agrees_method hw hc hd k
    obtain ⟨type, htype⟩ := h.results c hc d hd
    have hmethod : Succeeds (method (tableOf m cs) (c.info cs k) d) fun _ => True := by
      rw [method, ownMethod?_of_mem hw hc hd k]
      refine (succeeds_report _).bind fun _ _ => ?_
      refine (statements_of_allProper hw ha (h.bodies c hc d hd)).bind fun body _ => ?_
      refine (expression_of_hasType hw ha htype).bind fun _ _ => ?_
      exact .pure trivial
    rw [methods]
    refine hmethod.bind fun first _ => ?_
    refine (ih hrest).bind fun rest _ => ?_
    exact .pure trivial

theorem succeeds_classes (hw : WellDeclared m cs) (h : Resolvable m cs) {rest : List ClassDecl}
    (hsub : rest ⊆ cs) : Succeeds (classes (tableOf m cs) rest) fun _ => True := by
  induction rest with
  | nil =>
    rw [Gen.classes]
    exact .pure trivial
  | cons c rest ih =>
    obtain ⟨hc, hrest⟩ := List.cons_subset.mp hsub
    obtain ⟨k, -, -, hfind⟩ := tableOf_find? hw (declOf_of_mem hw hc)
    rw [Gen.classes, hfind]
    refine (succeeds_methods hw h hc k (List.Subset.refl _)).bind fun first _ => ?_
    refine (ih hrest).bind fun others _ => ?_
    exact .pure trivial

end Declarations

/-! ### Labels -/

/-- Labels pass if no two are equal and none was seen before. -/
theorem succeeds_checkLabels {seen : List (Bytes × Bytes)} {ms : List (Bytes × Ident)}
    (hnodup : (ms.map fun m => entryLabel m.1 m.2.name).Nodup)
    (hseen : ∀ m ∈ ms, seen.lookup (entryLabel m.1 m.2.name) = none) :
    Succeeds (checkLabels seen ms) fun _ => True := by
  induction ms generalizing seen with
  | nil =>
    rw [checkLabels]
    exact .pure trivial
  | cons m ms ih =>
    obtain ⟨className, m⟩ := m
    rw [List.map_cons, List.nodup_cons] at hnodup
    rw [List.forall_mem_cons] at hseen
    rw [checkLabels]
    simp only [hseen.1]
    refine ih hnodup.2 ?_
    intro m' hm'
    have hne : entryLabel m'.1 m'.2.name ≠ entryLabel className m.name := by
      intro heq
      exact hnodup.1 (heq ▸ List.mem_map_of_mem hm')
    rw [List.lookup_cons, beq_eq_false_iff_ne.mpr hne]
    exact hseen.2 m' hm'

theorem mem_methodNames {p : Program} {pair : Bytes × Ident} :
    pair ∈ methodNames p ↔
      ∃ c ∈ p.classes, ∃ d ∈ c.methods, (c.name.name, d.name) = pair := by
  simp only [methodNames, List.mem_flatMap, List.mem_map]

theorem nodup_methodNames {m : MainClass} {p : Program} (hw : WellDeclared m p.classes) :
    (methodNames p).Nodup := by
  rw [methodNames, List.nodup_flatMap]
  constructor
  · intro c hc
    refine List.Nodup.of_map (fun pair => pair.2.name) ?_
    rw [List.map_map]
    exact hw.methodNames c hc
  · refine (List.pairwise_map.mp (List.nodup_cons.mp hw.names).2).imp ?_
    intro c c' hne pair hpair hpair'
    obtain ⟨d, -, rfl⟩ := List.mem_map.mp hpair
    obtain ⟨d', -, heq⟩ := List.mem_map.mp hpair'
    exact hne (Prod.mk.inj heq).1.symm

/-- No label comes twice exactly when methods with the same label are the same. -/
theorem nodup_entryLabels_iff {m : MainClass} {p : Program} (hw : WellDeclared m p.classes) :
    (entryLabels p).Nodup ↔ LabelsApart p.classes := by
  rw [entryLabels, List.nodup_map_iff_inj_on (nodup_methodNames hw)]
  constructor
  · intro hinj c hc d hd c' hc' d' hd' heq
    have hsame := hinj _ (mem_methodNames.mpr ⟨c, hc, d, hd, rfl⟩) _
      (mem_methodNames.mpr ⟨c', hc', d', hd', rfl⟩) heq
    obtain ⟨hclass, hmethod⟩ := Prod.mk.inj hsame
    exact ⟨hclass, congrArg Ident.name hmethod⟩
  · rintro hapart _ hx _ hy heq
    obtain ⟨c, hc, d, hd, rfl⟩ := mem_methodNames.mp hx
    obtain ⟨c', hc', d', hd', rfl⟩ := mem_methodNames.mp hy
    obtain ⟨hclass, hmethod⟩ := hapart c hc d hd c' hc' d' hd' heq
    obtain rfl := eq_of_name_eq hw hc hc' hclass
    have hfind := find?_of_mem (hw.methodNames c hc) hd
    rw [hmethod, find?_of_mem (hw.methodNames c hc) hd'] at hfind
    obtain rfl := Option.some.inj hfind
    rfl

/-! ### Programs -/

section Programs

variable {p : Program} {m : MainClass}

/-- Code is generated exactly for programs whose methods have labels of their own and whose
bodies mean something. -/
theorem program_succeeds_iff (hmain : p.main = some m) (hwritten : p.Written)
    (hw : WellDeclared m p.classes) (g : Generator) :
    (∃ code g', program p (tableOf m p.classes) g.reset = (.ok code, g')) ↔
      LabelsApart p.classes ∧ Resolvable m p.classes := by
  rw [← nodup_entryLabels_iff hw]
  constructor
  · rintro ⟨code, g', h⟩
    obtain ⟨m', entry, start, others, g₁, hmain', hentry, hnodup, hstart, -, hothers, -⟩ :=
      program_spec h
    rw [hmain] at hmain'
    obtain rfl := Option.some.inj hmain'
    obtain rfl := Option.some.inj hentry
    obtain ⟨m', hmain', hm⟩ := hwritten.main
    rw [hmain] at hmain'
    obtain rfl := Option.some.inj hmain'
    have hbodies := proper_of_classesCode hw hwritten.classes hothers (List.Subset.refl _)
    exact ⟨hnodup, proper_of_mainCode hw hm hstart, fun c hc d hd => (hbodies c hc d hd).1,
      fun c hc d hd => (hbodies c hc d hd).2⟩
  · rintro ⟨hnodup, hresolvable⟩
    have hprogram : Succeeds (program p (tableOf m p.classes)) fun _ => True := by
      rw [program, hmain]
      refine (succeeds_checkLabels hnodup fun _ _ => rfl).bind fun _ _ => ?_
      refine (succeeds_main hw hresolvable.main).bind fun start _ => ?_
      refine (succeeds_classes hw hresolvable (List.Subset.refl _)).bind fun others _ => ?_
      exact .pure trivial
    obtain ⟨code, g', h, -⟩ := hprogram g.reset
    exact ⟨code, g', h⟩

/-- Where the step fails, the error is one that a source can have. -/
def Gen.FailsWell {α : Type} (x : Gen α) : Prop :=
  ∀ g e g', x g = (.error e, g') → e.cause.kind ∈ GenErrorKind.ofSource

theorem failsWell_program (hmain : p.main = some m) (hwritten : p.Written)
    (cs : List ClassDecl) : FailsWell (program p (tableOf m cs)) := by
  intro g e g' h
  obtain ⟨site, hsite, hblames, -⟩ := blamed_program hmain rfl g e g' h
  exact hblames.kind_mem (hwritten.reported site hsite).1

/-- A text is what a generator yields for a program exactly if there is code. -/
theorem generate_eq_ok_iff (g : Generator) (t : ClassTable) :
    (∃ text, (g.generate p t).1 = .ok text) ↔ ∃ code g', program p t g.reset = (.ok code, g') := by
  unfold Generator.generate
  cases hrun : program p t g.reset with
  | mk result g' =>
    cases result with
    | error e => simp
    | ok code => simp

theorem program_of_generate_error {g : Generator} {t : ClassTable} {e : GenError}
    (h : (g.generate p t).1 = .error e) : ∃ g', program p t g.reset = (.error e, g') := by
  unfold Generator.generate at h
  cases hrun : program p t g.reset with
  | mk result g' =>
    rw [hrun] at h
    cases result with
    | error e' =>
      obtain rfl := Except.error.inj h
      exact ⟨g', rfl⟩
    | ok code => cases h

end Programs

/-- For a source that is read without complaint and whose program has a table, there is an
assembly text exactly if methods have labels of their own and everything that is named in a body
is declared and is what it is used as.  Otherwise there is none, and the error is of a kind that
a source can have. -/
theorem generate_accepts_exactly {source : Bytes} (hread : (Program.parse source).errors = [])
    {t : ClassTable} (hbuild : build (Program.parse source).program = .ok t) (g : Generator) :
    ∃ m cs, (Program.parse source).program = ⟨some m, cs⟩ ∧
      ((∃ text, (g.generate (Program.parse source).program t).1 = .ok text) ↔
        LabelsApart cs ∧ Resolvable m cs) ∧
      ∀ e, (g.generate (Program.parse source).program t).1 = .error e →
        e.cause.kind ∈ GenErrorKind.ofSource := by
  have hwritten := written_of_parse hread
  obtain ⟨m, hmain, -⟩ := hwritten.main
  obtain ⟨rfl, hw⟩ := ClassTable.build_spec hmain hbuild
  generalize (Program.parse source).program = p at hwritten hmain hw
  refine ⟨m, p.classes, ?_, ?_, ?_⟩
  · rw [← hmain]
  · rw [generate_eq_ok_iff]
    exact program_succeeds_iff hmain hwritten hw g
  · intro e he
    obtain ⟨g', herror⟩ := program_of_generate_error he
    exact failsWell_program hmain hwritten p.classes _ e g' herror

/-- A program in which a method is called on what a call returns, and both are inherited. -/
def chained : Bytes :=
  "class A\x7bpublic static void main(String[] a)\x7bint[] n;n=new C().self().row(2);" ++
    "System.out.println(n.length);\x7d\x7dclass C extends B\x7b\x7d" ++
    "class B\x7bint[] kept;public B self()\x7breturn this;\x7d" ++
    "public int[] row(int k)\x7bkept=new int[k];kept[0]=k;return kept;\x7d\x7d"

theorem generate_accepts_chained :
    ∃ t m cs, (Program.parse chained).errors = [] ∧
      build (Program.parse chained).program = .ok t ∧
      (Program.parse chained).program = ⟨some m, cs⟩ ∧ cs.length = 2 ∧ Resolvable m cs := by
  have hread : (Program.parse chained).errors = [] := by decide +kernel
  have hcount : (Program.parse chained).program.classes.length = 2 := by decide +kernel
  have hcheck : (build (Program.parse chained).program).toOption.any fun t =>
      (Generator.fresh.generate (Program.parse chained).program t).1.toBool := by decide +kernel
  cases hbuild : build (Program.parse chained).program with
  | error e =>
    rw [hbuild] at hcheck
    cases hcheck
  | ok t =>
    obtain ⟨m, cs, hprogram, hiff, -⟩ := generate_accepts_exactly hread hbuild Generator.fresh
    rw [hbuild] at hcheck
    -- the program itself is not looked at any more
    generalize (Program.parse chained).program = p at *
    have htext : ∃ text, (Generator.fresh.generate p t).1 = .ok text := by
      change (Generator.fresh.generate p t).1.toBool at hcheck
      cases hresult : (Generator.fresh.generate p t).1 with
      | error e =>
        rw [hresult] at hcheck
        cases hcheck
      | ok text => exact ⟨text, rfl⟩
    subst hprogram
    exact ⟨t, m, cs, hread, rfl, rfl, hcount, (hiff.mp htext).2⟩

end MiniJava
