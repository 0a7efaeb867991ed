import MiniJava.Compile
import MiniJava.Proofs.ClassTable.Lineage
import MiniJava.Proofs.Compile.Emission
import MiniJava.Proofs.Tree.Parsed

/-!
# Compiled programs

What is known of a source that is compiled: its tree can be written, nothing is wrong with its
declarations, and its code is that of `main` and of the methods in order.

* **`Compiled`** — a program and its code.
* **`generated_spec`**, **`compile_spec`** — what is generated is so, and what is compiled.
* **`Compiled.fits`**, **`Compiled.fits_main`** — every method is within bounds.
-/

namespace MiniJava

open Gen

/-- A program and its code: that of `main`, with the labels below `n`, and that of the other
classes, with the labels from there on and below `n'`. -/
structure Compiled (p : Program) (m : MainClass) (start others : Code) (n n' : Nat) : Prop where
  main : p.main = some m
  written : p.Written
  declared : WellDeclared m p.classes
  entries : (entryLabels p).Nodup
  start : MainCode (tableOf m p.classes) m.info 0 m start n
  others : ClassesCode (tableOf m p.classes) n p.classes others n'

theorem analyze_spec {source : Bytes} {p : Program} {t : ClassTable}
    (h : analyze source = .ok (p, t)) :
    (Program.parse source).errors = [] ∧ p = (Program.parse source).program ∧
      ClassTable.build p = .ok t := by
  unfold analyze at h
  simp only at h
  split at h
  · rename_i herrors
    split at h
    · rename_i t' ht
      obtain ⟨rfl, rfl⟩ := Prod.mk.inj (Except.ok.inj h)
      exact ⟨List.isEmpty_iff.mp herrors, rfl, ht⟩
    · cases h
  · cases h

/-- What is known of a source whose code is generated. -/
theorem generated_spec {source : Bytes} {p : Program} {t : ClassTable} {whole : Code}
    {g' : Generator} (hanalyze : analyze source = .ok (p, t))
    (hprogram : program p t Generator.fresh.reset = (.ok whole, g')) :
    p = (Program.parse source).program ∧ p.weight ≤ source.length ∧
      ∃ m start others g, t = tableOf m p.classes ∧
        Compiled p m start others g.nextLabel g'.nextLabel ∧
        classes (tableOf m p.classes) p.classes g = (.ok others, g') ∧
        whole = Support.header ++ (start ++ others ++ Support.routines) := by
  obtain ⟨herrors, hp, hbuild⟩ := analyze_spec hanalyze
  obtain ⟨m, entry, start, others, g, hmain, hentry, hnodup, hstart, hrun, hothers, rfl⟩ :=
    program_spec hprogram
  obtain ⟨rfl, hdeclared⟩ := ClassTable.build_spec hmain hbuild
  obtain rfl := Option.some.inj hentry
  have hweight := weight_le_of_parse herrors
  have hwritten := written_of_parse herrors
  rw [← hp] at hweight hwritten
  exact ⟨hp, hweight, m, start, others, g, rfl,
    ⟨hmain, hwritten, hdeclared, hnodup, hstart, hothers⟩, hrun, rfl⟩

/-- What is known of a source that is compiled. -/
theorem compile_spec {source text : Bytes} (h : compile source = .ok text) :
    ∃ p m start others g g', analyze source = .ok (p, tableOf m p.classes) ∧
      p = (Program.parse source).program ∧ p.weight ≤ source.length ∧
      Compiled p m start others g.nextLabel g'.nextLabel ∧
      classes (tableOf m p.classes) p.classes g = (.ok others, g') ∧
      text = Code.text (Support.header ++ (start ++ others ++ Support.routines)) := by
  unfold compile Generator.compile at h
  cases hanalyze : analyze source with
  | error e =>
    rw [hanalyze] at h
    cases h
  | ok pair =>
    obtain ⟨p, t⟩ := pair
    rw [hanalyze] at h
    simp only [Generator.generate] at h
    cases hprogram : program p t Generator.fresh.reset with
    | mk result g' =>
      rw [hprogram] at h
      cases result with
      | error e => cases h
      | ok code =>
        obtain rfl := Except.ok.inj h
        obtain ⟨hp, hweight, m, start, others, g, rfl, hcompiled, hrun, rfl⟩ :=
          generated_spec hanalyze hprogram
        exact ⟨p, m, start, others, g, g', rfl, hp, hweight, hcompiled, hrun, rfl⟩

/-! ### Methods of a program -/

/-- A name means a parameter, a local or a field. -/
theorem lookup?_cases {sc : Scope} {x : Bytes} {v : Variable} (h : sc.lookup? x = some v) :
    sc.method.param? x = some v ∨ sc.method.local? x = some v ∨
      (sc.isMain = false ∧ sc.table.field? sc.cls x = some v) := by
  simp only [Scope.lookup?, Option.orElse_eq_or, Option.orElse_eq_orElse, Option.or_eq_some_iff]
    at h
  rcases h with h | ⟨-, h | ⟨-, h⟩⟩
  · exact .inl h
  · exact .inr (.inl h)
  · cases hmain : sc.isMain with
    | true =>
      rw [hmain] at h
      cases h
    | false =>
      rw [hmain] at h
      exact .inr (.inr ⟨rfl, h⟩)

/-- The names of classes and methods leave room on their lines. -/
def Program.NamesShort (p : Program) : Prop :=
  ∀ c ∈ p.classes, c.name.name.length < 400000 ∧ ∀ d ∈ c.methods, d.name.name.length < 400000

instance : DecidablePred Program.NamesShort := fun p =>
  inferInstanceAs (Decidable (∀ c ∈ p.classes,
    c.name.name.length < 400000 ∧ ∀ d ∈ c.methods, d.name.name.length < 400000))

/-- The labels that code can go to from everywhere. -/
def knownLabels (p : Program) : List Bytes := Support.labels ++ entryLabels p

theorem mem_entryLabels {p : Program} {l : Bytes} :
    l ∈ entryLabels p ↔ ∃ c ∈ p.classes, ∃ d ∈ c.methods, l = entryLabel c.name.name d.name.name := by
  simp only [entryLabels, methodNames, List.mem_map, List.mem_flatMap]
  constructor
  · rintro ⟨pair, ⟨c, hc, d, hd, rfl⟩, rfl⟩
    exact ⟨c, hc, d, hd, rfl⟩
  · rintro ⟨c, hc, d, hd, rfl⟩
    exact ⟨_, ⟨c, hc, d, hd, rfl⟩, rfl⟩

namespace Compiled

variable {p : Program} {m : MainClass} {start others : Code} {n n' : Nat}
  (h : Compiled p m start others n n')

include h

theorem isLabel_of_known (hshort : p.NamesShort) :
    ∀ l ∈ knownLabels p, isLabel l ∧ Short l := by
  intro l hl
  rcases List.mem_append.mp hl with hl | hl
  · have hfixed : ∀ l ∈ Support.labels, isLabel l ∧ l.length ≤ 1000000 := by decide +kernel
    exact hfixed l hl
  · obtain ⟨c, hc, d, hd, rfl⟩ := mem_entryLabels.mp hl
    have hwritten := h.written.classes c hc
    exact ⟨isLabel_entryLabel hwritten.name.name.1 (hwritten.methods d hd).name.name.1,
      short_entryLabel (hshort c hc).1 ((hshort c hc).2 d hd)⟩

/-- A declared class is found in the table. -/
theorem class_spec {c : ClassDecl} (hc : c ∈ p.classes) :
    ∃ k, 1 ≤ k ∧ k ≤ p.classes.length ∧
      (tableOf m p.classes).find? c.name.name = some (c.info p.classes k) :=
  tableOf_find? h.declared (ClassTable.find?_of_mem (List.nodup_cons.mp h.declared.names).2 hc)

/-- A declared method is found in its class. -/
theorem method_spec {c : ClassDecl} (hc : c ∈ p.classes) {d : MethodDecl} (hd : d ∈ c.methods)
    (k : Nat) :
    (c.info p.classes k).ownMethod? d.name.name = some (d.info c.name.name) :=
  ownMethod?_of_mem h.declared hc hd k

/-- The table has no classes but the declared ones and the entry class. -/
theorem fits_layout (hsmall : p.weight ≤ 0x4000000) {x : Bytes} {cls : ClassInfo}
    (hfind : (tableOf m p.classes).find? x = some cls)
    (hentry : (tableOf m p.classes).isEntry x = false) :
    ((tableOf m p.classes).layout cls).tag ≤ 0x4000000 ∧
      ((tableOf m p.classes).layout cls).fields ≤ 0x4000000 := by
  obtain ⟨rfl, rfl | ⟨c, hc, k, -, hk, rfl⟩⟩ := find?_cases hfind
  · simp [ClassTable.isEntry, tableOf] at hentry
  · have hclasses := length_classes_le (p := p)
    have hfields := fieldCount_le h.declared hc k
    have hcount := length_fields_le (p := p)
    constructor
    · show k ≤ _
      omega
    · show (tableOf m p.classes).fieldCount (c.info p.classes k) ≤ _
      omega

/-- What is called by a name is a declared method, for `main` is no name. -/
theorem callee_spec {x name : Bytes} (hname : IsName name) {cls : ClassInfo} {target : Method}
    (hfind : (tableOf m p.classes).find? x = some cls)
    (hmethod : (tableOf m p.classes).method? cls name = some target) :
    ∃ c ∈ p.classes, ∃ d ∈ c.methods, d.name.name = name ∧ target = d.info c.name.name := by
  obtain ⟨-, rfl | ⟨c, hc, k, -, -, rfl⟩⟩ := find?_cases hfind
  · exfalso
    have hmain := eq_mainName_of_method? hmethod
    subst hmain
    exact absurd hname.2 (by decide)
  · exact method?_spec h.declared hc hmethod

theorem fits_callee {x name : Bytes} (hname : IsName name) {cls : ClassInfo} {target : Method}
    (hfind : (tableOf m p.classes).find? x = some cls)
    (hmethod : (tableOf m p.classes).method? cls name = some target) :
    entryLabel target.owner target.name ∈ knownLabels p := by
  obtain ⟨c, hc, d, hd, -, rfl⟩ := h.callee_spec hname hfind hmethod
  exact List.mem_append_right _ (mem_entryLabels.mpr ⟨c, hc, d, hd, rfl⟩)

/-- The code of a method is within bounds. -/
theorem fits (hsmall : p.weight ≤ 0x4000000) (hshort : p.NamesShort) {c : ClassDecl}
    (hc : c ∈ p.classes) {d : MethodDecl} (hd : d ∈ c.methods) (k : Nat) :
    Scope.Fits ⟨tableOf m p.classes, c.info p.classes k, d.info c.name.name, false⟩
      (knownLabels p) := by
  have hweight : d.weight ≤ p.weight := (weight_method_le hd).trans (weight_class_le hc)
  unfold MethodDecl.weight at hweight
  have hfields := length_fields_le (p := p)
  refine ⟨?_, ?_, h.fits_layout hsmall, fun hname => h.fits_callee hname, List.subset_append_left _ _,
    h.isLabel_of_known hshort⟩
  · show (slots .parameter 0 d.params).length ≤ _
    rw [length_slots]
    omega
  · intro x v hv
    rcases lookup?_cases hv with hv | hv | hv
    · obtain ⟨-, -, hlt⟩ := mem_slots (List.mem_of_find?_eq_some hv)
      omega
    · obtain ⟨-, -, hlt⟩ := mem_slots (List.mem_of_find?_eq_some hv)
      omega
    · obtain ⟨-, hlt⟩ := field?_spec h.declared hc hv.2
      omega

/-- The code of `main` is within bounds. -/
theorem fits_main (hsmall : p.weight ≤ 0x4000000) (hshort : p.NamesShort) {info : Method}
    (hinfo : m.info.ownMethod? ClassTable.mainName = some info) :
    Scope.Fits ⟨tableOf m p.classes, m.info, info, true⟩ (knownLabels p) := by
  have hweight := weight_main_le h.main
  unfold MainClass.weight at hweight
  obtain rfl := List.mem_singleton.mp (List.mem_of_find?_eq_some hinfo)
  refine ⟨?_, ?_, h.fits_layout hsmall, fun hname => h.fits_callee hname, List.subset_append_left _ _,
    h.isLabel_of_known hshort⟩
  · exact Nat.zero_le _
  · intro x v hv
    rcases lookup?_cases hv with hv | hv | hv
    · cases hv
    · obtain ⟨-, -, hlt⟩ := mem_slots (List.mem_of_find?_eq_some hv)
      omega
    · cases hv.1

end Compiled

end MiniJava
