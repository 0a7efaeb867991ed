import Mathlib.Data.List.Chain
import Mathlib.Logic.Relation
import MiniJava.Proofs.ClassTable.Lineage

/-!
# Programs that have a class table

A program with an entry class has a table exactly when nothing is wrong with its declarations,
and what can be wrong is said here without a table.

* **`Extends`** — the relation between a class and the class it names as its parent.
* **`WellFormed`** — declarations with nothing wrong about them.
* **`Lineal`** — a list of ancestors that stops at a class without a parent.
* **`lineage_cases`** — the lineage of a class is that of its parent with the class in front.
* **`isSome_ancestorsIn_iff`** — ancestors can be listed exactly when inheritance has no circle.
* **`build_accepts_exactly`** — the whole statement.
-/

namespace MiniJava

open ClassTable Relation

/-! ### What can be wrong -/

/-- The class named `a` extends the class named `b`. -/
def Extends (cs : List ClassDecl) (a b : Bytes) : Prop :=
  ∃ c ∈ cs, c.name.name = a ∧ ∃ p ∈ c.parent, p.name = b

/-- The types that are written in declarations: those of fields, parameters, locals and results. -/
def writtenTypes (m : MainClass) (cs : List ClassDecl) : List Ty :=
  m.vars.map (·.type.type) ++ cs.flatMap fun c =>
    c.fields.map (·.type.type) ++ c.methods.flatMap fun d =>
      d.returns.type :: (d.params ++ d.vars).map (·.type.type)

/-- The name is that of a declared class other than the entry class. -/
def IsClassName (m : MainClass) (cs : List ClassDecl) (x : Bytes) : Prop :=
  x ∈ cs.map (·.name.name) ∧ x ≠ m.name.name

/-- Nothing is wrong with the declarations of a program. -/
structure WellFormed (m : MainClass) (cs : List ClassDecl) : Prop where
  classNames : (m.name.name :: cs.map (·.name.name)).Nodup
  parents : ∀ a b, Extends cs a b → IsClassName m cs b
  acyclic : ∀ a, ¬ TransGen (Extends cs) a a
  fieldNames : ∀ c ∈ cs, (varNames c.fields).Nodup
  methodNames : ∀ c ∈ cs, (c.methods.map (·.name.name)).Nodup
  paramNames : ∀ c ∈ cs, ∀ d ∈ c.methods, (varNames d.params).Nodup
  localNames : ∀ c ∈ cs, ∀ d ∈ c.methods,
    (varNames d.vars).Nodup ∧ ∀ x ∈ varNames d.vars, x ∉ varNames d.params
  mainLocalNames : (varNames m.vars).Nodup
  types : ∀ x, .object x ∈ writtenTypes m cs → IsClassName m cs x

/-- The classes from which the class `a` inherits, nearest first; the last one extends nothing. -/
inductive Lineal (cs : List ClassDecl) : (a : Bytes) → List Bytes → Prop
  | root {a : Bytes} : (∀ b, ¬ Extends cs a b) → Lineal cs a []
  | step {a b : Bytes} {l : List Bytes} : Extends cs a b → Lineal cs b l → Lineal cs a (b :: l)

/-! ### Circles -/

section Circles

variable {cs : List ClassDecl} (hnodup : (cs.map (·.name.name)).Nodup)

include hnodup

theorem parentIn_eq_some_iff {a b : Bytes} : parentIn cs a = some b ↔ Extends cs a b := by
  constructor
  · intro h
    obtain ⟨c, hc, hparent⟩ := Option.bind_eq_some_iff.mp h
    obtain ⟨p, hp, hb⟩ := Option.bind_eq_some_iff.mp hparent
    obtain ⟨hmem, hname⟩ := declOf_eq_some hc
    exact ⟨c, hmem, hname, p, hp, Option.some.inj hb⟩
  · rintro ⟨c, hc, rfl, p, hp, rfl⟩
    rw [parentIn, find?_of_mem hnodup hc]
    simp [Option.mem_def.mp hp]

/-- Where the search for ancestors is given up, there is a path as long as the search. -/
theorem path_of_ancestorsWithin_eq_none {n : Nat} {a : Bytes}
    (h : ancestorsWithin cs n a = none) :
    ∃ l : List Bytes, l.length = n ∧ List.IsChain (Extends cs) (a :: l) ∧
      ∀ x ∈ a :: l, ∃ b, Extends cs x b := by
  induction n generalizing a with
  | zero =>
    simp only [ancestorsWithin] at h
    split at h
    · cases h
    · rename_i b hb
      refine ⟨[], rfl, List.isChain_singleton a, ?_⟩
      simp only [List.mem_singleton, forall_eq]
      exact ⟨b, (parentIn_eq_some_iff hnodup).mp hb⟩
  | succ n ih =>
    simp only [ancestorsWithin] at h
    split at h
    · cases h
    · rename_i b hb
      have hb := (parentIn_eq_some_iff hnodup).mp hb
      obtain ⟨l, hlength, hchain, hall⟩ := ih (Option.map_eq_none_iff.mp h)
      refine ⟨b :: l, by rw [List.length_cons, hlength], ?_, ?_⟩
      · exact List.isChain_cons_cons.mpr ⟨hb, hchain⟩
      · exact List.forall_mem_cons.mpr ⟨⟨b, hb⟩, hall⟩

/-- Without a circle the ancestors of every class can be listed: a path on which no class comes
twice is not longer than there are classes. -/
theorem isSome_ancestorsIn (hacyclic : ∀ a, ¬ TransGen (Extends cs) a a) (a : Bytes) :
    (ancestorsIn cs a).isSome := by
  by_contra hnone
  rw [Bool.not_eq_true, Option.isSome_eq_false_iff, Option.isNone_iff_eq_none] at hnone
  obtain ⟨l, hlength, hchain, hall⟩ := path_of_ancestorsWithin_eq_none hnodup hnone
  have hpairwise : List.Pairwise (TransGen (Extends cs)) (a :: l) :=
    (hchain.imp fun _ _ h => TransGen.single h).pairwise
  have hpath : (a :: l).Nodup := by
    refine hpairwise.imp ?_
    rintro x y hxy rfl
    exact hacyclic x hxy
  have hsub : (a :: l) ⊆ cs.map (·.name.name) := by
    intro x hx
    obtain ⟨b, c, hc, rfl, -⟩ := hall x hx
    exact List.mem_map_of_mem hc
  have hle := (List.subperm_of_subset hpath hsub).length_le
  rw [List.length_cons, hlength, List.length_map] at hle
  omega

/-- Everything that is reached from parent to parent is among the ancestors. -/
theorem mem_ancestors_of_transGen {n : Nat} {a b : Bytes} {l : List Bytes}
    (h : ancestorsWithin cs n a = some l) (hab : TransGen (Extends cs) a b) : b ∈ l := by
  induction hab using TransGen.head_induction_on generalizing n l with
  | single hab =>
    have hp := (parentIn_eq_some_iff hnodup).mpr hab
    cases n with
    | zero =>
      rw [ancestorsWithin, hp] at h
      cases h
    | succ n =>
      rw [ancestorsWithin, hp] at h
      obtain ⟨l', -, rfl⟩ := Option.map_eq_some_iff.mp h
      exact List.mem_cons_self
  | head hac _ ih =>
    have hp := (parentIn_eq_some_iff hnodup).mpr hac
    cases n with
    | zero =>
      rw [ancestorsWithin, hp] at h
      cases h
    | succ n =>
      rw [ancestorsWithin, hp] at h
      obtain ⟨l', hl', rfl⟩ := Option.map_eq_some_iff.mp h
      exact List.mem_cons_of_mem _ (ih hl')

/-- The ancestors of all classes can be listed exactly when inheritance has no circle. -/
theorem isSome_ancestorsIn_iff :
    (∀ c ∈ cs, (ancestorsIn cs c.name.name).isSome) ↔ ∀ a, ¬ TransGen (Extends cs) a a := by
  constructor
  · intro hsome a hcircle
    obtain ⟨b, ⟨c, hc, rfl, -⟩, -⟩ := TransGen.head'_iff.mp hcircle
    obtain ⟨l, hl⟩ := Option.isSome_iff_exists.mp (hsome c hc)
    exact not_mem_ancestors hl (mem_ancestors_of_transGen hnodup hl hcircle)
  · intro hacyclic c _
    exact isSome_ancestorsIn hnodup hacyclic c.name.name

theorem lineal_root {a : Bytes} (hp : parentIn cs a = none) : Lineal cs a [] := by
  refine .root ?_
  intro b hb
  rw [← parentIn_eq_some_iff hnodup, hp] at hb
  cases hb

/-- The ancestors that are listed are the whole line. -/
theorem lineal_of_ancestorsWithin {n : Nat} {a : Bytes} {l : List Bytes}
    (h : ancestorsWithin cs n a = some l) : Lineal cs a l := by
  induction n generalizing a l with
  | zero =>
    simp only [ancestorsWithin] at h
    split at h
    · rename_i hp
      obtain rfl := Option.some.inj h
      exact lineal_root hnodup hp
    · cases h
  | succ n ih =>
    simp only [ancestorsWithin] at h
    split at h
    · rename_i hp
      obtain rfl := Option.some.inj h
      exact lineal_root hnodup hp
    · rename_i b hp
      obtain ⟨l', hl', rfl⟩ := Option.map_eq_some_iff.mp h
      exact .step ((parentIn_eq_some_iff hnodup).mp hp) (ih hl')

/-- A class has only one line of ancestors. -/
theorem Lineal.unique {a : Bytes} {l l' : List Bytes} (h : Lineal cs a l) (h' : Lineal cs a l') :
    l = l' := by
  induction h generalizing l' with
  | root hnone =>
    cases h' with
    | root _ => rfl
    | step hext _ => exact absurd hext (hnone _)
  | step hext _ ih =>
    cases h' with
    | root hnone => exact absurd hext (hnone _)
    | step hext' hrest =>
      rw [← parentIn_eq_some_iff hnodup] at hext hext'
      obtain rfl := Option.some.inj (hext.symm.trans hext')
      rw [ih hrest]

end Circles

/-- The ancestors of a class in a table are its whole line. -/
theorem lineal_ancestorsOf {m : MainClass} {cs : List ClassDecl} (hw : WellDeclared m cs)
    {c : ClassDecl} (hc : c ∈ cs) : Lineal cs c.name.name (ancestorsOf cs c.name.name) := by
  obtain ⟨l, hl⟩ := Option.isSome_iff_exists.mp (hw.acyclic c hc)
  rw [ancestorsOf, hl, Option.getD_some]
  exact lineal_of_ancestorsWithin (List.nodup_cons.mp hw.names).2 hl

/-- A class without a parent stands alone; any other is followed by the lineage of its parent. -/
theorem lineage_cases {m : MainClass} {cs : List ClassDecl} (hw : WellDeclared m cs)
    {c : ClassDecl} (hc : c ∈ cs) :
    ancestorsOf cs c.name.name = [] ∧ c.parent = none ∨
      ∃ d ∈ cs, (∃ p ∈ c.parent, p.name = d.name.name) ∧
        ancestorsOf cs c.name.name = d.name.name :: ancestorsOf cs d.name.name ∧
        lineage cs c = c :: lineage cs d := by
  obtain ⟨-, hnodup⟩ := List.nodup_cons.mp hw.names
  generalize hl : ancestorsOf cs c.name.name = l
  have hline := lineal_ancestorsOf hw hc
  rw [hl] at hline
  cases hline with
  | root hnone =>
    refine .inl ⟨rfl, Option.eq_none_iff_forall_not_mem.mpr ?_⟩
    intro p hp
    exact hnone p.name ⟨c, hc, rfl, p, hp, rfl⟩
  | @step _ b l hext hrest =>
    obtain ⟨d, hd⟩ := declared_of_mem_ancestors hw (hl ▸ List.mem_cons_self)
    obtain ⟨hmem, rfl⟩ := declOf_eq_some hd
    have hl' : ancestorsOf cs d.name.name = l :=
      (lineal_ancestorsOf hw hmem).unique hnodup hrest
    obtain ⟨c', hc', hname, p, hp, hparent⟩ := hext
    obtain rfl : c' = c := by
      have hsame := declOf_of_mem hw hc'
      rw [hname, declOf_of_mem hw hc] at hsame
      exact (Option.some.inj hsame).symm
    refine .inr ⟨d, hmem, ⟨p, hp, hparent⟩, by rw [hl'], ?_⟩
    rw [lineage, hl, List.filterMap_cons_some hd, lineage, hl']

/-! ### Two ways to say that nothing is wrong -/

theorem mem_writtenTypes {m : MainClass} {cs : List ClassDecl} {type : Ty} :
    type ∈ writtenTypes m cs ↔
      (∃ d ∈ m.vars, d.type.type = type) ∨ ∃ c ∈ cs, (∃ d ∈ c.fields, d.type.type = type) ∨
        ∃ d ∈ c.methods, d.returns.type = type ∨ (∃ v ∈ d.params, v.type.type = type) ∨
          ∃ v ∈ d.vars, v.type.type = type := by
  simp only [writtenTypes, List.mem_append, List.mem_map, List.mem_flatMap, List.mem_cons]
  grind

/-- Declarations with nothing wrong about them are those whose ancestors can be listed. -/
theorem wellFormed_iff_wellDeclared {m : MainClass} {cs : List ClassDecl} :
    WellFormed m cs ↔ WellDeclared m cs := by
  constructor
  · intro h
    obtain ⟨-, hnodup⟩ := List.nodup_cons.mp h.classNames
    have htypes : ∀ type ∈ writtenTypes m cs, type.Declared (cs.map (·.name.name)) := by
      rintro type htype x rfl
      exact (h.types x htype).1
    exact {
      names := h.classNames
      parents := fun c hc p hp => (h.parents _ _ ⟨c, hc, rfl, p, hp, rfl⟩).1
      acyclic := (isSome_ancestorsIn_iff hnodup).mpr h.acyclic
      fieldNames := h.fieldNames
      fieldTypes := fun c hc d hd =>
        htypes _ (mem_writtenTypes.mpr (.inr ⟨c, hc, .inl ⟨d, hd, rfl⟩⟩))
      methodNames := h.methodNames
      methods := fun c hc d hd => {
        returns := htypes _ (mem_writtenTypes.mpr (.inr ⟨c, hc, .inr ⟨d, hd, .inl rfl⟩⟩))
        params := fun v hv =>
          htypes _ (mem_writtenTypes.mpr (.inr ⟨c, hc, .inr ⟨d, hd, .inr (.inl ⟨v, hv, rfl⟩)⟩⟩))
        vars := fun v hv =>
          htypes _ (mem_writtenTypes.mpr (.inr ⟨c, hc, .inr ⟨d, hd, .inr (.inr ⟨v, hv, rfl⟩)⟩⟩))
        names := List.nodup_append.mpr ⟨h.paramNames c hc d hd, (h.localNames c hc d hd).1, by
          rintro x hx y hy rfl
          exact (h.localNames c hc d hd).2 x hy hx⟩ }
      localNames := h.mainLocalNames
      localTypes := fun d hd => htypes _ (mem_writtenTypes.mpr (.inl ⟨d, hd, rfl⟩)) }
  · intro h
    obtain ⟨hentry, hnodup⟩ := List.nodup_cons.mp h.names
    have hnames : ∀ x ∈ cs.map (·.name.name), IsClassName m cs x := by
      intro x hx
      refine ⟨hx, ?_⟩
      rintro rfl
      exact hentry hx
    refine {
      classNames := h.names
      parents := ?_
      acyclic := (isSome_ancestorsIn_iff hnodup).mp h.acyclic
      fieldNames := h.fieldNames
      methodNames := h.methodNames
      paramNames := fun c hc d hd => (List.nodup_append.mp (h.methods c hc d hd).names).1
      localNames := ?_
      mainLocalNames := h.localNames
      types := ?_ }
    · rintro a b ⟨c, hc, -, p, hp, rfl⟩
      exact hnames _ (h.parents c hc p hp)
    · intro c hc d hd
      obtain ⟨-, hvars, hapart⟩ := List.nodup_append.mp (h.methods c hc d hd).names
      exact ⟨hvars, fun x hx hx' => hapart x hx' x hx rfl⟩
    · intro x hx
      refine hnames x ?_
      rcases mem_writtenTypes.mp hx with ⟨d, hd, htype⟩ | ⟨c, hc, ⟨d, hd, htype⟩ | ⟨d, hd, htype⟩⟩
      · exact h.localTypes d hd x htype
      · exact h.fieldTypes c hc d hd x htype
      · rcases htype with htype | ⟨v, hv, htype⟩ | ⟨v, hv, htype⟩
        · exact (h.methods c hc d hd).returns x htype
        · exact (h.methods c hc d hd).params v hv x htype
        · exact (h.methods c hc d hd).vars v hv x htype

/-! ### Nothing wrong is found where nothing is wrong -/

namespace ClassTable

theorem checkNames_eq_ok {seen : List Bytes} {cs : List ClassDecl}
    (hnodup : (cs.map (·.name.name)).Nodup) (hseen : ∀ c ∈ cs, c.name.name ∉ seen) :
    checkNames seen cs = .ok () := by
  induction cs generalizing seen with
  | nil => rfl
  | cons c cs ih =>
    rw [List.map_cons, List.nodup_cons] at hnodup
    rw [List.forall_mem_cons] at hseen
    rw [checkNames, if_neg (by simpa using hseen.1)]
    refine ih hnodup.2 fun d hd hmem => ?_
    rcases List.mem_cons.mp hmem with heq | hmem
    · exact hnodup.1 (heq ▸ List.mem_map_of_mem hd)
    · exact hseen.2 d hd hmem

theorem checkParents_eq_ok {declared : List Bytes} {cs : List ClassDecl}
    (h : ∀ c ∈ cs, ∀ p ∈ c.parent, p.name ∈ declared) : checkParents declared cs = .ok () := by
  induction cs with
  | nil => rfl
  | cons c cs ih =>
    rw [List.forall_mem_cons] at h
    rw [checkParents]
    cases hp : c.parent with
    | none => exact ih h.2
    | some p =>
      have hmem : p.name ∈ declared := h.1 p hp
      simp only [List.contains_iff_mem.mpr hmem, if_true]
      exact ih h.2

theorem lineages_eq_ok {cs rest : List ClassDecl}
    (h : ∀ c ∈ rest, (ancestorsIn cs c.name.name).isSome) :
    lineages cs rest = .ok (rest.map fun c => (c, ancestorsOf cs c.name.name)) := by
  induction rest with
  | nil => rfl
  | cons c rest ih =>
    rw [List.forall_mem_cons] at h
    obtain ⟨l, hl⟩ := Option.isSome_iff_exists.mp h.1
    simp only [lineages, hl, ih h.2, List.map_cons, ancestorsOf, Option.getD_some]
    rfl

theorem resolve_eq_ok {declared : List Bytes} {t : TypeRef} (h : t.type.Declared declared) :
    resolve declared t = .ok t.type := by
  unfold resolve
  split
  · rename_i c hc
    rw [if_pos (List.contains_iff_mem.mpr (h c hc)), hc]
  · rfl

theorem declare_eq_ok {declared : List Bytes} {role : Role} {twice : DeclErrorKind}
    {seen : List Bytes} {index : Nat} {ds : List VarDecl} (htypes : TypesDeclared declared ds)
    (hnodup : (varNames ds).Nodup) (hseen : ∀ x ∈ varNames ds, x ∉ seen) :
    declare declared role twice seen index ds = .ok (slots role index ds) := by
  induction ds generalizing seen index with
  | nil => rfl
  | cons d ds ih =>
    rw [varNames, List.map_cons] at hnodup hseen
    rw [List.nodup_cons] at hnodup
    rw [List.forall_mem_cons] at hseen
    rw [TypesDeclared, List.forall_mem_cons] at htypes
    have hrest : ∀ x ∈ varNames ds, x ∉ d.name.name :: seen := by
      intro x hx hmem
      rcases List.mem_cons.mp hmem with rfl | hmem
      · exact hnodup.1 hx
      · exact hseen.2 x hx hmem
    rw [declare, if_neg (by simpa using hseen.1)]
    simp only [bind, Except.bind, resolve_eq_ok htypes.1, ih htypes.2 hnodup.2 hrest]
    rfl

theorem declareMethods_eq_ok {declared : List Bytes} {owner : Bytes} {seen : List Bytes}
    {ms : List MethodDecl} (hwell : ∀ m ∈ ms, m.WellDeclared declared)
    (hnodup : (ms.map (·.name.name)).Nodup) (hseen : ∀ m ∈ ms, m.name.name ∉ seen) :
    declareMethods declared owner seen ms = .ok (ms.map (·.info owner)) := by
  induction ms generalizing seen with
  | nil => rfl
  | cons m ms ih =>
    rw [List.forall_mem_cons] at hwell hseen
    rw [List.map_cons, List.nodup_cons] at hnodup
    obtain ⟨hparams, hvars, hapart⟩ := List.nodup_append.mp hwell.1.names
    have hrest : ∀ d ∈ ms, d.name.name ∉ m.name.name :: seen := by
      intro d hd hmem
      rcases List.mem_cons.mp hmem with heq | hmem
      · exact hnodup.1 (heq ▸ List.mem_map_of_mem hd)
      · exact hseen.2 d hd hmem
    have hlocals : declareLocals declared (slots .parameter 0 m.params) m.vars =
        .ok (slots .localVar 0 m.vars) := by
      refine declare_eq_ok hwell.1.vars hvars fun x hx hmem => ?_
      rw [map_name_slots] at hmem
      exact hapart x hmem x hx rfl
    rw [declareMethods, if_neg (by simpa using hseen.1)]
    simp only [bind, Except.bind, resolve_eq_ok hwell.1.returns,
      declare_eq_ok hwell.1.params hparams fun x _ => List.not_mem_nil, hlocals,
      ih hwell.2 hnodup.2 hrest]
    rfl

theorem layFields_succeeds {cs : List ClassDecl} {lines : List (ClassDecl × List Bytes)}
    (h : ∀ line ∈ lines, TypesDeclared (cs.map (·.name.name)) line.1.fields ∧
      (varNames line.1.fields).Nodup) (names : List Bytes) :
    ∃ fields, layFields cs lines names = .ok fields := by
  induction names with
  | nil => exact ⟨[], rfl⟩
  | cons name names ih =>
    obtain ⟨rest, hrest⟩ := ih
    rw [layFields]
    cases hfind : lines.find? (·.1.name.name == name) with
    | none => exact ⟨rest, hrest⟩
    | some line =>
      obtain ⟨c, ancestors⟩ := line
      obtain ⟨htypes, hnodup⟩ := h _ (List.mem_of_find?_eq_some hfind)
      simp only [bind, Except.bind, hrest,
        declare_eq_ok htypes hnodup fun x _ => List.not_mem_nil]
      exact ⟨_, rfl⟩

theorem assembleClasses_succeeds {declared : List Bytes} {fields : List (Bytes × List Variable)}
    {tag : Nat} {lines : List (ClassDecl × List Bytes)}
    (h : ∀ line ∈ lines, (line.1.methods.map (·.name.name)).Nodup ∧
      ∀ m ∈ line.1.methods, m.WellDeclared declared) :
    ∃ classes, assembleClasses declared fields tag lines = .ok classes := by
  induction lines generalizing tag with
  | nil => exact ⟨[], rfl⟩
  | cons line lines ih =>
    obtain ⟨c, ancestors⟩ := line
    rw [List.forall_mem_cons] at h
    obtain ⟨rest, hrest⟩ := @ih (tag + 1) h.2
    simp only [assembleClasses, bind, Except.bind, hrest,
      declareMethods_eq_ok h.1.2 h.1.1 fun m _ => List.not_mem_nil]
    exact ⟨_, rfl⟩

/-- A program with nothing wrong about its declarations has a table. -/
theorem build_succeeds {m : MainClass} {cs : List ClassDecl} (h : WellDeclared m cs) :
    ∃ t, build ⟨some m, cs⟩ = .ok t := by
  obtain ⟨hentry, hnodup⟩ := List.nodup_cons.mp h.names
  have hnames : checkNames [m.name.name] cs = .ok () := by
    refine checkNames_eq_ok hnodup fun c hc hmem => ?_
    exact hentry (List.mem_singleton.mp hmem ▸ List.mem_map_of_mem hc)
  have hlocals : declareLocals (cs.map (·.name.name)) [] m.vars = .ok (slots .localVar 0 m.vars) :=
    declare_eq_ok h.localTypes h.localNames fun x _ => List.not_mem_nil
  have hline {line : ClassDecl × List Bytes}
      (hmem : line ∈ cs.map fun c => (c, ancestorsOf cs c.name.name)) : line.1 ∈ cs := by
    obtain ⟨c, hc, rfl⟩ := List.mem_map.mp hmem
    exact hc
  obtain ⟨fields, hfields⟩ := layFields_succeeds
    (fun line hmem => ⟨h.fieldTypes _ (hline hmem), h.fieldNames _ (hline hmem)⟩)
    (layoutOrder (cs.map fun c => (c, ancestorsOf cs c.name.name)))
  obtain ⟨classes, hclasses⟩ := @assembleClasses_succeeds (cs.map (·.name.name)) fields 1 _
    fun line hmem => ⟨h.methodNames _ (hline hmem), h.methods _ (hline hmem)⟩
  simp only [build, bind, Except.bind, hnames, checkParents_eq_ok h.parents,
    lineages_eq_ok h.acyclic, hfields, hlocals, hclasses]
  exact ⟨_, rfl⟩

/-- A program with an entry class has a table exactly when nothing is wrong with its declarations,
and an error otherwise.  Going from parent to parent comes to an end in every class of the table,
after fewer steps than there are classes. -/
theorem build_accepts_exactly (m : MainClass) (cs : List ClassDecl) :
    ((∃ t, build ⟨some m, cs⟩ = .ok t) ↔ WellFormed m cs) ∧
      ((∃ e, build ⟨some m, cs⟩ = .error e) ↔ ¬ WellFormed m cs) ∧
      ∀ t, build ⟨some m, cs⟩ = .ok t → ∀ c ∈ t.classes,
        Lineal cs c.name c.ancestors ∧ c.ancestors.length < cs.length := by
  have hiff : (∃ t, build ⟨some m, cs⟩ = .ok t) ↔ WellFormed m cs := by
    rw [wellFormed_iff_wellDeclared]
    constructor
    · rintro ⟨t, ht⟩
      exact (build_spec rfl ht).2
    · exact build_succeeds
  refine ⟨hiff, ?_, ?_⟩
  · rw [← hiff]
    cases build ⟨some m, cs⟩ with
    | error e => simp
    | ok t => simp
  · intro t ht i hi
    obtain ⟨rfl, hwell⟩ := build_spec rfl ht
    obtain ⟨c, hc, k, -, -, rfl⟩ := mem_infos hi
    exact ⟨lineal_ancestorsOf hwell hc, length_ancestorsOf_lt hwell hc⟩

end ClassTable

end MiniJava
