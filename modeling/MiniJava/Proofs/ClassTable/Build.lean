import Mathlib.Data.List.Nodup
import MiniJava.ClassTable.Build

/-!
# The class table of a program

What a class table says, in terms of the declarations of the program.

* **`slots`**, **`MethodDecl.info`**, **`ClassDecl.info`** — what a declaration means.
* **`WellDeclared`** — declarations with nothing wrong about them.
* **`build_spec`** — a program that has a table is well declared, and its table consists of what
  its declarations mean.
-/

namespace MiniJava

/-- The variables that are declared one after another, with indices from `index` on. -/
def slots (role : Role) : (index : Nat) → List VarDecl → List Variable
  | _, [] => []
  | index, d :: ds => ⟨d.name.name, d.type.type, role, index⟩ :: slots role (index + 1) ds

/-- What a method of the class `owner` means. -/
def MethodDecl.info (owner : Bytes) (m : MethodDecl) : Method :=
  ⟨m.name.name, owner, slots .parameter 0 m.params, slots .localVar 0 m.vars,
    m.returns.type⟩

/-- The ancestors of the class of the given name, nearest first. -/
def ancestorsOf (cs : List ClassDecl) (name : Bytes) : List Bytes :=
  (ClassTable.ancestorsIn cs name).getD []

/-- What a class means among the classes `cs`. -/
def ClassDecl.info (cs : List ClassDecl) (tag : Nat) (c : ClassDecl) : ClassInfo :=
  ⟨c.name.name, tag, ancestorsOf cs c.name.name,
    slots .field (ClassTable.declaredFields cs (ancestorsOf cs c.name.name)) c.fields,
    c.methods.map (·.info c.name.name)⟩

/-- What classes mean among the classes `cs`; the first of them has the given tag. -/
def infos (cs : List ClassDecl) : (tag : Nat) → List ClassDecl → List ClassInfo
  | _, [] => []
  | tag, c :: rest => c.info cs tag :: infos cs (tag + 1) rest

/-- What the entry class means. -/
def MainClass.info (m : MainClass) : ClassInfo :=
  ⟨m.name.name, 0, [], [],
    [⟨ClassTable.mainName, m.name.name, [], slots .localVar 0 m.vars, .int⟩]⟩

/-- The names of declared variables. -/
def varNames (ds : List VarDecl) : List Bytes := ds.map (·.name.name)

/-- The class of the type exists. -/
def Ty.Declared (declared : List Bytes) (type : Ty) : Prop := ∀ c, type = .object c → c ∈ declared

/-- The classes of the types of variables exist. -/
def TypesDeclared (declared : List Bytes) (ds : List VarDecl) : Prop :=
  ∀ d ∈ ds, d.type.type.Declared declared

/-- A method with nothing wrong about its declarations. -/
structure MethodDecl.WellDeclared (declared : List Bytes) (m : MethodDecl) : Prop where
  returns : m.returns.type.Declared declared
  params : TypesDeclared declared m.params
  vars : TypesDeclared declared m.vars
  names : (varNames m.params ++ varNames m.vars).Nodup

/-- Classes with nothing wrong about their declarations. -/
structure WellDeclared (m : MainClass) (cs : List ClassDecl) : Prop where
  names : (m.name.name :: cs.map (·.name.name)).Nodup
  parents : ∀ c ∈ cs, ∀ p ∈ c.parent, p.name ∈ cs.map (·.name.name)
  acyclic : ∀ c ∈ cs, (ClassTable.ancestorsIn cs c.name.name).isSome
  fieldNames : ∀ c ∈ cs, (varNames c.fields).Nodup
  fieldTypes : ∀ c ∈ cs, TypesDeclared (cs.map (·.name.name)) c.fields
  methodNames : ∀ c ∈ cs, (c.methods.map (·.name.name)).Nodup
  methods : ∀ c ∈ cs, ∀ d ∈ c.methods, d.WellDeclared (cs.map (·.name.name))
  localNames : (varNames m.vars).Nodup
  localTypes : TypesDeclared (cs.map (·.name.name)) m.vars

namespace ClassTable

/-! ### Names and inheritance -/

theorem nodup_of_checkNames {seen : List Bytes} {cs : List ClassDecl}
    (h : checkNames seen cs = .ok ()) (hseen : seen.Nodup) :
    (cs.map (·.name.name)).Nodup ∧ ∀ c ∈ cs, c.name.name ∉ seen := by
  induction cs generalizing seen with
  | nil => simp
  | cons c cs ih =>
    simp only [checkNames] at h
    split at h
    · cases h
    · rename_i hnew
      have hnew : c.name.name ∉ seen := by simpa using hnew
      obtain ⟨hnodup, hrest⟩ := ih h (List.nodup_cons.mpr ⟨hnew, hseen⟩)
      refine ⟨?_, List.forall_mem_cons.mpr ⟨hnew, fun d hd hmem => ?_⟩⟩
      · rw [List.map_cons, List.nodup_cons]
        refine ⟨fun hmem => ?_, hnodup⟩
        obtain ⟨d, hd, heq⟩ := List.mem_map.mp hmem
        exact hrest d hd (heq ▸ List.mem_cons_self ..)
      · exact hrest d hd (List.mem_cons_of_mem _ hmem)

theorem parents_of_checkParents {declared : List Bytes} {cs : List ClassDecl}
    (h : checkParents declared cs = .ok ()) : ∀ c ∈ cs, ∀ p ∈ c.parent, p.name ∈ declared := by
  induction cs with
  | nil => simp
  | cons c cs ih =>
    simp only [checkParents] at h
    split at h
    · rename_i hnone
      exact List.forall_mem_cons.mpr ⟨by simp [hnone], ih h⟩
    · rename_i p hsome
      split at h
      · rename_i hmem
        exact List.forall_mem_cons.mpr ⟨by simpa [hsome] using hmem, ih h⟩
      · cases h

theorem lineages_spec {cs rest : List ClassDecl} {lines : List (ClassDecl × List Bytes)}
    (h : lineages cs rest = .ok lines) :
    lines = rest.map (fun c => (c, ancestorsOf cs c.name.name)) ∧
      ∀ c ∈ rest, (ancestorsIn cs c.name.name).isSome := by
  induction rest generalizing lines with
  | nil =>
    obtain rfl : [] = lines := by simpa [lineages] using h
    simp
  | cons c rest ih =>
    simp only [lineages] at h
    split at h
    · cases h
    · rename_i ancestors hancestors
      cases hrest : lineages cs rest with
      | error e => rw [hrest] at h; cases h
      | ok lines' =>
        rw [hrest] at h
        obtain rfl : (c, ancestors) :: lines' = lines := Except.ok.inj h
        obtain ⟨hlines, hsome⟩ := ih hrest
        refine ⟨?_, List.forall_mem_cons.mpr ⟨by simp [hancestors], hsome⟩⟩
        simp [hlines, ancestorsOf, hancestors]

/-! ### Variables -/

theorem resolve_spec {declared : List Bytes} {t : TypeRef} {type : Ty}
    (h : resolve declared t = .ok type) : type = t.type ∧ t.type.Declared declared := by
  unfold resolve at h
  split at h
  · rename_i c hc
    split at h
    · rename_i hmem
      obtain rfl := Except.ok.inj h
      refine ⟨hc.symm, fun c' hc' => ?_⟩
      rw [hc] at hc'
      obtain rfl := Ty.object.inj hc'
      simpa using hmem
    · cases h
  · rename_i hne
    obtain rfl := Except.ok.inj h
    exact ⟨rfl, fun c hc => absurd hc (hne c)⟩

theorem declare_spec {declared : List Bytes} {role : Role} {twice : DeclErrorKind}
    {seen : List Bytes} {index : Nat} {ds : List VarDecl} {vs : List Variable}
    (h : declare declared role twice seen index ds = .ok vs) (hseen : seen.Nodup) :
    vs = slots role index ds ∧ TypesDeclared declared ds ∧ (varNames ds).Nodup ∧
      ∀ d ∈ ds, d.name.name ∉ seen := by
  induction ds generalizing seen index vs with
  | nil =>
    obtain rfl : [] = vs := by simpa [declare] using h
    simp [slots, TypesDeclared, varNames]
  | cons d ds ih =>
    simp only [declare] at h
    split at h
    · cases h
    · rename_i hnew
      have hnew : d.name.name ∉ seen := by simpa using hnew
      cases htype : resolve declared d.type with
      | error e => rw [htype] at h; cases h
      | ok type =>
        rw [htype] at h
        cases hrest : declare declared role twice (d.name.name :: seen) (index + 1) ds with
        | error e =>
          simp only [bind, Except.bind, hrest] at h
          cases h
        | ok rest =>
          simp only [bind, Except.bind, hrest] at h
          obtain rfl := Except.ok.inj h
          obtain ⟨rfl, hdeclared⟩ := resolve_spec htype
          obtain ⟨rfl, htypes, hnodup, hother⟩ := ih hrest (List.nodup_cons.mpr ⟨hnew, hseen⟩)
          refine ⟨rfl, List.forall_mem_cons.mpr ⟨hdeclared, htypes⟩, ?_, ?_⟩
          · rw [varNames, List.map_cons, List.nodup_cons]
            refine ⟨fun hmem => ?_, hnodup⟩
            obtain ⟨d', hd', heq⟩ := List.mem_map.mp hmem
            exact hother d' hd' (heq ▸ List.mem_cons_self ..)
          · exact List.forall_mem_cons.mpr
              ⟨hnew, fun d' hd' hmem => hother d' hd' (List.mem_cons_of_mem _ hmem)⟩

theorem map_name_slots (role : Role) (index : Nat) (ds : List VarDecl) :
    (slots role index ds).map (·.name) = varNames ds := by
  induction ds generalizing index with
  | nil => rfl
  | cons d ds ih => exact congrArg (d.name.name :: ·) (ih (index + 1))

/-! ### Methods -/

theorem declareMethods_spec {declared : List Bytes} {owner : Bytes} {seen : List Bytes}
    {ms : List MethodDecl} {infos : List Method}
    (h : declareMethods declared owner seen ms = .ok infos) (hseen : seen.Nodup) :
    infos = ms.map (·.info owner) ∧ (∀ m ∈ ms, m.WellDeclared declared) ∧
      (ms.map (·.name.name)).Nodup ∧ ∀ m ∈ ms, m.name.name ∉ seen := by
  induction ms generalizing seen infos with
  | nil =>
    obtain rfl : [] = infos := by simpa [declareMethods] using h
    simp
  | cons m ms ih =>
    simp only [declareMethods] at h
    split at h
    · cases h
    rename_i hnew
    have hnew : m.name.name ∉ seen := by simpa using hnew
    cases hreturns : resolve declared m.returns with
    | error e => rw [hreturns] at h; cases h
    | ok returns =>
    cases hparams : declare declared .parameter .duplicateParameter [] 0 m.params with
    | error e => simp only [bind, Except.bind, hreturns, hparams] at h; cases h
    | ok params =>
    cases hlocals : declareLocals declared params m.vars with
    | error e => simp only [bind, Except.bind, hreturns, hparams, hlocals] at h; cases h
    | ok locals =>
    cases hrest : declareMethods declared owner (m.name.name :: seen) ms with
    | error e => simp only [bind, Except.bind, hreturns, hparams, hlocals, hrest] at h; cases h
    | ok rest =>
      simp only [bind, Except.bind, hreturns, hparams, hlocals, hrest] at h
      obtain rfl := Except.ok.inj h
      obtain ⟨rfl, hdeclared⟩ := resolve_spec hreturns
      obtain ⟨rfl, hptypes, hpnodup, -⟩ := declare_spec hparams List.nodup_nil
      rw [declareLocals, map_name_slots] at hlocals
      obtain ⟨rfl, hltypes, hlnodup, hapart⟩ := declare_spec hlocals hpnodup
      obtain ⟨rfl, hwell, hnodup, hother⟩ := ih hrest (List.nodup_cons.mpr ⟨hnew, hseen⟩)
      refine ⟨rfl, List.forall_mem_cons.mpr ⟨⟨hdeclared, hptypes, hltypes, ?_⟩, hwell⟩, ?_, ?_⟩
      · refine List.nodup_append.mpr ⟨hpnodup, hlnodup, fun x hx y hy heq => ?_⟩
        obtain ⟨d, hd, rfl⟩ := List.mem_map.mp hy
        exact hapart d hd (heq ▸ hx)
      · rw [List.map_cons, List.nodup_cons]
        refine ⟨fun hmem => ?_, hnodup⟩
        obtain ⟨d, hd, heq⟩ := List.mem_map.mp hmem
        exact hother d hd (heq ▸ List.mem_cons_self ..)
      · exact List.forall_mem_cons.mpr
          ⟨hnew, fun d hd hmem => hother d hd (List.mem_cons_of_mem _ hmem)⟩

/-! ### Fields -/

/-- Among things with different names, each is found by its own. -/
theorem find?_of_mem {α : Type} {name : α → Bytes} {xs : List α} (hnodup : (xs.map name).Nodup)
    {x : α} (hx : x ∈ xs) : xs.find? (name · == name x) = some x := by
  induction xs with
  | nil => cases hx
  | cons y xs ih =>
    rw [List.map_cons, List.nodup_cons] at hnodup
    rcases List.mem_cons.mp hx with rfl | hx
    · simp
    · have hne : name y ≠ name x := fun heq => hnodup.1 (heq ▸ List.mem_map_of_mem hx)
      rw [List.find?_cons_of_neg (by simpa using hne)]
      exact ih hnodup.2 hx

theorem layFields_spec {cs : List ClassDecl} {lines : List (ClassDecl × List Bytes)}
    {names : List Bytes} {fields : List (Bytes × List Variable)}
    (h : layFields cs lines names = .ok fields) {name : Bytes} (hname : name ∈ names)
    {c : ClassDecl} {ancestors : List Bytes}
    (hfind : lines.find? (·.1.name.name == name) = some (c, ancestors)) :
    fields.lookup name = some (slots .field (declaredFields cs ancestors) c.fields) ∧
      TypesDeclared (cs.map (·.name.name)) c.fields ∧ (varNames c.fields).Nodup := by
  induction names generalizing fields with
  | nil => cases hname
  | cons name' names ih =>
    simp only [layFields] at h
    split at h
    · rename_i hnone
      rcases List.mem_cons.mp hname with rfl | hname
      · rw [hfind] at hnone
        cases hnone
      · exact ih h hname
    · rename_i c' ancestors' hsome
      cases hdeclare : declare (cs.map (·.name.name)) .field .duplicateField []
          (declaredFields cs ancestors') c'.fields with
      | error e => rw [hdeclare] at h; cases h
      | ok slots' =>
      cases hrest : layFields cs lines names with
      | error e => simp only [bind, Except.bind, hdeclare, hrest] at h; cases h
      | ok rest =>
        simp only [bind, Except.bind, hdeclare, hrest] at h
        obtain rfl := Except.ok.inj h
        by_cases heq : name = name'
        · subst heq
          rw [hfind] at hsome
          obtain ⟨rfl, rfl⟩ := Prod.mk.inj (Option.some.inj hsome)
          obtain ⟨rfl, htypes, hnodup, -⟩ := declare_spec hdeclare List.nodup_nil
          exact ⟨by simp, htypes, hnodup⟩
        · rcases List.mem_cons.mp hname with hsame | hname
          · exact absurd hsame heq
          · rw [List.lookup_cons, beq_eq_false_iff_ne.mpr heq]
            exact ih hrest hname

/-- Every class has its place in the order of layout. -/
theorem mem_layoutOrder {lines : List (ClassDecl × List Bytes)} {c : ClassDecl}
    {ancestors : List Bytes} (h : (c, ancestors) ∈ lines) : c.name.name ∈ layoutOrder lines := by
  rw [layoutOrder, List.mem_eraseDups, List.mem_flatMap]
  exact ⟨(c, ancestors), h, by simp⟩

theorem assembleClasses_spec {declared : List Bytes} {fields : List (Bytes × List Variable)}
    {cs rest : List ClassDecl} {tag : Nat} {classes : List ClassInfo}
    (hfields : ∀ c ∈ rest, fields.lookup c.name.name =
      some (slots .field (declaredFields cs (ancestorsOf cs c.name.name)) c.fields))
    (h : assembleClasses declared fields tag
      (rest.map fun c => (c, ancestorsOf cs c.name.name)) = .ok classes) :
    classes = infos cs tag rest ∧
      ∀ c ∈ rest, (c.methods.map (·.name.name)).Nodup ∧
        ∀ m ∈ c.methods, m.WellDeclared declared := by
  induction rest generalizing tag classes with
  | nil =>
    obtain rfl : [] = classes := by simpa [assembleClasses] using h
    simp [infos]
  | cons c rest ih =>
    rw [List.forall_mem_cons] at hfields
    simp only [List.map_cons, assembleClasses] at h
    cases hmethods : declareMethods declared c.name.name [] c.methods with
    | error e => rw [hmethods] at h; cases h
    | ok methods =>
    cases hrest : assembleClasses declared fields (tag + 1)
        (rest.map fun c => (c, ancestorsOf cs c.name.name)) with
    | error e => simp only [bind, Except.bind, hmethods, hrest] at h; cases h
    | ok others =>
      simp only [bind, Except.bind, hmethods, hrest] at h
      obtain rfl := Except.ok.inj h
      obtain ⟨rfl, hwell, hnodup, -⟩ := declareMethods_spec hmethods List.nodup_nil
      obtain ⟨rfl, hothers⟩ := ih hfields.2 hrest
      refine ⟨?_, List.forall_mem_cons.mpr ⟨⟨hnodup, hwell⟩, hothers⟩⟩
      simp [infos, ClassDecl.info, hfields.1]

/-! ### The table -/

/-- The table of a program consists of what its declarations mean, and nothing is wrong with
them. -/
theorem build_spec {p : Program} {t : ClassTable} {m : MainClass} (hmain : p.main = some m)
    (h : build p = .ok t) :
    t = ⟨some m.info, infos p.classes 1 p.classes⟩ ∧ WellDeclared m p.classes := by
  simp only [build, hmain] at h
  cases hnames : checkNames [m.name.name] p.classes with
  | error e => rw [hnames] at h; cases h
  | ok _ =>
  cases hparents : checkParents (p.classes.map (·.name.name)) p.classes with
  | error e => simp only [bind, Except.bind, hnames, hparents] at h; cases h
  | ok _ =>
  cases hlines : lineages p.classes p.classes with
  | error e => simp only [bind, Except.bind, hnames, hparents, hlines] at h; cases h
  | ok lines =>
  cases hlay : layFields p.classes lines (layoutOrder lines) with
  | error e => simp only [bind, Except.bind, hnames, hparents, hlines, hlay] at h; cases h
  | ok fields =>
  cases hlocals : declareLocals (p.classes.map (·.name.name)) [] m.vars with
  | error e => simp only [bind, Except.bind, hnames, hparents, hlines, hlay, hlocals] at h; cases h
  | ok locals =>
  cases hclasses : assembleClasses (p.classes.map (·.name.name)) fields 1 lines with
  | error e =>
    simp only [bind, Except.bind, hnames, hparents, hlines, hlay, hlocals, hclasses] at h
    cases h
  | ok classes =>
    simp only [bind, Except.bind, hnames, hparents, hlines, hlay, hlocals, hclasses] at h
    obtain rfl := Except.ok.inj h
    obtain ⟨hnodup, hapart⟩ := nodup_of_checkNames hnames (by simp)
    obtain ⟨rfl, hacyclic⟩ := lineages_spec hlines
    obtain ⟨rfl, hltypes, hlnodup, -⟩ := declare_spec hlocals List.nodup_nil
    have hfields : ∀ c ∈ p.classes, fields.lookup c.name.name =
          some (slots .field (declaredFields p.classes (ancestorsOf p.classes c.name.name))
            c.fields) ∧
        TypesDeclared (p.classes.map (·.name.name)) c.fields ∧ (varNames c.fields).Nodup := by
      intro c hc
      refine layFields_spec hlay (mem_layoutOrder (List.mem_map_of_mem hc)) ?_
      rw [List.find?_map]
      exact congrArg (Option.map fun c => (c, ancestorsOf p.classes c.name.name))
        (find?_of_mem hnodup hc)
    obtain ⟨rfl, hmethods⟩ := assembleClasses_spec (fun c hc => (hfields c hc).1) hclasses
    refine ⟨rfl, ?_⟩
    exact {
      names := List.nodup_cons.mpr ⟨fun hmem => by
        obtain ⟨c, hc, heq⟩ := List.mem_map.mp hmem
        exact hapart c hc (by simp [heq]), hnodup⟩
      parents := parents_of_checkParents hparents
      acyclic := hacyclic
      fieldNames := fun c hc => (hfields c hc).2.2
      fieldTypes := fun c hc => (hfields c hc).2.1
      methodNames := fun c hc => (hmethods c hc).1
      methods := fun c hc => (hmethods c hc).2
      localNames := hlnodup
      localTypes := hltypes }

end ClassTable

end MiniJava
