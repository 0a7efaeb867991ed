import MiniJava.Proofs.ClassTable.Acceptance
import MiniJava.Compile.Body

/-!
# Names and types in bodies

Which bodies mean something, said from the declarations of a program alone.  Every name must have
a declaration, and where an object or an array is called for the static type must be such.  The
types of numbers and conditions are not looked at.

* **`Nearest`** — the declaration of a name that is met first on the way from parent to parent.
* **`Resolves`** — the type of a name.
* **`HasType`** — the type of an expression.
* **`Proper`** — statements in which every expression has a type.
* **`Resolvable`** — programs whose bodies are proper.
* **`nearest_iff`** — what is met first is what is found along the lineage.
* **`agrees_main`**, **`agrees_method`** — a scope says of names and calls what is said here.
-/

namespace MiniJava

open ClassTable

/-! ### Declarations of names -/

/-- A member of the given name that a class declares itself, or else the nearest one it inherits:
no class on the way declares the name. -/
inductive Nearest {α : Type} (cs : List ClassDecl) (members : ClassDecl → List α)
    (name : α → Bytes) (x : Bytes) : (className : Bytes) → α → Prop
  | own {c : ClassDecl} {a : α} : c ∈ cs → a ∈ members c → name a = x →
      Nearest cs members name x c.name.name a
  | inherited {c : ClassDecl} {p : Ident} {a : α} : c ∈ cs → (∀ b ∈ members c, name b ≠ x) →
      p ∈ c.parent → Nearest cs members name x p.name a →
      Nearest cs members name x c.name.name a

/-- What a name means as a field of a class. -/
def FieldNamed (cs : List ClassDecl) (x className : Bytes) (d : VarDecl) : Prop :=
  Nearest cs (·.fields) (·.name.name) x className d

/-- What a name means as a method of a class. -/
def MethodNamed (cs : List ClassDecl) (x className : Bytes) (d : MethodDecl) : Prop :=
  Nearest cs (·.methods) (·.name.name) x className d

/-- What can be named in a body: the members of its class, unless it is the body of `main`, and
its variables. -/
structure Context where
  className : Option Bytes
  params : List VarDecl
  vars : List VarDecl

/-- The body of `main`. -/
def MainClass.context (m : MainClass) : Context := ⟨none, [], m.vars⟩

/-- The body of a method. -/
def MethodDecl.context (c : ClassDecl) (d : MethodDecl) : Context :=
  ⟨some c.name.name, d.params, d.vars⟩

/-- The type of a name: that of a parameter, else of a local, else of a field. -/
inductive Resolves (cs : List ClassDecl) (ctx : Context) (x : Bytes) : Ty → Prop
  | param {d : VarDecl} : d ∈ ctx.params → d.name.name = x → Resolves cs ctx x d.type.type
  | localVar {d : VarDecl} : x ∉ varNames ctx.params → d ∈ ctx.vars → d.name.name = x →
      Resolves cs ctx x d.type.type
  | field {c : Bytes} {d : VarDecl} : x ∉ varNames ctx.params → x ∉ varNames ctx.vars →
      c ∈ ctx.className → FieldNamed cs x c d → Resolves cs ctx x d.type.type

/-! ### Expressions and statements -/

/-- The type of what an operator yields, whatever its operands are. -/
inductive BinaryOp.Yields : BinaryOp → Ty → Prop
  | and : Yields .and .boolean
  | less : Yields .less .boolean
  | plus : Yields .plus .int
  | minus : Yields .minus .int
  | times : Yields .times .int

mutual

/-- The type of an expression. -/
inductive HasType (m : MainClass) (cs : List ClassDecl) (ctx : Context) : Expr → Ty → Prop
  | int {t : Token} {v : Int} : HasType m cs ctx (.int t v) .int
  | bool {t : Token} {b : Bool} : HasType m cs ctx (.bool t b) .boolean
  | this {t : Token} {c : Bytes} : c ∈ ctx.className → HasType m cs ctx (.this t) (.object c)
  | var {x : Ident} {type : Ty} : Resolves cs ctx x.name type → HasType m cs ctx (.var x) type
  | not {t : Token} {e : Expr} {type : Ty} : HasType m cs ctx e type →
      HasType m cs ctx (.unary t .not e) .boolean
  | binary {t : Token} {op : BinaryOp} {l r : Expr} {lt rt type : Ty} :
      HasType m cs ctx l lt → HasType m cs ctx r rt → op.Yields type →
      HasType m cs ctx (.binary t op l r) type
  | index {t : Token} {a i : Expr} {type : Ty} :
      HasType m cs ctx a .intArray → HasType m cs ctx i type →
      HasType m cs ctx (.index t a i) .int
  | length {t : Token} {a : Expr} : HasType m cs ctx a .intArray →
      HasType m cs ctx (.length t a) .int
  | newArray {t : Token} {e : Expr} {type : Ty} : HasType m cs ctx e type →
      HasType m cs ctx (.newArray t e) .intArray
  | newObject {t : Token} {c : Ident} : IsClassName m cs c.name →
      HasType m cs ctx (.newObject t c) (.object c.name)
  | call {t : Token} {recv : Expr} {name : Ident} {args : List Expr} {c : Bytes}
      {d : MethodDecl} :
      HasType m cs ctx recv (.object c) → MethodNamed cs name.name c d →
      args.length = d.params.length → AllTyped m cs ctx args →
      HasType m cs ctx (.call t recv name args) d.returns.type

/-- All of the expressions have types. -/
inductive AllTyped (m : MainClass) (cs : List ClassDecl) (ctx : Context) : List Expr → Prop
  | nil : AllTyped m cs ctx []
  | cons {e : Expr} {es : List Expr} {type : Ty} :
      HasType m cs ctx e type → AllTyped m cs ctx es → AllTyped m cs ctx (e :: es)

end

mutual

/-- Statements in which every expression has a type and every name a declaration. -/
inductive Proper (m : MainClass) (cs : List ClassDecl) (ctx : Context) : Stmt → Prop
  | block {t : Token} {ss : List Stmt} : AllProper m cs ctx ss → Proper m cs ctx (.block t ss)
  | cond {t : Token} {c : Expr} {a b : Stmt} {type : Ty} : HasType m cs ctx c type →
      Proper m cs ctx a → Proper m cs ctx b → Proper m cs ctx (.cond t c a b)
  | loop {t : Token} {c : Expr} {b : Stmt} {type : Ty} : HasType m cs ctx c type →
      Proper m cs ctx b → Proper m cs ctx (.loop t c b)
  | print {t : Token} {e : Expr} {type : Ty} : HasType m cs ctx e type →
      Proper m cs ctx (.print t e)
  | assign {t : Token} {x : Ident} {e : Expr} {xt et : Ty} : Resolves cs ctx x.name xt →
      HasType m cs ctx e et → Proper m cs ctx (.assign t x e)
  | assignElem {t : Token} {x : Ident} {i e : Expr} {it et : Ty} :
      Resolves cs ctx x.name .intArray → HasType m cs ctx i it → HasType m cs ctx e et →
      Proper m cs ctx (.assignElem t x i e)

/-- All of the statements are proper. -/
inductive AllProper (m : MainClass) (cs : List ClassDecl) (ctx : Context) : List Stmt → Prop
  | nil : AllProper m cs ctx []
  | cons {s : Stmt} {ss : List Stmt} : Proper m cs ctx s → AllProper m cs ctx ss →
      AllProper m cs ctx (s :: ss)

end

/-- Everything that is named in the bodies of a program is declared, and is what it is used as. -/
structure Resolvable (m : MainClass) (cs : List ClassDecl) : Prop where
  main : AllProper m cs m.context m.body
  bodies : ∀ c ∈ cs, ∀ d ∈ c.methods, AllProper m cs (d.context c) d.body
  results : ∀ c ∈ cs, ∀ d ∈ c.methods, ∃ type, HasType m cs (d.context c) d.result type

/-- Methods with the same label are the same. -/
def LabelsApart (cs : List ClassDecl) : Prop :=
  ∀ c ∈ cs, ∀ d ∈ c.methods, ∀ c' ∈ cs, ∀ d' ∈ c'.methods,
    entryLabel c.name.name d.name.name = entryLabel c'.name.name d'.name.name →
      c.name.name = c'.name.name ∧ d.name.name = d'.name.name

/-! ### Looking up members -/

/-- Among things with different names, the one of a name is what is found by it. -/
theorem find?_eq_some_iff_mem {α : Type} {name : α → Bytes} {xs : List α}
    (hnodup : (xs.map name).Nodup) {x : Bytes} {a : α} :
    xs.find? (name · == x) = some a ↔ a ∈ xs ∧ name a = x := by
  constructor
  · intro h
    exact ⟨List.mem_of_find?_eq_some h, by simpa using List.find?_some h⟩
  · rintro ⟨ha, rfl⟩
    exact find?_of_mem hnodup ha

theorem find?_eq_none_iff_forall {α : Type} {name : α → Bytes} {xs : List α} {x : Bytes} :
    xs.find? (name · == x) = none ↔ ∀ a ∈ xs, name a ≠ x := by
  rw [List.find?_eq_none]
  simp only [beq_iff_eq, ne_eq]

section Members

variable {m : MainClass} {cs : List ClassDecl} (hw : WellDeclared m cs)

include hw

theorem eq_of_name_eq {c d : ClassDecl} (hc : c ∈ cs) (hd : d ∈ cs)
    (h : c.name.name = d.name.name) : c = d := by
  have hfind := declOf_of_mem hw hc
  rw [h, declOf_of_mem hw hd] at hfind
  exact (Option.some.inj hfind).symm

/-- The nearest member of a name is the first that is found along the lineage. -/
theorem nearest_iff {α : Type} {members : ClassDecl → List α} {name : α → Bytes}
    (hnodup : ∀ c ∈ cs, ((members c).map name).Nodup) {c : ClassDecl} (hc : c ∈ cs) {x : Bytes}
    {a : α} :
    Nearest cs members name x c.name.name a ↔
      (lineage cs c).findSome? (fun d => (members d).find? (name · == x)) = some a := by
  constructor
  · intro h
    generalize hname : c.name.name = n at h
    induction h generalizing c with
    | @own c' a hc' ha hx =>
      obtain rfl := eq_of_name_eq hw hc hc' hname
      rw [lineage, List.findSome?_cons, (find?_eq_some_iff_mem (hnodup c hc)).mpr ⟨ha, hx⟩]
    | @inherited c' p a hc' hnone hp _ ih =>
      obtain rfl := eq_of_name_eq hw hc hc' hname
      rcases lineage_cases hw hc with ⟨-, hroot⟩ | ⟨d, hd, ⟨p', hp', hd'⟩, -, hlineage⟩
      · rw [hroot] at hp
        cases hp
      · obtain rfl := Option.mem_unique hp hp'
        rw [hlineage, List.findSome?_cons, find?_eq_none_iff_forall.mpr hnone]
        exact ih hd hd'.symm
  · intro h
    generalize hl : lineage cs c = l at h
    induction l generalizing c with
    | nil => cases hl
    | cons d l ih =>
      rw [List.findSome?_cons] at h
      obtain rfl : c = d := (List.cons.inj hl).1
      cases hfind : (members c).find? (name · == x) with
      | some b =>
        rw [hfind] at h
        obtain rfl := Option.some.inj h
        obtain ⟨hb, hx⟩ := (find?_eq_some_iff_mem (hnodup c hc)).mp hfind
        exact .own hc hb hx
      | none =>
        rw [hfind] at h
        rcases lineage_cases hw hc with ⟨hroot, -⟩ | ⟨d, hd, ⟨p, hp, hname⟩, -, hlineage⟩
        · rw [lineage, hroot] at hl
          obtain ⟨-, rfl⟩ := List.cons.inj hl
          cases h
        · rw [hlineage] at hl
          have hnearest := ih hd (List.cons.inj hl).2 h
          rw [← hname] at hnearest
          exact .inherited hc (find?_eq_none_iff_forall.mp hfind) hp hnearest

end Members

/-- A class with a member is declared. -/
theorem declared_of_nearest {α : Type} {cs : List ClassDecl} {members : ClassDecl → List α}
    {name : α → Bytes} {x n : Bytes} {a : α} (h : Nearest cs members name x n a) :
    ∃ c ∈ cs, c.name.name = n := by
  cases h with
  | own hc _ _ => exact ⟨_, hc, rfl⟩
  | inherited hc _ _ _ => exact ⟨_, hc, rfl⟩

/-! ### Tables say the same -/

theorem find?_slots_type (x : Bytes) (role : Role) (index : Nat) (ds : List VarDecl) :
    ((slots role index ds).find? (·.name == x)).map (·.type) =
      (ds.find? (·.name.name == x)).map (·.type.type) := by
  induction ds generalizing index with
  | nil => rfl
  | cons d ds ih =>
    by_cases hd : d.name.name = x
    · rw [slots, List.find?_cons_of_pos (by simpa using hd),
        List.find?_cons_of_pos (by simpa using hd)]
      rfl
    · rw [slots, List.find?_cons_of_neg (by simpa using hd),
        List.find?_cons_of_neg (by simpa using hd)]
      exact ih (index + 1)

section Tables

variable {m : MainClass} {cs : List ClassDecl} (hw : WellDeclared m cs)

include hw

/-- The type of a field in a table is that of its nearest declaration. -/
theorem field?_type_iff {c : ClassDecl} (hc : c ∈ cs) (k : Nat) {x : Bytes} {type : Ty} :
    ((tableOf m cs).field? (c.info cs k) x).map (·.type) = some type ↔
      ∃ d, FieldNamed cs x c.name.name d ∧ d.type.type = type := by
  have hview : ((tableOf m cs).field? (c.info cs k) x).map (·.type) =
      ((lineage cs c).findSome? fun d => d.fields.find? (·.name.name == x)).map
        (·.type.type) := by
    rw [ClassTable.field?, List.map_findSome?, List.map_findSome?]
    refine findSome?_forall₂ ?_ (chain_spec hw k)
    rintro i d ⟨k, rfl⟩
    exact find?_slots_type x _ _ d.fields
  rw [hview, Option.map_eq_some_iff]
  exact exists_congr fun d => and_congr_left' (nearest_iff hw hw.fieldNames hc).symm

/-- A method in a table takes and returns what its nearest declaration says. -/
theorem method?_view_iff {c : ClassDecl} (hc : c ∈ cs) (k : Nat) {x : Bytes} {view : Nat × Ty} :
    ((tableOf m cs).method? (c.info cs k) x).map (fun t => (t.params.length, t.returns)) =
        some view ↔
      ∃ d, MethodNamed cs x c.name.name d ∧ (d.params.length, d.returns.type) = view := by
  have hview : ((tableOf m cs).method? (c.info cs k) x).map
        (fun t => (t.params.length, t.returns)) =
      ((lineage cs c).findSome? fun d => d.methods.find? (·.name.name == x)).map
        (fun d => (d.params.length, d.returns.type)) := by
    rw [method?_eq hw, List.map_findSome?, List.map_findSome?]
    congr 1
    funext d
    simp only [Function.comp_apply, Option.map_map, ClassDecl.method?]
    congr 1
    funext e
    simp only [Function.comp_apply, MethodDecl.info, length_slots]
  rw [hview, Option.map_eq_some_iff]
  exact exists_congr fun d => and_congr_left' (nearest_iff hw hw.methodNames hc).symm

end Tables

/-! ### Scopes say the same -/

/-- A name has the type of the first declaration among parameters, locals and fields. -/
theorem resolves_iff {cs : List ClassDecl} {ctx : Context} {x : Bytes} {fields : Option Ty}
    (hparams : (varNames ctx.params).Nodup) (hvars : (varNames ctx.vars).Nodup)
    (hfields : ∀ type, fields = some type ↔
      ∃ c ∈ ctx.className, ∃ d, FieldNamed cs x c d ∧ d.type.type = type) {type : Ty} :
    ((ctx.params.find? (·.name.name == x)).map (·.type.type) <|>
      (ctx.vars.find? (·.name.name == x)).map (·.type.type) <|> fields) = some type ↔
      Resolves cs ctx x type := by
  have hnone {ds : List VarDecl} : ds.find? (·.name.name == x) = none ↔ x ∉ varNames ds := by
    rw [find?_eq_none_iff_forall, varNames, List.mem_map]
    push Not
    rfl
  constructor
  · intro h
    cases hp : ctx.params.find? (·.name.name == x) with
    | some d =>
      rw [hp] at h
      obtain rfl := Option.some.inj h
      obtain ⟨hd, hx⟩ := (find?_eq_some_iff_mem hparams).mp hp
      exact .param hd hx
    | none =>
      cases hl : ctx.vars.find? (·.name.name == x) with
      | some d =>
        rw [hp, hl] at h
        obtain rfl := Option.some.inj h
        obtain ⟨hd, hx⟩ := (find?_eq_some_iff_mem hvars).mp hl
        exact .localVar (hnone.mp hp) hd hx
      | none =>
        rw [hp, hl] at h
        obtain ⟨c, hc, d, hd, rfl⟩ := (hfields type).mp h
        exact .field (hnone.mp hp) (hnone.mp hl) hc hd
  · intro h
    cases h with
    | param hd hx =>
      rw [(find?_eq_some_iff_mem hparams).mpr ⟨hd, hx⟩]
      rfl
    | localVar hp hd hx =>
      rw [hnone.mpr hp, (find?_eq_some_iff_mem hvars).mpr ⟨hd, hx⟩]
      rfl
    | field hp hl hc hd =>
      rw [hnone.mpr hp, hnone.mpr hl]
      exact (hfields _).mpr ⟨_, hc, _, hd, rfl⟩

theorem lookup?_type (sc : Scope) (x : Bytes) :
    (sc.lookup? x).map (·.type) =
      ((sc.method.param? x).map (·.type) <|> (sc.method.local? x).map (·.type) <|>
        (if sc.isMain then none else sc.table.field? sc.cls x).map (·.type)) := by
  unfold Scope.lookup?
  cases sc.method.param? x with
  | some v => rfl
  | none =>
    cases sc.method.local? x with
    | some v => rfl
    | none => rfl

/-- A scope of the generator stands for a context: names have the types that their declarations
give them. -/
structure Scope.Agrees (m : MainClass) (cs : List ClassDecl) (sc : Scope) (ctx : Context) :
    Prop where
  table : sc.table = tableOf m cs
  self : ctx.className = if sc.isMain then none else some sc.cls.name
  names : ∀ x type, (sc.lookup? x).map (·.type) = some type ↔ Resolves cs ctx x type

theorem agrees_main {m : MainClass} {cs : List ClassDecl} (hw : WellDeclared m cs) {info : Method}
    (hinfo : m.info.ownMethod? ClassTable.mainName = some info) :
    Scope.Agrees m cs ⟨tableOf m cs, m.info, info, true⟩ m.context := by
  obtain rfl := List.mem_singleton.mp (List.mem_of_find?_eq_some hinfo)
  refine ⟨rfl, rfl, ?_⟩
  intro x type
  rw [lookup?_type, Method.local?, find?_slots_type]
  refine @resolves_iff cs m.context x none List.nodup_nil hw.localNames ?_ type
  intro type
  simp [MainClass.context]

theorem agrees_method {m : MainClass} {cs : List ClassDecl} (hw : WellDeclared m cs)
    {c : ClassDecl} (hc : c ∈ cs) {d : MethodDecl} (hd : d ∈ c.methods) (k : Nat) :
    Scope.Agrees m cs ⟨tableOf m cs, c.info cs k, d.info c.name.name, false⟩ (d.context c) := by
  obtain ⟨hparams, hvars, -⟩ := List.nodup_append.mp (hw.methods c hc d hd).names
  refine ⟨rfl, rfl, ?_⟩
  intro x type
  rw [lookup?_type]
  simp only [Method.param?, Method.local?, MethodDecl.info, find?_slots_type]
  refine @resolves_iff cs (d.context c) x _ hparams hvars ?_ type
  intro type
  rw [if_neg Bool.false_ne_true, field?_type_iff hw hc k]
  simp [MethodDecl.context]

end MiniJava
