import MiniJava.ClassTable.Build
import MiniJava.Proofs.Tree.Unplaced

/-!
# Class tables do not depend on places

The table of a program is that of its tree without places, and a program with wrong declarations
fails with the same error, up to its place.

* **`Forgets`** — two computations that differ in nothing but the place of an error; its rules follow
  the way computations are put together.
* **`build_unplaced`** — the statement for tables.
-/

namespace MiniJava

/-- The error without its place. -/
def DeclError.unplaced (e : DeclError) : DeclError := { e with line := 0, column := 0 }

namespace ClassTable

/-- The second computation does what the first one does, up to `r`, with errors that have lost their
places. -/
def Forgets {α β : Type} (r : α → β) (x : Except DeclError α) (y : Except DeclError β) : Prop :=
  y = (x.mapError DeclError.unplaced).map r

section Rules

variable {α β γ δ : Type} {r : α → β}

theorem forgets_ok (a : α) : Forgets r (.ok a) (.ok (r a)) := rfl

theorem forgets_about (kind : DeclErrorKind) (x : Ident) :
    Forgets r (.error (.about kind x)) (.error (.about kind x.unplaced)) := rfl

theorem Forgets.bind {q : γ → δ} {x : Except DeclError α} {y : Except DeclError β}
    {f : α → Except DeclError γ} {f' : β → Except DeclError δ} (h : Forgets r x y)
    (hf : ∀ a, Forgets q (f a) (f' (r a))) : Forgets q (x >>= f) (y >>= f') := by
  cases x with
  | error e =>
    rw [h]
    rfl
  | ok a =>
    rw [h]
    exact hf a

theorem Forgets.ite {c : Prop} [Decidable c] {x x' : Except DeclError α}
    {y y' : Except DeclError β} (h : Forgets r x y) (h' : Forgets r x' y') :
    Forgets r (if c then x else x') (if c then y else y') := by
  by_cases hc : c
  · simpa only [if_pos hc] using h
  · simpa only [if_neg hc] using h'

end Rules

section Names

variable (cs : List ClassDecl)

theorem forgets_checkNames (seen : List Bytes) :
    Forgets id (checkNames seen cs) (checkNames seen (cs.map ClassDecl.unplaced)) := by
  induction cs generalizing seen with
  | nil => exact forgets_ok ()
  | cons c cs ih => exact (forgets_about _ _).ite (ih _)

theorem forgets_checkParents (declared : List Bytes) :
    Forgets id (checkParents declared cs)
      (checkParents declared (cs.map ClassDecl.unplaced)) := by
  induction cs with
  | nil => exact forgets_ok ()
  | cons c cs ih =>
    obtain ⟨token, name, parent, fields, methods⟩ := c
    cases parent with
    | none => exact ih
    | some p => exact Forgets.ite ih (forgets_about _ _)

theorem find?_unplaced (name : Bytes) :
    (cs.map ClassDecl.unplaced).find? (·.name.name == name) =
      (cs.find? (·.name.name == name)).map ClassDecl.unplaced :=
  List.find?_map ..

theorem parentIn_unplaced (name : Bytes) :
    parentIn (cs.map ClassDecl.unplaced) name = parentIn cs name := by
  unfold parentIn
  rw [find?_unplaced]
  cases cs.find? (·.name.name == name) with
  | none => rfl
  | some c =>
    obtain ⟨token, name, parent, fields, methods⟩ := c
    cases parent <;> rfl

theorem ancestorsWithin_unplaced (n : Nat) (name : Bytes) :
    ancestorsWithin (cs.map ClassDecl.unplaced) n name = ancestorsWithin cs n name := by
  induction n generalizing name with
  | zero => simp only [ancestorsWithin, parentIn_unplaced]
  | succ n ih => simp only [ancestorsWithin, parentIn_unplaced, ih]

theorem ancestorsIn_unplaced (name : Bytes) :
    ancestorsIn (cs.map ClassDecl.unplaced) name = ancestorsIn cs name := by
  unfold ancestorsIn
  rw [List.length_map, ancestorsWithin_unplaced]

/-- A class with its ancestors, the class without places. -/
def unplacedLine (l : ClassDecl × List Bytes) : ClassDecl × List Bytes := (l.1.unplaced, l.2)

theorem forgets_lineages (rest : List ClassDecl) :
    Forgets (List.map unplacedLine) (lineages cs rest)
      (lineages (cs.map ClassDecl.unplaced) (rest.map ClassDecl.unplaced)) := by
  induction rest with
  | nil => exact forgets_ok []
  | cons c rest ih =>
    have hname : c.unplaced.name.name = c.name.name := rfl
    simp only [List.map_cons, lineages, ancestorsIn_unplaced, hname]
    cases ancestorsIn cs c.name.name with
    | none => exact forgets_about _ _
    | some ancestors => exact ih.bind fun lines => forgets_ok ((c, ancestors) :: lines)

end Names

section Variables

variable {declared : List Bytes}

theorem forgets_resolve (t : TypeRef) :
    Forgets id (resolve declared t) (resolve declared t.unplaced) := by
  obtain ⟨token, type⟩ := t
  cases type with
  | object c => exact Forgets.ite (forgets_ok (Ty.object c)) rfl
  | _ => exact forgets_ok _

theorem forgets_declare (role : Role) (twice : DeclErrorKind) (seen : List Bytes) (index : Nat)
    (ds : List VarDecl) :
    Forgets id (declare declared role twice seen index ds)
      (declare declared role twice seen index (ds.map VarDecl.unplaced)) := by
  induction ds generalizing seen index with
  | nil => exact forgets_ok []
  | cons d ds ih =>
    refine (forgets_about _ _).ite ?_
    exact (forgets_resolve d.type).bind fun _ => (ih _ _).bind fun _ => forgets_ok _

theorem forgets_declareMethods (owner : Bytes) (seen : List Bytes) (ms : List MethodDecl) :
    Forgets id (declareMethods declared owner seen ms)
      (declareMethods declared owner seen (ms.map MethodDecl.unplaced)) := by
  induction ms generalizing seen with
  | nil => exact forgets_ok []
  | cons m ms ih =>
    refine (forgets_about _ _).ite ?_
    refine (forgets_resolve m.returns).bind fun _ => ?_
    refine (forgets_declare _ _ _ _ m.params).bind fun _ => ?_
    refine (forgets_declare _ _ _ _ m.vars).bind fun _ => ?_
    exact (ih _).bind fun _ => forgets_ok _

theorem forgets_assembleClasses (fields : List (Bytes × List Variable)) (tag : Nat)
    (lines : List (ClassDecl × List Bytes)) :
    Forgets id (assembleClasses declared fields tag lines)
      (assembleClasses declared fields tag (lines.map unplacedLine)) := by
  induction lines generalizing tag with
  | nil => exact forgets_ok []
  | cons l lines ih =>
    refine (forgets_declareMethods l.1.name.name [] l.1.methods).bind fun _ => ?_
    exact (ih _).bind fun _ => forgets_ok _

end Variables

section Fields

variable (cs : List ClassDecl) (lines : List (ClassDecl × List Bytes))

theorem declaredFields_unplaced (names : List Bytes) :
    declaredFields (cs.map ClassDecl.unplaced) names = declaredFields cs names := by
  unfold declaredFields
  rw [List.length_flatMap, List.length_flatMap]
  refine congrArg List.sum (List.map_congr_left fun name _ => ?_)
  rw [find?_unplaced]
  cases cs.find? (·.name.name == name) with
  | none => rfl
  | some c => exact List.length_map _

theorem layoutOrder_unplaced : layoutOrder (lines.map unplacedLine) = layoutOrder lines := by
  unfold layoutOrder
  rw [List.flatMap_map]
  rfl

theorem forgets_layFields (names : List Bytes) :
    Forgets id (layFields cs lines names)
      (layFields (cs.map ClassDecl.unplaced) (lines.map unplacedLine) names) := by
  have hdeclared : (cs.map ClassDecl.unplaced).map (·.name.name) = cs.map (·.name.name) :=
    List.map_map
  induction names with
  | nil => exact forgets_ok []
  | cons name names ih =>
    have hfind : (lines.map unplacedLine).find? (·.1.name.name == name) =
        (lines.find? (·.1.name.name == name)).map unplacedLine := List.find?_map ..
    simp only [layFields, hfind]
    cases lines.find? (·.1.name.name == name) with
    | none => exact ih
    | some l =>
      simp only [Option.map_some, unplacedLine, declaredFields_unplaced, hdeclared]
      exact (forgets_declare _ _ _ _ l.1.fields).bind fun _ => ih.bind fun _ => forgets_ok _

end Fields

/-- The table of a program does not depend on places, nor does what is wrong with it. -/
theorem build_unplaced (p : Program) :
    build p.unplaced = (build p).mapError DeclError.unplaced := by
  have hforgets : Forgets id (build p) (build p.unplaced) := by
    obtain ⟨main, cs⟩ := p
    have hdeclared : (cs.map ClassDecl.unplaced).map (·.name.name) = cs.map (·.name.name) :=
      List.map_map
    cases main with
    | none => exact forgets_ok empty
    | some m =>
      simp only [build, Program.unplaced, Option.map_some, hdeclared]
      refine (forgets_checkNames cs [m.name.name]).bind fun _ => ?_
      refine (forgets_checkParents cs _).bind fun _ => ?_
      refine (forgets_lineages cs cs).bind fun lines => ?_
      rw [layoutOrder_unplaced]
      refine (forgets_layFields cs lines _).bind fun _ => ?_
      refine (forgets_declare _ _ _ _ m.vars).bind fun _ => ?_
      exact (forgets_assembleClasses _ _ lines).bind fun _ => forgets_ok _
  rw [hforgets]
  cases build p <;> rfl

end ClassTable

end MiniJava
