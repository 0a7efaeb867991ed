import Mathlib.Data.List.Nodup
import MiniJava.Compile.Generator
import MiniJava.Proofs.ClassTable.Lineage
import MiniJava.Proofs.Semantics

/-!
# Classes as the interpreter sees them

The interpreter and the class table mean the same by the names of methods, fields and variables.

* **`family_eq`** — the classes that a class inherits from are its lineage.
* **`Slot`**, **`getElem?_fieldsOf`** — a field has the same place in all objects that have it.
* **`methodNamed?_of_method?`**, **`resolve?_of_lookup?`** — what names mean.
-/

namespace MiniJava

open ClassTable Semantics

/-! ### Families -/

section Families

variable {m : MainClass} {cs : List ClassDecl}

theorem parentIn_eq {name : Bytes} {c : ClassDecl} (hc : declOf cs name = some c) :
    parentIn cs name = c.parent.map (·.name) := by
  rw [declOf] at hc
  cases hparent : c.parent with
  | none => simp [parentIn, hc, hparent]
  | some p => simp [parentIn, hc, hparent]

/-- The classes that are found from parent to parent are those of the ancestors' names. -/
theorem ancestry_eq {n : Nat} {name : Bytes} {l : List Bytes} {c : ClassDecl}
    (h : ancestorsWithin cs n name = some l) (hc : declOf cs name = some c)
    (hall : ∀ x ∈ l, ∃ d, declOf cs x = some d) {k : Nat} (hk : l.length < k) :
    ancestry cs k name = c :: l.filterMap (declOf cs) := by
  induction n generalizing name l c k with
  | zero =>
    obtain ⟨k, rfl⟩ := Nat.exists_eq_add_one_of_ne_zero (Nat.ne_zero_of_lt hk)
    have hparent := parentIn_eq hc
    simp only [ancestorsWithin] at h
    split at h
    · rename_i hnone
      obtain rfl := Option.some.inj h
      rw [hnone] at hparent
      have hnone : c.parent = none := by simpa using hparent.symm
      simp only [declOf] at hc
      simp only [ancestry, hc, hnone, List.filterMap_nil]
    · cases h
  | succ n ih =>
    obtain ⟨k, rfl⟩ := Nat.exists_eq_add_one_of_ne_zero (Nat.ne_zero_of_lt hk)
    have hparent := parentIn_eq hc
    simp only [ancestorsWithin] at h
    simp only [declOf] at hc
    cases hp : c.parent with
    | none =>
      rw [hp, Option.map_none] at hparent
      rw [hparent] at h
      obtain rfl := Option.some.inj h
      simp only [ancestry, hc, hp, List.filterMap_nil]
    | some p =>
      rw [hp, Option.map_some] at hparent
      rw [hparent] at h
      obtain ⟨l', hl', rfl⟩ := Option.map_eq_some_iff.mp h
      rw [List.forall_mem_cons] at hall
      obtain ⟨d, hd⟩ := hall.1
      rw [List.length_cons] at hk
      simp only [ancestry, hc, hp]
      rw [ih hl' hd hall.2 (by omega), List.filterMap_cons_some hd]

/-- The classes that a class inherits from are its lineage. -/
theorem family_eq (hw : WellDeclared m cs) {c : ClassDecl} (hc : c ∈ cs) :
    family cs c.name.name = lineage cs c := by
  obtain ⟨l, hl⟩ := Option.isSome_iff_exists.mp (hw.acyclic c hc)
  have hancestors : ancestorsOf cs c.name.name = l := by rw [ancestorsOf, hl, Option.getD_some]
  have hall : ∀ x ∈ l, ∃ d, declOf cs x = some d := by
    intro x hx
    exact declared_of_mem_ancestors hw (hancestors ▸ hx)
  have hlength : l.length < cs.length := hancestors ▸ length_ancestorsOf_lt hw hc
  rw [family, ancestry_eq hl (declOf_of_mem hw hc) hall hlength, lineage, hancestors]

/-- A name without a declaration has no family. -/
theorem family_eq_nil {name : Bytes} (h : declOf cs name = none) : family cs name = [] := by
  rw [declOf] at h
  rw [family]
  cases cs.length with
  | zero => rfl
  | succ n => simp only [ancestry, h]

end Families

/-! ### Methods -/

section Methods

variable {m : MainClass} {cs : List ClassDecl}

/-- A method that the table finds is found by the interpreter. -/
theorem methodNamed?_of_method? (hw : WellDeclared m cs) {c : ClassDecl} (hc : c ∈ cs) {k : Nat}
    {name : Bytes} {target : Method}
    (h : (tableOf m cs).method? (c.info cs k) name = some target) :
    ∃ e d, methodNamed? cs c.name.name name = some (e, d) ∧ e ∈ cs ∧ d ∈ e.methods ∧
      target = d.info e.name.name := by
  rw [method?_eq hw] at h
  have hmap : ((lineage cs c).findSome? fun d => (d.method? name).map (d, ·)).map
      (fun found => found.2.info found.1.name.name) = some target := by
    rw [← h, List.map_findSome?]
    congr 1
    funext d
    exact Option.map_map ..
  obtain ⟨⟨e, d⟩, hfound, htarget⟩ := Option.map_eq_some_iff.mp hmap
  obtain ⟨e', he', hd⟩ := List.exists_of_findSome?_eq_some hfound
  obtain ⟨d', hd', heq⟩ := Option.map_eq_some_iff.mp hd
  obtain ⟨rfl, rfl⟩ := Prod.mk.inj heq
  refine ⟨e', d', ?_, mem_of_mem_lineage hc he', List.mem_of_find?_eq_some hd', htarget.symm⟩
  rw [methodNamed?, family_eq hw hc]
  exact hfound

end Methods

/-! ### Fields -/

/-- The field of the given key is kept in the slot `i` of an object. -/
def Slot (cs : List ClassDecl) (key : Key) (i : Nat) : Prop :=
  ∃ c ∈ cs, ∃ j d, c.fields[j]? = some d ∧ key = (c.name.name, d.name.name) ∧
    i = declaredFields cs (ancestorsOf cs c.name.name) + j

section Fields

variable {m : MainClass} {cs : List ClassDecl}

/-- The fields that a class itself declares, with their types. -/
def ownFields (c : ClassDecl) : List (Key × Ty) :=
  c.fields.map fun d => ((c.name.name, d.name.name), d.type.type)

theorem fieldsOf_eq (hw : WellDeclared m cs) {c : ClassDecl} (hc : c ∈ cs) :
    fieldsOf cs c.name.name = (lineage cs c).reverse.flatMap ownFields := by
  rw [fieldsOf, family_eq hw hc]
  rfl

/-- A class with a field is declared. -/
theorem declared_of_mem_fieldsOf {name : Bytes} {field : Key × Ty} (h : field ∈ fieldsOf cs name) :
    ∃ c ∈ cs, c.name.name = name := by
  cases hc : declOf cs name with
  | none =>
    rw [fieldsOf, family_eq_nil hc] at h
    cases h
  | some c => exact ⟨c, declOf_eq_some hc⟩

theorem length_flatMap_ownFields (ds : List ClassDecl) :
    (ds.reverse.flatMap ownFields).length = (ds.flatMap (·.fields)).length := by
  induction ds with
  | nil => rfl
  | cons d ds ih =>
    rw [List.reverse_cons, List.flatMap_append, List.length_append, ih, List.flatMap_singleton,
      List.flatMap_cons, List.length_append, ownFields, List.length_map, Nat.add_comm]

theorem length_fieldsOf (hw : WellDeclared m cs) {c : ClassDecl} (hc : c ∈ cs) (k : Nat) :
    (fieldsOf cs c.name.name).length = (tableOf m cs).fieldCount (c.info cs k) := by
  rw [fieldsOf_eq hw hc, length_flatMap_ownFields, ClassTable.fieldCount,
    length_flatMap_fields (chain_spec hw k)]

/-- A field has the same place in all objects that have it. -/
theorem getElem?_fieldsOf (hw : WellDeclared m cs) {key : Key} {i : Nat} (hslot : Slot cs key i)
    {name : Bytes} (hkey : key ∈ (fieldsOf cs name).map (·.1)) :
    ∃ type, (fieldsOf cs name)[i]? = some (key, type) := by
  obtain ⟨e, he, j, d, hd, rfl, rfl⟩ := hslot
  obtain ⟨field, hfield, hfst⟩ := List.mem_map.mp hkey
  obtain ⟨c, hc, rfl⟩ := declared_of_mem_fieldsOf hfield
  rw [fieldsOf_eq hw hc] at hfield ⊢
  obtain ⟨e', he', hown⟩ := List.mem_flatMap.mp hfield
  rw [List.mem_reverse] at he'
  obtain ⟨d', -, rfl⟩ := List.mem_map.mp hown
  have hname : e'.name.name = e.name.name := (Prod.mk.inj hfst).1
  obtain rfl : e' = e := by
    have hfind := declOf_of_mem hw (mem_of_mem_lineage hc he')
    rw [hname, declOf_of_mem hw he] at hfind
    exact (Option.some.inj hfind).symm
  obtain ⟨front, hsplit⟩ := lineage_split hw hc he'
  -- the fields are those of the ancestors, those of the class, and those of its descendants
  have hfields : (lineage cs c).reverse.flatMap ownFields =
      ((ancestorsOf cs e'.name.name).filterMap (declOf cs)).reverse.flatMap ownFields ++
        (ownFields e' ++ front.reverse.flatMap ownFields) := by
    rw [hsplit, lineage, List.reverse_append, List.reverse_cons]
    simp only [List.flatMap_append, List.flatMap_singleton, List.append_assoc]
  have hfront := length_flatMap_ownFields ((ancestorsOf cs e'.name.name).filterMap (declOf cs))
  rw [← declaredFields_eq] at hfront
  have hlt : j < (ownFields e').length := by
    rw [ownFields, List.length_map]
    exact (List.getElem?_eq_some_iff.mp hd).1
  refine ⟨d.type.type, ?_⟩
  rw [hfields, List.getElem?_append_right (by omega), hfront, Nat.add_sub_cancel_left,
    List.getElem?_append_left hlt, ownFields, List.getElem?_map, hd, Option.map_some]

/-- No two fields of an object have the same key. -/
theorem nodup_fieldsOf (hw : WellDeclared m cs) (name : Bytes) :
    ((fieldsOf cs name).map (·.1)).Nodup := by
  cases hdecl : declOf cs name with
  | none =>
    rw [fieldsOf, family_eq_nil hdecl]
    exact List.nodup_nil
  | some c =>
    obtain ⟨hc, rfl⟩ := declOf_eq_some hdecl
    rw [fieldsOf_eq hw hc, List.map_flatMap, List.nodup_flatMap]
    have hnames : ((lineage cs c).map (·.name.name)).Nodup := by
      rw [map_name_lineage hw]
      exact nodup_ancestors hw hc
    constructor
    · intro d hd
      have hfields := hw.fieldNames d (mem_of_mem_lineage hc (List.mem_reverse.mp hd))
      rw [ownFields, List.map_map]
      refine List.Nodup.of_map Prod.snd ?_
      rw [List.map_map]
      exact hfields
    · rw [List.pairwise_reverse]
      refine (List.pairwise_map.mp hnames).imp ?_
      intro d d' hne key hkey hkey'
      simp only [ownFields, List.map_map, List.mem_map] at hkey hkey'
      obtain ⟨f, -, rfl⟩ := hkey
      obtain ⟨f', -, heq⟩ := hkey'
      exact hne (Prod.mk.inj heq).1

end Fields

/-! ### Variables -/

/-- The variable is what the name means. -/
inductive Variable.Means (cs : List ClassDecl) (v : Variable) : Binding → Prop
  | param : v.role = .parameter → Means cs v (.param v.index)
  | localVar : v.role = .localVar → Means cs v (.localVar v.index)
  | field {key : Key} : v.role = .field → Slot cs key v.index → Means cs v (.field key)

section Variables

variable {m : MainClass} {cs : List ClassDecl}

theorem find?_slots (name : Bytes) (role : Role) (index : Nat) (ds : List VarDecl) :
    (slots role index ds).find? (·.name == name) =
      (declared? name ds).map fun (i, type) => ⟨name, type, role, index + i⟩ := by
  induction ds generalizing index with
  | nil => rfl
  | cons d ds ih =>
    by_cases hd : d.name.name = name
    · rw [slots, List.find?_cons_of_pos (by simpa using hd), declared?, if_pos (by simpa using hd),
        Option.map_some, hd]
      rfl
    · rw [slots, List.find?_cons_of_neg (by simpa using hd), declared?, if_neg (by simpa using hd),
        ih, Option.map_map]
      congr 1
      funext pair
      show Variable.mk name pair.2 role (index + 1 + pair.1) =
        ⟨name, pair.2, role, index + (pair.1 + 1)⟩
      rw [Nat.add_assoc, Nat.add_comm 1]

/-- The declared variable of a name is the first one. -/
theorem getElem?_of_declared? {name : Bytes} {ds : List VarDecl} {i : Nat} {type : Ty}
    (h : declared? name ds = some (i, type)) :
    ∃ d, ds[i]? = some d ∧ d.name.name = name ∧ d.type.type = type := by
  induction ds generalizing i with
  | nil => cases h
  | cons d ds ih =>
    by_cases hd : d.name.name = name
    · rw [declared?, if_pos (by simpa using hd)] at h
      obtain ⟨rfl, rfl⟩ := Prod.mk.inj (Option.some.inj h)
      exact ⟨d, rfl, hd, rfl⟩
    · rw [declared?, if_neg (by simpa using hd)] at h
      obtain ⟨⟨j, type'⟩, hj, heq⟩ := Option.map_eq_some_iff.mp h
      obtain ⟨rfl, rfl⟩ := Prod.mk.inj heq
      obtain ⟨d', hd', hrest⟩ := ih hj
      exact ⟨d', by simpa using hd', hrest⟩

theorem find?_fields (name : Bytes) (ds : List VarDecl) :
    ds.find? (·.name.name == name) = (declared? name ds).bind fun pair => ds[pair.1]? := by
  induction ds with
  | nil => rfl
  | cons d ds ih =>
    by_cases hd : d.name.name = name
    · rw [List.find?_cons_of_pos (by simpa using hd), declared?, if_pos (by simpa using hd)]
      rfl
    · rw [List.find?_cons_of_neg (by simpa using hd), declared?, if_neg (by simpa using hd), ih,
        Option.bind_map]
      rfl

/-- A field that the table finds is found by the interpreter. -/
theorem fieldNamed?_of_field? (hw : WellDeclared m cs) {c : ClassDecl} (hc : c ∈ cs) {k : Nat}
    {name : Bytes} {v : Variable} (h : (tableOf m cs).field? (c.info cs k) name = some v) :
    ∃ key, fieldNamed? cs c.name.name name = some (key, v.type) ∧ v.role = .field ∧
      Slot cs key v.index := by
  have hfields : (tableOf m cs).field? (c.info cs k) name =
      (lineage cs c).findSome? fun d =>
        (slots .field (declaredFields cs (ancestorsOf cs d.name.name)) d.fields).find?
          (·.name == name) := by
    refine findSome?_forall₂ ?_ (chain_spec hw k)
    rintro i d ⟨k, rfl⟩
    rfl
  rw [hfields] at h
  rw [fieldNamed?, family_eq hw hc]
  have hall : ∀ d ∈ lineage cs c, d ∈ cs := fun d hd => mem_of_mem_lineage hc hd
  generalize lineage cs c = ds at h hall
  induction ds with
  | nil => cases h
  | cons d ds ih =>
    rw [List.forall_mem_cons] at hall
    rw [List.findSome?_cons, find?_slots] at h
    rw [List.findSome?_cons, find?_fields]
    cases hdecl : declared? name d.fields with
    | none =>
      rw [hdecl] at h
      exact ih h hall.2
    | some pair =>
      obtain ⟨j, type⟩ := pair
      rw [hdecl] at h
      obtain rfl := Option.some.inj h
      obtain ⟨field, hfield, hname, rfl⟩ := getElem?_of_declared? hdecl
      refine ⟨(d.name.name, name), ?_, rfl, d, hall.1, j, field, hfield, by rw [hname], rfl⟩
      simp only [Option.bind_some, hfield, Option.map_some]

/-- What a name means to the compiler it means to the interpreter. -/
theorem resolve?_of_lookup? (hw : WellDeclared m cs) {c : ClassDecl} (hc : c ∈ cs) {k : Nat}
    {d : MethodDecl} {name : Bytes} {v : Variable}
    (h : Scope.lookup? ⟨tableOf m cs, c.info cs k, d.info c.name.name, false⟩ name = some v) :
    ∃ binding, resolve? cs ⟨some c.name.name, d.params, d.vars⟩ name = some (binding, v.type) ∧
      v.Means cs binding := by
  have hparam := find?_slots name .parameter 0 d.params
  have hlocal := find?_slots name .localVar 0 d.vars
  simp only [Scope.lookup?, Method.param?, Method.local?, MethodDecl.info, hparam, hlocal] at h
  simp only [resolve?]
  cases hp : declared? name d.params with
  | some pair =>
    rw [hp] at h
    obtain rfl := Option.some.inj h
    refine ⟨.param pair.1, rfl, ?_⟩
    have hmeans : Variable.Means cs ⟨name, pair.2, .parameter, 0 + pair.1⟩ _ := .param rfl
    rwa [show (⟨name, pair.2, .parameter, 0 + pair.1⟩ : Variable).index = pair.1 from
      Nat.zero_add _] at hmeans
  | none =>
    cases hl : declared? name d.vars with
    | some pair =>
      rw [hp, hl] at h
      obtain rfl := Option.some.inj h
      refine ⟨.localVar pair.1, rfl, ?_⟩
      have hmeans : Variable.Means cs ⟨name, pair.2, .localVar, 0 + pair.1⟩ _ := .localVar rfl
      rwa [show (⟨name, pair.2, .localVar, 0 + pair.1⟩ : Variable).index = pair.1 from
        Nat.zero_add _] at hmeans
    | none =>
      rw [hp, hl] at h
      obtain ⟨key, hkey, hrole, hslot⟩ := fieldNamed?_of_field? hw hc (show _ = some v from h)
      simp only [hkey, Option.map_some]
      exact ⟨.field key, rfl, .field hrole hslot⟩

end Variables

end MiniJava
