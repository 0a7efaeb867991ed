import MiniJava.Parse.Program
import MiniJava.Proofs.ClassTable.Acceptance
import MiniJava.Proofs.Compile.Reuse

/-!
# Objects along inheritance

Where the fields of objects lie.  A class numbers its own fields after those that it inherits, so
that what an object has in common with the objects of an ancestor lies in front, at the same
places.

* **`allFields_info`** — the slots of an object, from the declarations.
* **`index_allFields`** — every slot has the number of its place.
* **`field?_eq_find?`** — a name means the last slot that bears it.
* **`fields_along_inheritance`** — the whole statement, for every class of a table.
-/

namespace MiniJava

open ClassTable Relation

/-! ### Any table -/

namespace ClassTable

/-- The number of slots is what it is called. -/
theorem length_allFields (t : ClassTable) (c : ClassInfo) :
    (t.allFields c).length = t.fieldCount c := by
  simp only [allFields, fieldCount, List.length_flatMap, List.map_reverse, List.sum_reverse]

/-- Among slots with different names, the first and the last of a name are the same. -/
theorem find?_reverse {vs : List Variable} (h : (vs.map (·.name)).Nodup) (name : Bytes) :
    vs.reverse.find? (·.name == name) = vs.find? (·.name == name) := by
  induction vs with
  | nil => rfl
  | cons v vs ih =>
    rw [List.map_cons, List.nodup_cons] at h
    rw [List.reverse_cons, List.find?_append, ih h.2]
    by_cases hv : v.name = name
    · have hnone : vs.find? (·.name == name) = none := by
        rw [List.find?_eq_none]
        intro w hw hname
        rw [beq_iff_eq] at hname
        exact h.1 (hv ▸ hname ▸ List.mem_map_of_mem hw)
      simp [hnone, hv]
    · simp [hv]

/-- A name means the last slot that bears it, if no class declares a name twice. -/
theorem field?_eq_find? {t : ClassTable} {c : ClassInfo}
    (h : ∀ i ∈ t.chain c, (i.fields.map (·.name)).Nodup) (name : Bytes) :
    t.field? c name = (t.allFields c).reverse.find? (·.name == name) := by
  rw [allFields, List.reverse_flatMap, List.reverse_reverse, List.find?_flatMap, field?]
  generalize t.chain c = is at h
  induction is with
  | nil => rfl
  | cons i is ih =>
    rw [List.forall_mem_cons] at h
    simp only [List.findSome?_cons, Function.comp_apply, find?_reverse h.1, ih h.2]
    rfl

end ClassTable

/-! ### The slots of an object -/

section Objects

variable {m : MainClass} {cs : List ClassDecl} (hw : WellDeclared m cs)

/-- The slots of the fields that a class itself declares. -/
def slotsOf (cs : List ClassDecl) (c : ClassDecl) : List Variable :=
  slots .field (declaredFields cs (ancestorsOf cs c.name.name)) c.fields

theorem getElem?_slots {role : Role} {index : Nat} {ds : List VarDecl} {i : Nat} {v : Variable}
    (h : (slots role index ds)[i]? = some v) : v.index = index + i := by
  induction ds generalizing index i with
  | nil => cases h
  | cons d ds ih =>
    cases i with
    | zero =>
      obtain rfl := Option.some.inj h
      rfl
    | succ i =>
      rw [ih h]
      omega

include hw

/-- The chain of a class holds the slots that its lineage declares. -/
theorem map_fields_chain {c : ClassDecl} (k : Nat) :
    ((tableOf m cs).chain (c.info cs k)).map (·.fields) = (lineage cs c).map (slotsOf cs) := by
  have h := chain_spec hw (c := c) k
  generalize (tableOf m cs).chain (c.info cs k) = is at h
  generalize lineage cs c = ds at h
  induction h with
  | nil => rfl
  | cons hid _ ih =>
    obtain ⟨k, rfl⟩ := hid
    rw [List.map_cons, List.map_cons, ih]
    rfl

/-- The slots of an object are those that its lineage declares, the farthest ancestor first. -/
theorem allFields_info {c : ClassDecl} (k : Nat) :
    (tableOf m cs).allFields (c.info cs k) = (lineage cs c).reverse.flatMap (slotsOf cs) := by
  rw [allFields, List.flatMap_def, List.map_reverse, map_fields_chain hw, ← List.map_reverse,
    ← List.flatMap_def]

/-- Every slot has the number of its place: the fields of a class are numbered after all that it
inherits. -/
theorem index_flatMap_slotsOf {c : ClassDecl} (hc : c ∈ cs) {i : Nat} {v : Variable}
    (h : ((lineage cs c).reverse.flatMap (slotsOf cs))[i]? = some v) : v.index = i := by
  induction hn : (lineage cs c).length generalizing c i with
  | zero => cases hn
  | succ n ih =>
    rcases lineage_cases hw hc with ⟨hroot, -⟩ | ⟨d, hd, -, hancestors, hlineage⟩
    · have hsingle : lineage cs c = [c] := by rw [lineage, hroot, List.filterMap_nil]
      rw [hsingle, List.reverse_singleton, List.flatMap_singleton, slotsOf, hroot] at h
      rw [getElem?_slots h]
      exact Nat.zero_add i
    · rw [hlineage, List.length_cons, Nat.succ_inj] at hn
      rw [hlineage, List.reverse_cons, List.flatMap_append, List.flatMap_singleton] at h
      have hlength : ((lineage cs d).reverse.flatMap (slotsOf cs)).length =
          declaredFields cs (ancestorsOf cs c.name.name) := by
        rw [← allFields_info hw 0, length_allFields, fieldCount_eq hw, hancestors,
          declaredFields_cons, declOf_of_mem hw hd, Nat.add_comm]
        rfl
      by_cases hi : i < ((lineage cs d).reverse.flatMap (slotsOf cs)).length
      · rw [List.getElem?_append_left hi] at h
        exact ih hd h hn
      · rw [List.getElem?_append_right (Nat.le_of_not_lt hi), slotsOf] at h
        rw [getElem?_slots h]
        omega

/-- Every slot of an object has the number of its place. -/
theorem index_allFields {c : ClassDecl} (hc : c ∈ cs) (k : Nat) {i : Nat} {v : Variable}
    (h : ((tableOf m cs).allFields (c.info cs k))[i]? = some v) : v.index = i := by
  rw [allFields_info hw] at h
  exact index_flatMap_slotsOf hw hc h

theorem nodup_names_chain {c : ClassDecl} (hc : c ∈ cs) (k : Nat) :
    ∀ i ∈ (tableOf m cs).chain (c.info cs k), (i.fields.map (·.name)).Nodup := by
  intro i hi
  have hmem := List.mem_map_of_mem (f := (·.fields)) hi
  rw [map_fields_chain hw] at hmem
  obtain ⟨d, hd, hfields⟩ := List.mem_map.mp hmem
  rw [← hfields, slotsOf, map_name_slots]
  exact hw.fieldNames d (mem_of_mem_lineage hc hd)

/-- Everything that is reached from parent to parent is in the lineage. -/
theorem mem_lineage_of_reflTransGen {c a : ClassDecl} (hc : c ∈ cs) (ha : a ∈ cs)
    (h : ReflTransGen (Extends cs) c.name.name a.name.name) : a ∈ lineage cs c := by
  obtain ⟨-, hnodup⟩ := List.nodup_cons.mp hw.names
  have hdecl := declOf_of_mem hw ha
  rcases reflTransGen_iff_eq_or_transGen.mp h with heq | htrans
  · rw [heq, declOf_of_mem hw hc] at hdecl
    obtain rfl := Option.some.inj hdecl
    exact List.mem_cons_self
  · obtain ⟨l, hl⟩ := Option.isSome_iff_exists.mp (hw.acyclic c hc)
    have hmem := mem_ancestors_of_transGen hnodup hl htrans
    rw [lineage, ancestorsOf, hl, Option.getD_some]
    exact List.mem_cons_of_mem _ (List.mem_filterMap.mpr ⟨_, hmem, hdecl⟩)

/-- The slots of an ancestor lie in front. -/
theorem allFields_prefix {c a : ClassDecl} (hc : c ∈ cs) (ha : a ∈ cs) (k k' : Nat)
    (h : ReflTransGen (Extends cs) c.name.name a.name.name) :
    (tableOf m cs).allFields (a.info cs k') <+: (tableOf m cs).allFields (c.info cs k) := by
  obtain ⟨front, hsplit⟩ := lineage_split hw hc (mem_lineage_of_reflTransGen hw hc ha h)
  rw [allFields_info hw, allFields_info hw, hsplit, List.reverse_append, List.flatMap_append]
  exact List.prefix_append _ _

end Objects

/-! ### Every class of a table -/

namespace ClassTable

/-- The classes of a table, the entry class in front. -/
def allClasses (t : ClassTable) : List ClassInfo := t.entry.toList ++ t.classes

end ClassTable

section Classes

variable {m : MainClass} {cs : List ClassDecl}

theorem mem_allClasses {c : ClassInfo} (h : c ∈ (tableOf m cs).allClasses) :
    c = m.info ∨ ∃ d ∈ cs, ∃ k, c = d.info cs k := by
  rcases List.mem_append.mp h with h | h
  · exact .inl (by simpa [tableOf] using h)
  · obtain ⟨d, hd, k, -, -, rfl⟩ := mem_infos h
    exact .inr ⟨d, hd, k, rfl⟩

theorem map_name_infos (cs : List ClassDecl) (tag : Nat) (rest : List ClassDecl) :
    (infos cs tag rest).map (·.name) = rest.map (·.name.name) := by
  induction rest generalizing tag with
  | nil => rfl
  | cons c rest ih => exact congrArg (c.name.name :: ·) (ih (tag + 1))

/-- Every class of a table is found by its name. -/
theorem find?_of_mem_allClasses (hw : WellDeclared m cs) {c : ClassInfo}
    (h : c ∈ (tableOf m cs).allClasses) : (tableOf m cs).find? c.name = some c := by
  have hnames : (tableOf m cs).allClasses.map (·.name) = m.name.name :: cs.map (·.name.name) := by
    rw [← map_name_infos cs 1]
    rfl
  refine find?_of_mem ?_ h
  show ((tableOf m cs).allClasses.map (·.name)).Nodup
  rw [hnames]
  exact hw.names

/-- The entry class has no ancestors and no descendants. -/
theorem ancestor_cases (hw : WellDeclared m cs) {c a : ClassInfo}
    (hc : c ∈ (tableOf m cs).allClasses) (ha : a ∈ (tableOf m cs).allClasses)
    (h : ReflTransGen (Extends cs) c.name a.name) :
    (c = m.info ∧ a = m.info) ∨
      ∃ d ∈ cs, ∃ e ∈ cs, ∃ k k', c = d.info cs k ∧ a = e.info cs k' ∧
        ReflTransGen (Extends cs) d.name.name e.name.name := by
  have hself {i : ClassInfo} (hi : i ∈ (tableOf m cs).allClasses) (heq : i.name = m.name.name) :
      i = m.info := by
    have hfind := find?_of_mem_allClasses hw hi
    have hentry := find?_of_mem_allClasses hw (c := m.info) (by simp [allClasses, tableOf])
    rw [heq] at hfind
    exact Option.some.inj (hfind.symm.trans hentry)
  obtain ⟨hentry, -⟩ := List.nodup_cons.mp hw.names
  rcases mem_allClasses hc with rfl | ⟨d, hd, k, rfl⟩
  · rcases ReflTransGen.cases_head h with heq | ⟨b, ⟨c, hc, hname, -⟩, -⟩
    · exact .inl ⟨rfl, hself ha heq.symm⟩
    · have hname : c.name.name = m.name.name := hname
      exact absurd (hname ▸ List.mem_map_of_mem hc) hentry
  · rcases mem_allClasses ha with rfl | ⟨e, he, k', rfl⟩
    · rcases ReflTransGen.cases_tail h with heq | ⟨b, -, c, hc, -, p, hp, hname⟩
      · exact .inl ⟨hself hc heq.symm, rfl⟩
      · have hname : p.name = m.name.name := hname
        exact absurd (hname ▸ hw.parents c hc p hp) hentry
    · exact .inr ⟨d, hd, e, he, k, k', rfl, rfl, h⟩

/-- Every slot of a class of a table has the number of its place. -/
theorem index_of_mem_allClasses (hw : WellDeclared m cs) {c : ClassInfo}
    (hc : c ∈ (tableOf m cs).allClasses) {i : Nat} {v : Variable}
    (h : ((tableOf m cs).allFields c)[i]? = some v) : v.index = i := by
  rcases mem_allClasses hc with rfl | ⟨d, hd, k, rfl⟩
  · cases h
  · exact index_allFields hw hd k h

end Classes

/-- What has a number below that of the fields of an object lies in the object, behind its
header. -/
theorem fieldOffset_bounds {t : ClassTable} {c : ClassInfo} {n : Nat} (h : n < t.fieldCount c) :
    4 * headerWords ≤ fieldOffset n ∧ fieldOffset n + 4 ≤ (t.layout c).bytes := by
  have hfields : (t.layout c).fields = t.fieldCount c := rfl
  simp only [fieldOffset, Layout.bytes, hfields]
  omega

theorem fieldOffset_injective {n k : Nat} (h : fieldOffset n = fieldOffset k) : n = k := by
  unfold fieldOffset at h
  omega

/-- The slots of an object are numbered in order, and there are as many as are counted; a name
means the last slot that bears it; the layout that a generator or an emitter works with, computed or
remembered, is that of the table; and the slots of an ancestor lie in front.  Therefore a field that
is visible in an ancestor, shadowed or not, is a word of the object behind its header, and no other
field of the object lies there. -/
theorem fields_along_inheritance {p : Program} {t : ClassTable} (h : build p = .ok t)
    {c : ClassInfo} (hc : c ∈ t.allClasses) :
    (t.allFields c).length = t.fieldCount c ∧
      (∀ (i : Nat) (v : Variable), (t.allFields c)[i]? = some v → v.index = i) ∧
      (∀ name, t.field? c name = (t.allFields c).reverse.find? (·.name == name)) ∧
      (∀ site g, Gen.layout t c site g = (.ok (t.layout c), g)) ∧
      (∀ (S : LayoutStore) (e : Emitter S) site, S.Lawful → e.scope.table = t → e.Recalls t →
        (Emit.layoutOf c site e).1 = .ok (t.layout c)) ∧
      ∀ a ∈ t.allClasses, ReflTransGen (Extends p.classes) c.name a.name →
        t.allFields a <+: t.allFields c ∧
        ∀ f ∈ t.allFields a,
          4 * headerWords ≤ fieldOffset f.index ∧
          fieldOffset f.index + 4 ≤ (t.layout c).bytes ∧
          ∀ f' ∈ t.allFields c, f' ≠ f → fieldOffset f'.index ≠ fieldOffset f.index := by
  cases hmain : p.main with
  | none =>
    simp only [build, hmain] at h
    obtain rfl := Except.ok.inj h
    cases hc
  | some m =>
    obtain ⟨ht, hw⟩ := build_spec hmain h
    obtain rfl : t = tableOf m p.classes := ht
    have hnumber : ∀ (i : Nat) (v : Variable),
        ((tableOf m p.classes).allFields c)[i]? = some v → v.index = i :=
      fun i v hv => index_of_mem_allClasses hw hc hv
    refine ⟨length_allFields _ c, hnumber, ?_, ?_, ?_, ?_⟩
    · intro name
      rcases mem_allClasses hc with rfl | ⟨d, hd, k, rfl⟩
      · rfl
      · exact field?_eq_find? (nodup_names_chain hw hd k) name
    · intro site g
      rw [Gen.layout_eq]
      rfl
    · intro S e site hS htable hrecalls
      rw [← htable] at hrecalls ⊢
      have hfind : e.scope.table.find? c.name = some c := by
        rw [htable]
        exact find?_of_mem_allClasses hw hc
      obtain ⟨layouts, hlayout, -⟩ := layoutOf_eq hS hrecalls hfind site
      rw [hlayout]
    · intro a ha hancestor
      have hfront : (tableOf m p.classes).allFields a <+: (tableOf m p.classes).allFields c := by
        rcases ancestor_cases hw hc ha hancestor with ⟨rfl, rfl⟩ | ⟨d, hd, e, he, k, k', rfl, rfl, h⟩
        · exact List.prefix_refl _
        · exact allFields_prefix hw hd he k k' h
      refine ⟨hfront, ?_⟩
      intro f hf
      obtain ⟨i, hi⟩ := List.mem_iff_getElem?.mp (hfront.subset hf)
      have hlt : f.index < (tableOf m p.classes).fieldCount c := by
        rw [hnumber i f hi, ← length_allFields]
        exact (List.getElem?_eq_some_iff.mp hi).1
      obtain ⟨hheader, hbytes⟩ := fieldOffset_bounds hlt
      refine ⟨hheader, hbytes, ?_⟩
      intro f' hf' hne heq
      obtain ⟨j, hj⟩ := List.mem_iff_getElem?.mp hf'
      have hij : j = i := by
        rw [← hnumber i f hi, ← hnumber j f' hj]
        exact fieldOffset_injective heq
      rw [hij, hi] at hj
      exact hne (Option.some.inj hj).symm

/-- A program that declares its classes from the youngest to the oldest; the field `x` of the
oldest is shadowed. -/
def shadowing : Bytes :=
  "class A\x7bpublic static void main(String[] a)\x7b\x7d\x7d" ++
    "class D extends C\x7bint y;\x7dclass C extends B\x7bint z;boolean x;\x7dclass B\x7bint x;D d;\x7d"

theorem fields_along_inheritance_shadowing :
    ∃ t c, build (Program.parse shadowing).program = .ok t ∧ c ∈ t.allClasses ∧ c.name = utf8 "D" ∧
      (t.allFields c).map (·.name) = ["x", "d", "z", "x", "y"].map utf8 ∧
      ∀ name, t.field? c name = (t.allFields c).reverse.find? (·.name == name) := by
  have hcheck : (build (Program.parse shadowing).program).toOption.any fun t =>
      ∃ c ∈ t.allClasses, c.name = utf8 "D" ∧
        (t.allFields c).map (·.name) = ["x", "d", "z", "x", "y"].map utf8 := by decide +kernel
  cases hbuild : build (Program.parse shadowing).program with
  | error e =>
    rw [hbuild] at hcheck
    cases hcheck
  | ok t =>
    rw [hbuild] at hcheck
    obtain ⟨c, hc, hname, hfields⟩ := of_decide_eq_true hcheck
    exact ⟨t, c, rfl, hc, hname, hfields, (fields_along_inheritance hbuild hc).2.2.1⟩

end MiniJava
