import Mathlib.Data.List.Perm.Lattice
import Mathlib.Data.List.Perm.Subperm
import MiniJava.Proofs.ClassTable.Build

/-!
# Lineages

The ancestors of a class, and what is looked up along them.

* **`tableOf`** — the table of well-declared classes.
* **`nodup_ancestors`** — no class descends from itself.
* **`tableOf_find?`** — the class of a name.
* **`method?_spec`**, **`field?_spec`** — what is found along a lineage was declared there.
* **`declaredFields_le`** — different classes declare no more fields than there are.
-/

namespace MiniJava

/-- The table of an entry class and other classes. -/
def tableOf (m : MainClass) (cs : List ClassDecl) : ClassTable := ⟨some m.info, infos cs 1 cs⟩

/-- The declaration of the class of the given name. -/
def declOf (cs : List ClassDecl) (name : Bytes) : Option ClassDecl :=
  cs.find? (·.name.name == name)

theorem declOf_eq_some {cs : List ClassDecl} {name : Bytes} {c : ClassDecl}
    (h : declOf cs name = some c) : c ∈ cs ∧ c.name.name = name :=
  ⟨List.mem_of_find?_eq_some h, by simpa using List.find?_some h⟩

/-! ### Ancestors -/

namespace ClassTable

theorem ancestorsWithin_mono {cs : List ClassDecl} {n k : Nat} (hle : n ≤ k) {name : Bytes}
    {l : List Bytes} (h : ancestorsWithin cs n name = some l) :
    ancestorsWithin cs k name = some l := by
  induction n generalizing k name l with
  | zero =>
    simp only [ancestorsWithin] at h
    split at h
    · rename_i hnone
      cases k <;> simpa [ancestorsWithin, hnone] using h
    · cases h
  | succ n ih =>
    obtain ⟨k, rfl⟩ : ∃ k', k = k' + 1 := ⟨k - 1, by omega⟩
    simp only [ancestorsWithin] at h ⊢
    cases hp : parentIn cs name with
    | none => rw [hp] at h; exact h
    | some p =>
      rw [hp] at h
      obtain ⟨l', hl', rfl⟩ := Option.map_eq_some_iff.mp h
      have hnext := ih (k := k) (by omega) hl'
      simp [hnext]

/-- However far one looks, the ancestors are the same. -/
theorem ancestorsWithin_unique {cs : List ClassDecl} {n k : Nat} {name : Bytes} {l l' : List Bytes}
    (h : ancestorsWithin cs n name = some l) (h' : ancestorsWithin cs k name = some l') :
    l = l' := by
  have hmax := ancestorsWithin_mono (Nat.le_max_left n k) h
  rw [ancestorsWithin_mono (Nat.le_max_right n k) h'] at hmax
  exact (Option.some.inj hmax).symm

/-- The ancestors of an ancestor are the last ones. -/
theorem ancestorsWithin_split {cs : List ClassDecl} {n : Nat} {name x : Bytes} {l : List Bytes}
    (h : ancestorsWithin cs n name = some l) (hx : x ∈ l) :
    ∃ front k l', l = front ++ x :: l' ∧ ancestorsWithin cs k x = some l' := by
  induction n generalizing name l with
  | zero =>
    simp only [ancestorsWithin] at h
    split at h
    · obtain rfl := Option.some.inj h
      cases hx
    · cases h
  | succ n ih =>
    simp only [ancestorsWithin] at h
    cases hp : parentIn cs name with
    | none =>
      rw [hp] at h
      obtain rfl := Option.some.inj h
      cases hx
    | some p =>
      rw [hp] at h
      obtain ⟨l', hl', rfl⟩ := Option.map_eq_some_iff.mp h
      rcases List.mem_cons.mp hx with rfl | hx
      · exact ⟨[], n, l', rfl, hl'⟩
      · obtain ⟨front, k, l'', rfl, hl''⟩ := ih hl' hx
        exact ⟨p :: front, k, l'', rfl, hl''⟩

theorem not_mem_ancestors {cs : List ClassDecl} {n : Nat} {name : Bytes} {l : List Bytes}
    (h : ancestorsWithin cs n name = some l) : name ∉ l := by
  intro hmem
  obtain ⟨front, k, l', hl, hl'⟩ := ancestorsWithin_split h hmem
  have hlength := congrArg List.length hl
  rw [ancestorsWithin_unique h hl', List.length_append, List.length_cons] at hlength
  omega

theorem nodup_ancestorsWithin {cs : List ClassDecl} {n : Nat} {name : Bytes} {l : List Bytes}
    (h : ancestorsWithin cs n name = some l) : (name :: l).Nodup := by
  refine List.nodup_cons.mpr ⟨not_mem_ancestors h, ?_⟩
  induction n generalizing name l with
  | zero =>
    simp only [ancestorsWithin] at h
    split at h
    · obtain rfl := Option.some.inj h
      exact List.nodup_nil
    · cases h
  | succ n ih =>
    simp only [ancestorsWithin] at h
    cases hp : parentIn cs name with
    | none =>
      rw [hp] at h
      obtain rfl := Option.some.inj h
      exact List.nodup_nil
    | some p =>
      rw [hp] at h
      obtain ⟨l', hl', rfl⟩ := Option.map_eq_some_iff.mp h
      exact List.nodup_cons.mpr ⟨not_mem_ancestors hl', ih hl'⟩

/-- Every ancestor is a class that is extended somewhere. -/
theorem parentIn_of_mem_ancestors {cs : List ClassDecl} {n : Nat} {name x : Bytes} {l : List Bytes}
    (h : ancestorsWithin cs n name = some l) (hx : x ∈ l) : ∃ y, parentIn cs y = some x := by
  induction n generalizing name l with
  | zero =>
    simp only [ancestorsWithin] at h
    split at h
    · obtain rfl := Option.some.inj h
      cases hx
    · cases h
  | succ n ih =>
    simp only [ancestorsWithin] at h
    cases hp : parentIn cs name with
    | none =>
      rw [hp] at h
      obtain rfl := Option.some.inj h
      cases hx
    | some p =>
      rw [hp] at h
      obtain ⟨l', hl', rfl⟩ := Option.map_eq_some_iff.mp h
      rcases List.mem_cons.mp hx with rfl | hx
      · exact ⟨name, hp⟩
      · exact ih hl' hx

end ClassTable

open ClassTable

section Table

variable {m : MainClass} {cs : List ClassDecl}

/-- No class descends from itself. -/
theorem nodup_ancestors {c : ClassDecl} (hw : WellDeclared m cs) (hc : c ∈ cs) :
    (c.name.name :: ancestorsOf cs c.name.name).Nodup := by
  obtain ⟨l, hl⟩ := Option.isSome_iff_exists.mp (hw.acyclic c hc)
  rw [ancestorsOf, hl]
  exact nodup_ancestorsWithin hl

/-- Every ancestor is declared. -/
theorem declared_of_mem_ancestors (hw : WellDeclared m cs) {name x : Bytes}
    (hx : x ∈ ancestorsOf cs name) : ∃ c, declOf cs x = some c := by
  cases h : ancestorsIn cs name with
  | none => simp [ancestorsOf, h] at hx
  | some l =>
    simp only [ancestorsOf, h, Option.getD_some] at hx
    obtain ⟨y, hy⟩ := parentIn_of_mem_ancestors h hx
    obtain ⟨c, hc, hparent⟩ := Option.bind_eq_some_iff.mp hy
    obtain ⟨p, hp, hx⟩ := Option.bind_eq_some_iff.mp hparent
    obtain rfl : p.name = x := by simpa using hx
    have hmem := hw.parents c (List.mem_of_find?_eq_some hc) p hp
    obtain ⟨d, hd, heq⟩ := List.mem_map.mp hmem
    exact ⟨d, heq ▸ find?_of_mem (List.nodup_cons.mp hw.names).2 hd⟩

/-- A class has fewer ancestors than there are classes. -/
theorem length_ancestorsOf_lt {c : ClassDecl} (hw : WellDeclared m cs) (hc : c ∈ cs) :
    (ancestorsOf cs c.name.name).length < cs.length := by
  have hsub : (c.name.name :: ancestorsOf cs c.name.name) ⊆ cs.map (·.name.name) := by
    rw [List.cons_subset]
    refine ⟨List.mem_map_of_mem hc, ?_⟩
    intro x hx
    obtain ⟨d, hd⟩ := declared_of_mem_ancestors hw hx
    obtain ⟨hmem, rfl⟩ := declOf_eq_some hd
    exact List.mem_map_of_mem hmem
  have hle := (List.subperm_of_subset (nodup_ancestors hw hc) hsub).length_le
  rw [List.length_cons, List.length_map] at hle
  exact hle

/-! ### Classes by name -/

theorem mem_infos {cs rest : List ClassDecl} {tag : Nat} {i : ClassInfo}
    (h : i ∈ infos cs tag rest) :
    ∃ c ∈ rest, ∃ k, tag ≤ k ∧ k < tag + rest.length ∧ i = c.info cs k := by
  induction rest generalizing tag with
  | nil => cases h
  | cons c rest ih =>
    rcases List.mem_cons.mp h with rfl | h
    · exact ⟨c, by simp, tag, Nat.le_refl _, by simp, rfl⟩
    · obtain ⟨d, hd, k, hle, hlt, rfl⟩ := ih h
      exact ⟨d, by simp [hd], k, by omega, by simp only [List.length_cons]; omega, rfl⟩

theorem infos_find? (cs : List ClassDecl) {rest : List ClassDecl} (tag : Nat) {name : Bytes}
    {c : ClassDecl} (h : declOf rest name = some c) :
    ∃ k, tag ≤ k ∧ k < tag + rest.length ∧
      (infos cs tag rest).find? (·.name == name) = some (c.info cs k) := by
  induction rest generalizing tag with
  | nil => cases h
  | cons d rest ih =>
    by_cases hd : d.name.name = name
    · rw [declOf, List.find?_cons_of_pos (by simpa using hd)] at h
      obtain rfl := Option.some.inj h
      refine ⟨tag, Nat.le_refl _, by simp, ?_⟩
      rw [infos, List.find?_cons_of_pos (by simpa [ClassDecl.info] using hd)]
    · rw [declOf, List.find?_cons_of_neg (by simpa using hd)] at h
      obtain ⟨k, hle, hlt, hfind⟩ := ih (tag + 1) h
      refine ⟨k, by omega, by simp only [List.length_cons]; omega, ?_⟩
      rw [infos, List.find?_cons_of_neg (by simpa [ClassDecl.info] using hd), hfind]

/-- The class of a declared name is what its declaration means. -/
theorem tableOf_find? (hw : WellDeclared m cs) {name : Bytes} {c : ClassDecl}
    (h : declOf cs name = some c) :
    ∃ k, 1 ≤ k ∧ k ≤ cs.length ∧ (tableOf m cs).find? name = some (c.info cs k) := by
  obtain ⟨hc, rfl⟩ := declOf_eq_some h
  obtain ⟨k, hle, hlt, hfind⟩ := infos_find? cs 1 h
  have hne : m.name.name ≠ c.name.name := fun heq =>
    (List.nodup_cons.mp hw.names).1 (heq ▸ List.mem_map_of_mem hc)
  refine ⟨k, hle, by omega, ?_⟩
  rw [ClassTable.find?, tableOf, Option.toList_some, List.singleton_append,
    List.find?_cons_of_neg (by simpa [MainClass.info] using hne), hfind]

/-- What is found by a name is the entry class or what a declaration means. -/
theorem find?_cases {name : Bytes} {i : ClassInfo}
    (h : (tableOf m cs).find? name = some i) :
    i.name = name ∧ (i = m.info ∨
      ∃ c ∈ cs, ∃ k, 1 ≤ k ∧ k ≤ cs.length ∧ i = c.info cs k) := by
  refine ⟨by simpa using List.find?_some h, ?_⟩
  rcases List.mem_append.mp (List.mem_of_find?_eq_some h) with hentry | hclass
  · exact .inl (by simpa [tableOf] using hentry)
  · obtain ⟨c, hc, k, hle, hlt, hi⟩ := mem_infos hclass
    exact .inr ⟨c, hc, k, hle, by omega, hi⟩

/-! ### Lineages -/

/-- The declarations of a class and of its ancestors, nearest first. -/
def lineage (cs : List ClassDecl) (c : ClassDecl) : List ClassDecl :=
  c :: (ancestorsOf cs c.name.name).filterMap (declOf cs)

theorem mem_of_mem_lineage {c d : ClassDecl} (hc : c ∈ cs) (hd : d ∈ lineage cs c) : d ∈ cs := by
  rcases List.mem_cons.mp hd with rfl | hd
  · exact hc
  · obtain ⟨x, -, hx⟩ := List.mem_filterMap.mp hd
    exact (declOf_eq_some hx).1

theorem declOf_of_mem (hw : WellDeclared m cs) {c : ClassDecl} (hc : c ∈ cs) :
    declOf cs c.name.name = some c :=
  find?_of_mem (List.nodup_cons.mp hw.names).2 hc

theorem map_name_lineage (hw : WellDeclared m cs) (c : ClassDecl) :
    (lineage cs c).map (·.name.name) = c.name.name :: ancestorsOf cs c.name.name := by
  have hall : ∀ x ∈ ancestorsOf cs c.name.name, ∃ d, declOf cs x = some d :=
    fun x hx => declared_of_mem_ancestors hw hx
  rw [lineage, List.map_cons]
  generalize ancestorsOf cs c.name.name = l at hall
  congr 1
  induction l with
  | nil => rfl
  | cons x l ih =>
    rw [List.forall_mem_cons] at hall
    obtain ⟨d, hd⟩ := hall.1
    rw [List.filterMap_cons_some hd, List.map_cons, ih hall.2, (declOf_eq_some hd).2]

/-- The lineage of an ancestor is the end of that of its descendant. -/
theorem lineage_split (hw : WellDeclared m cs) {c d : ClassDecl} (hc : c ∈ cs)
    (hd : d ∈ lineage cs c) : ∃ front, lineage cs c = front ++ lineage cs d := by
  rcases List.mem_cons.mp hd with rfl | hd
  · exact ⟨[], rfl⟩
  · obtain ⟨x, hx, hdecl⟩ := List.mem_filterMap.mp hd
    obtain ⟨hmem, rfl⟩ := declOf_eq_some hdecl
    obtain ⟨l, hl⟩ := Option.isSome_iff_exists.mp (hw.acyclic c hc)
    have hancestors : ancestorsOf cs c.name.name = l := by rw [ancestorsOf, hl, Option.getD_some]
    obtain ⟨front, k, l', hsplit, hl'⟩ := ancestorsWithin_split hl (hancestors ▸ hx)
    obtain ⟨l'', hl''⟩ := Option.isSome_iff_exists.mp (hw.acyclic d hmem)
    have hancestors' : ancestorsOf cs d.name.name = l' := by
      rw [ancestorsOf, hl'', Option.getD_some]
      exact ancestorsWithin_unique hl'' hl'
    refine ⟨c :: front.filterMap (declOf cs), ?_⟩
    rw [lineage, lineage, hancestors, hancestors', hsplit, List.filterMap_append,
      List.filterMap_cons_some hdecl, List.cons_append]

/-- The chain of a class in the table follows its lineage. -/
theorem chain_spec (hw : WellDeclared m cs) {c : ClassDecl} (k : Nat) :
    List.Forall₂ (fun i d => ∃ k, i = ClassDecl.info cs k d) ((tableOf m cs).chain (c.info cs k))
      (lineage cs c) := by
  refine .cons ⟨k, rfl⟩ ?_
  have hall : ∀ x ∈ ancestorsOf cs c.name.name, ∃ d, declOf cs x = some d :=
    fun x hx => declared_of_mem_ancestors hw hx
  show List.Forall₂ _ ((ancestorsOf cs c.name.name).filterMap _)
    ((ancestorsOf cs c.name.name).filterMap _)
  generalize ancestorsOf cs c.name.name = l at hall
  induction l with
  | nil => exact .nil
  | cons x l ih =>
    rw [List.forall_mem_cons] at hall
    obtain ⟨d, hd⟩ := hall.1
    obtain ⟨k, -, -, hfind⟩ := tableOf_find? hw hd
    rw [List.filterMap_cons_some hfind, List.filterMap_cons_some hd]
    exact .cons ⟨k, rfl⟩ (ih hall.2)

theorem findSome?_forall₂ {α β γ : Type} {R : α → β → Prop} {f : α → Option γ} {g : β → Option γ}
    (hfg : ∀ a b, R a b → f a = g b) {as : List α} {bs : List β} (h : List.Forall₂ R as bs) :
    as.findSome? f = bs.findSome? g := by
  induction h with
  | nil => rfl
  | cons hab _ ih => simp only [List.findSome?_cons, hfg _ _ hab, ih]

/-- The method of the given name that a class itself declares. -/
def ClassDecl.method? (c : ClassDecl) (name : Bytes) : Option MethodDecl :=
  c.methods.find? (·.name.name == name)

theorem info_ownMethod? (cs : List ClassDecl) (k : Nat) (c : ClassDecl) (name : Bytes) :
    (c.info cs k).ownMethod? name = (c.method? name).map (·.info c.name.name) := by
  simp only [ClassInfo.ownMethod?, ClassDecl.info, ClassDecl.method?, List.find?_map]
  rfl

/-- A declared method is found in its class. -/
theorem ownMethod?_of_mem (hw : WellDeclared m cs) {c : ClassDecl} (hc : c ∈ cs) {d : MethodDecl}
    (hd : d ∈ c.methods) (k : Nat) :
    (c.info cs k).ownMethod? d.name.name = some (d.info c.name.name) := by
  rw [info_ownMethod?, ClassDecl.method?, find?_of_mem (hw.methodNames c hc) hd, Option.map_some]

/-- A method that is looked up is the first that is declared along the lineage. -/
theorem method?_eq (hw : WellDeclared m cs) (c : ClassDecl) (k : Nat) (name : Bytes) :
    (tableOf m cs).method? (c.info cs k) name =
      (lineage cs c).findSome? fun d => (d.method? name).map (·.info d.name.name) := by
  refine findSome?_forall₂ ?_ (chain_spec hw k)
  rintro i d ⟨k, rfl⟩
  exact info_ownMethod? cs k d name

theorem method?_spec (hw : WellDeclared m cs) {c : ClassDecl} (hc : c ∈ cs) {k : Nat}
    {name : Bytes} {target : Method}
    (h : (tableOf m cs).method? (c.info cs k) name = some target) :
    ∃ d ∈ cs, ∃ decl ∈ d.methods, decl.name.name = name ∧ target = decl.info d.name.name := by
  rw [method?_eq hw] at h
  obtain ⟨d, hd, hfound⟩ := List.exists_of_findSome?_eq_some h
  obtain ⟨decl, hdecl, rfl⟩ := Option.map_eq_some_iff.mp hfound
  exact ⟨d, mem_of_mem_lineage hc hd, decl, List.mem_of_find?_eq_some hdecl,
    by simpa using List.find?_some hdecl, rfl⟩

/-- The entry class has no method but `main`. -/
theorem eq_mainName_of_method? {x : Bytes} {target : Method}
    (h : (tableOf m cs).method? m.info x = some target) : x = ClassTable.mainName := by
  have hown : m.info.ownMethod? x = some target := by
    simpa [ClassTable.method?, ClassTable.chain, MainClass.info] using h
  obtain rfl := List.mem_singleton.mp (List.mem_of_find?_eq_some hown)
  have hname := List.find?_some hown
  exact (eq_of_beq hname).symm

/-! ### Fields -/

theorem length_slots (role : Role) (index : Nat) (ds : List VarDecl) :
    (slots role index ds).length = ds.length := by
  induction ds generalizing index with
  | nil => rfl
  | cons d ds ih => simp [slots, ih]

theorem mem_slots {role : Role} {index : Nat} {ds : List VarDecl} {v : Variable}
    (h : v ∈ slots role index ds) :
    v.role = role ∧ index ≤ v.index ∧ v.index < index + ds.length := by
  induction ds generalizing index with
  | nil => cases h
  | cons d ds ih =>
    rcases List.mem_cons.mp h with rfl | h
    · exact ⟨rfl, Nat.le_refl _, by simp⟩
    · obtain ⟨hrole, hle, hlt⟩ := ih h
      exact ⟨hrole, by omega, by simp only [List.length_cons]; omega⟩

theorem declaredFields_cons (cs : List ClassDecl) (x : Bytes) (names : List Bytes) :
    declaredFields cs (x :: names) =
      (((declOf cs x).map (·.fields)).getD []).length + declaredFields cs names := by
  simp [declaredFields, declOf]

theorem declaredFields_perm {cs : List ClassDecl} {xs ys : List Bytes} (h : xs.Perm ys) :
    declaredFields cs xs = declaredFields cs ys := by
  induction h with
  | nil => rfl
  | cons x _ ih => rw [declaredFields_cons, declaredFields_cons, ih]
  | swap x y l => simp only [declaredFields_cons]; omega
  | trans _ _ ih ih' => exact ih.trans ih'

/-- A class that is not asked for does not count. -/
theorem declaredFields_of_not_mem {d : ClassDecl} {cs : List ClassDecl} {names : List Bytes}
    (h : d.name.name ∉ names) : declaredFields (d :: cs) names = declaredFields cs names := by
  induction names with
  | nil => rfl
  | cons x names ih =>
    rw [List.mem_cons, not_or] at h
    rw [declaredFields_cons, declaredFields_cons, ih h.2, declOf, declOf,
      List.find?_cons_of_neg (by simpa using h.1)]

/-- Different classes declare no more fields than there are. -/
theorem declaredFields_le (cs : List ClassDecl) {names : List Bytes} (h : names.Nodup) :
    declaredFields cs names ≤ (cs.flatMap (·.fields)).length := by
  induction cs generalizing names with
  | nil => simp [declaredFields]
  | cons d cs ih =>
    rw [List.flatMap_cons, List.length_append]
    by_cases hd : d.name.name ∈ names
    · rw [declaredFields_perm (List.perm_cons_erase hd), declaredFields_cons,
        declaredFields_of_not_mem (h.not_mem_erase), declOf, List.find?_cons_of_pos (by simp)]
      have hrest := ih (h.erase d.name.name)
      simp only [Option.map_some, Option.getD_some]
      omega
    · rw [declaredFields_of_not_mem hd]
      have hrest := ih h
      omega

/-- The fields of a class and of its ancestors, counted. -/
theorem declaredFields_lineage {c : ClassDecl} (hw : WellDeclared m cs) (hc : c ∈ cs) :
    declaredFields cs (ancestorsOf cs c.name.name) + c.fields.length ≤
      (cs.flatMap (·.fields)).length := by
  have hle := declaredFields_le cs (nodup_ancestors hw hc)
  have hself : declOf cs c.name.name = some c := find?_of_mem (List.nodup_cons.mp hw.names).2 hc
  rw [declaredFields_cons, hself] at hle
  simp only [Option.map_some, Option.getD_some] at hle
  omega

/-- A field that is looked up is a slot among those of all classes. -/
theorem field?_spec (hw : WellDeclared m cs) {c : ClassDecl} (hc : c ∈ cs) {k : Nat}
    {name : Bytes} {v : Variable} (h : (tableOf m cs).field? (c.info cs k) name = some v) :
    v.role = .field ∧ v.index < (cs.flatMap (·.fields)).length := by
  obtain ⟨i, hi, hfound⟩ := List.exists_of_findSome?_eq_some h
  obtain ⟨d, hd, k', rfl⟩ : ∃ d ∈ lineage cs c, ∃ k, i = d.info cs k := by
    have hchain := chain_spec hw (c := c) k
    obtain ⟨n, hn, rfl⟩ := List.mem_iff_getElem.mp hi
    have hn' : n < (lineage cs c).length := hchain.length_eq ▸ hn
    exact ⟨(lineage cs c)[n], List.getElem_mem hn', hchain.get hn hn'⟩
  have hmem := List.mem_of_find?_eq_some hfound
  obtain ⟨hrole, -, hlt⟩ := mem_slots hmem
  have hbound := declaredFields_lineage hw (mem_of_mem_lineage hc hd)
  exact ⟨hrole, by omega⟩

theorem length_flatMap_fields {chain : List ClassInfo} {ds : List ClassDecl}
    (h : List.Forall₂ (fun i d => ∃ k, i = ClassDecl.info cs k d) chain ds) :
    (chain.flatMap (·.fields)).length = (ds.flatMap (·.fields)).length := by
  induction h with
  | nil => rfl
  | cons hid _ ih =>
    obtain ⟨k, rfl⟩ := hid
    simp only [List.flatMap_cons, List.length_append, ih, ClassDecl.info, length_slots]

theorem declaredFields_eq (cs : List ClassDecl) (names : List Bytes) :
    declaredFields cs names = ((names.filterMap (declOf cs)).flatMap (·.fields)).length := by
  induction names with
  | nil => rfl
  | cons x names ih =>
    rw [declaredFields_cons, ih]
    cases hx : declOf cs x with
    | none => simp [hx]
    | some d => simp [hx]

/-- An object has a slot for each field of its class and of the ancestors of that. -/
theorem fieldCount_eq (hw : WellDeclared m cs) {c : ClassDecl} (k : Nat) :
    (tableOf m cs).fieldCount (c.info cs k) =
      declaredFields cs (ancestorsOf cs c.name.name) + c.fields.length := by
  rw [ClassTable.fieldCount, length_flatMap_fields (chain_spec hw k), lineage, List.flatMap_cons,
    List.length_append, Nat.add_comm, declaredFields_eq]

theorem fieldCount_le (hw : WellDeclared m cs) {c : ClassDecl} (hc : c ∈ cs) (k : Nat) :
    (tableOf m cs).fieldCount (c.info cs k) ≤ (cs.flatMap (·.fields)).length := by
  rw [fieldCount_eq hw]
  exact declaredFields_lineage hw hc

end Table

end MiniJava
