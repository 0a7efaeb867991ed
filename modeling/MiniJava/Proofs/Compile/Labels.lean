import Mathlib.Data.List.Infix
import MiniJava.Proofs.Assembly.Image
import MiniJava.Proofs.Compile.Lines
import MiniJava.Proofs.Token.Scan

/-!
# Labels

The labels of compiled code are of three sorts: numbered ones, those of methods, and those of the
support routines.  No label is of two sorts, whatever the names in a program are.

* **`isLabel_labelText`**, **`labelText_injective`** — numbered labels.
* **`isLabel_entryLabel`** — labels of methods.
* **`labelText_ne_entryLabel`**, **`entryLabel_not_fixed`**, **`labelText_not_fixed`** — the sorts
  are apart.
-/

namespace MiniJava

open Gen

/-! ### Numbered labels -/

theorem labelText_eq (n : Nat) :
    labelText n = '$'.toUInt8 :: 'L'.toUInt8 :: natural n := rfl

/-- What starts with `$L` is no register. -/
theorem read?_labelText (n : Nat) : Reg.read? (labelText n) = none := by
  have hnamed : Reg.named? ('L'.toUInt8 :: natural n) = none := by
    rw [Reg.named?, List.find?_eq_none.mpr, Option.map_none]
    intro entry hentry heq
    have hnames : ∀ entry ∈ Reg.names, (utf8 entry.1).head? ≠ some 'L'.toUInt8 := by
      decide +kernel
    refine hnames entry hentry ?_
    rw [eq_of_beq heq]
    rfl
  have hplain : Integer.plain? ('L'.toUInt8 :: natural n) = none := rfl
  rw [labelText_eq, Reg.read?, if_pos (by decide), hnamed, hplain]
  rfl

theorem isLabel_labelText (n : Nat) : isLabel (labelText n) := by
  have hbytes : ∀ c ∈ labelText n, isLabelByte c := by
    intro c hc
    rw [labelText_eq] at hc
    rcases List.mem_cons.mp hc with rfl | hc
    · decide
    · rcases List.mem_cons.mp hc with rfl | hc
      · decide
      · simp [isLabelByte, isDigit_of_mem_natural hc]
  have hread := read?_labelText n
  rw [labelText_eq] at hbytes hread ⊢
  rw [isLabel, hread, List.all_eq_true.mpr hbytes]
  rfl

theorem labelText_injective {m n : Nat} (h : labelText m = labelText n) : m = n := by
  rw [labelText_eq, labelText_eq] at h
  exact natural_injective (List.cons.inj (List.cons.inj h).2).2

theorem short_labelText {n : Nat} (h : n < 1000000000) : Short (labelText n) := by
  have hlength := length_natural_le (k := 8) h
  rw [Short, labelText_eq, List.length_cons, List.length_cons]
  omega

/-! ### Labels of methods -/

theorem isLabelByte_of_isWordPart {c : UInt8} (h : isWordPart c) : isLabelByte c := by
  simp only [isWordPart, isWordStart, Bool.or_eq_true] at h
  simp only [isLabelByte, Bool.or_eq_true]
  tauto

theorem isWordStart_spec : ∀ c : UInt8, isWordStart c → isDigit c = false ∧ c ≠ '$'.toUInt8 := by
  refine forall_byte ?_
  decide +kernel

/-- The label of a method starts like a word. -/
theorem head?_entryLabel {c : Bytes} (hc : IsWord c) (m : Bytes) :
    ∃ a ∈ (entryLabel c m).head?, isWordStart a := by
  obtain ⟨⟨a, ha, hstart⟩, -⟩ := hc
  refine ⟨a, ?_, hstart⟩
  obtain ⟨rest, rfl⟩ := List.head?_eq_some_iff.mp ha
  rfl

theorem isLabel_entryLabel {c m : Bytes} (hc : IsWord c) (hm : IsWord m) :
    isLabel (entryLabel c m) := by
  have hbytes : ∀ a ∈ entryLabel c m, isLabelByte a := by
    unfold entryLabel
    simp only [List.forall_mem_append]
    exact ⟨⟨⟨fun a ha => isLabelByte_of_isWordPart (hc.2 a ha), List.all_eq_true.mp (by decide)⟩,
      fun a ha => isLabelByte_of_isWordPart (hm.2 a ha)⟩, List.all_eq_true.mp (by decide)⟩
  obtain ⟨a, ha, hstart⟩ := head?_entryLabel hc m
  obtain ⟨hdigit, hdollar⟩ := isWordStart_spec a hstart
  obtain ⟨rest, hrest⟩ := List.head?_eq_some_iff.mp ha
  rw [hrest] at hbytes ⊢
  have hread : Reg.read? (a :: rest) = none := by
    rw [Reg.read?, if_neg (by simpa using hdollar)]
  rw [isLabel, hread, List.all_eq_true.mpr hbytes, hdigit]
  rfl

theorem short_entryLabel {c m : Bytes} (hc : c.length < 400000) (hm : m.length < 400000) :
    Short (entryLabel c m) := by
  have hfixed : (utf8 "_").length = 1 ∧ (utf8 "_entry").length = 6 := by decide
  unfold Short entryLabel
  simp only [List.length_append]
  omega

/-! ### The sorts are apart -/

/-- The labels of `main` and of the support routines. -/
def Support.labels : List Bytes := utf8 "main" :: Code.labels Support.routines

theorem labelText_ne_entryLabel {c : Bytes} (hc : IsWord c) (m : Bytes) (n : Nat) :
    labelText n ≠ entryLabel c m := by
  intro heq
  obtain ⟨a, ha, hstart⟩ := head?_entryLabel hc m
  rw [← heq, labelText_eq] at ha
  obtain rfl := Option.some.inj ha
  exact absurd hstart (by decide)

theorem suffix_entryLabel (c m : Bytes) : utf8 "_entry" <:+ entryLabel c m :=
  List.suffix_append _ _

/-- The fixed labels are apart.  None of them ends like that of a method, and none starts with a
dollar sign. -/
theorem fixed_spec : (Support.messageNames ++ Support.labels).Nodup ∧
    ∀ l ∈ Support.messageNames ++ Support.labels,
      ¬ utf8 "_entry" <:+ l ∧ l.head? ≠ some '$'.toUInt8 := by
  decide +kernel

theorem entryLabel_not_fixed (c m : Bytes) :
    entryLabel c m ∉ Support.labels ∧ entryLabel c m ∉ Support.messageNames := by
  constructor
  · intro hmem
    exact (fixed_spec.2 _ (List.mem_append_right _ hmem)).1 (suffix_entryLabel c m)
  · intro hmem
    exact (fixed_spec.2 _ (List.mem_append_left _ hmem)).1 (suffix_entryLabel c m)

theorem labelText_not_fixed (n : Nat) :
    labelText n ∉ Support.labels ∧ labelText n ∉ Support.messageNames := by
  constructor
  · intro hmem
    exact (fixed_spec.2 _ (List.mem_append_right _ hmem)).2 rfl
  · intro hmem
    exact (fixed_spec.2 _ (List.mem_append_left _ hmem)).2 rfl

end MiniJava
