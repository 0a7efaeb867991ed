import MiniJava.Proofs.ClassTable.Family
import MiniJava.Proofs.Machine.View
import MiniJava.Proofs.Simulation.Values

/-!
# The heap as words

How objects and arrays are kept in the heap: one after another, in the order in which they were
allocated.

* **`cellWords`**, **`heapWords`** — the words of a cell and of all cells.
* **`getElem?_heapWords`**, **`heapWords_replaceAt`** — the words of a cell that is referred to.
* **`Shows`** — a view shows a world.
* **`Shows.field`**, **`Shows.setField`**, **`Shows.element`**, **`Shows.setElement`** — fields and
  elements.
-/

namespace MiniJava.Simulation

open ClassTable Machine Semantics

/-! ### Words of cells -/

section Words

variable (t : ClassTable) (cs : List ClassDecl)

/-- The words of a cell: an object has its tag, its size and a zero in front of its fields, an
array its length in front of its elements. -/
def cellWords : Cell → List UInt32
  | .object c fields =>
      UInt32.ofInt (((t.find? c).map (·.tag)).getD 0) ::
        UInt32.ofInt (4 * (3 + (fieldsOf cs c).length)) :: 0 ::
        (fieldsOf cs c).map fun field => word (fields field.1)
  | .array elements => UInt32.ofNat elements.length :: elements.map Int32.toUInt32

/-- The words of cells. -/
def heapWords (cells : List Cell) : List UInt32 := cells.flatMap (cellWords t cs)

theorem length_cellWords (cell : Cell) : (cellWords t cs cell).length = cell.words cs := by
  cases cell with
  | object c fields =>
    simp only [cellWords, List.length_cons, List.length_map, Cell.words]
    omega
  | array elements =>
    simp only [cellWords, List.length_cons, List.length_map, Cell.words]
    omega

/-- The words of an object all of whose fields are kept as zeros. -/
theorem cellWords_zeros {c : Bytes} {fields : Key → Value} (h : ∀ key, word (fields key) = 0) :
    cellWords t cs (.object c fields) =
      UInt32.ofInt (((t.find? c).map (·.tag)).getD 0) ::
        UInt32.ofInt (4 * (3 + (fieldsOf cs c).length)) :: 0 ::
        List.replicate (fieldsOf cs c).length 0 := by
  have hfields : (fieldsOf cs c).map (fun field => word (fields field.1)) =
      List.replicate (fieldsOf cs c).length 0 := by
    rw [List.eq_replicate_iff, List.length_map]
    refine ⟨rfl, ?_⟩
    intro u hu
    obtain ⟨field, -, rfl⟩ := List.mem_map.mp hu
    exact h field.1
  rw [cellWords, hfields]

theorem length_heapWords (cells : List Cell) : (heapWords t cs cells).length = wordsOf cs cells := by
  induction cells with
  | nil => rfl
  | cons cell cells ih =>
    rw [heapWords, List.flatMap_cons, List.length_append, length_cellWords, wordsOf, ← ih]
    rfl

theorem heapWords_append (a b : List Cell) :
    heapWords t cs (a ++ b) = heapWords t cs a ++ heapWords t cs b := List.flatMap_append

theorem heapWords_split (front back : List Cell) (cell : Cell) :
    heapWords t cs (front ++ cell :: back) =
      heapWords t cs front ++ (cellWords t cs cell ++ heapWords t cs back) := by
  rw [heapWords_append]
  rfl

end Words

/-! ### Cells that are referred to -/

/-- The cell that a reference refers to stands after the words in front of it. -/
theorem cellAt?_split {cs : List ClassDecl} {cells : List Cell} {r : Nat} {cell : Cell}
    (h : cellAt? cs cells r = some cell) :
    ∃ front back, cells = front ++ cell :: back ∧ wordsOf cs front = r ∧
      ∀ new, replaceAt cs new cells r = front ++ new :: back := by
  induction cells generalizing r with
  | nil => cases h
  | cons first cells ih =>
    rw [cellAt?] at h
    by_cases hzero : r = 0
    · subst hzero
      rw [if_pos rfl] at h
      obtain rfl := Option.some.inj h
      exact ⟨[], cells, rfl, rfl, fun new => by rw [replaceAt, if_pos rfl]; rfl⟩
    · rw [if_neg hzero] at h
      by_cases hle : first.words cs ≤ r
      · rw [if_pos hle] at h
        obtain ⟨front, back, rfl, hwords, hreplace⟩ := ih h
        refine ⟨first :: front, back, rfl, ?_, ?_⟩
        · rw [wordsOf, hwords]
          omega
        · intro new
          rw [replaceAt, if_neg hzero, if_pos hle, hreplace]
          rfl
      · rw [if_neg hle] at h
        cases h

section Cells

variable {t : ClassTable} {cs : List ClassDecl} {cells : List Cell} {r i : Nat} {cell : Cell}

theorem getElem?_heapWords (h : cellAt? cs cells r = some cell) {u : UInt32}
    (hu : (cellWords t cs cell)[i]? = some u) : (heapWords t cs cells)[r + i]? = some u := by
  obtain ⟨front, back, rfl, rfl, -⟩ := cellAt?_split h
  have hlt : i < (cellWords t cs cell).length := (List.getElem?_eq_some_iff.mp hu).1
  rw [heapWords_split, ← length_heapWords t, List.getElem?_append_right (Nat.le_add_right _ _),
    Nat.add_sub_cancel_left, List.getElem?_append_left hlt]
  exact hu

theorem lt_of_cellAt? (h : cellAt? cs cells r = some cell) (hi : i < cell.words cs) :
    r + i < (heapWords t cs cells).length := by
  rw [← length_cellWords t] at hi
  have hword := getElem?_heapWords (t := t) h (List.getElem?_eq_getElem hi)
  exact (List.getElem?_eq_some_iff.mp hword).1

/-- A cell with one word changed takes the place of another. -/
theorem heapWords_replaceAt (h : cellAt? cs cells r = some cell) {new : Cell} {u : UInt32}
    (hi : i < cell.words cs) (hnew : cellWords t cs new = (cellWords t cs cell).set i u) :
    heapWords t cs (replaceAt cs new cells r) = (heapWords t cs cells).set (r + i) u := by
  obtain ⟨front, back, rfl, rfl, hreplace⟩ := cellAt?_split h
  rw [← length_cellWords t] at hi
  rw [hreplace, heapWords_split, heapWords_split, hnew, ← length_heapWords t,
    List.set_append_right _ _ (Nat.le_add_right _ _), Nat.add_sub_cancel_left,
    List.set_append_left _ _ hi]

end Cells

/-! ### Worlds -/

/-- The view shows what was allocated and printed. -/
structure Shows (t : ClassTable) (cs : List ClassDecl) (w : World) (V : View) : Prop where
  heap : V.heap = heapWords t cs w.heap
  out : V.out = w.output

namespace Shows

variable {m : MainClass} {cs : List ClassDecl} {t : ClassTable} {w : World} {V V' : View}

theorem congr (h : Shows t cs w V) (hheap : V'.heap = V.heap) (hout : V'.out = V.out) :
    Shows t cs w V' :=
  ⟨hheap.trans h.heap, hout.trans h.out⟩

theorem length_heap (h : Shows t cs w V) : V.heap.length = wordsOf cs w.heap := by
  rw [h.heap, length_heapWords]

/-- The words of an object's fields come after its header. -/
theorem field (hw : WellDeclared m cs) (h : Shows t cs w V) {r : Nat} {c : Bytes}
    {fields : Key → Value} (hcell : cellAt? cs w.heap r = some (.object c fields)) {key : Key}
    (hkey : key ∈ (fieldsOf cs c).map (·.1)) {i : Nat} (hslot : Slot cs key i) :
    V.heap[r + (3 + i)]? = some (word (fields key)) := by
  obtain ⟨type, hfield⟩ := getElem?_fieldsOf hw hslot hkey
  rw [h.heap]
  refine getElem?_heapWords hcell ?_
  rw [Nat.add_comm 3]
  simp only [cellWords, List.getElem?_cons_succ, List.getElem?_map, hfield, Option.map_some]

/-- A field is changed. -/
theorem setField (hw : WellDeclared m cs) (h : Shows t cs w V) {r : Nat} {c : Bytes}
    {fields : Key → Value} (hcell : cellAt? cs w.heap r = some (.object c fields)) {key : Key}
    (hkey : key ∈ (fieldsOf cs c).map (·.1)) {i : Nat} (hslot : Slot cs key i) (v : Value) :
    r + (3 + i) < V.heap.length ∧
      Shows t cs
        { w with
          heap := replaceAt cs (.object c fun k => if k = key then v else fields k) w.heap r }
        (V.setHeap (r + (3 + i)) (word v)) := by
  obtain ⟨type, hfield⟩ := getElem?_fieldsOf hw hslot hkey
  have hlt : i < (fieldsOf cs c).length := (List.getElem?_eq_some_iff.mp hfield).1
  have hwords : 3 + i < (Cell.object c fields).words cs := Nat.add_lt_add_left hlt 3
  have hnew : cellWords t cs (.object c fun k => if k = key then v else fields k) =
      (cellWords t cs (.object c fields)).set (3 + i) (word v) := by
    rw [Nat.add_comm 3]
    simp only [cellWords, List.set_cons_succ]
    congr 3
    apply List.ext_getElem?
    intro j
    rw [List.getElem?_map]
    by_cases hj : i = j
    · subst hj
      rw [List.getElem?_set_self (by simpa using hlt), hfield, Option.map_some, if_pos rfl]
    · rw [List.getElem?_set_ne hj, List.getElem?_map]
      -- another field has another key
      cases hother : (fieldsOf cs c)[j]? with
      | none => rfl
      | some other =>
        have hne : other.1 ≠ key := by
          rintro rfl
          have hnodup := nodup_fieldsOf hw c
          refine hj ((List.getElem?_inj (by simpa using hlt) hnodup).mp ?_)
          rw [List.getElem?_map, List.getElem?_map, hfield, hother]
          rfl
        rw [Option.map_some, Option.map_some, if_neg hne]
  refine ⟨?_, ?_, h.out⟩
  · rw [h.heap]
    exact lt_of_cellAt? hcell hwords
  · show V.heap.set _ _ = _
    rw [heapWords_replaceAt hcell hwords hnew, h.heap]

/-- The length of an array comes first. -/
theorem length (h : Shows t cs w V) {r : Nat} {elements : List Int32}
    (hcell : cellAt? cs w.heap r = some (.array elements)) :
    V.heap[r]? = some (UInt32.ofNat elements.length) := by
  rw [h.heap]
  exact getElem?_heapWords (i := 0) hcell rfl

theorem length_lt (h : Shows t cs w V) {r : Nat} {elements : List Int32}
    (hcell : cellAt? cs w.heap r = some (.array elements)) :
    r + elements.length < V.heap.length := by
  rw [h.heap]
  refine lt_of_cellAt? hcell ?_
  rw [Cell.words]
  omega

/-- The elements of an array come after its length. -/
theorem element (h : Shows t cs w V) {r : Nat} {elements : List Int32}
    (hcell : cellAt? cs w.heap r = some (.array elements)) {i : Nat} {n : Int32}
    (hi : elements[i]? = some n) : V.heap[r + (i + 1)]? = some n.toUInt32 := by
  rw [h.heap]
  refine getElem?_heapWords hcell ?_
  simp only [cellWords, List.getElem?_cons_succ, List.getElem?_map, hi, Option.map_some]

/-- An element is changed. -/
theorem setElement (h : Shows t cs w V) {r : Nat} {elements : List Int32}
    (hcell : cellAt? cs w.heap r = some (.array elements)) {i : Nat} (hi : i < elements.length)
    (n : Int32) :
    r + (i + 1) < V.heap.length ∧
      Shows t cs { w with heap := replaceAt cs (.array (elements.set i n)) w.heap r }
        (V.setHeap (r + (i + 1)) n.toUInt32) := by
  have hwords : i + 1 < (Cell.array elements).words cs := by
    rw [Cell.words]
    omega
  have hnew : cellWords t cs (.array (elements.set i n)) =
      (cellWords t cs (.array elements)).set (i + 1) n.toUInt32 := by
    simp only [cellWords, List.set_cons_succ, List.length_set, List.map_set]
  refine ⟨?_, ?_, h.out⟩
  · rw [h.heap]
    exact lt_of_cellAt? hcell hwords
  · show V.heap.set _ _ = _
    rw [heapWords_replaceAt hcell hwords hnew, h.heap]

/-- A cell is allocated. -/
theorem allocate (h : Shows t cs w V) (cell : Cell) :
    Shows t cs { w with heap := w.heap ++ [cell] }
      { V with heap := V.heap ++ cellWords t cs cell } := by
  refine ⟨?_, h.out⟩
  show V.heap ++ _ = _
  rw [heapWords_append, h.heap]
  show _ = _ ++ (cellWords t cs cell ++ [])
  rw [List.append_nil]

end Shows

end MiniJava.Simulation
