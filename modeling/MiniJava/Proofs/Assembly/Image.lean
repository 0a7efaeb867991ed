import Mathlib.Data.List.Nodup
import MiniJava.Compile.Program
import MiniJava.Proofs.Assembly.Line

/-!
# The image of code

What the assembler makes of the text of a program: the instructions in order, and for every label
the number of the instruction after it.

* **`Code.instrs`**, **`Code.labels`** — what code holds.
* **`Code.placed`** — the labels of code with the numbers they stand for; `lookup_placed`: the
  number of a label is the number of instructions in front of it.
* **`Support.loaded`** — the image after the data of a program.
* **`finish_afterCode`** — the instructions of code that was read are decoded as what was written.
* **`assemble_text`** — code with proper lines, labels of its own and no other targets than these
  assembles, and this is its image.
-/

namespace MiniJava

/-! ### What code holds -/

/-- Opcodes that go to a label: the branches, `j` and `jal`. -/
def Opcode.jumps : List Opcode := [.beq, .bne, .bgeu, .bge, .bgt, .blt, .bltz, .j, .jal]

theorem Opcode.label_mem_operands : ∀ op ∈ Opcode.jumps, .label ∈ op.operands ∧ op ≠ .la := by
  decide

/-- The label that a line defines. -/
def Line.label? : Line → Option Bytes
  | .label l => some l
  | _ => none

/-- The instruction of a line. -/
def Line.instr? : Line → Option Instr
  | .instr i _ => some i
  | _ => none

namespace Code

/-- The labels that code defines, in order. -/
def labels (c : Code) : List Bytes := c.filterMap Line.label?

/-- The instructions of code, in order. -/
def instrs (c : Code) : List Instr := c.filterMap Line.instr?

@[simp] theorem labels_nil : labels [] = [] := rfl

@[simp] theorem instrs_nil : instrs [] = [] := rfl

@[simp] theorem labels_append (a b : Code) : labels (a ++ b) = labels a ++ labels b :=
  List.filterMap_append

@[simp] theorem instrs_append (a b : Code) : instrs (a ++ b) = instrs a ++ instrs b :=
  List.filterMap_append

@[simp] theorem labels_label (l : Bytes) (c : Code) : labels (.label l :: c) = l :: labels c := rfl

@[simp] theorem labels_instr (i : Instr) (r : Bytes) (c : Code) :
    labels (.instr i r :: c) = labels c := rfl

@[simp] theorem labels_one (i : Instr) (c : Code) : labels (one i :: c) = labels c := rfl

@[simp] theorem labels_remark (n : Nat) (s : Bytes) (c : Code) :
    labels (.remark n s :: c) = labels c := rfl

@[simp] theorem labels_blank (c : Code) : labels (.blank :: c) = labels c := rfl

@[simp] theorem instrs_label (l : Bytes) (c : Code) : instrs (.label l :: c) = instrs c := rfl

@[simp] theorem instrs_instr (i : Instr) (r : Bytes) (c : Code) :
    instrs (.instr i r :: c) = i :: instrs c := rfl

@[simp] theorem instrs_one (i : Instr) (c : Code) : instrs (one i :: c) = i :: instrs c := rfl

@[simp] theorem instrs_remark (n : Nat) (s : Bytes) (c : Code) :
    instrs (.remark n s :: c) = instrs c := rfl

@[simp] theorem instrs_blank (c : Code) : instrs (.blank :: c) = instrs c := rfl

/-- The labels of code, each with the number of the instruction after it; the first instruction has
the number `k`. -/
def placed (k : Nat) : Code → List (Bytes × Int)
  | [] => []
  | .label l :: c => (l, k) :: placed k c
  | .instr _ _ :: c => placed (k + 1) c
  | _ :: c => placed k c

/-- The instructions of code with the numbers of their lines, the first of which is `n`. -/
def numbered (n : Nat) : Code → List Instr
  | [] => []
  | .instr i _ :: c => { i with line := n } :: numbered (n + 1) c
  | _ :: c => numbered (n + 1) c

/-- The instructions of code as they are kept until all labels are known. -/
def pending (n : Nat) : Code → List Assembler.Pending
  | [] => []
  | .instr i _ :: c => ⟨i.op.text, i.operandTexts 0 i.op.operands, n⟩ :: pending (n + 1) c
  | _ :: c => pending (n + 1) c

theorem map_fst_placed (k : Nat) (c : Code) : (placed k c).map (·.1) = labels c := by
  induction c generalizing k with
  | nil => rfl
  | cons l c ih =>
    cases l with
    | label l => exact congrArg (l :: ·) (ih k)
    | _ => exact ih _

theorem placed_append (k : Nat) (a b : Code) :
    placed k (a ++ b) = placed k a ++ placed (k + (instrs a).length) b := by
  induction a generalizing k with
  | nil => rfl
  | cons l a ih =>
    cases l with
    | label l => exact congrArg ((l, (k : Int)) :: ·) (ih k)
    | instr i r =>
      have hnext := ih (k + 1)
      rw [show k + 1 + (instrs a).length = k + (instrs (.instr i r :: a)).length by
        rw [instrs_instr, List.length_cons]; omega] at hnext
      exact hnext
    | _ => exact ih _

/-- The instructions of an image are those of the code but for the numbers of their lines. -/
theorem getElem?_numbered {n k : Nat} {c : Code} {i : Instr} (h : (instrs c)[k]? = some i) :
    ∃ line, (numbered n c)[k]? = some { i with line } := by
  induction c generalizing n k with
  | nil => simp at h
  | cons l c ih =>
    cases l with
    | instr j r =>
      cases k with
      | zero =>
        obtain rfl : j = i := by simpa using h
        exact ⟨n, rfl⟩
      | succ k => exact ih (n := n + 1) (by simpa using h)
    | _ => exact ih (n := n + 1) h

theorem mem_numbered {n : Nat} {c : Code} {i : Instr} (h : i ∈ numbered n c) :
    ∃ j ∈ instrs c, i = { j with line := i.line } := by
  induction c generalizing n with
  | nil => cases h
  | cons l c ih =>
    cases l with
    | instr j r =>
      rcases List.mem_cons.mp h with rfl | h
      · exact ⟨j, List.mem_cons_self .., rfl⟩
      · obtain ⟨j', hj', heq⟩ := ih h
        exact ⟨j', List.mem_cons_of_mem _ hj', heq⟩
    | _ => exact ih h

/-- Among entries with different keys, an entry is what its key is looked up as. -/
theorem lookup_of_mem {β : Type} {entries : List (Bytes × β)} {l : Bytes} {v : β}
    (hnodup : (entries.map (·.1)).Nodup) (hmem : (l, v) ∈ entries) :
    entries.lookup l = some v := by
  induction entries with
  | nil => cases hmem
  | cons entry entries ih =>
    obtain ⟨l', v'⟩ := entry
    rw [List.map_cons, List.nodup_cons] at hnodup
    rcases List.mem_cons.mp hmem with heq | hmem
    · obtain ⟨rfl, rfl⟩ := Prod.mk.inj heq
      simp
    · have hne : l ≠ l' := by
        intro heq
        exact hnodup.1 (heq ▸ List.mem_map_of_mem (f := (·.1)) hmem)
      rw [List.lookup_cons, beq_eq_false_iff_ne.mpr hne]
      exact ih hnodup.2 hmem

theorem nodup_reverse_placed {c : Code} (h : (labels c).Nodup) (k : Nat) :
    ((placed k c).reverse.map (·.1)).Nodup := by
  rw [List.map_reverse, List.nodup_reverse, map_fst_placed]
  exact h

/-- A label stands for the number of instructions in front of it. -/
theorem lookup_placed {a b : Code} {l : Bytes} (h : (labels (a ++ .label l :: b)).Nodup) (k : Nat) :
    (placed k (a ++ .label l :: b)).reverse.lookup l =
      some ((k + (instrs a).length : Nat) : Int) := by
  refine lookup_of_mem (nodup_reverse_placed h k) ?_
  rw [placed_append, placed, List.mem_reverse]
  simp

/-- Every label of code stands for something. -/
theorem isSome_lookup_placed {c : Code} {l : Bytes} (h : (labels c).Nodup) (hl : l ∈ labels c)
    (k : Nat) : ((placed k c).reverse.lookup l).isSome := by
  rw [← map_fst_placed k c, List.mem_map] at hl
  obtain ⟨⟨l, n⟩, hmem, rfl⟩ := hl
  rw [lookup_of_mem (nodup_reverse_placed h k) (List.mem_reverse.mpr hmem)]
  rfl

end Code

theorem lookup_eq_none_of_not_mem {β : Type} {entries : List (Bytes × β)} {l : Bytes}
    (h : l ∉ entries.map (·.1)) : entries.lookup l = none := by
  rw [List.lookup_eq_none_iff]
  intro entry hentry
  rw [bne_iff_ne]
  rintro rfl
  exact h (List.mem_map_of_mem hentry)

theorem isSome_lookup_of_mem {β : Type} {entries : List (Bytes × β)} {l : Bytes}
    (h : l ∈ entries.map (·.1)) : (entries.lookup l).isSome := by
  rw [Option.isSome_iff_ne_none, ne_eq, List.lookup_eq_none_iff]
  intro hall
  obtain ⟨entry, hentry, rfl⟩ := List.mem_map.mp h
  simpa using hall entry hentry

/-! ### Reading the lines of code -/

namespace Assembler

theorem steps_append (s : State) (n : Nat) (a b : List Bytes) :
    steps s n (a ++ b) = steps s n a >>= fun s => steps s (n + a.length) b := by
  induction a generalizing s n with
  | nil => rfl
  | cons line a ih =>
    simp only [List.cons_append, steps, bind, Except.bind]
    cases step s n line with
    | error e => rfl
    | ok s' =>
      simp only [ih, bind, Except.bind]
      rw [List.length_cons, show n + 1 + a.length = n + (a.length + 1) by omega]

theorem defines_after {s : State} {l : Line} {name : Bytes} (number : Nat)
    (h : l ≠ .label name) : (l.after s number).defines name = s.defines name := by
  cases l with
  | label l' =>
    have hne : name ≠ l' := fun heq => h (by rw [heq])
    simp [Line.after, State.defines, List.lookup_cons, beq_eq_false_iff_ne.mpr hne]
  | _ => rfl

/-- The state after lines of code. -/
def afterCode (s : State) (n : Nat) (c : Code) : State :=
  { s with
    textLabels := (c.placed s.code.size).reverse ++ s.textLabels
    code := s.code ++ (c.pending n).toArray }

/-- Reading the text of code does what its lines do. -/
theorem steps_write {c : Code} (hw : ∀ l ∈ c, l.Legible) {s : State} (hdata : s.inData = false)
    (hnodup : c.labels.Nodup) (hnew : ∀ l ∈ c.labels, s.defines l = false) (n : Nat) :
    steps s n (c.map Line.write) = .ok (afterCode s n c) := by
  induction c generalizing s n with
  | nil => simp [steps, afterCode, Code.placed, Code.pending]
  | cons l c ih =>
    rw [List.forall_mem_cons] at hw
    have hstep : step s n l.write = .ok (l.after s n) := by
      refine step_write hw.1 hdata (fun name hname => hnew name ?_) n
      simp [hname]
    have hdata' : (l.after s n).inData = false := by cases l <;> exact hdata
    have hlabels : (Code.labels c).Nodup := by
      cases l with
      | label l' => exact (List.nodup_cons.mp hnodup).2
      | _ => exact hnodup
    have hnew' : ∀ name ∈ Code.labels c, (l.after s n).defines name = false := by
      intro name hname
      have hne : l ≠ .label name := by
        rintro rfl
        exact (List.nodup_cons.mp hnodup).1 hname
      rw [defines_after n hne]
      refine hnew name ?_
      cases l with
      | label l' => exact List.mem_cons_of_mem _ hname
      | _ => exact hname
    rw [List.map_cons, steps, hstep]
    refine (ih hw.2 hdata' hlabels hnew' (n + 1)).trans (congrArg Except.ok ?_)
    cases l with
    | label l' => simp [afterCode, Line.after, Code.placed, Code.pending]
    | instr i r => simp [afterCode, Line.after, Code.placed, Code.pending]
    | _ => rfl

/-- Instructions are decoded as they were written, once their labels are known. -/
theorem finishCode_pending {c : Code} (hw : ∀ l ∈ c, l.Writable) {s : State}
    (htargets : ∀ i ∈ c.instrs, i.label = [] ∨ s.defines i.label) (n : Nat) :
    finishCode s (c.pending n) = .ok (c.numbered n) := by
  induction c generalizing n with
  | nil => rfl
  | cons l c ih =>
    rw [List.forall_mem_cons] at hw
    cases l with
    | instr i r =>
      rw [Code.instrs_instr, List.forall_mem_cons] at htargets
      have hlabel : (i.label.isEmpty || s.defines i.label) = true := by
        rcases htargets.1 with hnil | hdef
        · simp [hnil]
        · simp [hdef]
      have hfinish : finishInstr s ⟨i.op.text, i.operandTexts 0 i.op.operands, n⟩ =
          .ok { i with line := n } := by
        simp only [finishInstr, decode_operandTexts hw.1.1, hlabel, if_true]
      simp only [Code.pending, Code.numbered, finishCode, hfinish, ih hw.2 htargets.2, bind,
        Except.bind, pure, Except.pure]
    | _ => exact ih hw.2 htargets (n + 1)

/-- The image of code that was read after data: the labels that its instructions name must be its
own or those of the data. -/
theorem finish_afterCode {c : Code} (hw : ∀ l ∈ c, l.Writable) (hnodup : c.labels.Nodup)
    (hmain : entryName ∈ c.labels) {s : State} (htext : s.textLabels = []) (hcode : s.code = #[])
    (htargets : ∀ i ∈ c.instrs, i.label = [] ∨ i.label ∈ c.labels ∨
      i.label ∈ s.dataLabels.map (·.1)) (n : Nat) :
    finish (afterCode s n c) = .ok ⟨(c.numbered n).toArray, s.data, s.dataLabels,
      (c.placed 0).reverse, entryName⟩ := by
  have hlabels : (afterCode s n c).textLabels = (c.placed 0).reverse := by
    simp [afterCode, htext, hcode]
  have hpending : (afterCode s n c).code.toList = c.pending n := by
    simp [afterCode, hcode]
  have hdefined : ∀ i ∈ c.instrs, i.label = [] ∨ (afterCode s n c).defines i.label := by
    intro i hi
    apply (htargets i hi).imp id
    intro htarget
    rw [State.defines, hlabels, Bool.or_eq_true]
    rcases htarget with hlabel | hdata
    · exact .inr (Code.isSome_lookup_placed hnodup hlabel 0)
    · exact .inl (isSome_lookup_of_mem hdata)
  have hentry : ((c.placed 0).reverse.lookup entryName).isNone = false := by
    have hsome := Code.isSome_lookup_placed hnodup hmain 0
    rwa [← Option.not_isSome, Bool.not_eq_false']
  simp only [finish, hpending, finishCode_pending hw hdefined n, hlabels, hentry, bind, Except.bind]
  rfl

theorem readableLines_append_nil {lines : List Bytes} (h : ∀ l ∈ lines, l.length < lineLimit) :
    readableLines (lines ++ [[]]) = (lines, false) := by
  induction lines with
  | nil => rfl
  | cons l lines ih =>
    rw [List.forall_mem_cons] at h
    rw [List.cons_append, readableLines]
    · simp only [ih h.2]
      rw [if_neg (by omega)]
    · simp

end Assembler

/-- A text is cut into its lines. -/
theorem splitOn_lines {lines : List Bytes} (h : ∀ line ∈ lines, '\n'.toUInt8 ∉ line) :
    (lines.flatMap fun line => (line ++ "\n" : Bytes)).splitOn '\n'.toUInt8 = lines ++ [[]] := by
  induction lines with
  | nil => rfl
  | cons line lines ih =>
    rw [List.forall_mem_cons] at h
    have htext : ((line :: lines).flatMap fun line => (line ++ "\n" : Bytes)) =
        line ++ '\n'.toUInt8 :: lines.flatMap fun line => (line ++ "\n" : Bytes) := by
      simp
      rfl
    rw [htext, List.splitOn_append_cons_self_of_not_mem h.1, ih h.2]
    rfl

theorem Code.splitOn_text {c : Code} (h : ∀ l ∈ c, '\n'.toUInt8 ∉ l.write) :
    c.text.splitOn '\n'.toUInt8 = c.map Line.write ++ [[]] := by
  have hlines : ∀ line ∈ c.map Line.write, '\n'.toUInt8 ∉ line := List.forall_mem_map.mpr h
  rw [← splitOn_lines hlines, List.flatMap_map]
  rfl

/-! ### The image of a program -/

namespace Support

/-- The bytes of the messages that every program carries. -/
def messages : Bytes :=
  utf8 "\n" ++ [0] ++ utf8 "Index out of bound exception\n" ++ [0]
    ++ utf8 "Null pointer exception\n" ++ [0]

/-- The addresses of the messages. -/
def messageLabels : List (Bytes × UInt32) :=
  [(nullPointerText, dataBase + 32), (outOfBoundsText, dataBase + 2), (newline, dataBase)]

/-- The labels of the messages. -/
def messageNames : List Bytes := messageLabels.map (·.1)

/-- The image after the data of a program. -/
def loaded : Assembler.State := ⟨false, messages, messageLabels, [], #[]⟩

theorem steps_header : Assembler.steps .empty 1 (header.map Line.write) = .ok loaded := by
  decide +kernel

theorem header_spec : ∀ l ∈ header, '\n'.toUInt8 ∉ l.write ∧
    l.write.length < Assembler.lineLimit := by
  decide +kernel

end Support

/-- The image of code after the data of a program. -/
def Code.image (c : Code) : Image where
  text := (c.numbered (Support.header.length + 1)).toArray
  data := Support.messages
  dataLabels := Support.messageLabels
  textLabels := (c.placed 0).reverse
  entry := Assembler.entryName

/-- The instructions of code stand in the image, from the given number on. -/
def Image.Holds (p : Image) (k : Nat) (c : Code) : Prop :=
  ∀ j i, c.instrs[j]? = some i → ∃ line, p.text[k + j]? = some { i with line }

/-- The image of code holds each part of it. -/
theorem Code.holds_image (front body back : Code) :
    (image (front ++ body ++ back)).Holds (instrs front).length body := by
  intro j i hj
  have hwhole : (instrs (front ++ body ++ back))[(instrs front).length + j]? = some i := by
    have hlt : j < (instrs body).length := (List.getElem?_eq_some_iff.mp hj).1
    rw [instrs_append, instrs_append, List.append_assoc,
      List.getElem?_append_right (Nat.le_add_right _ _), Nat.add_sub_cancel_left,
      List.getElem?_append_left hlt]
    exact hj
  obtain ⟨line, hline⟩ := getElem?_numbered (n := Support.header.length + 1) hwhole
  exact ⟨line, by simpa [image] using hline⟩

/-- Code that can be assembled: its lines can be written, its labels are defined once, and its
instructions name no other labels than those and the messages. -/
structure Code.Assemblable (c : Code) : Prop where
  writable : ∀ l ∈ c, l.Writable
  nodup : c.labels.Nodup
  apart : ∀ l ∈ c.labels, l ∉ Support.messageNames
  targets : ∀ i ∈ c.instrs, i.label = [] ∨ i.label ∈ c.labels ∨
    i.label ∈ Support.messageNames
  main : Assembler.entryName ∈ c.labels

/-- Such code assembles, and this is its image. -/
theorem assemble_text {c : Code} (h : c.Assemblable) :
    assemble (Code.text (Support.header ++ c)) = .ok c.image := by
  have hnewline : ∀ l ∈ Support.header ++ c, '\n'.toUInt8 ∉ l.write := by
    intro l hl hmem
    rcases List.mem_append.mp hl with hl | hl
    · exact (Support.header_spec l hl).1 hmem
    · exact (isLineByte_spec _ ((h.writable l hl).legible.isLineByte _ hmem)).1 rfl
  have hshort : ∀ line ∈ (Support.header ++ c).map Line.write,
      line.length < Assembler.lineLimit := by
    intro line hline
    obtain ⟨l, hl, rfl⟩ := List.mem_map.mp hline
    rcases List.mem_append.mp hl with hl | hl
    · exact (Support.header_spec l hl).2
    · exact (h.writable l hl).length_lt
  have hnew : ∀ l ∈ c.labels, Support.loaded.defines l = false := by
    intro l hl
    rw [Assembler.State.defines, show Support.loaded.dataLabels = Support.messageLabels from rfl,
      lookup_eq_none_of_not_mem (h.apart l hl)]
    rfl
  have hsteps : Assembler.steps .empty 1 ((Support.header ++ c).map Line.write) =
      .ok (Assembler.afterCode Support.loaded (Support.header.length + 1) c) := by
    rw [List.map_append, Assembler.steps_append, Support.steps_header]
    have hcode := Assembler.steps_write (fun l hl => (h.writable l hl).legible)
      (s := Support.loaded) rfl h.nodup hnew (Support.header.length + 1)
    rw [← hcode, List.length_map, Nat.add_comm]
    rfl
  have hfinish := Assembler.finish_afterCode h.writable h.nodup h.main (s := Support.loaded) rfl rfl
    h.targets (Support.header.length + 1)
  unfold assemble
  rw [Code.splitOn_text hnewline, Assembler.readableLines_append_nil hshort]
  simp only [hsteps, bind, Except.bind, Bool.false_eq_true, if_false]
  exact hfinish

end MiniJava
